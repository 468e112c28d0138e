import MachVM.ObjectCachePorts

namespace MachVM

variable {s t : CacheState} {cs ds : List CacheCall} {c : CacheCall} {o n : ObjId} {p q : PortId}
  {internal : Bool} {size : VmSize}

theorem setPort_of_ne (s : CacheState) (x : KernPort) (h : q ≠ p) : (s.setPort p x).port q = s.port q := by
  simp only [CacheState.setPort, Function.update_of_ne h]

@[simp] theorem setPort_self (s : CacheState) (p : PortId) (x : KernPort) : (s.setPort p x).port p = x := by
  simp only [CacheState.setPort, Function.update_self]

theorem PortInv.bindPort (h : PortInv s cs) (hp : (s.port p).object = .none)
    (hle : s.nextPort ≤ t.nextPort) (hlt : p < t.nextPort) (hq : ∀ q, q ≠ p → t.port q = s.port q)
    (hpn : (t.port p).object = .pager n) (ho : ∀ y, y ≠ n → t.object y = s.object y)
    (hna : (t.object n).alive = true) (hnp : (t.object n).pager = none)
    (hnr : (t.object n).pagerRequest = none) (hsp : (s.object n).pager = none)
    (hsr : (s.object n).pagerRequest = none) (hz : cs.countP (·.enters n) = 0) :
    PortInv t (.associate n p internal :: cs) := by
  have hne : ∀ q, (s.port q).object ≠ .none → t.port q = s.port q := by
    intro q hqo
    apply hq
    rintro rfl
    exact hqo hp
  refine ⟨?_, ?_, ?_, ?_, ?_, ?_, ?_, ?_⟩
  · intro q hqt
    have hqp : q ≠ p := by
      rintro rfl
      exact Nat.not_le_of_lt hlt hqt
    rw [hq q hqp]
    exact h.fresh q (Nat.le_trans hle hqt)
  · intro x q hx hxq
    by_cases hxn : x = n
    · rw [hxn, hnp] at hxq
      cases hxq
    · rw [ho x hxn] at hx hxq
      have hold := h.pager x q hx hxq
      rw [hne q (by rw [hold]; simp), hold]
  · intro x q hx hxq
    by_cases hxn : x = n
    · rw [hxn, hnr] at hxq
      cases hxq
    · rw [ho x hxn] at hx hxq
      have hold := h.request x q hx hxq
      rw [hne q (by rw [hold]; simp), hold]
  · intro x q hqu hqx
    by_cases hqp : q = p
    · subst hqp
      rw [hpn] at hqx
      cases hqx
      exact ⟨hna, .inr ⟨.associate n q internal, List.mem_cons_self, by simp [CacheCall.opens]⟩⟩
    · rw [hq q hqp] at hqu hqx
      obtain ⟨hxa, hxe⟩ := h.named x q hqu hqx
      have hcalls : (∃ c ∈ cs, c.opens x q = true) →
          ∃ c ∈ CacheCall.associate n p internal :: cs, c.opens x q = true := by
        rintro ⟨d, hd, hdo⟩
        exact ⟨d, List.mem_cons_of_mem _ hd, hdo⟩
      by_cases hxn : x = n
      · subst hxn
        refine ⟨hna, ?_⟩
        rcases hxe with hxe | hxe
        · rw [hsp] at hxe
          cases hxe
        · exact .inr (hcalls hxe)
      · rw [ho x hxn]
        exact ⟨hxa, hxe.imp id hcalls⟩
  · intro x q hqx
    by_cases hqp : q = p
    · rw [hqp, hpn] at hqx
      cases hqx
    · rw [hq q hqp] at hqx
      obtain ⟨hxa, hxr⟩ := h.controlled x q hqx
      have hxn : x ≠ n := by
        rintro rfl
        rw [hsr] at hxr
        cases hxr
      rw [ho x hxn]
      exact ⟨hxa, hxr⟩
  · intro x hx hxc
    by_cases hxn : x = n
    · rw [hxn]
      exact ⟨hnp, hnr⟩
    · rw [ho x hxn] at hx hxc ⊢
      exact h.bare x hx hxc
  · intro d hd
    rcases List.mem_cons.mp hd with rfl | hm
    · exact ⟨hna, hnp, hnr, hpn⟩
    · have he := h.entering d hm
      have hother : ∀ x, d.enters x = true → t.object x = s.object x := by
        intro x hdx
        apply ho
        rintro rfl
        exact List.countP_eq_zero.mp hz d hm hdx
      refine he.congr hle hother ?_
      intro q x hqx
      rw [hne q (by rw [hqx]; simp), hqx]
  · intro x
    have hone := h.once x
    rw [List.countP_cons]
    by_cases hxn : x = n
    · subst hxn
      rw [hz]
      split <;> omega
    · rw [if_neg (by simp [CacheCall.enters]; exact fun he => hxn he.symm)]
      exact hone

theorem portAlloc_port_of_ne (s : CacheState) (x : PortObject) (h : q ≠ s.nextPort) :
    (s.portAlloc x).port q = s.port q := setPort_of_ne s _ h

theorem portAlloc_port_self (s : CacheState) (x : PortObject) :
    (s.portAlloc x).port s.nextPort = { object := x } := setPort_self s _ _

theorem PortInv.portAlloc {x : PortObject} (h : PortInv s cs) (hx : x = .none ∨ x = .other) :
    PortInv (s.portAlloc x) cs := by
  have hold : ∀ q, (s.port q).object ≠ .none → (s.portAlloc x).port q = s.port q := by
    intro q hq
    apply portAlloc_port_of_ne
    rintro rfl
    exact hq (h.fresh _ (Nat.le_refl _))
  have hback : ∀ q, ((s.portAlloc x).port q).object ≠ .none → ((s.portAlloc x).port q).object ≠ .other →
      (s.portAlloc x).port q = s.port q := by
    intro q h₁ h₂
    apply portAlloc_port_of_ne
    rintro rfl
    rw [portAlloc_port_self] at h₁ h₂
    rcases hx with hx | hx
    · exact h₁ hx
    · exact h₂ hx
  refine ⟨?_, ?_, ?_, ?_, ?_, h.bare, ?_, h.once⟩
  · intro q hq
    have hq' : s.nextPort + 1 ≤ q := hq
    rw [portAlloc_port_of_ne s x (Nat.ne_of_gt hq')]
    exact h.fresh q (Nat.le_of_succ_le hq')
  · intro y q hy hyq
    have := h.pager y q hy hyq
    rw [hold q (by rw [this]; simp), this]
  · intro y q hy hyq
    have := h.request y q hy hyq
    rw [hold q (by rw [this]; simp), this]
  · intro y q hu hy
    rw [hback q (by rw [hy]; simp) (by rw [hy]; simp)] at hu hy
    exact h.named y q hu hy
  · intro y q hy
    rw [hback q (by rw [hy]; simp) (by rw [hy]; simp)] at hy
    exact h.controlled y q hy
  · intro d hd
    refine (h.entering d hd).congr (Nat.le_succ _) (fun _ _ => rfl) ?_
    intro q y hq
    rw [hold q (by rw [hq]; simp), hq]

theorem associateSection_ports (h : PortInv s (.associate o p internal :: s.calls)) :
    PortInv (associateSection s o p internal) (associateSection s o p internal).calls := by
  obtain ⟨ha, hp, hr, hpo⟩ := h.entering _ List.mem_cons_self
  have hz := enters_zero h (o := o) (by simp [CacheCall.enters])
  have hpl : p < s.nextPort := by
    by_contra hle
    rw [h.fresh p (Nat.le_of_not_lt hle)] at hpo
    cases hpo
  have hnone := h.fresh s.nextPort (Nat.le_refl _)
  have hport : ∀ q, q ≠ s.nextPort → (associateSection s o p internal).port q = s.port q :=
    fun q hq => by simp [associateSection, CacheState.goOn, CacheState.portAlloc, CacheState.setPort, CacheState.modObject,
      CacheState.setObject, hq]
  have hnew : ((associateSection s o p internal).port s.nextPort).object = .pagingRequest o := by
    simp [associateSection, CacheState.goOn, CacheState.portAlloc, CacheState.setPort, CacheState.modObject, CacheState.setObject]
  have hobj : (associateSection s o p internal).object o =
      { s.object o with pagerCreated := true, pagerRequest := some s.nextPort } := by
    simp [associateSection, CacheState.goOn, CacheState.portAlloc, CacheState.setPort, CacheState.modObject, CacheState.setObject]
  have hold : ∀ y, y ≠ o → (associateSection s o p internal).object y = s.object y :=
    fun y hy => by simp [associateSection, CacheState.goOn, CacheState.portAlloc, CacheState.setPort, CacheState.modObject,
      CacheState.setObject, hy]
  have hcalls : (associateSection s o p internal).calls = .attach o p internal :: s.calls := rfl
  have hnext : (associateSection s o p internal).nextPort = s.nextPort + 1 := rfl
  have halive : ∀ y, ((associateSection s o p internal).object y).alive = (s.object y).alive := by
    intro y
    by_cases hy : y = o
    · rw [hy, hobj]
    · rw [hold y hy]
  have hpager : ∀ y, ((associateSection s o p internal).object y).pager = (s.object y).pager := by
    intro y
    by_cases hy : y = o
    · rw [hy, hobj]
    · rw [hold y hy]
  have hkeep : ∀ q, (s.port q).object ≠ .none → (associateSection s o p internal).port q = s.port q := by
    intro q hq
    apply hport
    rintro rfl
    exact hq hnone
  generalize associateSection s o p internal = t at *
  rw [hcalls]
  refine ⟨?_, ?_, ?_, ?_, ?_, ?_, ?_, ?_⟩
  · intro q hq
    rw [hnext] at hq
    rw [hport q (Nat.ne_of_gt hq)]
    exact h.fresh q (Nat.le_of_succ_le hq)
  · intro x q hx hxq
    rw [halive] at hx
    rw [hpager] at hxq
    have := h.pager x q hx hxq
    rw [hkeep q (by rw [this]; simp), this]
  · intro x q hx hxq
    rw [halive] at hx
    by_cases hxo : x = o
    · rw [hxo, hobj] at hxq
      cases Option.some.inj hxq
      rw [hxo, hnew]
    · rw [hold x hxo] at hxq
      have := h.request x q hx hxq
      rw [hkeep q (by rw [this]; simp), this]
  · intro x q hqu hqx
    have hq : q ≠ s.nextPort := by
      rintro rfl
      rw [hnew] at hqx
      cases hqx
    rw [hport q hq] at hqu hqx
    rw [halive, hpager]
    obtain ⟨hxa, hxe | ⟨d, hd, hdo⟩⟩ := h.named x q hqu hqx
    · exact ⟨hxa, .inl hxe⟩
    · refine ⟨hxa, .inr ?_⟩
      rcases List.mem_cons.mp hd with rfl | hm
      · exact ⟨.attach o p internal, List.mem_cons_self, hdo⟩
      · exact ⟨d, List.mem_cons_of_mem _ hm, hdo⟩
  · intro x q hqx
    rw [halive]
    by_cases hq : q = s.nextPort
    · rw [hq, hnew] at hqx
      cases hqx
      rw [hobj, hq]
      exact ⟨ha, rfl⟩
    · rw [hport q hq] at hqx
      obtain ⟨hxa, hxr⟩ := h.controlled x q hqx
      have hxo : x ≠ o := by
        rintro rfl
        rw [hr] at hxr
        cases hxr
      rw [hold x hxo]
      exact ⟨hxa, hxr⟩
  · intro x hx hxc
    rw [halive] at hx
    by_cases hxo : x = o
    · rw [hxo, hobj] at hxc
      cases hxc
    · rw [hold x hxo] at hxc ⊢
      exact h.bare x hx hxc
  · intro d hd
    rcases List.mem_cons.mp hd with rfl | hm
    · refine ⟨(halive o).trans ha, (hpager o).trans hp, ?_, by rw [hkeep p (by rw [hpo]; simp), hpo]⟩
      rw [hobj]
    · have he := h.entering d (List.mem_cons_of_mem _ hm)
      have hother : ∀ x, d.enters x = true → t.object x = s.object x := by
        intro x hdx
        apply hold
        rintro rfl
        exact List.countP_eq_zero.mp hz d hm hdx
      refine he.congr (by rw [hnext]; exact Nat.le_succ _) hother ?_
      intro q x hqx
      rw [hkeep q (by rw [hqx]; simp), hqx]
  · exact h.once

theorem attachSection_ports (h : PortInv s (.attach o p internal :: s.calls)) :
    PortInv (attachSection s o p internal) (attachSection s o p internal).calls := by
  obtain ⟨ha, hp, hc, hpo⟩ := h.entering _ List.mem_cons_self
  have hz := enters_zero h (o := o) (by simp [CacheCall.enters])
  have hobj : (attachSection s o p internal).object o = { s.object o with
      internal := internal, temporary := internal, pagerReady := internal, pager := some p } := by
    simp [attachSection, CacheState.goOn, CacheState.modObject, CacheState.setObject]
  have hold : ∀ y, y ≠ o → (attachSection s o p internal).object y = s.object y :=
    fun y hy => by simp [attachSection, CacheState.goOn, CacheState.modObject, CacheState.setObject, hy]
  have halive : ∀ y, ((attachSection s o p internal).object y).alive = (s.object y).alive := by
    intro y
    by_cases hy : y = o
    · rw [hy, hobj]
    · rw [hold y hy]
  have hreq : ∀ y, ((attachSection s o p internal).object y).pagerRequest = (s.object y).pagerRequest := by
    intro y
    by_cases hy : y = o
    · rw [hy, hobj]
    · rw [hold y hy]
  have hport : (attachSection s o p internal).port = s.port := rfl
  have hnext : (attachSection s o p internal).nextPort = s.nextPort := rfl
  have hcalls : (attachSection s o p internal).calls = .ready o internal :: s.calls := rfl
  generalize attachSection s o p internal = t at *
  rw [hcalls]
  refine PortInv.add ?_ (fun _ => rfl) trivial
  refine ⟨?_, ?_, ?_, ?_, ?_, ?_, ?_, ?_⟩
  · rw [hnext, hport]
    exact h.fresh
  · intro x q hx hxq
    rw [halive] at hx
    rw [hport]
    by_cases hxo : x = o
    · rw [hxo, hobj] at hxq
      cases Option.some.inj hxq
      rw [hxo, hpo]
    · rw [hold x hxo] at hxq
      exact h.pager x q hx hxq
  · intro x q
    rw [halive, hreq, hport]
    exact h.request x q
  · intro x q hqu hqx
    rw [hport] at hqu hqx
    rw [halive]
    obtain ⟨hxa, hxe⟩ := h.named x q hqu hqx
    refine ⟨hxa, ?_⟩
    by_cases hxo : x = o
    · subst hxo
      rcases hxe with hxe | ⟨d, hd, hdo⟩
      · rw [hp] at hxe
        cases hxe
      · rcases List.mem_cons.mp hd with rfl | hm
        · simp only [CacheCall.opens, decide_true, Bool.true_and, decide_eq_true_eq] at hdo
          rw [hobj, hdo]
          exact .inl rfl
        · rw [not_opens_of_zero hz hm] at hdo
          cases hdo
    · rw [hold x hxo]
      rcases hxe with hxe | ⟨d, hd, hdo⟩
      · exact .inl hxe
      · rcases List.mem_cons.mp hd with rfl | hm
        · simp only [CacheCall.opens, Bool.and_eq_true, decide_eq_true_eq] at hdo
          exact absurd hdo.1.symm hxo
        · exact .inr ⟨d, hm, hdo⟩
  · intro x q
    rw [hport, halive, hreq]
    exact h.controlled x q
  · intro x hx hxc
    rw [halive] at hx
    by_cases hxo : x = o
    · rw [hxo, hobj] at hxc
      rw [show _ = _ from hc] at hxc
      cases hxc
    · rw [hold x hxo] at hxc ⊢
      exact h.bare x hx hxc
  · intro d hm
    have he := h.entering d (List.mem_cons_of_mem _ hm)
    have hother : ∀ x, d.enters x = true → t.object x = s.object x := by
      intro x hdx
      apply hold
      rintro rfl
      exact List.countP_eq_zero.mp hz d hm hdx
    exact he.congr (Nat.le_of_eq hnext.symm) hother (fun q x hqx => by rw [hport]; exact hqx)
  · intro x
    have := h.once x
    rw [List.countP_cons] at this
    omega

end MachVM
