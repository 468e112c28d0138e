import MachVM.ObjectCacheRefs

namespace MachVM

/-- Whether a call is about to make the port the pager of the object. -/
def CacheCall.opens (o : ObjId) (p : PortId) : CacheCall → Bool
  | .associate x q _ => x = o && q = p
  | .attach x q _ => x = o && q = p
  | _ => false

/-- What a call that is entering an object finds when it goes on. -/
def Entering (s : CacheState) : CacheCall → Prop
  | .enter p _ newObject => p < s.nextPort ∧ ∀ n, newObject = some n →
      (s.object n).alive = true ∧ (s.object n).pagerCreated = false
  | .associate o p _ => (s.object o).alive = true ∧ (s.object o).pager = none ∧
      (s.object o).pagerRequest = none ∧ (s.port p).object = .pager o
  | .attach o p _ => (s.object o).alive = true ∧ (s.object o).pager = none ∧
      (s.object o).pagerCreated = true ∧ (s.port p).object = .pager o
  | _ => True

/-- Ports and objects name each other, up to the calls `cs` that are still entering an object
and up to the memory object ports that have died. -/
structure PortInv (s : CacheState) (cs : List CacheCall) : Prop where
  fresh : ∀ p, s.nextPort ≤ p → (s.port p).object = .none
  pager : ∀ o p, (s.object o).alive = true → (s.object o).pager = some p → (s.port p).object = .pager o
  request : ∀ o p, (s.object o).alive = true → (s.object o).pagerRequest = some p →
    (s.port p).object = .pagingRequest o
  named : ∀ o p, (s.port p).inUse = true → (s.port p).object = .pager o → (s.object o).alive = true ∧
    ((s.object o).pager = some p ∨ ∃ c ∈ cs, c.opens o p = true)
  controlled : ∀ o p, (s.port p).object = .pagingRequest o →
    (s.object o).alive = true ∧ (s.object o).pagerRequest = some p
  bare : ∀ o, (s.object o).alive = true → (s.object o).pagerCreated = false →
    (s.object o).pager = none ∧ (s.object o).pagerRequest = none
  entering : ∀ c ∈ cs, Entering s c
  once : ∀ o, cs.countP (·.enters o) ≤ 1

variable {s t : CacheState} {cs ds : List CacheCall} {c : CacheCall} {o n : ObjId} {p q : PortId}

theorem Entering.congr (h : Entering s c) (hn : s.nextPort ≤ t.nextPort)
    (ho : ∀ x, c.enters x = true → t.object x = s.object x)
    (hq : ∀ q x, (s.port q).object = .pager x → (t.port q).object = .pager x) : Entering t c := by
  cases c with
  | enter p _ newObject =>
    refine ⟨Nat.lt_of_lt_of_le h.1 hn, ?_⟩
    intro n hnew
    rw [ho n (by simp [CacheCall.enters, hnew])]
    exact h.2 n hnew
  | associate x p _ =>
    obtain ⟨ha, hp, hr, hxp⟩ := h
    have hx := ho x (by simp [CacheCall.enters])
    refine ⟨?_, ?_, ?_, hq p x hxp⟩ <;> rw [hx] <;> assumption
  | attach x p _ =>
    obtain ⟨ha, hp, hc, hxp⟩ := h
    have hx := ho x (by simp [CacheCall.enters])
    refine ⟨?_, ?_, ?_, hq p x hxp⟩ <;> rw [hx] <;> assumption
  | _ => trivial

theorem Entering.alive (h : Entering s c) (hc : c.enters o = true) : (s.object o).alive = true := by
  cases c with
  | enter p _ newObject => exact (h.2 o (by simpa [CacheCall.enters] using hc)).1
  | associate x p _ =>
    simp only [CacheCall.enters, decide_eq_true_eq] at hc
    exact hc ▸ h.1
  | attach x p _ =>
    simp only [CacheCall.enters, decide_eq_true_eq] at hc
    exact hc ▸ h.1
  | _ => cases hc

theorem PortInv.perm (h : PortInv s cs) (hp : cs.Perm ds) : PortInv s ds := by
  refine ⟨h.fresh, h.pager, h.request, ?_, h.controlled, h.bare, ?_, ?_⟩
  · intro o p hu ho
    obtain ⟨ha, he | ⟨c, hc, hco⟩⟩ := h.named o p hu ho
    · exact ⟨ha, .inl he⟩
    · exact ⟨ha, .inr ⟨c, hp.mem_iff.mp hc, hco⟩⟩
  · intro c hc
    exact h.entering c (hp.mem_iff.mpr hc)
  · intro o
    rw [← hp.countP_eq]
    exact h.once o

theorem PortInv.congr (h : PortInv s cs) (hn : t.nextPort = s.nextPort) (hp : t.port = s.port)
    (ha : ∀ o, (t.object o).alive = (s.object o).alive)
    (hg : ∀ o, (t.object o).pager = (s.object o).pager)
    (hr : ∀ o, (t.object o).pagerRequest = (s.object o).pagerRequest)
    (hc : ∀ o, (t.object o).pagerCreated = (s.object o).pagerCreated) : PortInv t cs := by
  refine ⟨?_, ?_, ?_, ?_, ?_, ?_, ?_, h.once⟩
  · rw [hn, hp]
    exact h.fresh
  · intro o p
    rw [ha, hg, hp]
    exact h.pager o p
  · intro o p
    rw [ha, hr, hp]
    exact h.request o p
  · intro o p
    rw [hp, ha, hg]
    exact h.named o p
  · intro o p
    rw [hp, ha, hr]
    exact h.controlled o p
  · intro o
    rw [ha, hc, hg, hr]
    exact h.bare o
  · intro c hm
    have := h.entering c hm
    cases c <;> simp only [Entering, hn, hp, ha, hg, hr, hc] at this ⊢ <;> exact this

theorem PortInv.touch (h : PortInv s cs) {f : VmObject → VmObject} (ha : ∀ x, (f x).alive = x.alive)
    (hg : ∀ x, (f x).pager = x.pager) (hr : ∀ x, (f x).pagerRequest = x.pagerRequest)
    (hc : ∀ x, (f x).pagerCreated = x.pagerCreated) : PortInv (s.modObject o f) cs := by
  have hu : ∀ y, (s.modObject o f).object y = if y = o then f (s.object o) else s.object y := by
    intro y
    simp only [CacheState.modObject, CacheState.setObject, Function.update_apply]
  refine h.congr rfl rfl ?_ ?_ ?_ ?_
  all_goals
    intro y
    rw [hu]
    split
    next hy => simp only [ha, hg, hr, hc, hy]
    next => rfl

theorem opens_enters (h : c.opens o p = true) : c.enters o = true := by
  cases c <;> simp_all [CacheCall.opens, CacheCall.enters]

theorem PortInv.drop (h : PortInv s (c :: cs)) (hc : ∀ o p, c.opens o p = false) : PortInv s cs := by
  refine ⟨h.fresh, h.pager, h.request, ?_, h.controlled, h.bare, ?_, ?_⟩
  · intro o p hu ho
    obtain ⟨ha, he | ⟨d, hd, hdo⟩⟩ := h.named o p hu ho
    · exact ⟨ha, .inl he⟩
    · refine ⟨ha, .inr ⟨d, ?_, hdo⟩⟩
      rcases List.mem_cons.mp hd with rfl | hm
      · rw [hc] at hdo
        cases hdo
      · exact hm
  · intro d hd
    exact h.entering d (List.mem_cons_of_mem c hd)
  · intro o
    have := h.once o
    rw [List.countP_cons] at this
    omega

theorem PortInv.add (h : PortInv s cs) (hc : ∀ o, c.enters o = false) (he : Entering s c) :
    PortInv s (c :: cs) := by
  refine ⟨h.fresh, h.pager, h.request, ?_, h.controlled, h.bare, ?_, ?_⟩
  · intro o p hu ho
    obtain ⟨ha, hp | ⟨d, hd, hdo⟩⟩ := h.named o p hu ho
    · exact ⟨ha, .inl hp⟩
    · exact ⟨ha, .inr ⟨d, List.mem_cons_of_mem c hd, hdo⟩⟩
  · intro d hd
    rcases List.mem_cons.mp hd with rfl | hm
    · exact he
    · exact h.entering d hm
  · intro o
    rw [List.countP_cons, hc]
    simpa using h.once o

theorem enters_zero (h : PortInv s (c :: cs)) (hc : c.enters o = true) : cs.countP (·.enters o) = 0 := by
  have hone := h.once o
  rw [List.countP_cons, if_pos hc] at hone
  omega

theorem not_opens_of_zero (h : cs.countP (·.enters o) = 0) (hc : c ∈ cs) : c.opens o p = false := by
  rw [Bool.eq_false_iff]
  intro ho
  exact List.countP_eq_zero.mp h c hc (opens_enters ho)

theorem PortInv.allocate (h : PortInv s cs) (hf : (s.object s.nextObject).alive = false) (size : VmSize)
    (shadow : Option ObjId) : PortInv (s.allocate size shadow) cs := by
  have hnew : (s.allocate size shadow).object s.nextObject = { size := size, shadow := shadow } := by
    simp [CacheState.allocate]
  have hold : ∀ y, y ≠ s.nextObject → (s.allocate size shadow).object y = s.object y := by
    intro y hy
    simp only [CacheState.allocate]
    exact setObject_of_ne s _ hy
  have hlive : ∀ y, (s.object y).alive = true → (s.allocate size shadow).object y = s.object y := by
    intro y hy
    apply hold
    rintro rfl
    rw [hf] at hy
    cases hy
  refine ⟨h.fresh, ?_, ?_, ?_, ?_, ?_, ?_, h.once⟩
  · intro o p ha hp
    by_cases ho : o = s.nextObject
    · rw [ho, hnew] at hp
      cases hp
    · rw [hold o ho] at ha hp
      exact h.pager o p ha hp
  · intro o p ha hp
    by_cases ho : o = s.nextObject
    · rw [ho, hnew] at hp
      cases hp
    · rw [hold o ho] at ha hp
      exact h.request o p ha hp
  · intro o p hu hp
    obtain ⟨ha, he⟩ := h.named o p hu hp
    rw [hlive o ha]
    exact ⟨ha, he⟩
  · intro o p hp
    obtain ⟨ha, he⟩ := h.controlled o p hp
    rw [hlive o ha]
    exact ⟨ha, he⟩
  · intro o ha hc
    by_cases ho : o = s.nextObject
    · rw [ho, hnew]
      exact ⟨rfl, rfl⟩
    · rw [hold o ho] at ha hc ⊢
      exact h.bare o ha hc
  · intro c hc
    have he := h.entering c hc
    exact he.congr (Nat.le_refl _) (fun x hx => hlive x (he.alive hx)) (fun _ _ hq => hq)

theorem PortInv.unlink {v : VmObject} (h : PortInv s cs) (ha : (s.object o).alive = true)
    (hn : t.nextPort = s.nextPort) (hv : t.object o = v) (ho : ∀ y, y ≠ o → t.object y = s.object y)
    (hu : ∀ q, (t.port q).inUse = (s.port q).inUse)
    (hq : ∀ q, (t.port q).object = (s.port q).object ∨ ((t.port q).object = .none ∧
      ((s.object o).pager = some q ∨ (s.object o).pagerRequest = some q)))
    (hr : ∀ q, (s.object o).pagerRequest = some q → (t.port q).object = .none)
    (hp : ∀ q, (s.port q).inUse = true → (s.object o).pager = some q → (t.port q).object = .none)
    (hc : v.pagerCreated = (s.object o).pagerCreated)
    (hlive : v.alive = true → v.pager = none ∧ v.pagerRequest = none)
    (hdead : v.alive = false → cs.countP (·.enters o) = 0) : PortInv t cs := by
  have hown : ∀ q x, x ≠ o → (s.port q).object = .pager x ∨ (s.port q).object = .pagingRequest x →
      (t.port q).object = (s.port q).object := by
    intro q x hx hqx
    rcases hq q with he | ⟨-, hpo | hro⟩
    · exact he
    · rw [h.pager o q ha hpo] at hqx
      rcases hqx with he | he
      · cases he
        exact absurd rfl hx
      · cases he
    · rw [h.request o q ha hro] at hqx
      rcases hqx with he | he
      · cases he
      · cases he
        exact absurd rfl hx
  have hsame : ∀ q, (t.port q).object ≠ .none → (t.port q).object = (s.port q).object := by
    intro q hne
    rcases hq q with he | ⟨he, -⟩
    · exact he
    · exact absurd he hne
  have hopen : ∀ q x, (s.port q).object = .pager x → (x = o → (s.object o).pager = none) →
      (t.port q).object = .pager x := by
    intro q x hx hxo
    by_cases hxe : x = o
    · rcases hq q with he | ⟨-, hpo | hro⟩
      · rw [he, hx]
      · rw [hxo hxe] at hpo
        cases hpo
      · rw [h.request o q ha hro] at hx
        cases hx
    · rw [hown q x hxe (.inl hx), hx]
  refine ⟨?_, ?_, ?_, ?_, ?_, ?_, ?_, h.once⟩
  · intro q hle
    have hf := h.fresh q (hn ▸ hle)
    rcases hq q with he | ⟨he, -⟩
    · rw [he, hf]
    · exact he
  · intro x q hx hxq
    by_cases hxo : x = o
    · rw [hxo, hv] at hx hxq
      rw [(hlive hx).1] at hxq
      cases hxq
    · rw [ho x hxo] at hx hxq
      have hold := h.pager x q hx hxq
      rw [hown q x hxo (.inl hold), hold]
  · intro x q hx hxq
    by_cases hxo : x = o
    · rw [hxo, hv] at hx hxq
      rw [(hlive hx).2] at hxq
      cases hxq
    · rw [ho x hxo] at hx hxq
      have hold := h.request x q hx hxq
      rw [hown q x hxo (.inr hold), hold]
  · intro x q hqu hqx
    have hold := hsame q (by rw [hqx]; simp)
    rw [hu] at hqu
    obtain ⟨hxa, hxe⟩ := h.named x q hqu (hold ▸ hqx)
    by_cases hxo : x = o
    · subst hxo
      rcases hxe with hxe | ⟨c, hcm, hco⟩
      · rw [hp q hqu hxe] at hqx
        cases hqx
      · refine ⟨?_, .inr ⟨c, hcm, hco⟩⟩
        rw [hv]
        by_contra hd
        have := not_opens_of_zero (hdead (by simpa using hd)) hcm (p := q)
        rw [hco] at this
        cases this
    · rw [ho x hxo]
      exact ⟨hxa, hxe⟩
  · intro x q hqx
    have hold := hsame q (by rw [hqx]; simp)
    obtain ⟨hxa, hxr⟩ := h.controlled x q (hold ▸ hqx)
    by_cases hxo : x = o
    · subst hxo
      rw [hr q hxr] at hqx
      cases hqx
    · rw [ho x hxo]
      exact ⟨hxa, hxr⟩
  · intro x hx hxc
    by_cases hxo : x = o
    · subst hxo
      rw [hv] at hx ⊢
      exact hlive hx
    · rw [ho x hxo] at hx hxc ⊢
      exact h.bare x hx hxc
  · intro c hcm
    have he := h.entering c hcm
    have halive : ∀ x, c.enters x = true → x = o → v.alive = true := by
      intro x hcx hxo
      subst hxo
      by_contra hd
      exact List.countP_eq_zero.mp (hdead (by simpa using hd)) c hcm hcx
    cases c with
    | enter p _ newObject =>
      refine ⟨hn ▸ he.1, ?_⟩
      intro n hnew
      obtain ⟨hna, hnc⟩ := he.2 n hnew
      by_cases hno : n = o
      · have := halive n (by simp [CacheCall.enters, hnew]) hno
        rw [hno, hv, hc]
        exact ⟨this, hno ▸ hnc⟩
      · rw [ho n hno]
        exact ⟨hna, hnc⟩
    | associate x p _ =>
      obtain ⟨hxa, hxp, hxr, hxq⟩ := he
      have hport := hopen p x hxq (fun hxo => hxo ▸ hxp)
      by_cases hxo : x = o
      · have := halive x (by simp [CacheCall.enters]) hxo
        obtain ⟨hvp, hvr⟩ := hlive this
        refine ⟨?_, ?_, ?_, hport⟩ <;> rw [hxo, hv] <;> assumption
      · refine ⟨?_, ?_, ?_, hport⟩ <;> rw [ho x hxo] <;> assumption
    | attach x p _ =>
      obtain ⟨hxa, hxp, hxc, hxq⟩ := he
      have hport := hopen p x hxq (fun hxo => hxo ▸ hxp)
      by_cases hxo : x = o
      · have := halive x (by simp [CacheCall.enters]) hxo
        obtain ⟨hvp, -⟩ := hlive this
        have hvc : v.pagerCreated = true := by rw [hc, ← hxo, hxc]
        refine ⟨?_, ?_, ?_, hport⟩ <;> rw [hxo, hv] <;> assumption
      · refine ⟨?_, ?_, ?_, hport⟩ <;> rw [ho x hxo] <;> assumption
    | _ => trivial

end MachVM
