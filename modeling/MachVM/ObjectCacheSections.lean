import MachVM.ObjectCacheSteps

namespace MachVM

variable {s t : CacheState} {cs : List CacheCall} {c : CacheCall} {o n : ObjId} {p q : PortId}
  {internal : Bool} {size : VmSize} {extra : ObjId → Nat} {spare : Nat}

theorem PortInv.goOn {c : Option CacheCall} (h : PortInv s (c.toList ++ s.calls)) :
    PortInv (s.goOn c) (s.goOn c).calls :=
  h.congr rfl rfl (fun _ => rfl) (fun _ => rfl) (fun _ => rfl) (fun _ => rfl)

theorem PortInv.goOn_deallocate (h : PortInv s s.calls) (x : Option ObjId) :
    PortInv (s.goOn (x.map .deallocate)) (s.goOn (x.map .deallocate)).calls := by
  apply PortInv.goOn
  cases x with
  | none => exact h
  | some o => exact h.add (fun _ => rfl) trivial

theorem PortInv.hand (h : PortInv s cs) (o : ObjId) : PortInv (s.hand o) cs :=
  h.congr rfl rfl (fun _ => rfl) (fun _ => rfl) (fun _ => rfl) (fun _ => rfl)

theorem PortInv.donate (h : PortInv s cs) (o : ObjId) : PortInv (s.donate o) cs :=
  h.congr rfl rfl (fun _ => rfl) (fun _ => rfl) (fun _ => rfl) (fun _ => rfl)

theorem PortInv.recache (h : PortInv s cs) (l : List ObjId) (k : Int) :
    PortInv { s with cachedList := l, cached := k } cs :=
  h.congr rfl rfl (fun _ => rfl) (fun _ => rfl) (fun _ => rfl) (fun _ => rfl)

theorem PortInv.takeReference (h : PortInv s cs) (o : ObjId) : PortInv (takeReference s o) cs := by
  unfold MachVM.takeReference
  split
  next => exact (h.recache _ _).touch (fun _ => rfl) (fun _ => rfl) (fun _ => rfl) (fun _ => rfl)
  next => exact h.touch (fun _ => rfl) (fun _ => rfl) (fun _ => rfl) (fun _ => rfl)

theorem takeReference_calls (s : CacheState) (o : ObjId) : (takeReference s o).calls = s.calls := by
  unfold takeReference
  split <;> rfl

theorem modObject_self (s : CacheState) (o : ObjId) (f : VmObject → VmObject) :
    (s.modObject o f).object o = f (s.object o) := setObject_self s o _

theorem modObject_of_ne (s : CacheState) (f : VmObject → VmObject) (h : n ≠ o) :
    (s.modObject o f).object n = s.object n := setObject_of_ne s _ h

theorem vmObjectRemove_same (h : vmObjectRemove s o = some t) :
    t.object = s.object ∧ t.nextPort = s.nextPort ∧ t.calls = s.calls := by
  rw [(vmObjectRemove_port h).1]
  exact ⟨rfl, rfl, rfl⟩

theorem terminateSection_ports (h : PortInv s s.calls) (ha : (s.object o).alive = true)
    (hz : s.calls.countP (·.enters o) = 0) (ht : terminateSection s o = some t) : PortInv t t.calls := by
  obtain ⟨m, hm, rfl⟩ := Option.map_eq_some_iff.mp ht
  obtain ⟨-, hp⟩ := vmObjectRemove_port hm
  obtain ⟨hobj, hnext, hcalls⟩ := vmObjectRemove_same hm
  apply PortInv.goOn_deallocate
  rw [modObject_self] at hp
  rw [show m.calls = s.calls from hcalls]
  refine h.unlink (v := { s.object o with alive := false }) ha hnext (by rw [hobj, modObject_self]) ?_ ?_ ?_ ?_ ?_ rfl ?_ (fun _ => hz)
  · intro y hy
    rw [hobj, modObject_of_ne s _ hy]
  · intro q
    rw [hp]
    split <;> rfl
  · intro q
    rw [hp]
    split
    next hq => exact .inr ⟨rfl, hq⟩
    next => exact .inl rfl
  · intro q hq
    rw [hp, if_pos (.inr hq)]
  · intro q _ hq
    rw [hp, if_pos (.inl hq)]
  · rintro ⟨⟩

theorem memoryObjectDestroy_ports (h : PortInv s s.calls) (ha : (s.object o).alive = true)
    (ht : memoryObjectDestroy s o = some t) : PortInv t t.calls := by
  obtain ⟨m, hm, rfl⟩ := Option.map_eq_some_iff.mp ht
  obtain ⟨-, hp⟩ := vmObjectRemove_port hm
  obtain ⟨hobj, hnext, hcalls⟩ := vmObjectRemove_same hm
  apply PortInv.goOn_deallocate (x := some o)
  show PortInv _ m.calls
  rw [hcalls]
  refine h.unlink ha hnext (modObject_self m o _) ?_ ?_ ?_ ?_ ?_ ?_ ?_ ?_
  · intro y hy
    rw [modObject_of_ne m _ hy, hobj]
  · intro q
    show (m.port q).inUse = _
    rw [hp]
    split <;> rfl
  · intro q
    show (m.port q).object = _ ∨ (m.port q).object = _ ∧ _
    rw [hp]
    split
    next hq => exact .inr ⟨rfl, hq⟩
    next => exact .inl rfl
  · intro q hq
    show (m.port q).object = _
    rw [hp, if_pos (.inr hq)]
  · intro q _ hq
    show (m.port q).object = _
    rw [hp, if_pos (.inl hq)]
  · rw [hobj]
  · exact fun _ => ⟨rfl, rfl⟩
  · intro hd
    rw [hobj, show _ = _ from ha] at hd
    cases hd

theorem PortInv.die (h : PortInv s cs) (p : PortId) :
    PortInv (s.setPort p { s.port p with inUse := false }) cs := by
  have hobj : ∀ q, ((s.setPort p { s.port p with inUse := false }).port q).object = (s.port q).object := by
    intro q
    by_cases hq : q = p
    · rw [hq, setPort_self]
    · rw [setPort_of_ne s _ hq]
  have huse : ∀ q, ((s.setPort p { s.port p with inUse := false }).port q).inUse = true →
      (s.port q).inUse = true := by
    intro q hu
    by_cases hq : q = p
    · rw [hq, setPort_self] at hu
      cases hu
    · rwa [setPort_of_ne s _ hq] at hu
  refine ⟨?_, ?_, ?_, ?_, ?_, h.bare, ?_, h.once⟩
  · intro q hq
    rw [hobj]
    exact h.fresh q hq
  · intro x q hx hxq
    rw [hobj]
    exact h.pager x q hx hxq
  · intro x q hx hxq
    rw [hobj]
    exact h.request x q hx hxq
  · intro x q hu hq
    rw [hobj] at hq
    exact h.named x q (huse q hu) hq
  · intro x q hq
    rw [hobj] at hq
    exact h.controlled x q hq
  · intro d hd
    refine (h.entering d hd).congr (Nat.le_refl _) (fun _ _ => rfl) ?_
    intro q x hq
    rw [hobj, hq]

theorem PortInv.pager_eq (h : PortInv s cs) (hu : (s.port p).inUse = true)
    (hp : (s.port p).object = .pager o) (hq : (s.object o).pager = some q) : q = p := by
  obtain ⟨ha, he | ⟨d, hd, hdo⟩⟩ := h.named o p hu hp
  · rw [he] at hq
    exact (Option.some.inj hq).symm
  · have hd' := h.entering d hd
    cases d with
    | associate x r _ =>
      simp only [CacheCall.opens, Bool.and_eq_true, decide_eq_true_eq] at hdo
      rw [← hdo.1, hd'.2.1] at hq
      cases hq
    | attach x r _ =>
      simp only [CacheCall.opens, Bool.and_eq_true, decide_eq_true_eq] at hdo
      rw [← hdo.1, hd'.2.1] at hq
      cases hq
    | _ => cases hdo

theorem vmObjectDestroy_ports (h : PortInv s s.calls) (hu : (s.port p).inUse = true)
    (ht : vmObjectDestroy (s.setPort p { s.port p with inUse := false }) p = some t) :
    PortInv t t.calls := by
  have hdie := h.die p
  simp only [vmObjectDestroy, setPort_self] at ht
  split at ht
  next _ o hpo =>
    obtain ⟨m, hm, rfl⟩ := Option.map_eq_some_iff.mp ht
    obtain ⟨ha, -⟩ := h.named o p hu hpo
    obtain ⟨-, hp⟩ := vmObjectRemove_port hm
    obtain ⟨hobj, hnext, hmcalls⟩ := vmObjectRemove_same hm
    have htake := hdie.takeReference o
    have hcalls : m.calls = s.calls := hmcalls.trans (takeReference_calls _ o)
    apply PortInv.goOn_deallocate (x := some o)
    show PortInv _ m.calls
    rw [hcalls]
    generalize htk : takeReference (s.setPort p { s.port p with inUse := false }) o = k at *
    have hkport : k.port = (s.setPort p { s.port p with inUse := false }).port := by
      rw [← htk, takeReference]
      split <;> rfl
    have hkpager : (k.object o).pager = (s.object o).pager := by
      rw [← htk, takeReference, modObject_self]
      split <;> rfl
    have hkalive : (k.object o).alive = true := by
      rw [← htk, takeReference, modObject_self]
      split <;> exact ha
    rw [modObject_self] at hp
    refine htake.unlink hkalive hnext (modObject_self m o _)
      ?_ ?_ ?_ ?_ ?_ ?_ ?_ ?_
    · intro y hy
      rw [modObject_of_ne m _ hy, hobj, modObject_of_ne k _ hy]
    · intro q
      show (m.port q).inUse = _
      rw [hp]
      split <;> rfl
    · intro q
      show (m.port q).object = _ ∨ (m.port q).object = _ ∧ _
      rw [hp]
      split
      next hq =>
        rcases hq with hq | hq
        · cases hq
        · exact .inr ⟨rfl, .inr hq⟩
      next => exact .inl rfl
    · intro q hq
      show (m.port q).object = _
      rw [hp, if_pos (.inr hq)]
    · intro q hqu hq
      rw [hkpager] at hq
      rw [hkport, h.pager_eq hu hpo hq, setPort_self] at hqu
      cases hqu
    · rw [hobj, modObject_self]
    · refine fun _ => ⟨?_, rfl⟩
      show (m.object o).pager = none
      rw [hobj, modObject_self]
    · intro hd
      rw [hobj, modObject_self, show _ = _ from hkalive] at hd
      cases hd
  next =>
    cases Option.some.inj ht
    exact hdie

theorem lookupSection_inv {pager : Option PortId} (hr : RefInv s noRef 0) (hp : PortInv s s.calls)
    (hu : ∀ p, pager = some p → (s.port p).inUse = true) :
    RefInv (lookupSection s pager) noRef 0 ∧ PortInv (lookupSection s pager) (lookupSection s pager).calls := by
  have htake : ∀ o, (s.object o).alive = true → RefInv ((takeReference s o).hand o) noRef 0 ∧
      PortInv ((takeReference s o).hand o) ((takeReference s o).hand o).calls := by
    intro o ha
    refine ⟨(hr.takeReference ha).hand, ?_⟩
    show PortInv _ (takeReference s o).calls
    rw [takeReference_calls]
    exact (hp.takeReference o).hand o
  cases pager with
  | none => exact ⟨hr, hp⟩
  | some p =>
    simp only [lookupSection]
    split
    next o ho => exact htake o (hp.named o p (hu p rfl) ho).1
    next o ho => exact htake o (hp.controlled o p ho).1
    next => exact ⟨hr, hp⟩

theorem enterSection_refs {newObject : Option ObjId} (hr : RefInv s (plusOpt noRef newObject) 0)
    (ha : ∀ o, (s.port p).object = .pager o → (s.object o).alive = true) :
    RefInv (enterSection s p size newObject false) noRef 0 := by
  unfold enterSection
  split
  next => exact RefInv.goOn (d := .enter p size (some s.nextObject)) (RefInv.allocate none hr size (by rintro b ⟨⟩))
  next n _ => exact RefInv.goOn (d := .associate n p false) (hr.setPort p _)
  next o ho =>
    simp only [Bool.false_eq_true, if_false]
    exact ((hr.takeReference (ha o ho)).hand).goOn_shadow
  next => exact hr.goOn_shadow

theorem enterSection_ports (newObject : Option ObjId) (hf : (s.object s.nextObject).alive = false)
    (h : PortInv s (.enter p size newObject :: s.calls)) :
    PortInv (enterSection s p size newObject false) (enterSection s p size newObject false).calls := by
  have hdrop := h.drop fun _ _ => rfl
  obtain ⟨hlt, hn⟩ := h.entering _ List.mem_cons_self
  unfold enterSection
  split
  next hpo =>
    apply PortInv.goOn
    have hall := hdrop.allocate hf size none
    have hz : s.calls.countP (·.enters s.nextObject) = 0 := by
      apply List.countP_eq_zero.mpr
      intro d hd hde
      rw [(hdrop.entering d hd).alive hde] at hf
      cases hf
    refine ⟨hall.fresh, hall.pager, hall.request, ?_, hall.controlled, hall.bare, ?_, ?_⟩
    · intro o q hu hq
      obtain ⟨ha, he | ⟨d, hd, hdo⟩⟩ := hall.named o q hu hq
      · exact ⟨ha, .inl he⟩
      · exact ⟨ha, .inr ⟨d, List.mem_cons_of_mem _ hd, hdo⟩⟩
    · intro d hd
      rcases List.mem_cons.mp hd with rfl | hm
      · refine ⟨hlt, ?_⟩
        rintro n ⟨⟩
        simp [CacheState.allocate]
      · exact hall.entering d hm
    · intro o
      show (CacheCall.enter p size (some s.nextObject) :: s.calls).countP _ ≤ 1
      rw [List.countP_cons]
      by_cases ho : o = s.nextObject
      · subst ho
        rw [hz]
        split <;> omega
      · rw [if_neg (by simp [CacheCall.enters]; exact fun he => ho he.symm)]
        exact hdrop.once o
  next n hpo =>
    apply PortInv.goOn
    obtain ⟨hna, hnc⟩ := hn n rfl
    obtain ⟨hnp, hnr⟩ := hdrop.bare n hna hnc
    have hz := enters_zero h (o := n) (by simp [CacheCall.enters])
    refine hdrop.bindPort hpo (Nat.le_refl _) hlt ?_ ?_ (fun _ _ => rfl) hna hnp hnr hnp hnr hz
    · intro q hq
      exact setPort_of_ne s _ hq
    · simp [CacheState.portObjectSet]
  next o ho =>
    simp only [Bool.false_eq_true, if_false]
    apply PortInv.goOn_deallocate
    show PortInv _ (takeReference s o).calls
    rw [takeReference_calls]
    exact (hdrop.takeReference o).hand o
  next => exact hdrop.goOn_deallocate _

theorem pagerCreateSection_eq (s : CacheState) (o : ObjId) : pagerCreateSection s o =
    ((s.modObject o setCreated).portAlloc (.pager o)).goOn (some (.associate o s.nextPort true)) := by
  have hp : (((s.modObject o setCreated).portAlloc (.pager o)).port s.nextPort).object = .pager o := by
    show ((Function.update s.port s.nextPort _) s.nextPort).object = _
    rw [Function.update_self]
  simp only [pagerCreateSection, enterSection, hp, if_true]
  rfl

theorem pagerCreateSection_inv (hr : RefInv s noRef 0) (hp : PortInv s s.calls)
    (ha : (s.object o).alive = true) (hc : (s.object o).pagerCreated = false)
    (hz : s.calls.countP (·.enters o) = 0) :
    RefInv (pagerCreateSection s o) noRef 0 ∧ PortInv (pagerCreateSection s o) (pagerCreateSection s o).calls := by
  rw [pagerCreateSection_eq]
  obtain ⟨hop, hor⟩ := hp.bare o ha hc
  refine ⟨?_, ?_⟩
  · have htouch := hr.touch (o := o) (f := setCreated) (fun _ => rfl) (fun _ => rfl) (fun _ => rfl)
    exact RefInv.goOn (d := .associate o s.nextPort true) (htouch.portAlloc _)
  · apply PortInv.goOn
    refine hp.bindPort (hp.fresh s.nextPort (Nat.le_refl _)) (Nat.le_succ _) (Nat.lt_succ_self _)
      ?_ ?_ ?_ ?_ ?_ ?_ hop hor hz
    · intro q hq
      exact setPort_of_ne (s.modObject o setCreated) _ hq
    · exact congrArg KernPort.object (setPort_self (s.modObject o setCreated) s.nextPort _)
    · intro y hy
      exact modObject_of_ne s setCreated hy
    · exact (congrArg VmObject.alive (modObject_self s o setCreated)).trans ha
    · exact (congrArg VmObject.pager (modObject_self s o setCreated)).trans hop
    · exact (congrArg VmObject.pagerRequest (modObject_self s o setCreated)).trans hor

end MachVM
