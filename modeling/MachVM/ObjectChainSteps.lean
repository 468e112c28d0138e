import MachVM.ObjectSteps

namespace MachVM

variable {s t : VmState} {held : ObjId → Nat} {o object backing src new : ObjId}

/-- The state after a call that makes no object. -/
structure Keeps (held : ObjId → Nat) (s t : VmState) : Prop where
  holds : Holds t held
  next : t.nextObject = s.nextObject
  kind : ∀ y, (t.object y).temporary = (s.object y).temporary

theorem vmObjectReference_graph (s : VmState) (o : ObjId) : (vmObjectReference s (some o)).graph =
    s.graph.set o { s.graph.link o with refCount := (s.graph.link o).refCount + 1 } :=
  modObject_graph s o _

theorem vmObjectReference_holds (h : Holds s held) (ha : (s.object o).alive = true)
    (hc : o ∉ s.cachedList) : Holds (vmObjectReference s (some o)) (plus held o) := by
  obtain ⟨rank, h⟩ := h
  refine ⟨rank, ?_⟩
  rw [vmObjectReference_graph]
  exact h.reference ha hc

theorem vmObjectShadow_holds {off : VmOffset} {len : VmSize} (h : Holds s (plus held src))
    (ht : (s.object src).temporary = true) :
    Holds (vmObjectShadow s (some src) off len).1 (plus held s.nextObject) := by
  obtain ⟨rank, h⟩ := h
  have h' : ObjectInv s.graph (plusOpt held (some src)) rank := h
  have hg : (vmObjectShadow s (some src) off len).1.graph =
      s.graph.alloc { newLink with shadow := some src, shadowOffset := off } := by
    simp only [vmObjectShadow]
    rw [modObject_graph, vmObjectAllocate_graph]
    simp only [ObjGraph.alloc, ObjGraph.set, ObjGraph.mk.injEq, true_and, and_true]
    funext y
    have hnew : (vmObjectAllocate s len).2 = s.nextObject := rfl
    by_cases hy : y = s.nextObject
    · subst hy
      rw [hnew, Function.update_self]
      simp [VmObject.link, vmObjectAllocate, VmState.setObject, VmState.graph, newLink]
    · rw [hnew, Function.update_of_ne hy]
      simp only [VmState.graph]
      rw [Function.update_of_ne hy, Function.update_of_ne hy]
  refine ⟨Function.update rank s.nextObject (rank src + 1), ?_⟩
  rw [hg]
  exact h'.alloc rfl rfl rfl rfl rfl rfl (fun _ => rfl) (by rintro b ⟨⟩; exact ht)

theorem graph_of_links (hn : t.nextObject = s.nextObject) (hc : t.cachedList = s.cachedList) :
    t.graph = { s.graph with link := t.graph.link } := by
  simp only [VmState.graph, hn, hc]

theorem any_copy_false {z : Option ObjId} (h : ¬(z.any fun z => (s.object z).copy.isSome) = true) :
    ∀ y ∈ z, (s.graph.link y).copy = none := by
  rintro y rfl
  simpa [VmState.graph, VmObject.link] using h

theorem merged_holds {rank : ObjId → Nat} (h : ObjectInv s.graph held rank)
    (ha : (s.object object).alive = true) (hs : (s.object object).shadow = some backing)
    (ht : (s.object backing).temporary = true) (hr : (s.object backing).refCount = 1)
    (hz : ∀ y ∈ (s.object backing).shadow, (s.graph.link y).copy = none)
    (hn : t.nextObject = s.nextObject) (hc : t.cachedList = s.cachedList)
    (hlo : Reshadowed (s.object object).link (t.object object).link (s.object backing).shadow)
    (hlb : (t.object backing).alive = false)
    (hl : ∀ y, y ≠ object → y ≠ backing → (t.object y).link = (s.object y).link) : Holds t held := by
  refine ⟨rank, ?_⟩
  rw [graph_of_links hn hc]
  exact h.merge ha hs ht hr hz hlo hlb hl

theorem collapseInto_holds (h : Holds s held) (ha : (s.object object).alive = true)
    (hs : (s.object object).shadow = some backing) (hi : (s.object backing).internal = true)
    (hr : (s.object backing).refCount = 1)
    (hz : ∀ y ∈ (s.object backing).shadow, (s.graph.link y).copy = none) :
    Settles (collapseInto s object backing) fun t => Keeps held s t ∧
      (t.object object).alive = true := by
  obtain ⟨rank, h⟩ := h
  simp only [collapseInto]
  have hpages : ∀ u mem, u.graph = s.graph → Settles (collapsePage object (s.object object).shadowOffset
      (s.object object).size u mem) fun v => v.graph = s.graph := by
    intro u mem hu
    simp only [collapsePage]
    split
    next => exact pageResult_settles fun v hv => (vmPageFree_graph hv).trans hu
    next =>
      split
      next =>
        split
        next => rfl
        next => exact pageResult_settles fun v hv => (vmPageFree_graph hv).trans hu
      next => exact pageResult_settles fun v hv => (vmPageRename_graph hv).trans hu
  refine (foldlM_settles hpages (s.object backing).memq rfl).bind ?_
  intro u hu
  have hlink : ∀ y, (u.object y).link = (s.object y).link := fun y => congrFun (congrArg ObjGraph.link hu) y
  have hsb : (u.object backing).shadow = (s.object backing).shadow := congrArg ObjLink.shadow (hlink backing)
  have hbo := h.shadow_ne ha hs
  have htb : (s.object backing).temporary = true :=
    (h.kind backing (h.shadow_alive ha hs)).1.symm.trans hi
  split
  next hcopied =>
    refine absurd hcopied ?_
    rw [Option.any_eq_true, hsb]
    rintro ⟨z, hzs, hzc⟩
    have hcz : (u.object z).copy = none := (congrArg ObjLink.copy (hlink z)).trans (hz z hzs)
    rw [modObject_object, modObject_object, modObject_object] at hzc
    by_cases hzb : z = backing
    · subst hzb
      simp [hbo, hcz] at hzc
    · by_cases hzo : z = object
      · subst hzo
        simp [hzb, hcz] at hzc
      · simp [hzb, hzo, hcz] at hzc
  next =>
    show Keeps held s _ ∧ _
    refine ⟨⟨merged_holds h ha hs htb hr hz (congrArg ObjGraph.next hu)
      (congrArg ObjGraph.cachedList hu) ?_ ?_ ?_, congrArg ObjGraph.next hu, ?_⟩, ?_⟩
    · have halive := congrArg ObjLink.alive (hlink object)
      have hcopy := congrArg ObjLink.copy (hlink object)
      have hcount := congrArg ObjLink.refCount (hlink object)
      have htemp := congrArg ObjLink.temporary (hlink object)
      have hint := congrArg ObjLink.internal (hlink object)
      have hpersist := congrArg ObjLink.canPersist (hlink object)
      simp only [modObject_object, Ne.symm hbo, if_false, if_true]
      exact ⟨halive, hsb, hcopy, hcount, htemp, hint, hpersist⟩
    · simp [modObject_object]
    · intro y hyo hyb
      simp only [modObject_object, hyo, hyb, if_false]
      exact hlink y
    · intro y
      refine (modObject_temporary (by intro x; rfl) y).trans ?_
      refine (modObject_temporary (by intro x; rfl) y).trans ?_
      refine (modObject_temporary (by intro x; rfl) y).trans ?_
      exact temporary_congr hu y
    · rw [modObject_object, if_neg (Ne.symm hbo), modObject_object, if_neg (Ne.symm hbo), modObject_object,
        if_pos rfl]
      exact (congrArg ObjLink.alive (hlink object)).trans ha

theorem vmObjectReference_object (s : VmState) (z : Option ObjId) (y : ObjId) :
    (vmObjectReference s z).object y =
      if z = some y then { s.object y with refCount := (s.object y).refCount + 1 } else s.object y := by
  cases z with
  | none => simp [vmObjectReference]
  | some z =>
    rw [vmObjectReference, modObject_object]
    by_cases hy : y = z
    · simp [hy]
    · simp [hy, Ne.symm hy]

theorem bypassBacking_object (hbo : backing ≠ object) (hob : (s.object backing).shadow ≠ some object)
    (hbb : (s.object backing).shadow ≠ some backing) (y : ObjId) :
    (bypassBacking s object backing).object y =
      if y = backing then { s.object backing with refCount := (s.object backing).refCount - 1 }
      else if y = object then { s.object object with
        shadow := (s.object backing).shadow,
        shadowOffset := (s.object object).shadowOffset + (s.object backing).shadowOffset }
      else if (s.object backing).shadow = some y then { s.object y with refCount := (s.object y).refCount + 1 }
      else s.object y := by
  simp only [bypassBacking, modObject_object, vmObjectReference_object]
  by_cases hyb : y = backing
  · subst hyb
    simp [hbb, hbo]
  · by_cases hyo : y = object
    · subst hyo
      simp [hyb, hob]
    · simp [hyb, hyo]

theorem bypassBacking_lists (s : VmState) (object backing : ObjId) :
    (bypassBacking s object backing).nextObject = s.nextObject ∧
      (bypassBacking s object backing).cachedList = s.cachedList := by
  simp only [bypassBacking, vmObjectReference]
  split <;> exact ⟨rfl, rfl⟩

theorem bypassBacking_holds (h : Holds s held) (ha : (s.object object).alive = true)
    (hs : (s.object object).shadow = some backing) (hi : (s.object backing).internal = true)
    (hz : ∀ y ∈ (s.object backing).shadow, (s.graph.link y).copy = none) :
    Keeps held s (bypassBacking s object backing) ∧
      ((bypassBacking s object backing).object object).alive = true := by
  obtain ⟨rank, h⟩ := h
  have hb := h.shadow_alive ha hs
  have hbo := h.shadow_ne ha hs
  have htb : (s.object backing).temporary = true := (h.kind backing hb).1.symm.trans hi
  have hob : (s.object backing).shadow ≠ some object := by
    intro hc
    exact Nat.lt_irrefl _ (Nat.lt_trans (h.ranked backing object hb hc) (h.ranked object backing ha hs))
  have hbb : (s.object backing).shadow ≠ some backing := fun hc => h.shadow_ne hb hc rfl
  have hobj := bypassBacking_object hbo hob hbb
  obtain ⟨hnext, hcach⟩ := bypassBacking_lists s object backing
  refine ⟨⟨⟨rank, ?_⟩, hnext, ?_⟩, ?_⟩
  · rw [graph_of_links hnext hcach]
    refine h.bypass ha hs htb hz ?_ ?_ ?_ ?_
    · simp only [VmState.graph, hobj, Ne.symm hbo, if_false, if_true]
      exact ⟨rfl, rfl, rfl, rfl, rfl, rfl, rfl⟩
    · simp [VmState.graph, hobj, VmObject.link]
    · intro z hzs
      have hzb : z ≠ backing := by
        rintro rfl
        exact hbb hzs
      have hzo : z ≠ object := by
        rintro rfl
        exact hob hzs
      have hzs : (s.object backing).shadow = some z := hzs
      simp [VmState.graph, hobj, hzb, hzo, hzs, VmObject.link]
    · intro y hyo hyb hys
      have hys : (s.object backing).shadow ≠ some y := hys
      simp [VmState.graph, hobj, hyo, hyb, hys]
  · intro y
    rw [hobj]
    split
    next hy => rw [hy]
    next =>
      split
      next hy => rw [hy]
      next => split <;> rfl
  · rw [hobj, if_neg (Ne.symm hbo), if_pos rfl]
    exact ha

theorem collapseStep_holds (h : Holds s held) (ha : (s.object object).alive = true) :
    Settles (collapseStep s object) fun r => ∀ t ∈ r, Keeps held s t ∧
      (t.object object).alive = true := by
  simp only [collapseStep]
  split
  next => rintro t ⟨⟩
  next =>
    split
    next => rintro t ⟨⟩
    next backing hs =>
      split
      next => rintro t ⟨⟩
      next hint =>
        have hi : (s.object backing).internal = true := by
          by_contra hc
          exact hint (Or.inl (by simpa using hc))
        split
        next => rintro t ⟨⟩
        next hcopy =>
          split
          next hr =>
            refine (collapseInto_holds h ha hs hi hr (any_copy_false hcopy)).map ?_
            intro u hu t ht
            cases Option.some.inj ht
            exact hu
          next =>
            split
            next => rintro t ⟨⟩
            next =>
              split
              next => rintro t ⟨⟩
              next =>
                intro t ht
                cases Option.some.inj ht
                exact bypassBacking_holds h ha hs hi (any_copy_false hcopy)

theorem vmObjectCollapse_holds (fuel : Nat) (h : Holds s held) (ha : (s.object object).alive = true) :
    Settles (vmObjectCollapse fuel s object) (Keeps held s) := by
  induction fuel generalizing s with
  | zero => rfl
  | succ fuel ih =>
    simp only [vmObjectCollapse]
    refine (collapseStep_holds h ha).bind ?_
    intro r hr
    cases r with
    | none => exact ⟨h, rfl, fun _ => rfl⟩
    | some u =>
      obtain ⟨hu, hua⟩ := hr u rfl
      refine (ih hu.holds hua).mono ?_
      intro t ht
      exact ⟨ht.holds, ht.next.trans hu.next, fun y => (ht.kind y).trans (hu.kind y)⟩

end MachVM
