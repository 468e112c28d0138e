import MachVM.ObjectCopySteps

namespace MachVM

variable {s t : VmState} {held : ObjId → Nat} {o : ObjId} {h : Holder} {hs : List Holder}
  {w w' : ObjectWorld} {fuel : Nat}

theorem vmObjectEnter_holds {pager : PortId} {size : VmSize} (h : Holds s held) :
    Holds (vmObjectEnter s pager size).1 (plus held s.nextObject) := by
  obtain ⟨rank, h⟩ := h
  have h' : ObjectInv s.graph (plusOpt held none) rank := h
  have hg : (vmObjectEnter s pager size).1.graph =
      s.graph.alloc { newLink with internal := false, temporary := false } := by
    refine ObjGraph.ext_link rfl rfl ?_
    intro y
    simp only [vmObjectEnter, graph_link, modObject_object, vmObjectAllocate, ObjGraph.alloc, set_link]
    by_cases hy : y = s.nextObject
    · subst hy
      simp [VmState.setObject, VmState.graph, VmObject.link, newLink]
    · simp [VmState.setObject, VmState.graph, hy]
  refine ⟨Function.update rank s.nextObject 1, ?_⟩
  rw [hg]
  exact h'.alloc rfl rfl rfl rfl rfl rfl (fun hc => absurd rfl hc) (by rintro b ⟨⟩)

theorem vmObjectLookup_holds (h : Holds s held) (ha : (s.object o).alive = true) :
    Holds (vmObjectLookup s o) (plus held o) := by
  obtain ⟨rank, h⟩ := h
  simp only [vmObjectLookup]
  split
  next =>
    refine vmObjectReference_holds (s := { s with
      cachedList := queueRemove s.cachedList o, cached := s.cached - 1 }) ⟨rank, ?_⟩ ha ?_
    · exact h.recache (h.cached_nodup.erase o) fun y hy => h.cached y (List.mem_of_mem_erase hy)
    · intro hm
      exact (h.cached_nodup.mem_erase_iff.mp hm).1 rfl
  next h₀ =>
    refine vmObjectReference_holds ⟨rank, h⟩ ha ?_
    intro hm
    exact h₀ (h.cached o hm).2.1

theorem memoryObjectSetAttributes_holds {ready cache : Bool} {strategy : CopyStrategy} (h : Holds s held)
    (ht : (s.object o).temporary = false) :
    Holds (memoryObjectSetAttributes s o ready cache strategy) held := by
  obtain ⟨rank, h⟩ := h
  refine ⟨rank, h.persist (fun y => if y = o then cache else (s.object y).canPersist) rfl rfl ?_ ?_⟩
  · intro y
    simp only [memoryObjectSetAttributes, graph_link, modObject_object]
    split
    next hy => rw [hy]; rfl
    next => rfl
  · intro y hy hp
    by_cases hyo : y = o
    · rw [hyo]
      exact ht
    · rw [if_neg hyo] at hp
      exact (h.kind y hy).2 hp

theorem WorldInv.next (hw : WorldInv w) (hh : Holds t (heldBy hs))
    (hk : ∀ y < w.vm.nextObject, (t.object y).temporary = (w.vm.object y).temporary)
    (hn : ∀ h ∈ hs, h ∉ w.holders → h.needsCopy = true → (t.object h.object).temporary = true) :
    WorldInv ⟨t, hs⟩ := by
  refine ⟨hh, ?_⟩
  intro h hm hc
  by_cases hold : h ∈ w.holders
  · exact (hk _ (hw.lt hold)).trans (hw.needsCopy h hold hc)
  · exact hn h hm hold hc

theorem WorldInv.cons (hw : WorldInv w) (hsub : ∀ h ∈ hs, h ∈ w.holders)
    (hh : Holds t (plus (heldBy hs) h.object))
    (hk : ∀ y < w.vm.nextObject, (t.object y).temporary = (w.vm.object y).temporary)
    (hn : h.needsCopy = true → (t.object h.object).temporary = true) : WorldInv ⟨t, h :: hs⟩ := by
  refine hw.next (by rw [heldBy_cons]; exact hh) hk ?_
  intro h' hm hold hc
  cases List.mem_cons.mp hm with
  | inl he =>
    subst he
    exact hn hc
  | inr hm => exact absurd (hsub h' hm) hold

theorem vmObjectReference_temporary (s : VmState) (o : Option ObjId) (y : ObjId) :
    ((vmObjectReference s o).object y).temporary = (s.object y).temporary := by
  rw [vmObjectReference_object]
  split <;> rfl

theorem vmObjectAllocate_temporary {size : VmSize} (y : Nat) (hy : y < s.nextObject) :
    ((vmObjectAllocate s size).1.object y).temporary = (s.object y).temporary := by
  rw [vmObjectAllocate_object s size (Nat.ne_of_lt hy)]

theorem objectCall_allocate (hw : WorldInv w) (size : VmSize) :
    Settles (objectCall fuel w (.allocate size)) WorldInv :=
  hw.cons (fun _ hm => hm) (vmObjectAllocate_holds hw.holds size) vmObjectAllocate_temporary (by rintro ⟨⟩)

theorem objectCall_enter (hw : WorldInv w) (pager : PortId) (size : VmSize) :
    Settles (objectCall fuel w (.enter pager size)) WorldInv := by
  refine hw.cons (fun _ hm => hm) (vmObjectEnter_holds hw.holds) ?_ (by rintro ⟨⟩)
  intro y hy
  have hne : y ≠ w.vm.nextObject := Nat.ne_of_lt hy
  have hm := modObject_object (vmObjectAllocate w.vm size).1 w.vm.nextObject y fun x => { x with
    pagerCreated := true, internal := false, temporary := false, pagerReady := false
    pager := some pager, pagerInitialized := true }
  rw [if_neg hne, vmObjectAllocate_object w.vm size hne] at hm
  exact congrArg VmObject.temporary hm

theorem objectCall_lookup (hw : WorldInv w) (o : ObjId) :
    Settles (objectCall fuel w (.lookup o)) WorldInv := by
  simp only [objectCall]
  split
  next ha =>
    refine hw.cons (fun _ hm => hm) (vmObjectLookup_holds hw.holds ha) ?_ (by rintro ⟨⟩)
    intro y _
    simp only [vmObjectLookup]
    rw [vmObjectReference_temporary]
    split <;> rfl
  next => exact hw

theorem objectCall_setAttributes (hw : WorldInv w) (o : ObjId) (ready cache : Bool)
    (strategy : CopyStrategy) : Settles (objectCall fuel w (.setAttributes o ready cache strategy)) WorldInv := by
  simp only [objectCall]
  split
  next ht =>
    refine hw.next (memoryObjectSetAttributes_holds hw.holds ht) ?_ ?_
    · intro y _
      exact modObject_temporary (by intro x; rfl) y
    · intro h hm hold
      exact absurd hm hold
  next => exact hw

theorem objectCall_reference (hw : WorldInv w) (h : Holder) :
    Settles (objectCall fuel w (.reference h)) WorldInv := by
  simp only [objectCall]
  split
  next hm =>
    obtain ⟨rank, hi⟩ := hw.holds
    have hpos := heldBy_pos hm
    refine hw.cons (fun _ hm => hm) ?_ (fun y _ => vmObjectReference_temporary _ _ y) ?_
    · exact vmObjectReference_holds hw.holds (hi.held_alive hpos) (hi.not_cached hpos)
    · intro hc
      rw [vmObjectReference_temporary]
      exact hw.needsCopy h hm hc
  next => exact hw

theorem objectCall_shadow (hw : WorldInv w) (h : Holder) (off : VmOffset) (len : VmSize) :
    Settles (objectCall fuel w (.shadow h off len)) WorldInv := by
  simp only [objectCall]
  split
  next hm =>
    have hh := hw.holds
    rw [heldBy_erase hm.1] at hh
    have ht := hw.needsCopy h hm.1 hm.2
    refine hw.cons (fun _ hm => List.mem_of_mem_erase hm) (vmObjectShadow_holds hh ht) ?_ (by rintro ⟨⟩)
    intro y hy
    have hne : y ≠ w.vm.nextObject := Nat.ne_of_lt hy
    have hm := modObject_object (vmObjectAllocate w.vm len).1 w.vm.nextObject y fun x => { x with
      shadow := some h.object, shadowOffset := off }
    rw [if_neg hne, vmObjectAllocate_object w.vm len hne] at hm
    exact congrArg VmObject.temporary hm
  next => exact hw

theorem objectCall_collapse (hw : WorldInv w) (o : ObjId) :
    Settles (objectCall fuel w (.collapse o)) WorldInv := by
  simp only [objectCall]
  split
  next ha =>
    refine (vmObjectCollapse_holds fuel hw.holds ha).map ?_
    intro t ht
    exact hw.next ht.holds (fun y _ => ht.kind y) fun h hm hold => absurd hm hold
  next => exact hw

theorem objectCall_deallocate (hw : WorldInv w) (h : Holder) :
    Settles (objectCall fuel w (.deallocate h)) WorldInv := by
  simp only [objectCall]
  split
  next hm =>
    have hh := hw.holds
    rw [heldBy_erase hm] at hh
    refine (vmObjectDeallocate_donates fuel _ (some h.object) _ hh).map ?_
    intro t ht
    refine hw.next (by rw [heldBy_donors]; exact ht.holds) ht.kind ?_
    intro h' hm' hold hc
    cases List.mem_append.mp hm' with
    | inl hd =>
      obtain ⟨y, -, rfl⟩ := List.mem_map.mp hd
      cases hc
    | inr he => exact absurd (List.mem_of_mem_erase he) hold
  next => exact hw

theorem copySymmetric_inv {off : VmOffset} {size : VmSize} (hw : WorldInv w) (hm : h ∈ w.holders)
    (ht : (w.vm.object h.object).temporary = true) :
    WorldInv ⟨(copySymmetric w.vm h.object off).1,
      copyHolders (w.vm.object h.object) h size (copySymmetric w.vm h.object off).2 w.holders⟩ := by
  obtain ⟨hh, hs⟩ := copySymmetric_holds off hw.holds (heldBy_pos hm) ht
  have hholders : copyHolders (w.vm.object h.object) h size (copySymmetric w.vm h.object off).2 w.holders =
      ⟨h.object, true⟩ :: ⟨h.object, true⟩ :: w.holders.erase h := by
    simp [copyHolders, copySymmetric, copiesSlowly, ht]
  rw [hholders]
  refine hw.next ?_ (fun y _ => vmObjectReference_temporary w.vm (some h.object) y) ?_
  · rw [heldBy_cons, heldBy_cons]
    rw [heldBy_erase hm] at hh
    exact hh
  · intro h' hm' hold _
    have hobj : h'.object = h.object := by
      simp only [List.mem_cons] at hm'
      obtain rfl | rfl | he := hm'
      · rfl
      · rfl
      · exact absurd (List.mem_of_mem_erase he) hold
    rw [hobj]
    exact hs

theorem copySlowly_inv {size : VmSize} (hw : WorldInv w) (hm : h ∈ w.holders)
    (ht : (w.vm.object h.object).temporary = false) (hready : (w.vm.object h.object).pagerReady = true)
    (hstrategy : (w.vm.object h.object).copyStrategy = .none) :
    WorldInv ⟨(copySlowlyStart w.vm h.object size).1, copyHolders (w.vm.object h.object) h size
      { copyNothing with object := (copySlowlyStart w.vm h.object size).2 } w.holders⟩ := by
  have hh := copySlowlyStart_holds size hw.holds (heldBy_pos hm)
  by_cases hsize : size = 0
  · subst hsize
    simpa [copyHolders, copySlowlyStart, copiesSlowly, copyNothing] using hw
  · have hslow : copiesSlowly (w.vm.object h.object) size = true := by
      simp only [copiesSlowly, ht, hready, hstrategy]
      simpa using hsize
    have hholders : copyHolders (w.vm.object h.object) h size
        { copyNothing with object := (copySlowlyStart w.vm h.object size).2 } w.holders =
        ⟨w.vm.nextObject, false⟩ :: ⟨h.object, false⟩ :: w.holders := by
      simp only [copyHolders, copyNothing, hslow, copySlowlyStart, if_neg hsize]
      rfl
    rw [hholders]
    rw [if_neg hsize] at hh
    refine hw.next ?_ ?_ ?_
    · rw [heldBy_cons, heldBy_cons]
      exact hh
    · intro y hy
      simp only [copySlowlyStart, if_neg hsize]
      have hy' : y < (vmObjectReference w.vm (some h.object)).nextObject := hy
      exact (vmObjectAllocate_temporary y hy').trans (vmObjectReference_temporary _ _ y)
    · intro h' hm' hold hc
      simp only [List.mem_cons] at hm'
      obtain rfl | rfl | he := hm'
      · cases hc
      · cases hc
      · exact absurd he hold

theorem objectCall_copy (hw : WorldInv w) (h : Holder) (off : VmOffset) (size : VmSize)
    (interruptible : Bool) : Settles (objectCall fuel w (.copy h off size interruptible)) WorldInv := by
  simp only [objectCall]
  split
  next hm =>
    obtain ⟨hm, hcall⟩ := hm
    simp only [vmObjectCopy]
    split
    next ht => exact copySymmetric_inv hw hm ht
    next ht =>
      have ht : (w.vm.object h.object).temporary = false := by simpa using ht
      have hcall : (w.vm.object h.object).copyStrategy ≠ .call := by simpa [ht] using hcall
      split
      next hready =>
        split
        next =>
          show WorldInv ⟨w.vm, copyHolders _ h size copyNothing w.holders⟩
          simpa [copyHolders, copiesSlowly, copyNothing, hready] using hw
        next => rfl
      next hready =>
        have hready : (w.vm.object h.object).pagerReady = true := by simpa using hready
        split
        next hs => exact copySlowly_inv hw hm ht hready hs
        next hs => exact absurd hs hcall
        next hs =>
          refine Settles.map (copyDelayed_holds fuel hw.holds (heldBy_pos hm) ht) ?_
          rintro ⟨t, r⟩ ⟨c, rfl, htc, hc, hk⟩
          have hholders : copyHolders (w.vm.object h.object) h size (delayedResult c off) w.holders =
              ⟨c, true⟩ :: w.holders := by
            simp [copyHolders, copiesSlowly, delayedResult, hs]
          show WorldInv ⟨t, copyHolders _ h size (delayedResult c off) w.holders⟩
          rw [hholders]
          exact hw.cons (fun _ hm => hm) hc hk fun _ => htc
  next => exact hw

theorem objectCall_inv (fuel : Nat) (hw : WorldInv w) (op : ObjectOp) : Settles (objectCall fuel w op) WorldInv := by
  cases op with
  | allocate size => exact objectCall_allocate hw size
  | enter pager size => exact objectCall_enter hw pager size
  | lookup o => exact objectCall_lookup hw o
  | setAttributes o ready cache strategy => exact objectCall_setAttributes hw o ready cache strategy
  | reference h => exact objectCall_reference hw h
  | copy h off size interruptible => exact objectCall_copy hw h off size interruptible
  | shadow h off len => exact objectCall_shadow hw h off len
  | collapse o => exact objectCall_collapse hw o
  | deallocate h => exact objectCall_deallocate hw h

/-- The worlds reached from one without objects. Between two requests the pages, the pagers
and everything else the object graph does not see may change in any way. -/
inductive ObjectReach : ObjectWorld → Prop
  | start (s : VmState) : s.nextObject = 0 → s.cachedList = [] → (∀ o, (s.object o).alive = false) →
      ObjectReach ⟨s, []⟩
  | call {w w' : ObjectWorld} (fuel : Nat) (op : ObjectOp) : ObjectReach w →
      objectCall fuel w op = .ok w' → ObjectReach w'
  | paging {w : ObjectWorld} (t : VmState) : ObjectReach w → t.graph = w.vm.graph →
      ObjectReach { w with vm := t }

theorem objectReach_inv (h : ObjectReach w) : WorldInv w := by
  induction h with
  | start s hn hc ha =>
    refine ⟨⟨fun _ => 0, ?_⟩, by rintro h ⟨⟩⟩
    have hdead : ∀ {o}, (s.graph.link o).alive = true → False := by
      intro o ho
      rw [show (s.graph.link o).alive = false from ha o] at ho
      cases ho
    have hq : s.graph.cachedList = [] := hc
    have hnext : s.graph.next = 0 := hn
    refine ⟨fun o _ => ha o, fun o ho => (hdead ho).elim, ?_, fun o b ho => (hdead ho).elim, ?_, ?_,
      fun o ho => (hdead ho).elim, fun o ho => (hdead ho).elim, fun o b ho => (hdead ho).elim,
      fun o b ho => (hdead ho).elim⟩
    · intro o _
      rw [ObjGraph.shadowRefs, hnext]
      exact ⟨rfl, rfl⟩
    · rw [hq]
      rintro o ⟨⟩
    · rw [hq]
      exact List.nodup_nil
  | call fuel op _ hs ih =>
    have := objectCall_inv fuel ih op
    rw [hs] at this
    exact this
  | paging t _ hg ih => exact ⟨ih.holds.congr hg, fun h hm hc =>
      (temporary_congr hg h.object).trans (ih.needsCopy h hm hc)⟩

/-- What it takes for one object to be the copy object of another. -/
structure CopyOf (s : VmState) (src c : ObjId) : Prop where
  alive : (s.object c).alive = true
  shadow : (s.object c).shadow = some src
  shadowOffset : (s.object c).shadowOffset = 0
  only : ∀ x, (s.object x).alive = true → (s.object x).shadow = some src → x = c
  bottom : (s.object src).shadow = none

/-- In every reachable world copy objects are consistent with their sources, no request
panics over them, and an object with a shadow has no copy object to push pages to. -/
theorem objectReach_copyConsistency (h : ObjectReach w) :
    (∀ src c, (w.vm.object src).alive = true → (w.vm.object src).copy = some c → CopyOf w.vm src c) ∧
    (∀ fuel op why, objectCall fuel w op = .error why → why.copyPanic = false) ∧
    ∀ o, (w.vm.object o).alive = true → (w.vm.object o).shadow ≠ none → (w.vm.object o).copy = none := by
  have hw := objectReach_inv h
  obtain ⟨rank, hi⟩ := hw.holds
  refine ⟨?_, ?_, ?_⟩
  · intro src c ha hc
    obtain ⟨ht, hca, hcs, hco⟩ := hi.copy_spec src c ha hc
    refine ⟨hca, hcs, hco, ?_, hi.external src ha ht⟩
    intro x hx hs
    have hxc : (w.vm.object src).copy = some x := (hi.shadow_external x src hx hs ht).1
    rw [hc] at hxc
    exact (Option.some.inj hxc).symm
  · intro fuel op why he
    have := objectCall_inv fuel hw op
    rw [he] at this
    exact this
  · intro o ha hs
    obtain ⟨b, hb⟩ := Option.ne_none_iff_exists'.mp hs
    exact hi.copy_none_of_temporary ha (hi.temporary_of_shadow ha hb)

/-- Make requests one after another, each with the same fuel. -/
def objectRun (fuel : Nat) (w : ObjectWorld) : List ObjectOp → Except Stop ObjectWorld
  | [] => .ok w
  | op :: ops => (objectCall fuel w op).bind fun w => objectRun fuel w ops

theorem objectRun_reach {ops : List ObjectOp} (h : ObjectReach w) (hr : objectRun fuel w ops = .ok w') :
    ObjectReach w' := by
  induction ops generalizing w with
  | nil =>
    cases hr
    exact h
  | cons op ops ih =>
    simp only [objectRun] at hr
    cases hc : objectCall fuel w op with
    | error why =>
      rw [hc] at hr
      cases hr
    | ok w₁ =>
      rw [hc] at hr
      exact ih (.call fuel op h hc) hr

/-- A file is mapped, copied, and the region of the copy is written to and given up. -/
def exampleRequests : List ObjectOp :=
  [.enter 7 0x4000, .setAttributes 0 true true .delay, .copy ⟨0, false⟩ 0 0x4000 true,
    .shadow ⟨1, true⟩ 0 0x4000, .copy ⟨0, false⟩ 0x1000 0x1000 true, .deallocate ⟨2, false⟩]

theorem exampleRequests_copyConsistency :
    ∃ w, objectRun 9 ⟨{}, []⟩ exampleRequests = .ok w ∧ (w.vm.object 0).copy = some 1 ∧ CopyOf w.vm 0 1 := by
  have hrun : ((objectRun 9 ⟨{}, []⟩ exampleRequests).map fun w =>
      ((w.vm.object 0).alive, (w.vm.object 0).copy)).toOption = some (true, some 1) := by decide +kernel
  cases hw : objectRun 9 ⟨{}, []⟩ exampleRequests with
  | error why =>
    rw [hw] at hrun
    cases hrun
  | ok w =>
    rw [hw] at hrun
    have hv := Option.some.inj hrun
    have hc : (w.vm.object 0).copy = some 1 := congrArg Prod.snd hv
    have hreach := objectRun_reach (.start {} rfl rfl fun _ => rfl) hw
    exact ⟨w, rfl, hc, (objectReach_copyConsistency hreach).1 0 1 (congrArg Prod.fst hv) hc⟩

end MachVM
