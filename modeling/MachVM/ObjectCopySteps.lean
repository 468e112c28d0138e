import MachVM.ObjectChainSteps

namespace MachVM

variable {s t : VmState} {held : ObjId → Nat} {o src new old : ObjId}

theorem ObjGraph.ext_link {g g' : ObjGraph} (hn : g.next = g'.next) (hc : g.cachedList = g'.cachedList)
    (hl : ∀ y, g.link y = g'.link y) : g = g' := by
  cases g
  cases g'
  simp only [ObjGraph.mk.injEq]
  exact ⟨hn, funext hl, hc⟩

theorem graph_link (s : VmState) (y : ObjId) : s.graph.link y = (s.object y).link := rfl

theorem set_link (g : ObjGraph) (o y : ObjId) (l : ObjLink) :
    (g.set o l).link y = if y = o then l else g.link y :=
  Function.update_apply _ _ _ _

theorem attachCopy_graph (hne : src ≠ new) :
    (attachCopy s src new).graph = s.graph.attach src new := by
  refine ObjGraph.ext_link rfl rfl ?_
  intro y
  simp only [attachCopy, ObjGraph.attach, graph_link, modObject_object, set_link]
  by_cases hy : y = new
  · subst hy
    simp [Ne.symm hne, VmObject.link]
  · by_cases hys : y = src
    · subst hys
      simp [hy, VmObject.link]
    · simp [hy, hys]

theorem spliceOldCopy_graph (hn : new ≠ src) (ho : old ≠ src) (hno : new ≠ old)
    (hc : (s.object src).copy = some old) (hs : (s.object old).shadow = some src)
    (h₀ : (s.object old).shadowOffset = 0) : ∃ u, spliceOldCopy s src new = .ok u ∧
      (attachCopy u src new).graph = (s.graph.detach src old new).attach src new := by
  simp only [spliceOldCopy, hc, hs, h₀, ne_eq, not_true_eq_false, or_self, if_false]
  refine ⟨_, rfl, ?_⟩
  refine ObjGraph.ext_link rfl rfl ?_
  intro y
  simp only [attachCopy, ObjGraph.attach, ObjGraph.detach, graph_link, modObject_object, set_link]
  by_cases hy : y = new
  · subst hy
    simp [hn, hno, VmObject.link]
  · by_cases hys : y = src
    · subst hys
      simp [hy, Ne.symm ho, VmObject.link]
    · by_cases hyo : y = old
      · subst hyo
        simp [hy, hys, VmObject.link]
      · simp [hy, hys, hyo]

theorem insertCopy_temporary (h : insertCopy s src new = .ok t) (y : ObjId) :
    (t.object y).temporary = (s.object y).temporary := by
  have hattach : ∀ u, ((attachCopy u src new).object y).temporary = (u.object y).temporary := by
    intro u
    simp only [attachCopy]
    refine (modObject_temporary (by intro x; rfl) y).trans ?_
    exact modObject_temporary (by intro x; rfl) y
  rw [insertCopy, spliceOldCopy] at h
  split at h
  next =>
    cases h
    exact hattach s
  next old hc =>
    split at h
    next => cases h
    next =>
      cases h
      refine (hattach _).trans ?_
      refine (modObject_temporary (by intro x; rfl) y).trans ?_
      refine (modObject_temporary (by intro x; rfl) y).trans ?_
      exact modObject_temporary (by intro x; rfl) y

theorem insertCopy_holds (new : ObjId) (h : Holds s held) (hsrc : (s.object src).alive = true)
    (hts : (s.object src).temporary = false) (hqs : src ∉ s.cachedList)
    (htn : (s.object new).temporary = true) (hsn : (s.object new).shadow = none)
    (hrn : (s.object new).refCount = 1) (hheld : 0 < held new) :
    Settles (insertCopy s src new) (Keeps held s) := by
  obtain ⟨rank, h⟩ := h
  have hn := h.held_alive hheld
  have hqn := h.not_cached hheld
  have hne : src ≠ new := by
    rintro rfl
    rw [hts] at htn
    cases htn
  have hrefs : s.graph.shadowRefs new = 0 := by
    have hex : (s.object new).refCount = s.graph.shadowRefs new + held new := h.exact new hn
    omega
  obtain ⟨rank', h', hlow, hhigh⟩ := h.insertRank hrefs hsn hne
  cases hc : (s.object src).copy with
  | none =>
    have hsplice : spliceOldCopy s src new = .ok s := by simp [spliceOldCopy, hc]
    have hins : insertCopy s src new = .ok (attachCopy s src new) := by rw [insertCopy, hsplice]; rfl
    rw [hins]
    refine ⟨⟨rank', ?_⟩, rfl, insertCopy_temporary hins⟩
    rw [attachCopy_graph hne]
    exact h'.attach hsrc hts hc hqs hn htn hsn hlow
  | some old =>
    obtain ⟨-, hold, hso, hoff⟩ := h.copy_spec src old hsrc hc
    have hos := h.shadow_ne hold hso
    have hno : new ≠ old := by
      rintro rfl
      rw [show (s.graph.link new).shadow = none from hsn] at hso
      cases hso
    obtain ⟨u, hu, hg⟩ := spliceOldCopy_graph (Ne.symm hne) (Ne.symm hos) hno hc hso hoff
    have hr := hhigh old (Ne.symm hno) (h.ranked old src hold hso)
    have h₁ := h'.detach hsrc hc hn htn hqn hr
    have hls : (s.graph.detach src old new).link src = { s.graph.link src with
        refCount := (s.graph.link src).refCount - 1, copy := none } := by
      rw [ObjGraph.detach, set_link_self]
    have hln : (s.graph.detach src old new).link new = { s.graph.link new with
        refCount := (s.graph.link new).refCount + 1 } := by
      rw [ObjGraph.detach, set_link_of_ne _ _ (Ne.symm hne), set_link_of_ne _ _ hno, set_link_self]
    have h₂ := h₁.attach (n := new) (by rw [hls]; exact hsrc) (by rw [hls]; exact hts) (by rw [hls]) hqs
      (by rw [hln]; exact hn) (by rw [hln]; exact htn) (by rw [hln]; exact hsn) hlow
    have hins : insertCopy s src new = .ok (attachCopy u src new) := by rw [insertCopy, hu]; rfl
    rw [hins]
    refine ⟨⟨rank', ?_⟩, congrArg ObjGraph.next hg, insertCopy_temporary hins⟩
    rw [hg]
    exact h₂

theorem vmObjectDeallocate_none (fuel : Nat) (s : VmState) : vmObjectDeallocate fuel s none = .ok s := by
  cases fuel <;> rfl

theorem vmObjectDeallocate_unused {size : VmSize} (fuel : Nat) (h : s.object o = { size := size }) :
    ∃ t, vmObjectDeallocate (fuel + 1) s (some o) = .ok t ∧ t.nextObject = s.nextObject ∧
      ∀ y, y ≠ o → t.object y = s.object y := by
  refine ⟨((s.modObject o fun x => { x with refCount := x.refCount - 1 }).modObject o
    fun x => { x with alive := false }).modObject o fun x => { x with pager := none }, ?_, rfl, ?_⟩
  · simp [vmObjectDeallocate, vmObjectTerminate, detachCopy, modObject_object, h, Except.bind, bind, pure,
      Except.pure, vmObjectDeallocate_none]
  · intro y hy
    simp [modObject_object, hy]

theorem plus_comm (held : ObjId → Nat) (o src : ObjId) :
    plus (plus held o) src = plus (plus held src) o := by
  funext y
  simp only [plus]
  omega

theorem copyDelayed_holds {off : VmOffset} (fuel : Nat) (h : Holds s held) (hsrc : 0 < held src)
    (hts : (s.object src).temporary = false) :
    Settles (copyDelayed fuel s src off) fun r => ∃ c, r.2 = delayedResult c off ∧
      (r.1.object c).temporary = true ∧ Holds r.1 (plus held c) ∧
      ∀ y < s.nextObject, (r.1.object y).temporary = (s.object y).temporary := by
  obtain ⟨rank, hinv⟩ := id h
  have ha : (s.object src).alive = true := hinv.held_alive hsrc
  have hne : src ≠ s.nextObject := Nat.ne_of_lt (hinv.lt ha)
  have h₁ := vmObjectAllocate_holds h (s.object src).size
  have hobj : ∀ y, y ≠ s.nextObject →
      (vmObjectAllocate s (s.object src).size).1.object y = s.object y :=
    fun y hy => vmObjectAllocate_object s _ hy
  have hnew : (vmObjectAllocate s (s.object src).size).1.object s.nextObject =
      { size := (s.object src).size } := Function.update_self _ _ _
  have hq : (vmObjectAllocate s (s.object src).size).1.cachedList = s.cachedList := rfl
  have hid : (vmObjectAllocate s (s.object src).size).2 = s.nextObject := rfl
  simp only [copyDelayed, hid]
  generalize (vmObjectAllocate s (s.object src).size).1 = s₁ at h₁ hobj hnew hq
  split
  next old hold =>
    have hc : (s.object src).copy = some old := by
      rw [hobj src hne] at hold
      exact (Option.filter_eq_some_iff.mp hold).1
    obtain ⟨-, hao, hso, -⟩ := hinv.copy_spec src old ha hc
    have hto : (s.object old).temporary = true := hinv.temporary_of_shadow hao hso
    have hon : old ≠ s.nextObject := Nat.ne_of_lt (hinv.lt hao)
    have hoq : old ∉ s₁.cachedList := by
      rw [hq]
      intro hm
      have := (hinv.cached old hm).2.2
      rw [show (s.graph.link old).temporary = true from hto] at this
      cases this
    have h₂ := vmObjectReference_holds h₁ (by rw [hobj old hon]; exact hao) hoq
    rw [plus_comm] at h₂
    have h₃ := vmObjectDeallocate_donates fuel _ (some s.nextObject) _ h₂
    cases fuel with
    | zero => rfl
    | succ fuel =>
      have hn₂ : (vmObjectReference s₁ (some old)).object s.nextObject = { size := (s.object src).size } := by
        rw [vmObjectReference_object, if_neg fun hc => hon (Option.some.inj hc), hnew]
      obtain ⟨t, ht, hnext, hoth⟩ := vmObjectDeallocate_unused fuel hn₂
      rw [ht] at h₃ ⊢
      have hk : ∀ y < s.nextObject, (t.object y).temporary = (s.object y).temporary := by
        intro y hy
        have hyn : y ≠ s.nextObject := Nat.ne_of_lt hy
        rw [hoth y hyn, vmObjectReference_object, hobj y hyn]
        split <;> rfl
      refine ⟨old, rfl, ?_, ?_, hk⟩
      · exact (hk old (hinv.lt hao)).trans hto
      · have := h₃.holds
        rwa [hnext, donated_self] at this
  next =>
    have hins := insertCopy_holds s.nextObject h₁ (by rw [hobj src hne]; exact ha)
      (by rw [hobj src hne]; exact hts) (by rw [hq]; exact hinv.not_cached hsrc) (by rw [hnew])
      (by rw [hnew]) (by rw [hnew]) (by rw [plus_self]; omega)
    refine hins.map ?_
    intro t ht
    refine ⟨s.nextObject, rfl, ?_, ht.holds, ?_⟩
    · show (t.object s.nextObject).temporary = true
      rw [ht.kind, hnew]
    · intro y hy
      show (t.object y).temporary = _
      rw [ht.kind, hobj y (Nat.ne_of_lt hy)]

theorem copySymmetric_holds (off : VmOffset) (h : Holds s held) (hsrc : 0 < held src)
    (hts : (s.object src).temporary = true) :
    Holds (copySymmetric s src off).1 (plus held src) ∧
      ((copySymmetric s src off).1.object src).temporary = true := by
  obtain ⟨rank, hinv⟩ := id h
  refine ⟨vmObjectReference_holds h (hinv.held_alive hsrc) (hinv.not_cached hsrc), ?_⟩
  show ((vmObjectReference s (some src)).object src).temporary = true
  rw [vmObjectReference_object, if_pos rfl]
  exact hts

theorem copySlowlyStart_holds (size : VmSize) (h : Holds s held) (hsrc : 0 < held src) :
    Holds (copySlowlyStart s src size).1
      (if size = 0 then held else plus (plus held src) s.nextObject) := by
  obtain ⟨rank, hinv⟩ := id h
  simp only [copySlowlyStart]
  split
  next => exact h
  next =>
    have h₁ := vmObjectReference_holds h (hinv.held_alive hsrc) (hinv.not_cached hsrc)
    exact vmObjectAllocate_holds h₁ size

end MachVM

namespace MachVM

/-- A reference from outside the object graph: a map entry, with its needs-copy flag, or an
operation in progress. -/
structure Holder where
  object : ObjId
  needsCopy : Bool
  deriving DecidableEq, Repr

def heldBy (hs : List Holder) (o : ObjId) : Nat := hs.countP fun h => h.object = o

/-- The references of the objects made between two states. -/
def donors (n n' : Nat) : List Holder := (List.range' n (n' - n)).map fun o => ⟨o, false⟩

/-- The object layer and those who refer to it. -/
structure ObjectWorld where
  vm : VmState
  holders : List Holder

/-- What may be asked of the object layer. A slow copy is one operation to start it, page
operations, and one to give its reference to the source up. -/
inductive ObjectOp
  | allocate (size : VmSize)
  | enter (pager : PortId) (size : VmSize)
  | lookup (o : ObjId)
  | setAttributes (o : ObjId) (objectReady mayCache : Bool) (copyStrategy : CopyStrategy)
  | reference (h : Holder)
  | copy (h : Holder) (offset : VmOffset) (size : VmSize) (interruptible : Bool)
  | shadow (h : Holder) (offset : VmOffset) (length : VmSize)
  | collapse (o : ObjId)
  | deallocate (h : Holder)
  deriving DecidableEq, Repr

/-- Whether the copy is made page by page. -/
def copiesSlowly (x : VmObject) (size : VmSize) : Bool :=
  !x.temporary && x.pagerReady && x.copyStrategy = .none && size ≠ 0

/-- Who refers to what after a copy of the object of a holder. -/
def copyHolders (x : VmObject) (h : Holder) (size : VmSize) (r : CopyResult) (hs : List Holder) :
    List Holder :=
  let hs := if r.srcNeedsCopy then { h with needsCopy := true } :: hs.erase h else hs
  let hs := if copiesSlowly x size then ⟨h.object, false⟩ :: hs else hs
  match r.object with
  | none => hs
  | some c => ⟨c, r.dstNeedsCopy⟩ :: hs

/-- One request. Only references that are held are used, only regions that need a copy are
shadowed, only memory managers of external objects set attributes, and what is copied does
not leave the copy to its memory manager. Other requests are not made. -/
def objectCall (fuel : Nat) (w : ObjectWorld) : ObjectOp → Except Stop ObjectWorld
  | .allocate size =>
    let r := vmObjectAllocate w.vm size
    .ok ⟨r.1, ⟨r.2, false⟩ :: w.holders⟩
  | .enter pager size =>
    let r := vmObjectEnter w.vm pager size
    .ok ⟨r.1, ⟨r.2, false⟩ :: w.holders⟩
  | .lookup o =>
    if (w.vm.object o).alive then .ok ⟨vmObjectLookup w.vm o, ⟨o, false⟩ :: w.holders⟩ else .ok w
  | .setAttributes o ready cache strategy =>
    if (w.vm.object o).temporary = false then
      .ok { w with vm := memoryObjectSetAttributes w.vm o ready cache strategy }
    else .ok w
  | .reference h =>
    if h ∈ w.holders then .ok ⟨vmObjectReference w.vm (some h.object), h :: w.holders⟩ else .ok w
  | .copy h offset size interruptible =>
    if h ∈ w.holders ∧ ((w.vm.object h.object).temporary = true ∨
        (w.vm.object h.object).copyStrategy ≠ .call) then
      (vmObjectCopy (fun s o _ size => .ok (copySlowlyStart s o size)) fuel w.vm (some h.object) offset
        size interruptible).map fun r =>
          ⟨r.1, copyHolders (w.vm.object h.object) h size r.2 w.holders⟩
    else .ok w
  | .shadow h offset length =>
    if h ∈ w.holders ∧ h.needsCopy then
      let r := vmObjectShadow w.vm (some h.object) offset length
      .ok ⟨r.1, ⟨r.2.1, false⟩ :: w.holders.erase h⟩
    else .ok w
  | .collapse o =>
    if (w.vm.object o).alive then
      (vmObjectCollapse fuel w.vm o).map fun s => { w with vm := s }
    else .ok w
  | .deallocate h =>
    if h ∈ w.holders then
      (vmObjectDeallocate fuel w.vm (some h.object)).map fun s =>
        ⟨s, donors w.vm.nextObject s.nextObject ++ w.holders.erase h⟩
    else .ok w

attribute [local simp] objectCall

/-- The reference counts are those of the holders, and what needs a copy is temporary. -/
structure WorldInv (w : ObjectWorld) : Prop where
  holds : Holds w.vm (heldBy w.holders)
  needsCopy : ∀ h ∈ w.holders, h.needsCopy = true → (w.vm.object h.object).temporary = true

variable {s t : VmState} {held : ObjId → Nat} {o : ObjId} {h : Holder} {hs : List Holder}
  {w : ObjectWorld}

theorem heldBy_cons (h : Holder) (hs : List Holder) : heldBy (h :: hs) = plus (heldBy hs) h.object := by
  funext y
  simp only [heldBy, plus, List.countP_cons, decide_eq_true_eq]
  by_cases hy : h.object = y
  · simp [hy]
  · simp [hy, Ne.symm hy]

theorem heldBy_erase (hm : h ∈ hs) : heldBy hs = plus (heldBy (hs.erase h)) h.object := by
  rw [← heldBy_cons]
  funext y
  exact (List.perm_cons_erase hm).countP_eq _

theorem heldBy_pos (hm : h ∈ hs) : 0 < heldBy hs h.object := by
  rw [heldBy_erase hm, plus_self]
  omega

theorem heldBy_donors (n n' : Nat) (hs : List Holder) :
    heldBy (donors n n' ++ hs) = donated (heldBy hs) n n' := by
  refine funext fun y : Nat => ?_
  simp only [heldBy, donated, donors, List.countP_append, List.countP_map]
  have hc : List.countP ((fun h => decide (h.object = y)) ∘ fun o : ObjId => (⟨o, false⟩ : Holder))
      (List.range' n (n' - n)) = (List.range' n (n' - n)).count y := by
    rw [List.count]
    refine List.countP_congr ?_
    intro z _
    simp
  rw [hc]
  by_cases hy : n ≤ y ∧ y < n'
  · have hnodup : (List.range' n (n' - n)).Nodup := List.nodup_range'
    rw [List.count_eq_one_of_mem hnodup (List.mem_range'_1.mpr (by omega))]
    simp [hy, Nat.add_comm]
  · rw [List.count_eq_zero_of_not_mem (fun hm => hy (by have := List.mem_range'_1.mp hm; omega))]
    simp [hy]

theorem WorldInv.lt (hw : WorldInv w) (hm : h ∈ w.holders) : h.object < w.vm.nextObject := by
  obtain ⟨rank, hi⟩ := hw.holds
  exact hi.lt (hi.held_alive (heldBy_pos hm))

end MachVM
