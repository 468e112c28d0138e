import MachVM.MapInsertSteps

namespace MachVM

open Ring

/-- The calls a task makes on its address map. -/
inductive MapOp
  | find (object : Option ObjId) (offset addr : VmOffset) (length : VmSize) (space : Bool)
  | remove (start endAddr : VmOffset)
  | protect (start endAddr : VmOffset) (newProt : VmProt) (setMax : Bool)
  | inherit (start endAddr : VmOffset) (newInheritance : VmInherit)
  | pageable (start endAddr : VmOffset) (newPageable : Bool)
  | simplify (start : VmOffset)
  | lookup (vaddr : VmOffset) (faultType : VmProt)

variable {σ : Type} {S : Services σ} {k k' : Kernel σ} {i : MapId} {l : List EntryId} {fuel : Nat}
  {m : VmMap} {P : VmMap → List EntryId → Prop} [Steady P]

/-- The kernel after a call, whether it succeeded or failed. -/
def mapStep (S : Services σ) (fuel : Nat) (k : Kernel σ) (i : MapId) : MapOp → Option (Kernel σ)
  | .find o off addr len space => (vmMapFind S fuel k i o off addr len space).map (·.1)
  | .remove s e => (vmMapRemove S fuel k i s e).map (·.1)
  | .protect s e p b => (vmMapProtect S fuel k i s e p b).map (·.1)
  | .inherit s e inh => (vmMapInherit S fuel k i s e inh).map (·.1)
  | .pageable s e b => (vmMapPageable S fuel k i s e b).map (·.1)
  | .simplify s => vmMapSimplify S fuel k i s
  | .lookup va ft => (vmMapLookup S fuel k i va ft).map (·.1)

/-- The kernels reached by calls on a new map. Between two calls the rest of the kernel may
change in any way. -/
inductive MapReach (S : Services σ) (i : MapId) : Kernel σ → Prop
  | create (k : Kernel σ) (zone : VmMap) (pmap : Option PmapId) (min max : VmOffset) (pageable : Bool) :
      min < max → MapReach S i (k.setMap i (vmMapCreate zone pmap min max pageable))
  | call {k k' : Kernel σ} (fuel : Nat) (op : MapOp) : MapReach S i k →
      mapStep S fuel k i op = some k' → MapReach S i k'
  | elsewhere {k k' : Kernel σ} : MapReach S i k → k'.map i = k.map i → MapReach S i k'

theorem lockMap_plain (h : P (k.map i) l) : P ((lockMap k i).map i) l := by
  rw [lockMap, setMap_map_self]
  exact Steady.lock h

theorem vmMapProtect_plain {Q : VmMap → List EntryId → Prop} [Reprotects Q] {s e : VmOffset} {p : VmProt}
    {b : Bool} {kr : KernReturn} (h : Q (k.map i) l) (hs : vmMapProtect S fuel k i s e p b = some (k', kr)) :
    ∃ l', Q (k'.map i) l' := by
  obtain ⟨⟨k₁, entry⟩, hf, hs⟩ := Option.bind_eq_some_iff.mp hs
  obtain ⟨l₁, l₂, h₁, he⟩ := firstInRange_plain (lockMap_plain h) hf
  obtain ⟨why, _, hs⟩ := Option.bind_eq_some_iff.mp hs
  cases why with
  | some why =>
    cases Option.some.inj hs
    exact ⟨_, h₁⟩
  | none =>
    obtain ⟨k₂, hp, hs⟩ := Option.bind_eq_some_iff.mp hs
    cases Option.some.inj hs
    exact protectRange_plain h₁ he hp

theorem vmMapInherit_plain {s e : VmOffset} {inh : VmInherit} {kr : KernReturn}
    (h : P (k.map i) l) (hs : vmMapInherit S fuel k i s e inh = some (k', kr)) :
    ∃ l', P (k'.map i) l' := by
  unfold vmMapInherit at hs
  split at hs
  next =>
    cases Option.some.inj hs
    exact ⟨l, h⟩
  next =>
    obtain ⟨⟨k₁, entry⟩, hf, hs⟩ := Option.bind_eq_some_iff.mp hs
    obtain ⟨l₁, l₂, h₁, he⟩ := firstInRange_plain (lockMap_plain h) hf
    obtain ⟨k₂, hp, hs⟩ := Option.bind_eq_some_iff.mp hs
    cases Option.some.inj hs
    exact inheritRange_plain h₁ he hp

theorem vmMapPageable_plain {s e : VmOffset} {b : Bool} {kr : KernReturn}
    (h : P (k.map i) l) (hs : vmMapPageable S fuel k i s e b = some (k', kr)) :
    ∃ l', P (k'.map i) l' := by
  obtain ⟨⟨k₁, entry⟩, hf, hs⟩ := Option.bind_eq_some_iff.mp hs
  obtain ⟨l₁, l₂, h₁, he⟩ := firstInRange_plain (lockMap_plain h) hf
  cases b with
  | true =>
    obtain ⟨ok, hc, hs⟩ := Option.bind_eq_some_iff.mp hs
    cases ok with
    | true =>
      obtain ⟨k₂, hu, hs⟩ := Option.bind_eq_some_iff.mp hs
      cases Option.some.inj hs
      exact unwireEntries_plain h₁ he (wiredCheck_true (Steady.plain h₁).toMapInv he hc) hu
    | false =>
      cases Option.some.inj hs
      exact ⟨_, h₁⟩
  | false =>
    obtain ⟨k₂, hw, hs⟩ := Option.bind_eq_some_iff.mp hs
    obtain ⟨k₃, hv, hs⟩ := Option.bind_eq_some_iff.mp hs
    cases Option.some.inj hs
    obtain ⟨q, h₂, he₂⟩ := wireCount_plain h₁ he hw
    refine ⟨_, wireFaults_plain h₂ ?_ hv⟩
    have := after_mem q header
    rw [he₂]
    simp only [List.mem_append, List.mem_cons] at this ⊢
    tauto

theorem mapStep_plain {op : MapOp} (h : PlainMap (k.map i) l) (hs : mapStep S fuel k i op = some k') :
    ∃ l', PlainMap (k'.map i) l' := by
  cases op with
  | find o off addr len space =>
    obtain ⟨⟨k₁, addr', kr⟩, hf, rfl⟩ := Option.map_eq_some_iff.mp hs
    exact vmMapFind_plain h hf
  | remove s e =>
    obtain ⟨⟨k₁, kr⟩, hr, rfl⟩ := Option.map_eq_some_iff.mp hs
    obtain ⟨k₂, hd, hr⟩ := Option.map_eq_some_iff.mp hr
    cases hr
    exact vmMapDelete_plain (lockMap_plain h) hd
  | protect s e p b =>
    obtain ⟨⟨k₁, kr⟩, hp, rfl⟩ := Option.map_eq_some_iff.mp hs
    exact vmMapProtect_plain h hp
  | inherit s e inh =>
    obtain ⟨⟨k₁, kr⟩, hp, rfl⟩ := Option.map_eq_some_iff.mp hs
    exact vmMapInherit_plain h hp
  | pageable s e b =>
    obtain ⟨⟨k₁, kr⟩, hp, rfl⟩ := Option.map_eq_some_iff.mp hs
    exact vmMapPageable_plain h hp
  | simplify s => exact vmMapSimplify_plain h hs
  | lookup va ft =>
    obtain ⟨⟨k₁, j, r⟩, hl, rfl⟩ := Option.map_eq_some_iff.mp hs
    exact ⟨l, (vmMapLookup_plain h hl).2⟩

theorem mapReach_plain (h : MapReach S i k) : ∃ l, PlainMap (k.map i) l := by
  induction h with
  | create k zone pmap min max pageable _ =>
    exact ⟨[], by rw [setMap_map_self]; exact vmMapCreate_plain zone pmap min max pageable⟩
  | call fuel op _ hs ih =>
    obtain ⟨l, hl⟩ := ih
    exact mapStep_plain hl hs
  | elsewhere _ he ih =>
    obtain ⟨l, hl⟩ := ih
    exact ⟨l, he ▸ hl⟩

/-- The node a walk along the next links stands on after some steps from the header. -/
def walk (m : VmMap) (j : Nat) : EntryId := m.next^[j] header

/-- The list of entries as it lies in memory: a walk along the next links visits `count`
distinct entries and comes back to the header, the previous links undo the next links, the
entries are non-empty, in order and within the bounds, and both cached pointers name the
header or an entry of the list. -/
structure MapRepresentation (m : VmMap) (count : Nat) : Prop where
  nentries : m.nentries = count
  returns : walk m (count + 1) = header
  distinct : ∀ j j', j ≤ count → j' ≤ count → walk m j = walk m j' → j = j'
  prev_next : ∀ j ≤ count, m.prev (walk m (j + 1)) = walk m j
  span : ∀ j, 0 < j → j ≤ count → (m.entry (walk m j)).start < (m.entry (walk m j)).endAddr
  ordered : ∀ j, 0 < j → j < count →
    (m.entry (walk m j)).endAddr ≤ (m.entry (walk m (j + 1))).start
  bounds : ∀ j, 0 < j → j ≤ count →
    m.minOffset ≤ (m.entry (walk m j)).start ∧ (m.entry (walk m j)).endAddr ≤ m.maxOffset
  hint : ∃ j ≤ count, m.hint = walk m j
  first_free : ∃ j ≤ count, m.firstFree = walk m j

theorem MapInv.walk_get (h : MapInv m l) (j : Nat) (hj : j < (header :: l).length) :
    walk m j = (header :: l).get ⟨j, hj⟩ := (h.ring.seg.iterate j).1 hj

theorem MapInv.walk_mem (h : MapInv m l) {j : Nat} (h0 : 0 < j) (hj : j ≤ l.length) :
    walk m j ∈ l := by
  obtain ⟨j, rfl⟩ := Nat.exists_eq_succ_of_ne_zero (Nat.ne_of_gt h0)
  rw [h.walk_get (j + 1) (Nat.lt_succ_of_le hj)]
  exact List.getElem_mem _

theorem MapInv.mem_walk (h : MapInv m l) {e : EntryId} (he : e ∈ header :: l) :
    ∃ j ≤ l.length, e = walk m j := by
  obtain ⟨⟨j, hj⟩, rfl⟩ := List.mem_iff_get.mp he
  exact ⟨j, Nat.le_of_lt_succ hj, (h.walk_get j hj).symm⟩

theorem MapInv.representation (h : MapInv m l) : MapRepresentation m l.length := by
  have hlt : ∀ j, j ≤ l.length → j < (header :: l).length := fun j hj => Nat.lt_succ_of_le hj
  refine ⟨h.count, (h.ring.seg.iterate _).2 rfl, ?_, ?_, ?_, ?_, ?_, h.mem_walk h.hint_mem,
    h.mem_walk h.free_mem⟩
  · intro j j' hj hj' he
    rw [h.walk_get j (hlt j hj), h.walk_get j' (hlt j' hj')] at he
    have := (List.nodup_iff_injective_get.mp h.ring.nodup) he
    simpa using this
  · intro j hj
    have hm : walk m j ∈ header :: l := by
      rw [h.walk_get j (hlt j hj)]
      exact List.get_mem _ _
    have := h.ring.prev_next hm
    rwa [walk, Function.iterate_succ_apply']
  · intro j h0 hj
    exact h.span _ (h.walk_mem h0 hj)
  · intro j h0 hj
    obtain ⟨j, rfl⟩ := Nat.exists_eq_succ_of_ne_zero (Nat.ne_of_gt h0)
    rw [h.walk_get (j + 1) (hlt _ (Nat.le_of_lt hj)), h.walk_get (j + 1 + 1) (hlt _ hj)]
    exact List.pairwise_iff_getElem.mp h.sorted j (j + 1) (Nat.lt_of_succ_lt hj) hj (by simp)
  · intro j h0 hj
    exact ⟨h.low _ (h.walk_mem h0 hj), h.high _ (h.walk_mem h0 hj)⟩

/-- Whatever the object, fault and physical map layers do, every sequence of calls on a
new task map leaves its representation in order. -/
theorem mapReach_representation (h : MapReach S i k) :
    ∃ count, MapRepresentation (k.map i) count := by
  obtain ⟨l, hl⟩ := mapReach_plain h
  exact ⟨l.length, hl.representation⟩

/-- Run calls one after another, each with the same fuel. -/
def mapRun (S : Services σ) (fuel : Nat) (k : Kernel σ) (i : MapId) : List MapOp → Option (Kernel σ)
  | [] => some k
  | op :: ops => (mapStep S fuel k i op).bind fun k => mapRun S fuel k i ops

theorem mapRun_reach {ops : List MapOp} (h : MapReach S i k) (hr : mapRun S fuel k i ops = some k') :
    MapReach S i k' := by
  induction ops generalizing k with
  | nil =>
    cases Option.some.inj hr
    exact h
  | cons op ops ih =>
    obtain ⟨k₁, hs, hr⟩ := Option.bind_eq_some_iff.mp hr
    exact ih (.call fuel op h hs) hr

/-- An object layer that only hands out objects, and never has to wait for a page. -/
def bareServices : Services Nat where
  kernelObject := 0
  objectAllocate s _ := some (s + 1, s)
  objectReference s _ := some s
  objectDeallocate s _ := some s
  objectCoalesce s prev next _ _ _ _ := some (s, prev.isNone && next.isNone)
  objectShadow s _ _ _ := some (s + 1, s, 0)
  objectCopy s o off _ := some (s, { object := o, offset := off, srcNeedsCopy := true, dstNeedsCopy := true })
  objectCopySlowly s _ _ _ _ := some (s + 1, some s)
  objectPageRemove s _ _ _ := some s
  objectPmapRemove s _ _ _ := some s
  objectPmapCopy s _ _ _ := some s
  pmapCreate s := some (s, 0)
  pmapDestroy s _ := some s
  pmapRemove s _ _ _ := some s
  pmapProtect s _ _ _ _ := some s
  pmapCopy s _ _ _ _ _ := some s
  pmapPageable s _ _ _ _ := some s
  pmapChangeWiring s _ _ _ := some s
  lockReadToWrite s _ := some (s, false)
  faultPage s _ _ _ _ _ prot := some (s, .success 0 prot)
  faultRelease s _ _ := some s
  copyObjectChanged _ _ := false
  faultEnter s _ _ _ _ _ _ _ := some s
  faultWireFast s _ _ _ := some (s, .failure)
  faultUnwirePage s _ _ := some s

/-- Memory as a zone may hand it out, with links that lead nowhere. -/
def zoneMap : VmMap where
  next _ := 7
  prev _ := 9
  entry _ := { wiredCount := 3, isAMap := true }
  freshEntry := 0
  nentries := -1
  pmap := none
  size := 0
  isMainMap := false
  refCount := 0
  hint := 5
  firstFree := 6
  entriesPageable := false
  timestamp := 0

/-- The entries of a task map, in order, linked up behind the header. -/
def tableMap (min max : VmOffset) (pmap : Option PmapId) (xs : List VmMapEntry) : VmMap where
  next e := if e < xs.length then e + 1 else header
  prev e := if e = header then xs.length else e - 1
  entry e := if e = header then { start := min, endAddr := max } else xs.getD (e - 1) {}
  freshEntry := xs.length + 1
  nentries := xs.length
  pmap := pmap
  size := 0
  isMainMap := true
  refCount := 1
  hint := header
  firstFree := header
  entriesPageable := true
  timestamp := 0

def emptyKernel : Kernel Nat := { machine := 1, map := fun _ => zoneMap, freshMap := 1 }

/-- Allocate three pages, wire the middle one, protect and remove across its borders, and
allocate again. -/
def exampleCalls : List MapOp :=
  [.find none 0 0x1000 0x3000 true, .pageable 0x2000 0x3000 false, .lookup 0x1000 protWrite,
    .protect 0x1800 0x2800 protRead false, .inherit 0x1000 0xF000 .share,
    .remove 0x2400 0x9000, .simplify 0x2000, .find (some 0) 0 0 0x1000 true]

theorem exampleCalls_representation :
    ∃ k', mapRun bareServices 12 (emptyKernel.setMap 0 (vmMapCreate zoneMap (some 0) 0x1000 0x8000 true))
        0 exampleCalls = some k' ∧ (k'.map 0).nentries = 4 ∧
      ∃ count, MapRepresentation (k'.map 0) count := by
  have hsome : ((mapRun bareServices 12
      (emptyKernel.setMap 0 (vmMapCreate zoneMap (some 0) 0x1000 0x8000 true)) 0 exampleCalls).map
        fun k' => (k'.map 0).nentries) = some 4 := by decide +kernel
  obtain ⟨k', hk, hn⟩ := Option.map_eq_some_iff.mp hsome
  have hreach := mapRun_reach (.create emptyKernel zoneMap (some 0) 0x1000 0x8000 true (by decide)) hk
  exact ⟨k', hk, hn, mapReach_representation hreach⟩

end MachVM
