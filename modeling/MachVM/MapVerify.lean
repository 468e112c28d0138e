import MachVM.MapReach
import MachVM.MapTranslate

namespace MachVM

open Ring

/-- The operations of other threads, on any of the maps. -/
inductive MapCall
  | create (pmap : Option PmapId) (min max : VmOffset) (pageable : Bool)
  | find (i : MapId) (object : Option ObjId) (offset addr : VmOffset) (length : VmSize) (space : Bool)
  | enter (i : MapId) (addr : VmOffset) (size : VmSize) (mask : VmOffset) (anywhere : Bool)
      (object : Option ObjId) (offset : VmOffset) (needsCopy : Bool) (curProt maxProt : VmProt)
      (inheritance : VmInherit)
  | remove (i : MapId) (start endAddr : VmOffset)
  | protect (i : MapId) (start endAddr : VmOffset) (newProt : VmProt) (setMax : Bool)
  | inherit (i : MapId) (start endAddr : VmOffset) (newInheritance : VmInherit)
  | pageable (i : MapId) (start endAddr : VmOffset) (newPageable : Bool)
  | simplify (i : MapId) (start : VmOffset)
  | lookup (i : MapId) (vaddr : VmOffset) (faultType : VmProt)
  | fault (i : MapId) (vaddr : VmOffset) (faultType : VmProt) (changeWiring : Bool)
  | copy (dst src : MapId) (dstAddr : VmOffset) (len : VmSize) (srcAddr : VmOffset)
      (dstAlloc srcDestroy : Bool)
  | fork (i : MapId)
  | reference (i : MapId)
  | deallocate (i : MapId)

variable {σ : Type}

def mapCall (S : Services σ) (fuel : Nat) (k : Kernel σ) : MapCall → Option (Kernel σ)
  | .create pmap min max pageable => some (createMap k pmap min max pageable true).1
  | .find i o off addr len space => (vmMapFind S fuel k i o off addr len space).map (·.1)
  | .enter i addr size mask anywhere o off nc cp mp inh =>
    (vmMapEnter S fuel k i addr size mask anywhere o off nc cp mp inh).map (·.1)
  | .remove i s e => (vmMapRemove S fuel k i s e).map (·.1)
  | .protect i s e p b => (vmMapProtect S fuel k i s e p b).map (·.1)
  | .inherit i s e inh => (vmMapInherit S fuel k i s e inh).map (·.1)
  | .pageable i s e b => (vmMapPageable S fuel k i s e b).map (·.1)
  | .simplify i s => vmMapSimplify S fuel k i s
  | .lookup i va ft => (vmMapLookup S fuel k i va ft).map (·.1)
  | .fault i va ft cw => (vmFault S fuel k i va ft cw).map (·.1)
  | .copy dst src da len sa alloc destroy =>
    (vmMapCopy S fuel k dst src da len sa alloc destroy).map (·.1)
  | .fork i => (vmMapFork S fuel k i).map (·.1)
  | .reference i => some (vmMapReference k (some i))
  | .deallocate i => vmMapDeallocate S fuel k (some i)

/-- What may happen to the maps while a thread does not hold their locks, with the number of
operations: calls, any other operation that holds the write lock of one map, and anything
that leaves the maps alone. -/
inductive Interleaved (S : Services σ) : Nat → Kernel σ → Kernel σ → Prop
  | start (k : Kernel σ) : Interleaved S 0 k k
  | call {n : Nat} {k k₁ k₂ : Kernel σ} (fuel : Nat) (c : MapCall) : Interleaved S n k k₁ →
      mapCall S fuel k₁ c = some k₂ → Interleaved S (n + 1) k k₂
  | locked {n : Nat} {k k₁ : Kernel σ} (i : MapId) (m : VmMap) : Interleaved S n k k₁ →
      m.timestamp = (k₁.map i).timestamp + 1 → Interleaved S (n + 1) k (k₁.setMap i m)
  | elsewhere {n : Nat} {k k₁ k₂ : Kernel σ} : Interleaved S n k k₁ → k₂.map = k₁.map →
      k₂.freshMap = k₁.freshMap → Interleaved S n k k₂

variable {S : Services σ} {A : Set MapId} {k k' k₁ k₂ : Kernel σ} {i i' : MapId} {fuel n : Nat}
  {vaddr : VmOffset} {faultType : VmProt} {r : LookupResult}

theorem result_within {α : Type} {o : Option (Kernel σ × α)}
    (h : ∀ r : Kernel σ × α, o = some r → Within A k r.1) (hs : o.map (·.1) = some k') :
    Within A k k' := by
  obtain ⟨r, hr, rfl⟩ := Option.map_eq_some_iff.mp hs
  exact h r hr

theorem mapCall_within {c : MapCall} (hs : mapCall S fuel k c = some k') : Within A k k' := by
  cases c with
  | create pmap min max pageable =>
    cases Option.some.inj hs
    exact createMap_within
  | find => exact result_within (fun r hr => vmMapFind_within hr) hs
  | enter => exact result_within (fun r hr => vmMapEnter_within hr) hs
  | remove => exact result_within (fun r hr => vmMapRemove_within hr) hs
  | protect => exact result_within (fun r hr => vmMapProtect_within hr) hs
  | inherit => exact result_within (fun r hr => vmMapInherit_within hr) hs
  | pageable => exact result_within (fun r hr => vmMapPageable_within hr) hs
  | simplify => exact vmMapSimplify_within hs
  | lookup => exact result_within (fun r hr => vmMapLookup_within hr) hs
  | fault => exact result_within (fun r hr => vmFault_within hr) hs
  | copy => exact result_within (fun r hr => vmMapCopy_within hr) hs
  | fork => exact result_within (fun r hr => vmMapFork_within hr) hs
  | reference i =>
    cases Option.some.inj hs
    exact vmMapReference_within _
  | deallocate => exact vmMapDeallocate_within hs

theorem interleaved_within (h : Interleaved S n k k') : Within ∅ k k' := by
  induction h with
  | start k => exact .refl _ k
  | call fuel c _ hs ih => exact ih.trans (mapCall_within hs)
  | locked i m _ ht ih =>
    refine ih.trans (.of_setMap (by omega) ?_)
    intro _ hc
    omega
  | elsewhere _ hm hf ih => exact ih.trans (.of_map hf hm)

theorem stamp_inj {m m' : VmMap} (h : m'.stamp = m.stamp) (hle : m.timestamp ≤ m'.timestamp)
    (hlt : m'.timestamp < m.timestamp + 2 ^ 32) : m'.timestamp = m.timestamp := by
  have h₁ := congrArg BitVec.toNat h
  simp only [VmMap.stamp, BitVec.toNat_ofNat] at h₁
  omega

/-- Optimistic validation: when the version of a lookup verifies and neither version number
has advanced 2 ^ 32 times in between, the address means what the lookup said. -/
theorem vmMapVerify_sound (hk : MapsInOrder k) (hi : i < k.freshMap)
    (hl : vmMapLookup S fuel k i vaddr faultType = some (k₁, i', .ok r))
    (hr : Interleaved S n k₁ k₂)
    (hmain : (k₂.map i').timestamp < (k₁.map i').timestamp + 2 ^ 32)
    (hshare : (k₂.map r.version.shareMap).timestamp <
      (k₁.map r.version.shareMap).timestamp + 2 ^ 32)
    (hv : vmMapVerify k₂ i' r.version = true) : Translates k₂ i' vaddr r := by
  obtain ⟨⟨t, ht, hsh, hrest⟩, hcur⟩ := vmMapLookup_found hk hi hl
  have hw := interleaved_within hr
  simp only [vmMapVerify, Bool.and_eq_true, Bool.or_eq_true, decide_eq_true_eq] at hv
  have hsame : SameMap (k₁.map i') (k₂.map i') := by
    refine hw.same i' hcur.live (by simp) ?_
    exact stamp_inj (hv.1.trans hcur.main) (hw.mono i' hcur.live) hmain
  have hsame' : SameMap (k₁.map r.version.shareMap) (k₂.map r.version.shareMap) := by
    by_cases he : r.version.shareMap = i'
    · rw [he]
      exact hsame
    · have hst := (hv.2.resolve_left he).trans (hcur.share he)
      exact hw.same _ hcur.share_live (by simp)
        (stamp_inj (Option.some.inj hst) (hw.mono _ hcur.share_live) hshare)
  exact ⟨t, translate_same ht hsame (hsh ▸ hsame'), hsh, hrest⟩

/-- A map with the given entries in order, numbered from one. -/
def orderedMap (entry : EntryId → VmMapEntry) (count : Nat) : VmMap where
  next e := if e < count then e + 1 else header
  prev e := if e = header then count else e - 1
  entry := entry
  freshEntry := count + 1
  nentries := count
  pmap := some 0
  size := 0
  isMainMap := true
  refCount := 1
  hint := header
  firstFree := header
  entriesPageable := true
  timestamp := 0

/-- A task map with a region of its own, one that waits to be copied and a shared one. -/
def threeRegions : EntryId → VmMapEntry
  | 0 => { start := 0x1000, endAddr := 0x8000 }
  | 1 => { start := 0x1000, endAddr := 0x2000, object := .object 0, protection := protAll }
  | 2 => { start := 0x3000, endAddr := 0x4000, object := .object 0, protection := protAll
           copyOnWrite := true, needsCopy := true }
  | _ => { start := 0x5000, endAddr := 0x6000, object := .map 1, offset := 0x5000, isAMap := true
           protection := protAll }

def sharedRegion : EntryId → VmMapEntry
  | 0 => { start := 0x5000, endAddr := 0x6000 }
  | _ => { start := 0x5000, endAddr := 0x6000, protection := protAll }

/-- The task map, its sharing map and the empty map of another task. -/
def threeMaps : Kernel Nat where
  machine := 1
  map i := if i = 0 then orderedMap threeRegions 3
    else if i = 1 then { orderedMap sharedRegion 1 with isMainMap := false, pmap := none }
    else orderedMap threeRegions 0
  freshMap := 3

theorem threeMaps_inOrder : MapsInOrder threeMaps := by
  intro i hi
  have hi : i ∈ [0, 1, 2] := List.mem_range.mpr hi
  simp only [List.mem_cons, List.not_mem_nil, or_false] at hi
  rcases hi with rfl | rfl | rfl
  · refine ⟨[1, 2, 3], ⟨⟨by simp [Seg, threeMaps, orderedMap, header], by decide⟩, rfl, ?_, ?_, ?_, ?_,
      ?_, ?_, ?_⟩, ?_⟩
    all_goals decide
  · refine ⟨[1], ⟨⟨by simp [Seg, threeMaps, orderedMap, header], by decide⟩, rfl, ?_, ?_, ?_, ?_,
      ?_, ?_, ?_⟩, ?_⟩
    all_goals decide
  · refine ⟨[], ⟨⟨by simp [Seg, threeMaps, orderedMap, header], by decide⟩, rfl, ?_, ?_, ?_, ?_,
      ?_, ?_, ?_⟩, ?_⟩
    all_goals decide

/-- A shared page is looked up for writing, another task allocates memory, and the version
verifies. -/
theorem threeMaps_verify_sound :
    ∃ k₁ k₂ r, vmMapLookup bareServices 8 threeMaps 0 0x5000 protWrite = some (k₁, 0, .ok r) ∧
      mapCall bareServices 8 k₁ (.find 2 none 0 0x1000 0x1000 true) = some k₂ ∧
      vmMapVerify k₂ 0 r.version = true ∧ r.object = some 1 ∧ Translates k₂ 0 0x5000 r := by
  have hsome : ((vmMapLookup bareServices 8 threeMaps 0 0x5000 protWrite).bind fun found =>
      found.2.2.toOption.bind fun r =>
        (mapCall bareServices 8 found.1 (.find 2 none 0 0x1000 0x1000 true)).map fun k₂ =>
          (vmMapVerify k₂ 0 r.version, r.object, [(found.1.map 0).timestamp,
            (found.1.map 1).timestamp, (k₂.map 0).timestamp, (k₂.map 1).timestamp, found.2.1,
            r.version.shareMap])) = some (true, some 1, [0, 1, 0, 1, 0, 1]) := by decide +kernel
  obtain ⟨⟨k₁, i', found⟩, hl, hsome⟩ := Option.bind_eq_some_iff.mp hsome
  obtain ⟨r, hr, hsome⟩ := Option.bind_eq_some_iff.mp hsome
  obtain ⟨k₂, hc, hsome⟩ := Option.map_eq_some_iff.mp hsome
  simp only [Prod.mk.injEq, List.cons.injEq, and_true] at hsome
  obtain ⟨hv, ho, h₀, h₁, h₂, h₃, rfl, hsh⟩ := hsome
  cases found with
  | error why => cases hr
  | ok t =>
    cases Option.some.inj hr
    refine ⟨k₁, k₂, r, hl, hc, hv, ho, ?_⟩
    exact vmMapVerify_sound threeMaps_inOrder (by decide) hl (.call 8 _ (.start k₁) hc)
      (by omega) (by rw [hsh]; omega) hv

/-- A kernel in which the version number of a map has advanced and nothing else. -/
def aged (k : Kernel σ) (i : MapId) (n : Nat) : Kernel σ :=
  k.setMap i { k.map i with timestamp := (k.map i).timestamp + n }

theorem searchEntry_stamp {a : VmOffset} {last cur : EntryId} (m : VmMap) (t : Nat) :
    searchEntry { m with timestamp := t } a last fuel cur =
      (searchEntry m a last fuel cur).map fun r => ({ r.1 with timestamp := t }, r.2) := by
  induction fuel generalizing cur with
  | zero => rfl
  | succ fuel ih =>
    simp only [searchEntry, ih]
    split
    next => rfl
    next =>
      split
      next => split <;> rfl
      next => rfl

theorem vmMapLookupEntry_stamp {a : VmOffset} (m : VmMap) (t : Nat) :
    vmMapLookupEntry fuel { m with timestamp := t } a =
      (vmMapLookupEntry fuel m a).map fun r => ({ r.1 with timestamp := t }, r.2) := by
  simp only [vmMapLookupEntry, searchEntry_stamp]
  split
  next =>
    split
    next =>
      split <;> rfl
    next => rfl
  next =>
    split
    next =>
      split <;> rfl
    next => rfl

theorem vmMapSimplify_idle {a : VmOffset} {p : EntryId}
    (hl : vmMapLookupEntry fuel (k.map i) a = some (k.map i, false, p)) (n : Nat) :
    vmMapSimplify S fuel (aged k i n) i a = some (aged k i (n + 1)) := by
  have hlock : vmMapLock ((aged k i n).map i) =
      { k.map i with timestamp := (k.map i).timestamp + (n + 1) } := by
    rw [aged, setMap_map_self]
    rfl
  rw [vmMapSimplify, hlock, vmMapLookupEntry_stamp, hl]
  simp [aged, setMap_setMap]

theorem simplify_interleaved {a : VmOffset} {p : EntryId} {c : Nat}
    (hl : vmMapLookupEntry fuel (k₁.map i) a = some (k₁.map i, false, p))
    (h : Interleaved S c k k₁) (n : Nat) : Interleaved S (c + n) k (aged k₁ i n) := by
  induction n with
  | zero =>
    have : aged k₁ i 0 = k₁ := by simp [aged, Kernel.setMap]
    rw [this]
    exact h
  | succ n ih => exact .call fuel (.simplify i a) ih (vmMapSimplify_idle hl n)

/-- Fewer than 2 ^ 32 operations may advance the version number 2 ^ 32 times: a write to a
region that waits to be copied advances it twice. The page looked up has long been removed
when its version verifies. -/
theorem stale_version_verifies :
    MapsInOrder threeMaps ∧ ∃ k₁ k₂ r n,
      vmMapLookup bareServices 8 threeMaps 0 0x1000 protRead = some (k₁, 0, .ok r) ∧
      Interleaved bareServices n k₁ k₂ ∧ n < 2 ^ 32 ∧ vmMapVerify k₂ 0 r.version = true ∧
      translate k₂ 0 0x1000 = none := by
  have hsome : ((vmMapLookup bareServices 8 threeMaps 0 0x1000 protRead).bind fun found =>
      found.2.2.toOption.bind fun r =>
        (mapCall bareServices 8 found.1 (.remove 0 0x1000 0x2000)).bind fun k₂ =>
          (mapCall bareServices 8 k₂ (.lookup 0 0x3000 protWrite)).bind fun k₃ =>
            (mapCall bareServices 8 k₃ (.simplify 0 0x7000)).bind fun k₄ =>
              (vmMapLookupEntry 8 (k₄.map 0) 0x7000).map fun e =>
                (e.2.1, entryAt (k₄.map 0) 0x1000, [(k₄.map 0).timestamp,
                  r.version.mainTimestamp.toNat, found.2.1, r.version.shareMap, (k₄.map 0).hint,
                  e.1.hint])) = some (false, none, [4, 0, 0, 0, 3, 3]) := by decide +kernel
  obtain ⟨⟨k₁, i', found⟩, hl, hsome⟩ := Option.bind_eq_some_iff.mp hsome
  obtain ⟨r, hr, hsome⟩ := Option.bind_eq_some_iff.mp hsome
  obtain ⟨k₂, h₂, hsome⟩ := Option.bind_eq_some_iff.mp hsome
  obtain ⟨k₃, h₃, hsome⟩ := Option.bind_eq_some_iff.mp hsome
  obtain ⟨k₄, h₄, hsome⟩ := Option.bind_eq_some_iff.mp hsome
  obtain ⟨⟨m, hit, e⟩, he, hsome⟩ := Option.map_eq_some_iff.mp hsome
  simp only [Prod.mk.injEq, List.cons.injEq, and_true] at hsome
  obtain ⟨rfl, hat, ht, hv, rfl, hsh, hh₁, hh₂⟩ := hsome
  have hm : m = k₄.map 0 := by
    rw [vmMapLookupEntry_hint he, hh₂, ← hh₁]
    rfl
  subst hm
  have hrun : Interleaved bareServices 3 k₁ k₄ :=
    .call 8 _ (.call 8 _ (.call 8 _ (.start k₁) h₂) h₃) h₄
  obtain ⟨n, hn⟩ : ∃ n, n = 2 ^ 32 - 4 := ⟨_, rfl⟩
  have hstamp : ((aged k₄ 0 n).map 0).stamp = 0#32 := by
    rw [VmMap.stamp, aged, setMap_map_self]
    change BitVec.ofNat 32 ((k₄.map 0).timestamp + n) = 0#32
    rw [ht, hn]
    decide
  cases found with
  | error why => cases hr
  | ok t =>
    cases Option.some.inj hr
    refine ⟨threeMaps_inOrder, k₁, aged k₄ 0 n, r, 3 + n, hl, simplify_interleaved he hrun n,
      by omega, ?_, ?_⟩
    · have hmain : r.version.mainTimestamp = 0#32 := BitVec.eq_of_toNat_eq hv
      simp only [vmMapVerify, hsh, hmain, hstamp, decide_true, Bool.true_or, Bool.and_self]
    · have hgone : entryAt ((aged k₄ 0 n).map 0) 0x1000 = none := by
        rw [← hat]
        refine entryAt_congr ?_ ?_ ?_ _
        all_goals rw [aged, setMap_map_self]
      rw [translate, hgone]
      rfl

end MachVM
