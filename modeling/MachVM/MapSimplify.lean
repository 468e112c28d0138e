import MachVM.MapInsertSteps
import MachVM.MapView
import MachVM.Object

namespace MachVM

open Ring

variable {S : Services VmState} {k k' : Kernel VmState} {i j : MapId} {m n : VmMap}
  {l l₁ l₂ : List EntryId} {e x : EntryId} {a b : VmOffset} {r : MapObject} {y : VmMapEntry}

/-- The reference counts are those of the object layer; the other services may be anything. -/
def countingServices (S : Services VmState) (depth : Nat) : Services VmState :=
  { S with
    objectReference := fun s o => some (vmObjectReference s o)
    objectDeallocate := fun s o => (vmObjectDeallocate (depth + 1) s o).toOption }

/-- What an entry holds a reference to: the code reads the union by the two flags. -/
def VmMapEntry.referent (x : VmMapEntry) : MapObject :=
  if x.isAMap || x.isSubMap then (x.object.shareMap.map MapObject.map).getD .null
  else .ofObject x.object.vmObject

/-- The reference count of an object or of a map. -/
def refCountOf (k : Kernel VmState) : MapObject → Int
  | .null => 0
  | .object o => (k.machine.object o).refCount
  | .map j => (k.map j).refCount

/-- How many entries of the list refer to an object or to a map. -/
def referents (m : VmMap) (l : List EntryId) (r : MapObject) : Nat :=
  l.countP fun e => (m.entry e).referent = r

/-- The entries of a map in order, as they stand in memory. -/
def contents (m : VmMap) (l : List EntryId) : List VmMapEntry := l.map m.entry

theorem referents_append (m : VmMap) (l₁ l₂ : List EntryId) (r : MapObject) :
    referents m (l₁ ++ l₂) r = referents m l₁ r + referents m l₂ r :=
  List.countP_append

theorem referents_cons (m : VmMap) (e : EntryId) (l : List EntryId) (r : MapObject) :
    referents m (e :: l) r = referents m l r + if (m.entry e).referent = r then 1 else 0 := by
  rw [referents, List.countP_cons]
  simp only [decide_eq_true_eq]
  rfl

theorem referents_congr (h : ∀ e ∈ l, n.entry e = m.entry e) (r : MapObject) :
    referents n l r = referents m l r := by
  refine List.countP_congr fun e he => ?_
  rw [h e he]

theorem refCountOf_setMap (h : m.refCount = (k.map i).refCount) (r : MapObject) :
    refCountOf (k.setMap i m) r = refCountOf k r := by
  cases r with
  | null => rfl
  | object o => rfl
  | map j =>
    rw [refCountOf, refCountOf, setMap_map]
    split
    next hj => rw [h, hj]
    next => rfl

/-- A well-formed map: its entries are in order, and each of them holds a reference. -/
structure Referenced (k : Kernel VmState) (i : MapId) (l : List EntryId) : Prop where
  inv : MapInv (k.map i) l
  refs : ∀ r ≠ .null, (referents (k.map i) l r : Int) ≤ refCountOf k r

/-- An operation that nobody sees: every address of the map is seen as before, and every
reference count moves with the number of entries. -/
structure Invisible (k k' : Kernel VmState) (i : MapId) (l l' : List EntryId) : Prop where
  inv : MapInv (k'.map i) l'
  view : ∀ a, pageAt (k'.map i) a = pageAt (k.map i) a
  refs : ∀ r ≠ .null, refCountOf k' r - refCountOf k r =
    (referents (k'.map i) l' r : Int) - referents (k.map i) l r

theorem invisible_setMap {v : Nat} (hn : n = { k.map i with hint := n.hint, timestamp := v })
    (hinv : MapInv n l) : Invisible k (k.setMap i n) i l l := by
  have hentry : n.entry = (k.map i).entry := by rw [hn]
  refine ⟨?_, fun a => ?_, fun r _ => ?_⟩
  · rwa [setMap_map_self]
  · rw [setMap_map_self, pageAt, pageAt, hentry, entryAt_congr (by rw [hn]) (by rw [hn]) hentry]
  · rw [refCountOf_setMap (by rw [hn]), setMap_map_self, referents_congr fun z _ => congrFun hentry z]
    omega

theorem Referenced.invisible (h : Referenced k i l) (hv : Invisible k k' i l l₁) :
    Referenced k' i l₁ := by
  refine ⟨hv.inv, fun r hr => ?_⟩
  have h₁ := h.refs r hr
  have h₂ := hv.refs r hr
  omega

/-- One reference more, and nothing else. -/
structure AddsReference (k k' : Kernel VmState) (r : MapObject) : Prop where
  entry : ∀ j, (k'.map j) = { k.map j with refCount := (k'.map j).refCount }
  count : ∀ q ≠ .null, refCountOf k' q = refCountOf k q + if r = q then 1 else 0

theorem AddsReference.refl (k : Kernel VmState) : AddsReference k k .null :=
  ⟨fun _ => rfl, fun q hq => by rw [if_neg (Ne.symm hq), Int.add_zero]⟩

theorem vmMapReference_adds (k : Kernel VmState) (j : MapId) :
    AddsReference k (vmMapReference k (some j)) (.map j) := by
  refine ⟨fun z => ?_, fun q hq => ?_⟩
  · rw [vmMapReference, setMap_map]
    split
    next hz => rw [hz]
    next => rfl
  · cases q with
    | null => exact absurd rfl hq
    | object o => simp [refCountOf, vmMapReference, Kernel.setMap]
    | map z =>
      simp only [refCountOf, vmMapReference, setMap_map, MapObject.map.injEq, eq_comm (a := j)]
      split
      next hz => rw [hz]
      next => rw [Int.add_zero]

theorem vmObjectReference_adds (k : Kernel VmState) (o : ObjId) :
    AddsReference k (k.setMachine (vmObjectReference k.machine (some o))) (.object o) := by
  refine ⟨fun z => rfl, fun q hq => ?_⟩
  cases q with
  | null => exact absurd rfl hq
  | map j => simp [refCountOf, Kernel.setMachine]
  | object z =>
    simp only [refCountOf, vmObjectReference, VmState.modObject, VmState.setObject,
      Kernel.setMachine, MapObject.object.injEq, Function.update_apply, eq_comm (a := o)]
    split
    next hz => rw [hz]
    next => rw [Int.add_zero]

theorem entryReference_adds (S : Services VmState) (d : Nat) (k : Kernel VmState) (x : VmMapEntry) :
    ∃ k', entryReference (countingServices S d) k x = some k' ∧ AddsReference k k' x.referent := by
  rw [entryReference, VmMapEntry.referent]
  split
  next =>
    refine ⟨_, rfl, ?_⟩
    cases x.object.shareMap with
    | none => exact .refl k
    | some j => exact vmMapReference_adds k j
  next =>
    refine ⟨_, rfl, ?_⟩
    cases x.object.vmObject with
    | none => exact .refl k
    | some o => exact vmObjectReference_adds k o

/-- An entry of the one map is cut in two in the other one, and everything else agrees. -/
structure Cut (m n : VmMap) (l₁ l₂ : List EntryId) (e c d : EntryId) (a : VmOffset) : Prop where
  whole : MapInv m (l₁ ++ e :: l₂)
  parts : MapInv n (l₁ ++ c :: d :: l₂)
  low : (m.entry e).start < a
  high : a < (m.entry e).endAddr
  front : n.entry c = { m.entry e with endAddr := a }
  back : n.entry d =
    { m.entry e with start := a, offset := (m.entry e).offset + (a - (m.entry e).start) }
  rest : ∀ z ∈ l₁ ++ l₂, n.entry z = m.entry z
  main : n.isMainMap = m.isMainMap

theorem Cut.pageAt {c d : EntryId} (h : Cut m n l₁ l₂ e c d a) (b : VmOffset) :
    MachVM.pageAt n b = MachVM.pageAt m b := by
  have hlow := BitVec.lt_def.mp h.low
  have hhigh := BitVec.lt_def.mp h.high
  have hbefore : view n l₁ b = view m l₁ b :=
    view_congr (fun z hz => h.rest z (List.mem_append_left l₂ hz)) b
  have hbehind : view n l₂ b = view m l₂ b :=
    view_congr (fun z hz => h.rest z (List.mem_append_right l₁ hz)) b
  rw [h.parts.pageAt_eq, h.whole.pageAt_eq, view_append, view_append, hbefore, view_cons, view_cons,
    view_cons, h.front, h.back, hbehind, locate_later]
  congr 1
  simp only [BitVec.le_def, BitVec.lt_def]
  split_ifs <;> first | rfl | omega

theorem Cut.referents {c d : EntryId} (h : Cut m n l₁ l₂ e c d a) (r : MapObject) :
    (MachVM.referents n (l₁ ++ c :: d :: l₂) r : Int) =
      MachVM.referents m (l₁ ++ e :: l₂) r + if (m.entry e).referent = r then 1 else 0 := by
  have hc : (n.entry c).referent = (m.entry e).referent := by rw [h.front]; rfl
  have hd : (n.entry d).referent = (m.entry e).referent := by rw [h.back]; rfl
  have hbefore : MachVM.referents n l₁ r = MachVM.referents m l₁ r :=
    referents_congr (fun z hz => h.rest z (List.mem_append_left l₂ hz)) r
  have hbehind : MachVM.referents n l₂ r = MachVM.referents m l₂ r :=
    referents_congr (fun z hz => h.rest z (List.mem_append_right l₁ hz)) r
  simp only [referents_append, referents_cons, hc, hd, hbefore, hbehind]
  split <;> omega

theorem Cut.invisible {c d : EntryId} (h : Cut (k.map i) m l₁ l₂ e c d a)
    (hr : AddsReference (k.setMap i m) k' ((k.map i).entry e).referent)
    (hm : m.refCount = (k.map i).refCount) :
    Cut (k.map i) (k'.map i) l₁ l₂ e c d a ∧
      Invisible k k' i (l₁ ++ e :: l₂) (l₁ ++ c :: d :: l₂) := by
  have hmap : k'.map i = { m with refCount := (k'.map i).refCount } := by
    rw [hr.entry i, setMap_map_self]
  have hinv : MapInv (k'.map i) (l₁ ++ c :: d :: l₂) := by
    rw [hmap]
    exact h.parts.congr rfl rfl (fun _ _ => ⟨rfl, rfl⟩) rfl (Nat.le_refl _) h.parts.hint_mem
      h.parts.free_mem
  have hcut : Cut (k.map i) (k'.map i) l₁ l₂ e c d a := by
    refine ⟨h.whole, hinv, h.low, h.high, ?_, ?_, ?_, ?_⟩
    · rw [hmap]
      exact h.front
    · rw [hmap]
      exact h.back
    · rw [hmap]
      exact h.rest
    · rw [hmap]
      exact h.main
  refine ⟨hcut, hinv, hcut.pageAt, fun q hq => ?_⟩
  rw [hr.count q hq, refCountOf_setMap hm, hcut.referents]
  omega

theorem clipFront_cut (h : MapInv m (l₁ ++ e :: l₂)) (hlo : (m.entry e).start < a)
    (hhi : a < (m.entry e).endAddr) : Cut m (clipFront m e a) l₁ l₂ e m.freshEntry e a := by
  have hnew := h.fresh_not_mem
  have hne : m.freshEntry ≠ e := fun hc => hnew (hc ▸ by simp)
  refine ⟨h, h.clipFront hlo hhi, hlo, hhi, clipFront_entry_fresh hne a, clipFront_entry_self m e a,
    fun z hz => clipFront_entry_of_ne ?_ ?_ a, rfl⟩
  · rintro rfl
    exact hnew (by simp only [List.mem_append, List.mem_cons] at hz ⊢; tauto)
  · rcases List.mem_append.mp hz with hz | hz
    · exact h.ne_before hz
    · exact h.ne_after hz

theorem clipBack_cut (h : MapInv m (l₁ ++ e :: l₂)) (hlo : (m.entry e).start < a)
    (hhi : a < (m.entry e).endAddr) : Cut m (clipBack m e a) l₁ l₂ e e m.freshEntry a := by
  have hnew := h.fresh_not_mem
  have hne : m.freshEntry ≠ e := fun hc => hnew (hc ▸ by simp)
  refine ⟨h, h.clipBack hlo hhi, hlo, hhi, clipBack_entry_self m e a, clipBack_entry_fresh hne a,
    fun z hz => clipBack_entry_of_ne ?_ ?_ a, rfl⟩
  · rintro rfl
    exact hnew (by simp only [List.mem_append, List.mem_cons] at hz ⊢; tauto)
  · rcases List.mem_append.mp hz with hz | hz
    · exact h.ne_before hz
    · exact h.ne_after hz

theorem vmMapClipStart_cut (S : Services VmState) (d : Nat) (h : MapInv (k.map i) (l₁ ++ e :: l₂))
    (hlo : ((k.map i).entry e).start < a) (hhi : a < ((k.map i).entry e).endAddr) :
    ∃ k' c b, vmMapClipStart (countingServices S d) k i e a = some k' ∧
      Cut (k.map i) (k'.map i) l₁ l₂ e c b a ∧
      Invisible k k' i (l₁ ++ e :: l₂) (l₁ ++ c :: b :: l₂) := by
  obtain ⟨k', hk, hr⟩ := entryReference_adds S d (k.setMap i (clipFront (k.map i) e a))
    ((k.map i).entry e)
  obtain ⟨hcut, hinv⟩ := (clipFront_cut h hlo hhi).invisible hr rfl
  refine ⟨k', _, _, ?_, hcut, hinv⟩
  simp only [vmMapClipStart]
  rw [if_pos hlo, hk]

theorem vmMapClipEnd_cut (S : Services VmState) (d : Nat) (h : MapInv (k.map i) (l₁ ++ e :: l₂))
    (hlo : ((k.map i).entry e).start < a) (hhi : a < ((k.map i).entry e).endAddr) :
    ∃ k' c b, vmMapClipEnd (countingServices S d) k i e a = some k' ∧
      Cut (k.map i) (k'.map i) l₁ l₂ e c b a ∧
      Invisible k k' i (l₁ ++ e :: l₂) (l₁ ++ c :: b :: l₂) := by
  obtain ⟨k', hk, hr⟩ := entryReference_adds S d (k.setMap i (clipBack (k.map i) e a))
    ((k.map i).entry e)
  obtain ⟨hcut, hinv⟩ := (clipBack_cut h hlo hhi).invisible hr rfl
  refine ⟨k', _, _, ?_, hcut, hinv⟩
  simp only [vmMapClipEnd]
  rw [if_pos hhi, hk]

theorem mergeable_cut (h : MapInv m (l₁ ++ x :: e :: l₂)) (hm : mergeable m x e a = true)
    (ha : (m.entry e).start ≤ a) : (m.entry e).start = a ∧
      Cut (mergeEntry m x e) m l₁ l₂ x x e a ∧ (m.entry e).referent = .ofObject (m.entry e).object.vmObject := by
  simp only [mergeable, Bool.and_eq_true, decide_eq_true_eq, Bool.not_eq_true'] at hm
  obtain ⟨⟨⟨⟨⟨⟨⟨⟨⟨⟨⟨⟨⟨⟨-, hend⟩, hmain⟩, hxm⟩, hxs⟩, hem⟩, hes⟩, hinh⟩, hprot⟩, hmax⟩, hwire⟩, hcow⟩,
    hneeds⟩, hobj⟩, hoff⟩ := hm
  have hbehind := BitVec.le_def.mpr (h.sorted_after (e := x) (x := e) (by simp))
  have hstart : (m.entry e).start = a := BitVec.le_antisymm ha (hend ▸ hbehind)
  have hxe : x ≠ e := (h.ne_after (x := e) (by simp)).symm
  refine ⟨hstart, ⟨h.merge, h, ?_, ?_, ?_, ?_, ?_, ?_⟩, ?_⟩
  · rw [mergeEntry_entry, if_pos rfl, ← hend]
    exact h.span x (by simp)
  · rw [mergeEntry_entry, if_pos rfl, ← hstart]
    exact h.span e (by simp)
  · rw [mergeEntry_entry, if_pos rfl, ← hend]
  · rw [mergeEntry_entry, if_pos rfl, ← hend, hoff, hend, ← hstart]
    dsimp only
    rw [hinh, hprot, hmax, hwire, hcow, hneeds, hobj, hxm.trans hem.symm, hxs.trans hes.symm]
  · intro z hz
    rw [mergeEntry_entry, if_neg]
    rcases List.mem_append.mp hz with hz | hz
    · exact h.ne_before hz
    · exact h.ne_after (by simp [hz])
  · simp only [mergeEntry]
    split <;> rfl
  · rw [VmMapEntry.referent, hem, hes]
    rfl

theorem vmObjectDeallocate_adds (S : Services VmState) (d : Nat) (k : Kernel VmState)
    (object : Option ObjId) (h : ∀ o ∈ object, 1 < (k.machine.object o).refCount) :
    ∃ s, (countingServices S d).objectDeallocate k.machine object = some s ∧
      AddsReference (k.setMachine s) k (.ofObject object) := by
  cases object with
  | none => exact ⟨k.machine, by simp [countingServices, vmObjectDeallocate, Except.toOption], .refl k⟩
  | some o =>
    have ho := h o rfl
    refine ⟨k.machine.modObject o fun x => { x with refCount := x.refCount - 1 }, ?_, fun z => rfl,
      fun q hq => ?_⟩
    · have hpos : 0 < ((k.machine.modObject o fun x =>
          { x with refCount := x.refCount - 1 }).object o).refCount := by
        simp only [VmState.modObject, VmState.setObject, Function.update_self]
        omega
      simp only [countingServices, vmObjectDeallocate]
      rw [if_pos hpos]
      rfl
    · cases q with
      | null => exact absurd rfl hq
      | map j => simp [refCountOf, MapObject.ofObject, Kernel.setMachine]
      | object z =>
        simp only [refCountOf, MapObject.ofObject, VmState.modObject, VmState.setObject,
          Kernel.setMachine, MapObject.object.injEq, Function.update_apply, eq_comm (a := o)]
        split
        next hz =>
          rw [hz]
          exact (Int.sub_add_cancel _ 1).symm
        next => rw [Int.add_zero]

variable {fuel d : Nat}

theorem vmMapSimplify_eq (T : Services VmState) (h : MapInv (k.map i) l) (hf : l.length < fuel)
    (a : VmOffset) :
    ∃ n, n = { k.map i with hint := n.hint, timestamp := (k.map i).timestamp + 1 } ∧ MapInv n l ∧
      vmMapSimplify T fuel k i a = match entryAt (k.map i) a with
        | none => some (k.setMap i n)
        | some e =>
          if mergeable (k.map i) ((k.map i).prev e) e a then
            (T.objectDeallocate k.machine ((k.map i).entry e).object.vmObject).map
              (k.setMap i (mergeEntry n ((k.map i).prev e) e)).setMachine
          else some (k.setMap i n) := by
  have hl : MapInv (vmMapLock (k.map i)) l := h.lock
  obtain ⟨⟨saved, hs, hlook⟩, -, -⟩ := vmMapLookupEntry_any_hint hl hf hl.hint_mem a
  have hat : entryAt (vmMapLock (k.map i)) a = entryAt (k.map i) a := by
    apply entryAt_congr <;> rfl
  refine ⟨(vmMapLock (k.map i)).saveHint saved, rfl, hl.saveHint hs, ?_⟩
  change vmMapLookupEntry fuel (vmMapLock (k.map i)) a = _ at hlook
  simp only [vmMapSimplify]
  rw [hlook, hat, Option.bind_eq_bind, Option.bind_some]
  cases entryAt (k.map i) a with
  | none => rfl
  | some e =>
    simp only [Option.isSome_some, Option.getD_some, Bool.true_and]
    rfl

theorem mergeEntry_invisible (h : Referenced k i (l₁ ++ x :: e :: l₂))
    (hn : n = { k.map i with hint := n.hint, timestamp := (k.map i).timestamp + 1 })
    (hinv : MapInv n (l₁ ++ x :: e :: l₂)) (hm : mergeable (k.map i) x e a = true)
    (ha : ((k.map i).entry e).start ≤ a) (S : Services VmState) (d : Nat) :
    ∃ s, (countingServices S d).objectDeallocate k.machine ((k.map i).entry e).object.vmObject = some s ∧
      Invisible k ((k.setMap i (mergeEntry n x e)).setMachine s) i (l₁ ++ x :: e :: l₂) (l₁ ++ x :: l₂) := by
  have hentry : n.entry = (k.map i).entry := by rw [hn]
  have hm' : mergeable n x e a = true := by
    rw [hn]
    exact hm
  obtain ⟨-, hcut, href⟩ := mergeable_cut hinv hm' (by rwa [hentry])
  have hsame := invisible_setMap hn hinv
  rw [hentry] at href
  have hself : ((mergeEntry n x e).entry x).referent = ((k.map i).entry e).referent := by
    have hback : (n.entry e).referent = ((mergeEntry n x e).entry x).referent := by
      rw [hcut.back]
      rfl
    rw [← hback, hentry]
  have hrefs : ∀ r, (referents (k.map i) (l₁ ++ x :: e :: l₂) r : Int) =
      referents (mergeEntry n x e) (l₁ ++ x :: l₂) r +
        if ((k.map i).entry e).referent = r then 1 else 0 := by
    intro r
    rw [← hself, ← hcut.referents r, referents_congr fun z _ => congrFun hentry z]
  -- the first of the two keeps its reference
  have hmore : ∀ o ∈ ((k.map i).entry e).object.vmObject, 1 < (k.machine.object o).refCount := by
    intro o ho
    have hro : ((k.map i).entry e).referent = .object o := by
      rw [href, ho]
      rfl
    have h₁ := h.refs (.object o) (by simp)
    have h₂ := hrefs (.object o)
    have h₃ : 0 < referents (mergeEntry n x e) (l₁ ++ x :: l₂) (.object o) :=
      List.countP_pos_iff.mpr ⟨x, by simp, by rw [hself, hro, decide_eq_true rfl]⟩
    rw [if_pos hro] at h₂
    rw [refCountOf] at h₁
    omega
  obtain ⟨s, hd, hadd⟩ := vmObjectDeallocate_adds S d k _ hmore
  refine ⟨s, hd, ?_, fun b => ?_, fun r hr => ?_⟩
  · rw [setMachine_map, setMap_map_self]
    exact hcut.whole
  · have := hsame.view b
    rw [setMap_map_self] at this
    rw [setMachine_map, setMap_map_self, ← hcut.pageAt b, this]
  · have hcount := hadd.count r hr
    have hfree : (mergeEntry n x e).refCount = ((k.setMachine s).map i).refCount := by
      rw [setMachine_map]
      simp only [mergeEntry]
      split <;> (rw [hn]; rfl)
    have hset : refCountOf ((k.setMap i (mergeEntry n x e)).setMachine s) r =
        refCountOf (k.setMachine s) r := refCountOf_setMap hfree r
    rw [setMachine_map, setMap_map_self, hrefs r, hset, href]
    omega

theorem vmMapSimplify_pair (S : Services VmState) (d : Nat)
    (h : Referenced k i (l₁ ++ x :: e :: l₂)) (hf : (l₁ ++ x :: e :: l₂).length < fuel)
    (hlo : ((k.map i).entry e).start ≤ a) (hhi : a < ((k.map i).entry e).endAddr) :
    ∃ k', vmMapSimplify (countingServices S d) fuel k i a = some k' ∧
      if mergeable (k.map i) x e a then
        Invisible k k' i (l₁ ++ x :: e :: l₂) (l₁ ++ x :: l₂) ∧
          (k'.map i).entry = (mergeEntry (k.map i) x e).entry
      else Invisible k k' i (l₁ ++ x :: e :: l₂) (l₁ ++ x :: e :: l₂) ∧
        (k'.map i).entry = (k.map i).entry := by
  obtain ⟨n, hn, hinv, hs⟩ := vmMapSimplify_eq (countingServices S d) h.inv hf a
  have hprev : (k.map i).prev e = x := by
    have hsh : MapInv (k.map i) ((l₁ ++ [x]) ++ e :: l₂) := by simpa using h.inv
    simpa using hsh.cut.2
  have hentry : n.entry = (k.map i).entry := by rw [hn]
  rw [h.inv.entryAt (by simp) hlo hhi] at hs
  dsimp only at hs
  rw [hprev] at hs
  by_cases hm : mergeable (k.map i) x e a = true
  · obtain ⟨s, hd, hv⟩ := mergeEntry_invisible h hn hinv hm hlo S d
    rw [if_pos hm, hd, Option.map_some] at hs
    refine ⟨_, hs, ?_⟩
    rw [if_pos hm, setMachine_map, setMap_map_self]
    refine ⟨hv, ?_⟩
    funext z
    rw [mergeEntry_entry, mergeEntry_entry, hentry]
  · rw [if_neg hm] at hs
    refine ⟨_, hs, ?_⟩
    rw [if_neg hm, setMap_map_self]
    exact ⟨invisible_setMap hn hinv, hentry⟩

theorem vmMapSimplify_invisible (S : Services VmState) (d : Nat) (h : Referenced k i l)
    (hf : l.length < fuel) (a : VmOffset) :
    ∃ k' l', vmMapSimplify (countingServices S d) fuel k i a = some k' ∧ Invisible k k' i l l' := by
  obtain ⟨n, hn, hinv, hs⟩ := vmMapSimplify_eq (countingServices S d) h.inv hf a
  cases he : entryAt (k.map i) a with
  | none =>
    rw [he] at hs
    exact ⟨_, l, hs, invisible_setMap hn hinv⟩
  | some e =>
    obtain ⟨hel, hlo, hhi⟩ := h.inv.entryAt_iff.mp he
    obtain ⟨p, q, rfl⟩ := List.append_of_mem hel
    rcases List.eq_nil_or_concat p with rfl | ⟨p, x, rfl⟩
    · rw [he] at hs
      have hall : MapInv (k.map i) ([] ++ e :: q) := h.inv
      have hfirst : (k.map i).prev e = header := by simpa using hall.cut.2
      have hm : mergeable (k.map i) header e a = false := by simp [mergeable]
      dsimp only at hs
      rw [hfirst, hm] at hs
      exact ⟨_, _, hs, invisible_setMap hn hinv⟩
    · rw [List.concat_append] at h hf
      obtain ⟨k', hk, hv⟩ := vmMapSimplify_pair S d h hf hlo hhi
      rw [List.concat_append]
      split at hv
      next => exact ⟨k', _, hk, hv.1⟩
      next => exact ⟨k', _, hk, hv.1⟩

theorem Cut.mergeable {c b : EntryId} (h : Cut m n l₁ l₂ e c b a) :
    MachVM.mergeable n c b a = (m.isMainMap && !(m.entry e).isAMap && !(m.entry e).isSubMap) := by
  have hc : decide (c ≠ header) = true := decide_eq_true (h.parts.ne_header (by simp))
  simp only [MachVM.mergeable, h.front, h.back, h.main, hc]
  cases m.isMainMap <;> cases (m.entry e).isAMap <;> cases (m.entry e).isSubMap <;> simp

theorem Cut.contents_merge {c b : EntryId} (h : Cut m n l₁ l₂ e c b a) :
    contents (mergeEntry n c b) (l₁ ++ c :: l₂) = contents m (l₁ ++ e :: l₂) := by
  have hside : ∀ z ∈ l₁ ++ l₂, (mergeEntry n c b).entry z = m.entry z := by
    intro z hz
    rw [mergeEntry_entry, if_neg, h.rest z hz]
    rcases List.mem_append.mp hz with hz | hz
    · exact h.parts.ne_before hz
    · exact h.parts.ne_after (by simp [hz])
  have hself : (mergeEntry n c b).entry c = m.entry e := by
    rw [mergeEntry_entry, if_pos rfl, h.front, h.back]
  rw [contents, contents, List.map_append, List.map_append, List.map_cons, List.map_cons, hself,
    List.map_congr_left fun z hz => hside z (List.mem_append_left l₂ hz),
    List.map_congr_left fun z hz => hside z (List.mem_append_right l₁ hz)]

theorem Cut.simplify {k₁ : Kernel VmState} {c b : EntryId}
    (h : Cut (k.map i) (k₁.map i) l₁ l₂ e c b a) (hr : Referenced k₁ i (l₁ ++ c :: b :: l₂))
    (hf : (l₁ ++ c :: b :: l₂).length < fuel) (S : Services VmState) (d : Nat) :
    ∃ k₂ l', vmMapSimplify (countingServices S d) fuel k₁ i a = some k₂ ∧
      Invisible k₁ k₂ i (l₁ ++ c :: b :: l₂) l' ∧
      contents (k₂.map i) l' =
        if (k.map i).isMainMap && !((k.map i).entry e).isAMap && !((k.map i).entry e).isSubMap then
          contents (k.map i) (l₁ ++ e :: l₂)
        else contents (k₁.map i) (l₁ ++ c :: b :: l₂) := by
  have hb : ((k₁.map i).entry b).start ≤ a ∧ a < ((k₁.map i).entry b).endAddr := by
    rw [h.back]
    exact ⟨BitVec.le_refl a, h.high⟩
  obtain ⟨k₂, hs, hk⟩ := vmMapSimplify_pair S d hr hf hb.1 hb.2
  rw [h.mergeable] at hk
  split at hk
  next hm =>
    refine ⟨k₂, _, hs, hk.1, ?_⟩
    rw [if_pos hm, ← h.contents_merge, contents, contents, hk.2]
  next hm =>
    refine ⟨k₂, _, hs, hk.1, ?_⟩
    rw [if_neg hm, contents, contents, hk.2]

/-- Simplifications go unseen at every address, and so do the clips at every address inside an
entry. A simplification where an entry was clipped gives the old list of entries back in a task
map, when the entry leads to an object directly; otherwise it leaves the two parts. -/
theorem clip_simplify (S : Services VmState) (d : Nat) (h : Referenced k i l)
    (hf : l.length + 1 < fuel) :
    (∀ a, ∃ k' l', vmMapSimplify (countingServices S d) fuel k i a = some k' ∧
      Invisible k k' i l l') ∧
    ∀ e ∈ l, ∀ a, ((k.map i).entry e).start < a → a < ((k.map i).entry e).endAddr →
      ∀ clip, clip = vmMapClipStart (countingServices S d) ∨ clip = vmMapClipEnd (countingServices S d) →
        ∃ k₁ l₁, clip k i e a = some k₁ ∧ Invisible k k₁ i l l₁ ∧
          l₁.length = l.length + 1 ∧
          ∃ k₂ l₂, vmMapSimplify (countingServices S d) fuel k₁ i a = some k₂ ∧
            Invisible k₁ k₂ i l₁ l₂ ∧
            contents (k₂.map i) l₂ =
              if (k.map i).isMainMap && !((k.map i).entry e).isAMap && !((k.map i).entry e).isSubMap then
                contents (k.map i) l
              else contents (k₁.map i) l₁ := by
  refine ⟨vmMapSimplify_invisible S d h (by omega), fun e he a hlo hhi clip hclip => ?_⟩
  obtain ⟨p, q, rfl⟩ := List.append_of_mem he
  obtain ⟨k₁, c, b, hk, hcut, hv⟩ : ∃ k₁ c b, clip k i e a = some k₁ ∧
      Cut (k.map i) (k₁.map i) p q e c b a ∧
      Invisible k k₁ i (p ++ e :: q) (p ++ c :: b :: q) := by
    rcases hclip with rfl | rfl
    · exact vmMapClipStart_cut S d h.inv hlo hhi
    · exact vmMapClipEnd_cut S d h.inv hlo hhi
  have hlen : (p ++ c :: b :: q).length = (p ++ e :: q).length + 1 := by
    simp only [List.length_append, List.length_cons]
    omega
  exact ⟨k₁, _, hk, hv, hlen, hcut.simplify (h.invisible hv) (hlen ▸ hf) S d⟩

/-- An object layer that does nothing for the map code. -/
def idleServices : Services VmState where
  kernelObject := 0
  objectAllocate s size := some (vmObjectAllocate s size)
  objectReference s _ := some s
  objectDeallocate s _ := some s
  objectCoalesce s _ _ _ _ _ _ := some (s, false)
  objectShadow s o off len := some (vmObjectShadow s o off len)
  objectCopy s o off _ := some (s, { object := o, offset := off, srcNeedsCopy := true, dstNeedsCopy := true })
  objectCopySlowly s _ _ _ _ := some (s, none)
  objectPageRemove s _ _ _ := some s
  objectPmapRemove s _ _ _ := some s
  objectPmapCopy s _ _ _ := some s
  pmapCreate s := some (s, 0)
  pmapDestroy s _ := some s
  pmapRemove s _ _ _ := some s
  pmapProtect s _ _ _ _ := some s
  pmapCopy s _ _ _ _ _ := some s
  pmapPageable s _ _ _ _ := some s
  pmapChangeWiring s _ _ _ := some s
  lockReadToWrite s _ := some (s, false)
  faultPage s _ _ _ _ _ prot := some (s, .success 0 prot)
  faultRelease s _ _ := some s
  copyObjectChanged _ _ := false
  faultEnter s _ _ _ _ _ _ _ := some s
  faultWireFast s _ _ _ := some (s, .failure)
  faultUnwirePage s _ _ := some s

/-- One region of a task map, or of a sharing map. It has the one reference to its object. -/
def oneRegion (isMainMap : Bool) : Kernel VmState where
  machine := { object := fun _ => {} }
  map _ := { tableMap 0x1000 0x8000 none [{ start := 0x2000, endAddr := 0x4000, object := .object 3 }] with
    isMainMap := isMainMap }
  freshMap := 1

theorem oneRegion_referenced (isMainMap : Bool) : Referenced (oneRegion isMainMap) 0 [1] := by
  refine ⟨?_, ?_⟩
  · cases isMainMap <;>
      refine ⟨⟨?_, by decide⟩, rfl, by decide, by decide, by decide, by decide, by decide, by decide,
        by decide⟩ <;>
      simp only [Seg] <;> decide
  · intro r _
    have hone : referents ((oneRegion isMainMap).map 0) [1] r ≤ 1 := List.countP_le_length
    cases r with
    | null => contradiction
    | object o => exact Int.ofNat_le.mpr hone
    | map j => exact Int.ofNat_le.mpr hone

/-- The object has two references in between. -/
theorem oneRegion_clip_simplify :
    ∃ k₁ l₁, vmMapClipStart (countingServices idleServices 0) (oneRegion true) 0 1 0x3000 = some k₁ ∧
      Invisible (oneRegion true) k₁ 0 [1] l₁ ∧ l₁.length = 2 ∧ refCountOf k₁ (.object 3) = 2 ∧
      ∃ k₂ l₂, vmMapSimplify (countingServices idleServices 0) 3 k₁ 0 0x3000 = some k₂ ∧
        Invisible k₁ k₂ 0 l₁ l₂ ∧ refCountOf k₂ (.object 3) = 1 ∧
        contents (k₂.map 0) l₂ = contents ((oneRegion true).map 0) [1] := by
  have hmid : (vmMapClipStart (countingServices idleServices 0) (oneRegion true) 0 1 0x3000).map
      (fun k => refCountOf k (.object 3)) = some 2 := by decide
  have hend : ((vmMapClipStart (countingServices idleServices 0) (oneRegion true) 0 1 0x3000).bind fun k =>
      vmMapSimplify (countingServices idleServices 0) 3 k 0 0x3000).map
      (fun k => refCountOf k (.object 3)) = some 1 := by decide
  obtain ⟨k₁, l₁, h₁, hv₁, hlen, k₂, l₂, h₂, hv₂, hc⟩ :=
    (clip_simplify idleServices 0 (oneRegion_referenced true) (show [1].length + 1 < 3 by decide)).2 1 (by decide)
      0x3000 (by decide) (by decide) _ (.inl rfl)
  rw [h₁] at hmid hend
  rw [Option.bind_some, h₂] at hend
  exact ⟨k₁, l₁, h₁, hv₁, hlen, Option.some.inj hmid, k₂, l₂, h₂, hv₂, Option.some.inj hend, hc⟩

/-- In a sharing map the two parts stay. -/
theorem sharing_stays_clipped :
    ∃ k₁ k₂, vmMapClipStart (countingServices idleServices 0) (oneRegion false) 0 1 0x3000 = some k₁ ∧
      vmMapSimplify (countingServices idleServices 0) 3 k₁ 0 0x3000 = some k₂ ∧
      Referenced (oneRegion false) 0 [1] ∧
      ∀ l₂, MapInv (k₂.map 0) l₂ →
        contents (k₂.map 0) l₂ ≠ contents ((oneRegion false).map 0) [1] := by
  have hr := oneRegion_referenced false
  have hone : MapInv ((oneRegion false).map 0) ([] ++ 1 :: []) := hr.inv
  have hlo : (((oneRegion false).map 0).entry 1).start < 0x3000 := by decide
  obtain ⟨k₁, c, b, hk, hcut, hv⟩ := vmMapClipStart_cut idleServices 0 hone hlo (by decide)
  have hlen : ([] ++ c :: b :: []).length < 3 := by simp
  obtain ⟨k₂, l₂, hs, hv₂, hc⟩ := hcut.simplify (hr.invisible hv) hlen idleServices 0
  refine ⟨k₁, k₂, hk, hs, hr, fun l hl hcontra => ?_⟩
  have htwo : (contents (k₂.map 0) l₂).length = 2 := by
    rw [hc]
    rfl
  have hsame : l.length = l₂.length := by
    have h₁ := hl.count
    have h₂ := hv₂.inv.count
    omega
  have hone := congrArg List.length hcontra
  simp only [contents, List.length_map] at hone htwo
  simp only [List.length_cons, List.length_nil] at hone
  omega

end MachVM
