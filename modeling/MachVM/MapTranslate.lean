import MachVM.MapFaultSteps
import MachVM.MapVersionCopy

namespace MachVM

open Ring

variable {σ : Type}

/-- The first entry that holds an address, on a walk of at most so many entries. -/
def findEntry (m : VmMap) (a : VmOffset) : Nat → EntryId → Option EntryId
  | 0, _ => none
  | n + 1, e =>
    if (m.entry e).start ≤ a ∧ a < (m.entry e).endAddr then some e
    else findEntry m a n (m.next e)

/-- The entry of a map that holds an address. -/
def entryAt (m : VmMap) (a : VmOffset) : Option EntryId :=
  findEntry m a m.nentries.toNat (m.next header)

/-- What an address of a task map means: the map and the entry that hold the object, and
what the task may do there. -/
structure Translation where
  shareMap : MapId
  object : Option ObjId
  offset : VmOffset
  needsCopy : Bool
  protection : VmProt
  wired : Bool

/-- The entry behind an entry of map `i`, with its map and the address there. -/
def backing (k : Kernel σ) (i : MapId) (x : VmMapEntry) (a : VmOffset) :
    Option (MapId × VmMapEntry × VmOffset) :=
  if x.isAMap then do
    let j ← x.object.shareMap
    let b := (a - x.start) + x.offset
    let e ← entryAt (k.map j) b
    some (j, (k.map j).entry e, b)
  else some (i, x, a)

/-- The meaning of an address, read off the lists of entries; subordinate maps have none. -/
def translate (k : Kernel σ) (i : MapId) (a : VmOffset) : Option Translation := do
  let e ← entryAt (k.map i) a
  let x := (k.map i).entry e
  if x.isSubMap then none
  else
    let (j, y, b) ← backing k i x a
    some
      { shareMap := j
        object := y.object.vmObject
        offset := (b - y.start) + y.offset
        needsCopy := y.needsCopy
        protection := x.protection
        wired := x.wiredCount ≠ 0 }

variable {S : Services σ} {k k' k₁ : Kernel σ} {i j : MapId} {m n : VmMap} {l l₁ l₂ : List EntryId}
  {e : EntryId} {a vaddr : VmOffset} {faultType prot : VmProt} {fuel : Nat}

theorem findEntry_congr (hn : n.next = m.next) (he : n.entry = m.entry) (c : Nat) (e : EntryId) :
    findEntry n a c e = findEntry m a c e := by
  induction c generalizing e with
  | zero => rfl
  | succ c ih => simp only [findEntry, ih, hn, he]

theorem entryAt_congr (hc : n.nentries = m.nentries) (hn : n.next = m.next)
    (he : n.entry = m.entry) (a : VmOffset) : entryAt n a = entryAt m a := by
  rw [entryAt, entryAt, findEntry_congr hn he, hc, hn]

theorem SameMap.entryAt (h : SameMap m n) (a : VmOffset) : entryAt n a = entryAt m a := by
  refine entryAt_congr ?_ ?_ ?_ a
  all_goals rw [h]

theorem SameMap.entry (h : SameMap m n) : n.entry = m.entry := by rw [h]

theorem translate_backing {t : Translation} (h : translate k i a = some t) :
    ∃ e y b, entryAt (k.map i) a = some e ∧ ((k.map i).entry e).isSubMap = false ∧
      backing k i ((k.map i).entry e) a = some (t.shareMap, y, b) ∧
      t = { shareMap := t.shareMap, object := y.object.vmObject, offset := (b - y.start) + y.offset
            needsCopy := y.needsCopy, protection := ((k.map i).entry e).protection
            wired := ((k.map i).entry e).wiredCount ≠ 0 } := by
  obtain ⟨e, he, h⟩ := Option.bind_eq_some_iff.mp h
  simp only at h
  split at h
  next => simp at h
  next hsub =>
    obtain ⟨⟨j, y, b⟩, hb, h⟩ := Option.bind_eq_some_iff.mp h
    cases Option.some.inj h
    exact ⟨e, y, b, he, by simpa using hsub, hb, rfl⟩

theorem translate_same {t : Translation} (h : translate k i a = some t)
    (hi : SameMap (k.map i) (k'.map i)) (hj : SameMap (k.map t.shareMap) (k'.map t.shareMap)) :
    translate k' i a = some t := by
  obtain ⟨e, y, b, he, hsub, hb, ht⟩ := translate_backing h
  have hb' : backing k' i ((k.map i).entry e) a = some (t.shareMap, y, b) := by
    rw [backing] at hb ⊢
    split at hb
    next hm =>
      obtain ⟨j, hx, hb⟩ := Option.bind_eq_some_iff.mp hb
      obtain ⟨e', he', hb⟩ := Option.bind_eq_some_iff.mp hb
      cases Option.some.inj hb
      simp only [if_pos hm, hx, Option.bind_eq_bind, Option.bind_some, hj.entryAt, he', hj.entry]
    next hm => rwa [if_neg hm]
  simp only [translate, hi.entryAt, he, Option.bind_eq_bind, Option.bind_some, hi.entry, hsub,
    Bool.false_eq_true, if_false, hb']
  rw [ht]

theorem MapInv.findEntry (h : MapInv m (l₁ ++ l₂)) (he : e ∈ l₂) (hlo : (m.entry e).start ≤ a)
    (hhi : a < (m.entry e).endAddr) : findEntry m a l₂.length (after l₂ header) = some e := by
  induction l₂ generalizing l₁ with
  | nil => simp at he
  | cons y q ih =>
    rw [List.length_cons, after_cons, MachVM.findEntry]
    split
    next hy =>
      rcases List.mem_cons.mp he with rfl | hq
      · rfl
      · have h₁ := h.sorted_after hq
        have h₂ := BitVec.lt_def.mp hy.2
        have h₃ := BitVec.le_def.mp hlo
        omega
    next hy =>
      rcases List.mem_cons.mp he with rfl | hq
      · exact absurd ⟨hlo, hhi⟩ hy
      · have hsh : MapInv m ((l₁ ++ [y]) ++ q) := by simpa using h
        have hn : m.next y = after q header := by simpa using hsh.cut.1
        rw [hn]
        exact ih hsh hq

theorem MapInv.entryAt (h : MapInv m l) (he : e ∈ l) (hlo : (m.entry e).start ≤ a)
    (hhi : a < (m.entry e).endAddr) : entryAt m a = some e := by
  rw [MachVM.entryAt, h.count, Int.toNat_natCast, h.order.next_header]
  have h₀ : MapInv m ([] ++ l) := h
  exact h₀.findEntry he hlo hhi

/-- A map in order whose entries lead to other maps below `bound` only. -/
def LiveMap (bound i : MapId) (m : VmMap) (l : List EntryId) : Prop :=
  MapInv m l ∧ ∀ e ∈ l, ∀ j ∈ (m.entry e).object.shareMap, j < bound ∧ j ≠ i

/-- Every map that was handed out is in order. -/
def MapsInOrder (k : Kernel σ) : Prop := ∀ i < k.freshMap, ∃ l, LiveMap k.freshMap i (k.map i) l

theorem LiveMap.saveHint {bound : MapId} (h : LiveMap bound i m l) (he : e ∈ header :: l) :
    LiveMap bound i (m.saveHint e) l := ⟨h.1.saveHint he, h.2⟩

theorem MapsInOrder.setMap (h : MapsInOrder k) (hm : LiveMap k.freshMap i m l) :
    MapsInOrder (k.setMap i m) := by
  intro j hj
  rw [setMap_map]
  split
  next he =>
    subst he
    exact ⟨l, hm⟩
  next => exact h j hj

/-- What a pass of the lookup may do to the entry that holds the object: it gets an object,
and the version number of its map may advance. -/
structure EntryFixed (j : MapId) (e : EntryId) (k k' : Kernel σ) : Prop where
  fresh : k'.freshMap = k.freshMap
  other : ∀ i ≠ j, k'.map i = k.map i
  map : k'.map j = { (k.map j).setEntry e ((k'.map j).entry e) with timestamp := (k'.map j).timestamp }
  start : ((k'.map j).entry e).start = ((k.map j).entry e).start
  endAddr : ((k'.map j).entry e).endAddr = ((k.map j).entry e).endAddr
  isAMap : ((k'.map j).entry e).isAMap = ((k.map j).entry e).isAMap
  isSubMap : ((k'.map j).entry e).isSubMap = ((k.map j).entry e).isSubMap
  protection : ((k'.map j).entry e).protection = ((k.map j).entry e).protection
  wiredCount : ((k'.map j).entry e).wiredCount = ((k.map j).entry e).wiredCount
  object : ((k'.map j).entry e).object = ((k.map j).entry e).object ∨
    ∃ o, ((k'.map j).entry e).object = .object o

theorem EntryFixed.trans (h : EntryFixed j e k k₁) (h' : EntryFixed j e k₁ k') :
    EntryFixed j e k k' := by
  refine ⟨h'.fresh.trans h.fresh, fun i hi => (h'.other i hi).trans (h.other i hi), ?_,
    h'.start.trans h.start, h'.endAddr.trans h.endAddr, h'.isAMap.trans h.isAMap,
    h'.isSubMap.trans h.isSubMap, h'.protection.trans h.protection,
    h'.wiredCount.trans h.wiredCount, ?_⟩
  · have h₁ := h'.map
    rw [h.map] at h₁
    simpa [VmMap.setEntry] using h₁
  · rcases h'.object with ho | ho
    · rw [ho]
      exact h.object
    · exact .inr ho

theorem EntryFixed.of_entry (e : EntryId) (hf : k'.freshMap = k.freshMap)
    (ho : ∀ i ≠ j, k'.map i = k.map i)
    (hm : k'.map j = { k.map j with timestamp := (k'.map j).timestamp }) : EntryFixed j e k k' := by
  have he : (k'.map j).entry = (k.map j).entry := by rw [hm]
  refine ⟨hf, ho, ?_, by rw [he], by rw [he], by rw [he], by rw [he], by rw [he], by rw [he],
    .inl (by rw [he])⟩
  rw [he]
  simpa [VmMap.setEntry] using hm

theorem EntryFixed.refl (j : MapId) (e : EntryId) (k : Kernel σ) : EntryFixed j e k k :=
  .of_entry e rfl (fun _ _ => rfl) rfl

theorem entryFixed_setMachine (j : MapId) (e : EntryId) (k : Kernel σ) (s : σ) :
    EntryFixed j e k (k.setMachine s) := .of_entry e rfl (fun _ _ => rfl) rfl

theorem entryFixed_lockMap (j : MapId) (e : EntryId) (k : Kernel σ) :
    EntryFixed j e k (lockMap k j) := by
  refine .of_entry e rfl ?_ ?_
  · intro i hi
    rw [lockMap, setMap_map, if_neg hi]
  · rw [lockMap_map_self]
    rfl

theorem entryFixed_setEntry {y : VmMapEntry} {o : ObjId} (s : σ)
    (hs : y.start = ((k.map j).entry e).start) (he : y.endAddr = ((k.map j).entry e).endAddr)
    (hm : y.isAMap = ((k.map j).entry e).isAMap) (hsub : y.isSubMap = ((k.map j).entry e).isSubMap)
    (hp : y.protection = ((k.map j).entry e).protection)
    (hw : y.wiredCount = ((k.map j).entry e).wiredCount) (ho : y.object = .object o) :
    EntryFixed j e k ((k.setMachine s).setEntry j e y) := by
  have hself : ((k.setMachine s).setEntry j e y).map j = (k.map j).setEntry e y :=
    setEntry_map_self _ _ _ _
  refine ⟨rfl, ?_, ?_, ?_, ?_, ?_, ?_, ?_, ?_, .inr ⟨o, ?_⟩⟩
  · intro i hi
    rw [Kernel.setEntry, setMap_map, if_neg hi]
    rfl
  · rw [hself, setEntry_entry_self]
  all_goals rwa [hself, setEntry_entry_self]

theorem shadowEntry_fixed (hs : shadowEntry S k j e = some k') :
    EntryFixed j e k k' ∧ ((k'.map j).entry e).needsCopy = false := by
  obtain ⟨r, _, rfl⟩ := Option.map_eq_some_iff.mp hs
  refine ⟨entryFixed_setEntry r.1 rfl rfl rfl rfl rfl rfl rfl, ?_⟩
  rw [setEntry_map_self, setEntry_entry_self]

theorem allocateEntry_fixed (hs : allocateEntry S k j e = some k') :
    EntryFixed j e k k' ∧ ((k'.map j).entry e).needsCopy = ((k.map j).entry e).needsCopy := by
  obtain ⟨r, _, rfl⟩ := Option.map_eq_some_iff.mp hs
  refine ⟨entryFixed_setEntry r.1 rfl rfl rfl rfl rfl rfl rfl, ?_⟩
  rw [setEntry_map_self, setEntry_entry_self]

theorem lockUpgrade_fixed (e : EntryId) {granted : Bool}
    (hs : lockUpgrade S k j = some (k', granted)) :
    EntryFixed j e k k' ∧ (k'.map j).entry = (k.map j).entry := by
  obtain ⟨s, hk⟩ := lockUpgrade_cases hs
  have h₁ := entryFixed_setMachine j e k s
  cases granted with
  | false =>
    cases hk
    exact ⟨h₁, rfl⟩
  | true =>
    cases hk
    refine ⟨h₁.trans (entryFixed_lockMap j e _), ?_⟩
    rw [lockMap_map_self]
    rfl

theorem and_not_write (prot : VmProt) : prot &&& ~~~protWrite &&& protWrite = 0 := by
  rw [BitVec.and_assoc]
  simp [protWrite]

theorem needsCopyPass_fixed {out : Option VmProt}
    (hs : needsCopyPass S k j e faultType prot = some (k', out)) :
    EntryFixed j e k k' ∧ ∀ p ∈ out, p &&& prot = p ∧
      (p &&& protWrite ≠ 0 → ((k'.map j).entry e).needsCopy = false) := by
  rw [needsCopyPass] at hs
  split at hs
  next =>
    split at hs
    next =>
      obtain ⟨⟨k₁, granted⟩, hu, hs⟩ := Option.bind_eq_some_iff.mp hs
      obtain ⟨h₁, -⟩ := lockUpgrade_fixed e hu
      cases granted with
      | false =>
        cases Option.some.inj hs
        exact ⟨h₁, by simp⟩
      | true =>
        obtain ⟨k₂, hsh, hs⟩ := Option.bind_eq_some_iff.mp hs
        cases Option.some.inj hs
        obtain ⟨h₂, hn⟩ := shadowEntry_fixed hsh
        refine ⟨(h₁.trans (entryFixed_lockMap j e k₁)).trans h₂, ?_⟩
        intro p hp
        cases Option.some.inj hp
        exact ⟨BitVec.and_self, fun _ => hn⟩
    next =>
      cases Option.some.inj hs
      refine ⟨.refl j e _, ?_⟩
      intro p hp
      cases Option.some.inj hp
      refine ⟨?_, fun hw => absurd (and_not_write prot) hw⟩
      rw [BitVec.and_assoc, BitVec.and_comm (~~~protWrite), ← BitVec.and_assoc, BitVec.and_self]
  next hn =>
    cases Option.some.inj hs
    refine ⟨.refl j e _, ?_⟩
    intro p hp
    cases Option.some.inj hp
    exact ⟨BitVec.and_self, fun _ => by simpa using hn⟩

theorem nullObjectPass_fixed {granted : Bool} (hs : nullObjectPass S k j e = some (k', granted)) :
    EntryFixed j e k k' ∧ ((k'.map j).entry e).needsCopy = ((k.map j).entry e).needsCopy := by
  rw [nullObjectPass] at hs
  split at hs
  next =>
    obtain ⟨⟨k₁, upgraded⟩, hu, hs⟩ := Option.bind_eq_some_iff.mp hs
    obtain ⟨h₁, he⟩ := lockUpgrade_fixed e hu
    cases upgraded with
    | false =>
      cases Option.some.inj hs
      exact ⟨h₁, by rw [he]⟩
    | true =>
      obtain ⟨k₂, ha, hs⟩ := Option.bind_eq_some_iff.mp hs
      cases Option.some.inj hs
      obtain ⟨h₂, hn⟩ := allocateEntry_fixed ha
      exact ⟨h₁.trans h₂, by rw [hn, he]⟩
  next =>
    cases Option.some.inj hs
    exact ⟨.refl j e _, rfl⟩

theorem EntryFixed.entry_of_ne (h : EntryFixed j e k k') {z : EntryId} (hz : z ≠ e) :
    (k'.map j).entry z = (k.map j).entry z := by
  rw [h.map]
  exact setEntry_entry_of_ne _ _ hz

theorem EntryFixed.mapInv (h : EntryFixed j e k k') (hm : MapInv (k.map j) l) :
    MapInv (k'.map j) l := by
  rw [h.map]
  exact (hm.setBody h.start h.endAddr).congr rfl rfl (fun _ _ => ⟨rfl, rfl⟩) rfl (Nat.le_refl _)
    hm.hint_mem hm.free_mem

theorem EntryFixed.inOrder (h : EntryFixed j e k k') (hk : MapsInOrder k) : MapsInOrder k' := by
  intro i hi
  rw [h.fresh] at hi ⊢
  obtain ⟨l, hm, hlive⟩ := hk i hi
  by_cases hij : i = j
  · subst hij
    refine ⟨l, h.mapInv hm, ?_⟩
    intro z hz i' ho
    by_cases hze : z = e
    · subst hze
      rcases h.object with hsame | ⟨o, hnew⟩
      · exact hlive z hz i' (hsame ▸ ho)
      · rw [hnew] at ho
        cases ho
    · rw [h.entry_of_ne hze] at ho
      exact hlive z hz i' ho
  · rw [h.other i hij]
    exact ⟨l, hm, hlive⟩

/-- What an address means once the entry that holds its object has been dealt with. -/
def fixedTranslation (k' : Kernel σ) (j : MapId) (e : EntryId) (b : VmOffset) (prot : VmProt)
    (wired : Bool) : Translation :=
  let y := (k'.map j).entry e
  { shareMap := j, object := y.object.vmObject, offset := (b - y.start) + y.offset
    needsCopy := y.needsCopy, protection := prot, wired := wired }

theorem EntryFixed.translate_direct (h : EntryFixed i e k k') (hm : MapInv (k.map i) l) (he : e ∈ l)
    (hlo : ((k.map i).entry e).start ≤ a) (hhi : a < ((k.map i).entry e).endAddr)
    (hsub : ((k.map i).entry e).isSubMap = false) (hmap : ((k.map i).entry e).isAMap = false) :
    translate k' i a = some (fixedTranslation k' i e a ((k.map i).entry e).protection
      (((k.map i).entry e).wiredCount ≠ 0)) := by
  have hat : MachVM.entryAt (k'.map i) a = some e :=
    (h.mapInv hm).entryAt he (by rwa [h.start]) (by rwa [h.endAddr])
  simp [translate, hat, backing, h.isSubMap, hsub, h.isAMap, hmap, fixedTranslation, h.protection,
    h.wiredCount]

theorem EntryFixed.translate_shared {e₀ : EntryId} {l₀ : List EntryId} {b : VmOffset}
    (h : EntryFixed j e k k') (hij : i ≠ j)
    (hm₀ : MapInv (k.map i) l₀) (he₀ : e₀ ∈ l₀) (hlo₀ : ((k.map i).entry e₀).start ≤ a)
    (hhi₀ : a < ((k.map i).entry e₀).endAddr) (hsub : ((k.map i).entry e₀).isSubMap = false)
    (hmap : ((k.map i).entry e₀).isAMap = true)
    (hobj : ((k.map i).entry e₀).object.shareMap = some j)
    (hb : b = (a - ((k.map i).entry e₀).start) + ((k.map i).entry e₀).offset)
    (hm : MapInv (k.map j) l) (he : e ∈ l) (hlo : ((k.map j).entry e).start ≤ b)
    (hhi : b < ((k.map j).entry e).endAddr) :
    translate k' i a = some (fixedTranslation k' j e b ((k.map i).entry e₀).protection
      (((k.map i).entry e₀).wiredCount ≠ 0)) := by
  have hat₀ : MachVM.entryAt (k.map i) a = some e₀ := hm₀.entryAt he₀ hlo₀ hhi₀
  have hat : MachVM.entryAt (k'.map j) b = some e :=
    (h.mapInv hm).entryAt he (by rwa [h.start]) (by rwa [h.endAddr])
  rw [hb] at hat
  simp [translate, hat₀, backing, h.other i hij, hsub, hmap, hobj, hat, fixedTranslation, hb]

/-- The answer of a lookup is what the address means. -/
def Translates (k : Kernel σ) (i : MapId) (a : VmOffset) (r : LookupResult) : Prop :=
  ∃ t, translate k i a = some t ∧ t.shareMap = r.version.shareMap ∧
    t.object = r.object ∧ t.offset = r.offset ∧ r.prot &&& t.protection = r.prot ∧
    t.wired = r.wired ∧ (r.prot &&& protWrite ≠ 0 → t.needsCopy = false)

/-- The version of an answer is that of the maps. -/
structure Current (k : Kernel σ) (i : MapId) (v : MapVersion) : Prop where
  live : i < k.freshMap
  share_live : v.shareMap < k.freshMap
  main : v.mainTimestamp = (k.map i).stamp
  share : v.shareMap ≠ i → v.shareTimestamp = some (k.map v.shareMap).stamp

theorem lookupObject_found {b : VmOffset} {wired shared : Bool} {out : LookupOutcome}
    (hk : MapsInOrder k) (hi : i < k.freshMap) (hj : j < k.freshMap)
    (htr : ∀ k', EntryFixed j e k k' →
      translate k' i a = some (fixedTranslation k' j e b prot wired))
    (hs : lookupObject S k i j e b faultType prot wired shared = some (k', out)) :
    MapsInOrder k' ∧ k'.freshMap = k.freshMap ∧ (∀ i' ft, out = .again i' ft → i' = i) ∧
      ∀ r, out = .found r → Translates k' i a r ∧ Current k' i r.version := by
  obtain ⟨⟨k₁, left⟩, hn, hs⟩ := Option.bind_eq_some_iff.mp hs
  obtain ⟨h₁, hleft⟩ := needsCopyPass_fixed hn
  cases left with
  | none =>
    cases Option.some.inj hs
    refine ⟨h₁.inOrder hk, h₁.fresh, ?_, by simp⟩
    intro i' ft ho
    cases ho
    rfl
  | some p =>
    obtain ⟨⟨k₂, granted⟩, ho, hs⟩ := Option.bind_eq_some_iff.mp hs
    obtain ⟨h₂, hsame⟩ := nullObjectPass_fixed ho
    have h := h₁.trans h₂
    cases granted with
    | false =>
      cases Option.some.inj hs
      refine ⟨h.inOrder hk, h.fresh, ?_, by simp⟩
      intro i' ft ho
      cases ho
      rfl
    | true =>
      cases Option.some.inj hs
      refine ⟨h.inOrder hk, h.fresh, by simp, ?_⟩
      intro r hr
      cases hr
      obtain ⟨hp, hw⟩ := hleft p rfl
      refine ⟨⟨_, htr _ h, rfl, rfl, rfl, hp, rfl, ?_⟩, ⟨?_, ?_, rfl, ?_⟩⟩
      · intro hpw
        exact hsame.trans (hw hpw)
      · exact h.fresh ▸ hi
      · exact h.fresh ▸ hj
      · intro hne
        exact if_pos hne

theorem lookupPass_found {out : LookupOutcome} (hk : MapsInOrder k) (hi : i < k.freshMap)
    (hs : lookupPass S fuel k i vaddr faultType = some (k', out)) :
    MapsInOrder k' ∧ k'.freshMap = k.freshMap ∧
      (∀ i' ft, out = .again i' ft → i' < k.freshMap) ∧
      ∀ r, out = .found r → Translates k' i vaddr r ∧ Current k' i r.version := by
  obtain ⟨⟨m, hit⟩, hl, hs⟩ := Option.bind_eq_some_iff.mp hs
  obtain ⟨l, hm, hlive⟩ := hk i hi
  obtain ⟨hmeq, hhint, hhit⟩ := lookupHint_spec hm hl
  have hmi : LiveMap k.freshMap i m l := hmeq ▸ LiveMap.saveHint ⟨hm, hlive⟩ hhint
  have hk₁ : MapsInOrder (k.setMap i m) := hk.setMap hmi
  have hentry : m.entry = (k.map i).entry := by rw [hmeq]; rfl
  have hself : (k.setMap i m).map i = m := setMap_map_self k i m
  cases hit with
  | none =>
    cases Option.some.inj hs
    exact ⟨hk₁, rfl, by simp, by simp⟩
  | some e =>
    obtain ⟨he, hlo, hhi⟩ := hhit e rfl
    rw [← hentry] at hlo hhi
    have hshare := hmi.2 e he
    simp only at hs
    split at hs
    next =>
      obtain ⟨j, hj, hs⟩ := Option.bind_eq_some_iff.mp hs
      cases Option.some.inj hs
      refine ⟨hk₁, rfl, ?_, by simp⟩
      intro i' ft ho
      cases ho
      exact (hshare j hj).1
    next hsub =>
      have hsub : (m.entry e).isSubMap = false := by simpa using hsub
      split at hs
      next =>
        cases Option.some.inj hs
        exact ⟨hk₁, rfl, by simp, by simp⟩
      next =>
        split at hs
        next hmap =>
          obtain ⟨j, hj, hs⟩ := Option.bind_eq_some_iff.mp hs
          obtain ⟨⟨n, found, e'⟩, hn, hs⟩ := Option.bind_eq_some_iff.mp hs
          obtain ⟨hjlt, hji⟩ := hshare j hj
          obtain ⟨l', hm', hlive'⟩ := hk₁ j hjlt
          have hsp := vmMapLookupEntry_spec hm' hn
          have hni : LiveMap k.freshMap j n l' :=
            hsp.map_eq ▸ LiveMap.saveHint ⟨hm', hlive'⟩ hsp.hint_mem
          have hk₂ : MapsInOrder ((k.setMap i m).setMap j n) := hk₁.setMap hni
          have hi₂ : ((k.setMap i m).setMap j n).map i = m := by
            rw [setMap_map, if_neg hji.symm, hself]
          have hj₂ : ((k.setMap i m).setMap j n).map j = n := setMap_map_self _ j n
          cases found with
          | false =>
            cases Option.some.inj hs
            exact ⟨hk₂, rfl, by simp, by simp⟩
          | true =>
            obtain ⟨he', hlo', hhi'⟩ := hsp.hit rfl
            rw [← hsp.entry_eq] at hlo' hhi'
            have := lookupObject_found (a := vaddr) hk₂ hi hjlt ?_ hs
            · obtain ⟨h₁, h₂, h₃, h₄⟩ := this
              exact ⟨h₁, h₂, fun i' ft ho => (h₃ i' ft ho) ▸ hi, h₄⟩
            · intro k'' h
              have := h.translate_shared hji.symm (by rw [hi₂]; exact hmi.1) he
                (by rwa [hi₂]) (by rwa [hi₂]) (by rwa [hi₂]) (by rwa [hi₂]) (by rwa [hi₂])
                (by rw [hi₂]) (by rw [hj₂]; exact hni.1) he' (by rwa [hj₂]) (by rwa [hj₂])
              rwa [hi₂] at this
        next hmap =>
          have hmap : (m.entry e).isAMap = false := by simpa using hmap
          have := lookupObject_found (a := vaddr) hk₁ hi hi ?_ hs
          · obtain ⟨h₁, h₂, h₃, h₄⟩ := this
            exact ⟨h₁, h₂, fun i' ft ho => (h₃ i' ft ho) ▸ hi, h₄⟩
          · intro k'' h
            have := h.translate_direct (by rw [hself]; exact hmi.1) he (by rwa [hself])
              (by rwa [hself]) (by rwa [hself]) (by rwa [hself])
            rwa [hself] at this

theorem vmMapLookup_found {i' : MapId} {r : LookupResult} (hk : MapsInOrder k) (hi : i < k.freshMap)
    (hs : vmMapLookup S fuel k i vaddr faultType = some (k', i', .ok r)) :
    Translates k' i' vaddr r ∧ Current k' i' r.version := by
  induction fuel generalizing k i faultType with
  | zero => simp [vmMapLookup] at hs
  | succ fuel ih =>
    obtain ⟨⟨k₁, out⟩, hp, hs⟩ := Option.bind_eq_some_iff.mp hs
    obtain ⟨hk₁, hf, hagain, hfound⟩ := lookupPass_found hk hi hp
    cases out with
    | again j ft => exact ih hk₁ (hf ▸ hagain j ft rfl) hs
    | failed why => cases Option.some.inj hs
    | found r' =>
      cases Option.some.inj hs
      exact hfound r rfl

end MachVM
