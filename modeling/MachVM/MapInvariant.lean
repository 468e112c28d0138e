import MachVM.MapOrder

namespace MachVM

open Ring

/-- The entries of a map, in address order, represented by its links and cached pointers. -/
structure MapInv (m : VmMap) (l : List EntryId) : Prop where
  ring : Linked m.next m.prev header l
  count : m.nentries = l.length
  fresh : ∀ e ∈ header :: l, e < m.freshEntry
  span : ∀ e ∈ l, (m.entry e).start < (m.entry e).endAddr
  sorted : l.Pairwise fun a b => (m.entry a).endAddr ≤ (m.entry b).start
  low : ∀ e ∈ l, m.minOffset ≤ (m.entry e).start
  high : ∀ e ∈ l, (m.entry e).endAddr ≤ m.maxOffset
  hint_mem : m.hint ∈ header :: l
  free_mem : m.firstFree ∈ header :: l

variable {m n : VmMap} {l l₁ l₂ : List EntryId} {e x : EntryId} {a : VmOffset}

theorem MapInv.order (h : MapInv m l) : MapOrder m l :=
  ⟨h.ring, h.count, h.fresh, fun e he => BitVec.le_of_lt (h.span e he), h.sorted, h.low, h.high,
    h.hint_mem, h.free_mem⟩

theorem MapOrder.strict (h : MapOrder m l)
    (hs : ∀ e ∈ l, (m.entry e).start < (m.entry e).endAddr) : MapInv m l :=
  ⟨h.ring, h.count, h.fresh, hs, h.sorted, h.low, h.high, h.hint_mem, h.free_mem⟩

theorem MapInv.header_not_mem (h : MapInv m l) : header ∉ l := h.order.header_not_mem

theorem MapInv.nodup (h : MapInv m l) : l.Nodup := h.order.nodup

theorem MapInv.fresh_not_mem (h : MapInv m l) : m.freshEntry ∉ header :: l := h.order.fresh_not_mem

theorem MapInv.congr (h : MapInv m l) (hn : n.next = m.next) (hp : n.prev = m.prev)
    (he : ∀ e ∈ header :: l, (n.entry e).start = (m.entry e).start ∧
      (n.entry e).endAddr = (m.entry e).endAddr)
    (hc : n.nentries = m.nentries) (hf : m.freshEntry ≤ n.freshEntry)
    (hh : n.hint ∈ header :: l) (hr : n.firstFree ∈ header :: l) : MapInv n l := by
  refine (h.order.congr hn hp he hc hf hh hr).strict ?_
  intro e hm
  obtain ⟨hs, hend⟩ := he e (List.mem_cons_of_mem _ hm)
  rw [hs, hend]
  exact h.span e hm

theorem MapInv.saveHint (h : MapInv m l) (he : e ∈ header :: l) : MapInv (m.saveHint e) l :=
  h.congr rfl rfl (fun _ _ => ⟨rfl, rfl⟩) rfl (Nat.le_refl _) he h.free_mem

theorem MapInv.lock (h : MapInv m l) : MapInv (vmMapLock m) l :=
  h.congr rfl rfl (fun _ _ => ⟨rfl, rfl⟩) rfl (Nat.le_refl _) h.hint_mem h.free_mem

theorem MapInv.setBody {y : VmMapEntry} (h : MapInv m l) (hs : y.start = (m.entry e).start)
    (he : y.endAddr = (m.entry e).endAddr) : MapInv (m.setEntry e y) l := by
  refine (h.order.setBody hs he).strict ?_
  intro z hz
  by_cases hze : z = e
  · subst hze
    rw [setEntry_entry_self, hs, he]
    exact h.span z hz
  · rw [setEntry_entry_of_ne m y hze]
    exact h.span z hz

theorem MapInv.cut (h : MapInv m (l₁ ++ l₂)) :
    m.next (before header l₁) = after l₂ header ∧ m.prev (after l₂ header) = before header l₁ :=
  h.order.cut

theorem MapInv.next_mem (h : MapInv m l) (he : e ∈ header :: l) : m.next e ∈ header :: l :=
  h.order.next_mem he

theorem MapInv.span_le (h : MapInv m l) (he : e ∈ l) :
    (m.entry e).start.toNat < (m.entry e).endAddr.toNat := BitVec.lt_def.mp (h.span e he)

theorem MapInv.sorted_before (h : MapInv m (l₁ ++ e :: l₂)) (hx : x ∈ l₁) :
    (m.entry x).endAddr.toNat ≤ (m.entry e).start.toNat := h.order.sorted_before hx

theorem MapInv.sorted_after (h : MapInv m (l₁ ++ e :: l₂)) (hx : x ∈ l₂) :
    (m.entry e).endAddr.toNat ≤ (m.entry x).start.toNat := h.order.sorted_after hx

theorem vmMapLookupEntry_spec {fuel : Nat} {found : Bool} (h : MapInv m l)
    (hs : vmMapLookupEntry fuel m a = some (n, found, e)) : LookupSpec m l a n found e :=
  vmMapLookupEntry_order h.order hs

end MachVM

namespace MachVM

open Ring

variable {m n : VmMap} {l l₁ l₂ : List EntryId} {e x : EntryId} {a : VmOffset} {y : VmMapEntry}

theorem MapInv.ne_header (h : MapInv m l) (he : e ∈ l) : e ≠ header := h.order.ne_header he

theorem MapInv.setEntry_bounds (h : MapInv m l) (he : e ∈ l) :
    (m.setEntry e y).minOffset = m.minOffset ∧ (m.setEntry e y).maxOffset = m.maxOffset :=
  h.order.setEntry_bounds he

theorem MapInv.ne_before (h : MapInv m (l₁ ++ e :: l₂)) (hx : x ∈ l₁) : x ≠ e := h.order.ne_before hx

theorem MapInv.ne_after (h : MapInv m (l₁ ++ e :: l₂)) (hx : x ∈ l₂) : x ≠ e := h.order.ne_after hx

theorem MapInv.resize (h : MapInv m (l₁ ++ e :: l₂)) (hs : y.start < y.endAddr)
    (hmin : m.minOffset ≤ y.start) (hmax : y.endAddr ≤ m.maxOffset)
    (hl : ∀ x ∈ l₁, (m.entry x).endAddr ≤ y.start)
    (hr : ∀ x ∈ l₂, y.endAddr ≤ (m.entry x).start) : MapInv (m.setEntry e y) (l₁ ++ e :: l₂) := by
  refine (h.order.resize (BitVec.le_of_lt hs) hmin hmax hl hr).strict ?_
  intro z hz
  by_cases hze : z = e
  · simpa [hze] using hs
  · rw [setEntry_entry_of_ne m y hze]
    exact h.span z hz

theorem MapInv.narrow (h : MapInv m (l₁ ++ e :: l₂)) (hs : y.start < y.endAddr)
    (hlo : (m.entry e).start ≤ y.start) (hhi : y.endAddr ≤ (m.entry e).endAddr) :
    MapInv (m.setEntry e y) (l₁ ++ e :: l₂) := by
  have hm : e ∈ l₁ ++ e :: l₂ := by simp
  refine h.resize hs ?_ ?_ ?_ ?_
  · exact BitVec.le_trans (h.low e hm) hlo
  · exact BitVec.le_trans hhi (h.high e hm)
  · intro x hx
    exact BitVec.le_trans (BitVec.le_def.mpr (h.sorted_before hx)) hlo
  · intro x hx
    exact BitVec.le_trans hhi (BitVec.le_def.mpr (h.sorted_after hx))

theorem MapInv.link (h : MapInv m (l₁ ++ l₂)) (hs : y.start < y.endAddr)
    (hmin : m.minOffset ≤ y.start) (hmax : y.endAddr ≤ m.maxOffset)
    (hl : ∀ x ∈ l₁, (m.entry x).endAddr ≤ y.start)
    (hr : ∀ x ∈ l₂, y.endAddr ≤ (m.entry x).start) :
    MapInv (vmMapEntryLink ((vmMapEntryCreate m).1.setEntry m.freshEntry y) (before header l₁)
      m.freshEntry) (l₁ ++ m.freshEntry :: l₂) := by
  refine (h.order.link (BitVec.le_of_lt hs) hmin hmax hl hr).strict ?_
  intro z hz
  change (((vmMapEntryCreate m).1.setEntry m.freshEntry y).entry z).start <
    (((vmMapEntryCreate m).1.setEntry m.freshEntry y).entry z).endAddr
  by_cases hze : z = m.freshEntry
  · simpa [hze] using hs
  · rw [setEntry_entry_of_ne _ y hze]
    refine h.span z ?_
    simp only [List.mem_append, List.mem_cons] at hz ⊢
    tauto

theorem MapInv.unlink (h : MapInv m (l₁ ++ e :: l₂)) (hh : m.hint ≠ e) (hf : m.firstFree ≠ e) :
    MapInv (vmMapEntryUnlink m e) (l₁ ++ l₂) := by
  refine (h.order.unlink hh hf).strict ?_
  intro z hz
  refine h.span z ?_
  simp only [List.mem_append, List.mem_cons] at hz ⊢
  tauto

end MachVM

namespace MachVM

open Ring

/-- An entry that points directly to an object, or to none while it is not wired. -/
structure PlainEntry (x : VmMapEntry) : Prop where
  not_a_map : x.isAMap = false
  not_sub_map : x.isSubMap = false
  object_ne : ∀ j, x.object ≠ .map j
  wired : x.wiredCount ≠ 0 → x.object ≠ .null

/-- A task map in order, with no sharing map or submap behind any entry. -/
structure PlainMap (m : VmMap) (l : List EntryId) : Prop extends MapInv m l where
  main : m.isMainMap = true
  plain : ∀ e ∈ l, PlainEntry (m.entry e)

variable {m n : VmMap} {l l₁ l₂ : List EntryId} {e x : EntryId} {a : VmOffset} {y : VmMapEntry}

theorem PlainEntry.congr (h : PlainEntry y) {z : VmMapEntry} (hm : z.isAMap = y.isAMap)
    (hs : z.isSubMap = y.isSubMap) (ho : z.object = y.object) (hw : z.wiredCount = y.wiredCount) :
    PlainEntry z :=
  ⟨hm.trans h.not_a_map, hs.trans h.not_sub_map, ho ▸ h.object_ne, by rw [hw, ho]; exact h.wired⟩

theorem PlainMap.saveHint (h : PlainMap m l) (he : e ∈ header :: l) : PlainMap (m.saveHint e) l :=
  ⟨h.toMapInv.saveHint he, h.main, h.plain⟩

theorem PlainMap.lock (h : PlainMap m l) : PlainMap (vmMapLock m) l :=
  ⟨h.toMapInv.lock, h.main, h.plain⟩

theorem PlainMap.setBody (h : PlainMap m l) (hs : y.start = (m.entry e).start)
    (he : y.endAddr = (m.entry e).endAddr) (hp : PlainEntry y) : PlainMap (m.setEntry e y) l := by
  refine ⟨h.toMapInv.setBody hs he, h.main, ?_⟩
  intro z hz
  by_cases hze : z = e
  · simpa [hze] using hp
  · rw [setEntry_entry_of_ne m y hze]
    exact h.plain z hz

theorem PlainMap.resize (h : PlainMap m (l₁ ++ e :: l₂)) (hi : MapInv (m.setEntry e y) (l₁ ++ e :: l₂))
    (hp : PlainEntry y) : PlainMap (m.setEntry e y) (l₁ ++ e :: l₂) := by
  refine ⟨hi, h.main, ?_⟩
  intro z hz
  by_cases hze : z = e
  · simpa [hze] using hp
  · rw [setEntry_entry_of_ne m y hze]
    exact h.plain z hz

theorem PlainMap.link (h : PlainMap m (l₁ ++ l₂)) (hs : y.start < y.endAddr)
    (hmin : m.minOffset ≤ y.start) (hmax : y.endAddr ≤ m.maxOffset)
    (hl : ∀ x ∈ l₁, (m.entry x).endAddr ≤ y.start)
    (hr : ∀ x ∈ l₂, y.endAddr ≤ (m.entry x).start) (hp : PlainEntry y) :
    PlainMap (vmMapEntryLink ((vmMapEntryCreate m).1.setEntry m.freshEntry y) (before header l₁)
      m.freshEntry) (l₁ ++ m.freshEntry :: l₂) := by
  refine ⟨h.toMapInv.link hs hmin hmax hl hr, h.main, ?_⟩
  intro z hz
  change PlainEntry (((vmMapEntryCreate m).1.setEntry m.freshEntry y).entry z)
  by_cases hze : z = m.freshEntry
  · simpa [hze] using hp
  · rw [setEntry_entry_of_ne _ y hze]
    refine h.plain z ?_
    simp only [List.mem_append, List.mem_cons] at hz ⊢
    tauto

theorem PlainMap.clipFront (h : PlainMap m (l₁ ++ e :: l₂)) (hs : (m.entry e).start < a)
    (he : a < (m.entry e).endAddr) :
    PlainMap (clipFront m e a) (l₁ ++ m.freshEntry :: e :: l₂) := by
  have hm : e ∈ l₁ ++ e :: l₂ := by simp
  have hp := h.plain e hm
  have hn := h.resize (h.toMapInv.narrow
    (y := { m.entry e with offset := (m.entry e).offset + (a - (m.entry e).start), start := a })
    he (BitVec.le_of_lt hs) (BitVec.le_refl _)) (hp.congr rfl rfl rfl rfl)
  have hb := h.setEntry_bounds
    (y := { m.entry e with offset := (m.entry e).offset + (a - (m.entry e).start), start := a }) hm
  rw [clipFront_eq h.order]
  refine hn.link hs ?_ ?_ ?_ ?_ (hp.congr rfl rfl rfl rfl)
  · rw [hb.1]
    exact h.low e hm
  · rw [hb.2]
    exact BitVec.le_trans (BitVec.le_of_lt he) (h.high e hm)
  · intro z hz
    rw [setEntry_entry_of_ne m _ (h.ne_before hz)]
    exact BitVec.le_def.mpr (h.sorted_before hz)
  · intro z hz
    rcases List.mem_cons.mp hz with rfl | hz
    · rw [setEntry_entry_self]
      exact BitVec.le_refl _
    · rw [setEntry_entry_of_ne m _ (h.ne_after hz)]
      exact BitVec.le_trans (BitVec.le_of_lt he) (BitVec.le_def.mpr (h.sorted_after hz))

theorem PlainMap.clipBack (h : PlainMap m (l₁ ++ e :: l₂)) (hs : (m.entry e).start < a)
    (he : a < (m.entry e).endAddr) :
    PlainMap (clipBack m e a) (l₁ ++ e :: m.freshEntry :: l₂) := by
  have hm : e ∈ l₁ ++ e :: l₂ := by simp
  have hp := h.plain e hm
  have hn := h.resize (h.toMapInv.narrow (y := { m.entry e with endAddr := a })
    hs (BitVec.le_refl _) (BitVec.le_of_lt he)) (hp.congr rfl rfl rfl rfl)
  have hb := h.setEntry_bounds (y := { m.entry e with endAddr := a }) hm
  have hn' : PlainMap (m.setEntry e { m.entry e with endAddr := a }) ((l₁ ++ [e]) ++ l₂) := by
    simpa using hn
  rw [clipBack_eq h.order]
  have := hn'.link (y := { m.entry e with
    start := a, offset := (m.entry e).offset + (a - (m.entry e).start) }) he ?_ ?_ ?_ ?_
    (hp.congr rfl rfl rfl rfl)
  · rw [List.append_assoc] at this
    exact this
  · rw [hb.1]
    exact BitVec.le_trans (h.low e hm) (BitVec.le_of_lt hs)
  · rw [hb.2]
    exact h.high e hm
  · intro z hz
    rcases List.mem_append.mp hz with hz | hz
    · rw [setEntry_entry_of_ne m _ (h.ne_before hz)]
      exact BitVec.le_trans (BitVec.le_def.mpr (h.sorted_before hz)) (BitVec.le_of_lt hs)
    · cases List.mem_singleton.mp hz
      rw [setEntry_entry_self]
      exact BitVec.le_refl _
  · intro z hz
    rw [setEntry_entry_of_ne m _ (h.ne_after hz)]
    exact BitVec.le_def.mpr (h.sorted_after hz)

/-- What an invariant of task maps must survive to survive the lookups, faults and range
operations: the lock, a move of the hint, a new body for an entry and the two clips. None of these
writes a maximum protection. -/
class Steady (P : VmMap → List EntryId → Prop) : Prop where
  plain {m : VmMap} {l : List EntryId} : P m l → PlainMap m l
  lock {m : VmMap} {l : List EntryId} : P m l → P (vmMapLock m) l
  saveHint {m : VmMap} {l : List EntryId} {e : EntryId} :
    P m l → e ∈ header :: l → P (m.saveHint e) l
  setBody {m : VmMap} {l : List EntryId} {e : EntryId} {y : VmMapEntry} : P m l →
    y.start = (m.entry e).start → y.endAddr = (m.entry e).endAddr →
    y.maxProtection = (m.entry e).maxProtection → PlainEntry y → P (m.setEntry e y) l
  clipFront {m : VmMap} {l₁ l₂ : List EntryId} {e : EntryId} {a : VmOffset} :
    P m (l₁ ++ e :: l₂) → (m.entry e).start < a → a < (m.entry e).endAddr →
    P (clipFront m e a) (l₁ ++ m.freshEntry :: e :: l₂)
  clipBack {m : VmMap} {l₁ l₂ : List EntryId} {e : EntryId} {a : VmOffset} :
    P m (l₁ ++ e :: l₂) → (m.entry e).start < a → a < (m.entry e).endAddr →
    P (clipBack m e a) (l₁ ++ e :: m.freshEntry :: l₂)

instance : Steady PlainMap :=
  ⟨id, PlainMap.lock, PlainMap.saveHint, fun h hs he _ => h.setBody hs he, PlainMap.clipFront, PlainMap.clipBack⟩

theorem vmMapCreate_plain (zone : VmMap) (pmap : Option PmapId) (min max : VmOffset)
    (pageable : Bool) : PlainMap (vmMapCreate zone pmap min max pageable) [] := by
  refine ⟨⟨⟨⟨?_, ?_⟩, by simp⟩, rfl, ?_, by simp, by simp, by simp, by simp, by simp [vmMapCreate],
    by simp [vmMapCreate]⟩, rfl, by simp⟩
  · simp [vmMapCreate]
  · simp [vmMapCreate]
  · intro x hx
    cases List.mem_singleton.mp hx
    simp [vmMapCreate]

end MachVM
