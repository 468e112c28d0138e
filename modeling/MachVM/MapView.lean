import MachVM.MapFirstFit
import MachVM.MapTranslate

namespace MachVM

open Ring

variable {m n : VmMap} {l l₁ l₂ : List EntryId} {a : VmOffset} {e hint : EntryId} {fuel : Nat}

/-- The last entry that ends at or below an address, the header if there is none. -/
def lastBelow (m : VmMap) (l : List EntryId) (a : VmOffset) : EntryId :=
  (l.filter fun e => (m.entry e).endAddr ≤ a).getLast?.getD header

theorem before_eq_getLast (a : EntryId) (l : List EntryId) : before a l = l.getLast?.getD a := by
  induction l generalizing a with
  | nil => rfl
  | cons x l ih => rw [before_cons, ih x, List.getLast?_cons, Option.getD_some]

theorem findEntry_some (h : MapInv m (l₁ ++ l₂))
    (hf : findEntry m a l₂.length (after l₂ header) = some e) :
    e ∈ l₂ ∧ (m.entry e).start ≤ a ∧ a < (m.entry e).endAddr := by
  induction l₂ generalizing l₁ with
  | nil => simp [findEntry] at hf
  | cons y q ih =>
    rw [List.length_cons, after_cons, findEntry] at hf
    split at hf
    next hh =>
      cases Option.some.inj hf
      exact ⟨List.mem_cons_self, hh⟩
    next =>
      have h' : MapInv m ((l₁ ++ [y]) ++ q) := by simpa using h
      rw [h.next_at] at hf
      obtain ⟨hq, hh⟩ := ih h' hf
      exact ⟨List.mem_cons_of_mem y hq, hh⟩

theorem MapInv.entryAt_iff (h : MapInv m l) :
    MachVM.entryAt m a = some e ↔ e ∈ l ∧ (m.entry e).start ≤ a ∧ a < (m.entry e).endAddr := by
  constructor
  · intro hf
    rw [MachVM.entryAt, h.count, Int.toNat_natCast, h.order.next_header] at hf
    have h₀ : MapInv m ([] ++ l) := h
    exact findEntry_some h₀ hf
  · rintro ⟨he, hlo, hhi⟩
    exact h.entryAt he hlo hhi

theorem LookupSpec.answer {found : Bool} (h : MapInv m l) (hs : LookupSpec m l a n found e) :
    found = (entryAt m a).isSome ∧ e = (entryAt m a).getD (lastBelow m l a) := by
  cases found with
  | true =>
    rw [h.entryAt_iff.mpr (hs.hit rfl)]
    exact ⟨rfl, rfl⟩
  | false =>
    obtain ⟨-, l₁, l₂, rfl, rfl, hlt, hgt⟩ := hs.miss rfl
    have hnone : entryAt m a = none := by
      rw [Option.eq_none_iff_forall_ne_some]
      intro x hx
      obtain ⟨hm, hlo, hhi⟩ := h.entryAt_iff.mp hx
      rcases List.mem_append.mp hm with hm | hm
      · exact BitVec.not_lt.mpr (hlt x hm) hhi
      · exact BitVec.not_le.mpr (hgt x hm) hlo
    have hfirst : l₁.filter (fun e => (m.entry e).endAddr ≤ a) = l₁ :=
      List.filter_eq_self.mpr fun x hx => decide_eq_true (hlt x hx)
    have hrest : l₂.filter (fun e => (m.entry e).endAddr ≤ a) = [] := by
      rw [List.filter_eq_nil_iff]
      intro x hx
      rw [decide_eq_true_eq, BitVec.not_le]
      exact BitVec.lt_trans (hgt x hx) (h.span x (List.mem_append_right _ hx))
    rw [hnone, lastBelow, List.filter_append, hfirst, hrest, List.append_nil, before_eq_getLast]
    exact ⟨rfl, rfl⟩

/-- A lookup gives the entry that contains the address, or else the last one below it, whatever
entry the hint names; the test of the hint in `vm_map_lookup` selects the same entry. -/
theorem vmMapLookupEntry_any_hint (h : MapInv m l) (hf : l.length < fuel) (hh : hint ∈ header :: l)
    (a : VmOffset) :
    (∃ saved ∈ header :: l, vmMapLookupEntry fuel (m.saveHint hint) a =
      some (m.saveHint saved, (entryAt m a).isSome, (entryAt m a).getD (lastBelow m l a))) ∧
    (∃ saved ∈ header :: l, lookupHint fuel (m.saveHint hint) a =
      some (m.saveHint saved, entryAt m a)) ∧
    ∀ e, entryAt m a = some e ↔ e ∈ l ∧ (m.entry e).start ≤ a ∧ a < (m.entry e).endAddr := by
  have hm : MapInv (m.saveHint hint) l := h.saveHint hh
  obtain ⟨⟨n, found, e⟩, hl⟩ := vmMapLookupEntry_some (a := a) hm hf
  have hs := vmMapLookupEntry_spec hm hl
  have hn : n = m.saveHint n.hint := hs.map_eq
  have hsame : entryAt (m.saveHint hint) a = entryAt m a := by
    apply entryAt_congr <;> rfl
  have hanswer := hs.answer hm
  rw [hsame] at hanswer
  obtain ⟨hfound, he⟩ : found = (entryAt m a).isSome ∧ e = (entryAt m a).getD (lastBelow m l a) :=
    hanswer
  refine ⟨⟨n.hint, hs.hint_mem, ?_⟩, ?_, fun e => h.entryAt_iff⟩
  · rw [hl, ← hn, hfound, he]
  · rw [lookupHint]
    split
    next =>
      refine ⟨n.hint, hs.hint_mem, ?_⟩
      rw [hl, Option.map_some, hfound, he, ← hn]
      cases entryAt m a <;> rfl
    next hc =>
      rw [not_or, not_or] at hc
      refine ⟨hint, hh, congrArg some (Prod.ext rfl (Eq.symm ?_))⟩
      refine h.entryAt_iff.mpr ⟨(List.mem_cons.mp hh).resolve_left hc.1, ?_, ?_⟩
      · exact BitVec.not_lt.mp hc.2.1
      · exact BitVec.not_le.mp hc.2.2

def twoRegions : VmMap :=
  tableMap 0x1000 0x8000 none [{ start := 0x2000, endAddr := 0x3000, protection := protRead },
    { start := 0x5000, endAddr := 0x6000, protection := protDefault }]

theorem twoRegions_inv : MapInv twoRegions [1, 2] := by
  refine ⟨⟨?_, by decide⟩, rfl, by decide, by decide, by decide, by decide, by decide, by decide,
    by decide⟩
  simp only [Seg]
  decide

/-- Below the first of two regions, with the hint on the second one. -/
theorem twoRegions_any_hint :
    (∃ saved ∈ [0, 1, 2], vmMapLookupEntry 3 (twoRegions.saveHint 2) 0x1800 =
      some (twoRegions.saveHint saved, false, 0)) ∧
    (∃ saved ∈ [0, 1, 2], lookupHint 3 (twoRegions.saveHint 2) 0x1800 =
      some (twoRegions.saveHint saved, none)) :=
  have h := vmMapLookupEntry_any_hint twoRegions_inv (by decide) (show 2 ∈ [header, 1, 2] by decide)
    0x1800
  ⟨h.1, h.2.1⟩

end MachVM

namespace MachVM

open Ring

variable {σ : Type} {S : Services σ} {k k' : Kernel σ} {i j : MapId} {m n : VmMap}
  {l l₁ l₂ : List EntryId} {e x : EntryId} {a b c start endAddr : VmOffset} {fuel : Nat}
  {bound : MapId} {y : VmMapEntry}

/-- An entry seen from one of its addresses, with the offset of that very byte. -/
def VmMapEntry.locate (x : VmMapEntry) (a : VmOffset) : VmMapEntry :=
  { x with start := a, endAddr := 0, offset := x.offset + (a - x.start) }

/-- What a list of entries says about an address. -/
def view (m : VmMap) (l : List EntryId) (a : VmOffset) : Option VmMapEntry :=
  (l.find? fun e => (m.entry e).start ≤ a ∧ a < (m.entry e).endAddr).map fun e => (m.entry e).locate a

/-- What a map says about an address. -/
def pageAt (m : VmMap) (a : VmOffset) : Option VmMapEntry :=
  (entryAt m a).map fun e => (m.entry e).locate a

@[simp] theorem view_nil (m : VmMap) (a : VmOffset) : view m [] a = none := rfl

theorem view_cons (m : VmMap) (e : EntryId) (l : List EntryId) (a : VmOffset) :
    view m (e :: l) a = if (m.entry e).start ≤ a ∧ a < (m.entry e).endAddr
      then some ((m.entry e).locate a) else view m l a := by
  rw [view, List.find?_cons]
  split
  next h =>
    rw [if_pos (of_decide_eq_true h), Option.map_some]
  next h =>
    rw [if_neg (of_decide_eq_false h)]
    rfl

theorem view_append (m : VmMap) (l₁ l₂ : List EntryId) (a : VmOffset) :
    view m (l₁ ++ l₂) a = (view m l₁ a).or (view m l₂ a) := by
  simp only [view, List.find?_append]
  cases List.find? (fun e => decide ((m.entry e).start ≤ a ∧ a < (m.entry e).endAddr)) l₁ <;> rfl

theorem view_congr (h : ∀ e ∈ l, n.entry e = m.entry e) (a : VmOffset) : view n l a = view m l a := by
  induction l with
  | nil => rfl
  | cons e l ih =>
    rw [view_cons, view_cons, h e List.mem_cons_self, ih fun x hx => h x (List.mem_cons_of_mem e hx)]

theorem view_eq_some (h : view m l a = some y) :
    ∃ e ∈ l, (m.entry e).start ≤ a ∧ a < (m.entry e).endAddr ∧ y = (m.entry e).locate a := by
  obtain ⟨e, he, rfl⟩ := Option.map_eq_some_iff.mp h
  obtain ⟨hlo, hhi⟩ : (m.entry e).start ≤ a ∧ a < (m.entry e).endAddr := by
    simpa using List.find?_some he
  exact ⟨e, List.mem_of_find?_eq_some he, hlo, hhi, rfl⟩

theorem view_start (h : view m l a = some y) : y.start = a := by
  obtain ⟨e, -, -, -, rfl⟩ := view_eq_some h
  rfl

theorem MapInv.pageAt_eq (h : MapInv m l) (a : VmOffset) : MachVM.pageAt m a = view m l a := by
  have hwalk : ∀ l₁ l₂, MapInv m (l₁ ++ l₂) → MachVM.findEntry m a l₂.length (after l₂ header) =
      l₂.find? fun e => (m.entry e).start ≤ a ∧ a < (m.entry e).endAddr := by
    intro l₁ l₂
    induction l₂ generalizing l₁ with
    | nil => intro _; rfl
    | cons y q ih =>
      intro hm
      have hm' : MapInv m ((l₁ ++ [y]) ++ q) := by simpa using hm
      rw [List.length_cons, after_cons, MachVM.findEntry, List.find?_cons, hm.next_at, ih _ hm']
      by_cases hy : (m.entry y).start ≤ a ∧ a < (m.entry y).endAddr
      · rw [if_pos hy, decide_eq_true hy]
      · rw [if_neg hy, decide_eq_false hy]
  have h₀ : MapInv m ([] ++ l) := h
  rw [MachVM.pageAt, MachVM.entryAt, h.count, Int.toNat_natCast, h.order.next_header, hwalk [] l h₀, view]

theorem MapInv.view_mem (h : MapInv m l) (he : e ∈ l) (hlo : (m.entry e).start ≤ a)
    (hhi : a < (m.entry e).endAddr) : view m l a = some ((m.entry e).locate a) := by
  rw [← h.pageAt_eq, MachVM.pageAt, h.entryAt he hlo hhi, Option.map_some]

theorem MapInv.clipFront (h : MapInv m (l₁ ++ e :: l₂)) (hs : (m.entry e).start < a)
    (he : a < (m.entry e).endAddr) :
    MapInv (clipFront m e a) (l₁ ++ m.freshEntry :: e :: l₂) := by
  have hm : e ∈ l₁ ++ e :: l₂ := by simp
  have hn := h.narrow
    (y := { m.entry e with offset := (m.entry e).offset + (a - (m.entry e).start), start := a })
    he (BitVec.le_of_lt hs) (BitVec.le_refl _)
  have hb := h.setEntry_bounds
    (y := { m.entry e with offset := (m.entry e).offset + (a - (m.entry e).start), start := a }) hm
  rw [clipFront_eq h.order]
  refine hn.link (y := { m.entry e with endAddr := a }) hs ?_ ?_ ?_ ?_
  · rw [hb.1]
    exact h.low e hm
  · rw [hb.2]
    exact BitVec.le_trans (BitVec.le_of_lt he) (h.high e hm)
  · intro z hz
    rw [setEntry_entry_of_ne m _ (h.ne_before hz)]
    exact BitVec.le_def.mpr (h.sorted_before hz)
  · intro z hz
    rcases List.mem_cons.mp hz with rfl | hz
    · rw [setEntry_entry_self]
      exact BitVec.le_refl _
    · rw [setEntry_entry_of_ne m _ (h.ne_after hz)]
      exact BitVec.le_trans (BitVec.le_of_lt he) (BitVec.le_def.mpr (h.sorted_after hz))

theorem MapInv.clipBack (h : MapInv m (l₁ ++ e :: l₂)) (hs : (m.entry e).start < a)
    (he : a < (m.entry e).endAddr) :
    MapInv (clipBack m e a) (l₁ ++ e :: m.freshEntry :: l₂) := by
  have hm : e ∈ l₁ ++ e :: l₂ := by simp
  have hn := h.narrow (y := { m.entry e with endAddr := a }) hs (BitVec.le_refl _) (BitVec.le_of_lt he)
  have hb := h.setEntry_bounds (y := { m.entry e with endAddr := a }) hm
  have hn' : MapInv (m.setEntry e { m.entry e with endAddr := a }) ((l₁ ++ [e]) ++ l₂) := by
    simpa using hn
  rw [clipBack_eq h.order]
  have := hn'.link (y := { m.entry e with
    start := a, offset := (m.entry e).offset + (a - (m.entry e).start) }) he ?_ ?_ ?_ ?_
  · rw [List.append_assoc] at this
    exact this
  · rw [hb.1]
    exact BitVec.le_trans (h.low e hm) (BitVec.le_of_lt hs)
  · rw [hb.2]
    exact h.high e hm
  · intro z hz
    rcases List.mem_append.mp hz with hz | hz
    · rw [setEntry_entry_of_ne m _ (h.ne_before hz)]
      exact BitVec.le_trans (BitVec.le_def.mpr (h.sorted_before hz)) (BitVec.le_of_lt hs)
    · cases List.mem_singleton.mp hz
      rw [setEntry_entry_self]
      exact BitVec.le_refl _
  · intro z hz
    rw [setEntry_entry_of_ne m _ (h.ne_after hz)]
    exact BitVec.le_def.mpr (h.sorted_after hz)

theorem clipFront_entry_fresh (hf : m.freshEntry ≠ e) (a : VmOffset) :
    (clipFront m e a).entry m.freshEntry = { m.entry e with endAddr := a } := by
  simp [MachVM.clipFront, vmMapEntryLink, vmMapEntryCreate, VmMap.setEntry, hf]

theorem clipFront_entry_of_ne (hx : x ≠ m.freshEntry) (he : x ≠ e) (a : VmOffset) :
    (clipFront m e a).entry x = m.entry x := by
  simp [MachVM.clipFront, vmMapEntryLink, vmMapEntryCreate, VmMap.setEntry, hx, he]

theorem clipBack_entry_fresh (hf : m.freshEntry ≠ e) (a : VmOffset) :
    (clipBack m e a).entry m.freshEntry =
      { m.entry e with start := a, offset := (m.entry e).offset + (a - (m.entry e).start) } := by
  simp [MachVM.clipBack, vmMapEntryLink, vmMapEntryCreate, VmMap.setEntry, hf]

theorem clipBack_entry_of_ne (hx : x ≠ m.freshEntry) (he : x ≠ e) (a : VmOffset) :
    (clipBack m e a).entry x = m.entry x := by
  simp [MachVM.clipBack, vmMapEntryLink, vmMapEntryCreate, VmMap.setEntry, hx, he]

theorem locate_later (x : VmMapEntry) (a b : VmOffset) :
    VmMapEntry.locate { x with offset := x.offset + (a - x.start), start := a } b = x.locate b := by
  have : x.offset + (a - x.start) + (b - a) = x.offset + (b - x.start) := by bv_omega
  simp only [VmMapEntry.locate, this]

theorem clipFront_view (h : MapInv m (l₁ ++ e :: l₂)) (hs : (m.entry e).start < a)
    (he : a < (m.entry e).endAddr) (b : VmOffset) :
    view (clipFront m e a) (m.freshEntry :: e :: l₂) b = view m (e :: l₂) b := by
  have hnew := h.fresh_not_mem
  have hne : m.freshEntry ≠ e := fun hc => hnew (hc ▸ by simp)
  have hrest : view (clipFront m e a) l₂ b = view m l₂ b := by
    apply view_congr
    intro x hx
    exact clipFront_entry_of_ne (fun hc => hnew (hc ▸ by simp [hx])) (h.ne_after hx) a
  have hse := BitVec.lt_def.mp hs
  have hee := BitVec.lt_def.mp he
  rw [view_cons, view_cons, view_cons, clipFront_entry_fresh hne, clipFront_entry_self, hrest, locate_later]
  simp only [BitVec.le_def, BitVec.lt_def]
  split_ifs <;> first | rfl | omega

theorem clipBack_view (h : MapInv m (l₁ ++ e :: l₂)) (hs : (m.entry e).start < a)
    (he : a < (m.entry e).endAddr) (b : VmOffset) :
    view (clipBack m e a) (e :: m.freshEntry :: l₂) b = view m (e :: l₂) b := by
  have hnew := h.fresh_not_mem
  have hne : m.freshEntry ≠ e := fun hc => hnew (hc ▸ by simp)
  have hrest : view (clipBack m e a) l₂ b = view m l₂ b := by
    apply view_congr
    intro x hx
    exact clipBack_entry_of_ne (fun hc => hnew (hc ▸ by simp [hx])) (h.ne_after hx) a
  have hlater : VmMapEntry.locate { m.entry e with
      start := a, offset := (m.entry e).offset + (a - (m.entry e).start) } b = (m.entry e).locate b :=
    locate_later (m.entry e) a b
  have hse := BitVec.lt_def.mp hs
  have hee := BitVec.lt_def.mp he
  rw [view_cons, view_cons, view_cons, clipBack_entry_fresh hne, clipBack_entry_self, hrest, hlater]
  simp only [BitVec.le_def, BitVec.lt_def]
  split_ifs <;> first | rfl | omega

/-- What an operation on map `i` may do to the other maps: their references, hints and version
numbers move, and their entries stay. -/
structure Others (i : MapId) (k k' : Kernel σ) : Prop where
  fresh : k'.freshMap = k.freshMap
  entry : ∀ j ≠ i, (k'.map j).entry = (k.map j).entry
  live : ∀ j ≠ i, ∀ b l, LiveMap b j (k.map j) l → LiveMap b j (k'.map j) l

theorem Others.refl (i : MapId) (k : Kernel σ) : Others i k k :=
  ⟨rfl, fun _ _ => rfl, fun _ _ _ _ h => h⟩

theorem Others.trans {k₁ : Kernel σ} (h : Others i k k₁) (h' : Others i k₁ k') : Others i k k' :=
  ⟨h'.fresh.trans h.fresh, fun j hj => (h'.entry j hj).trans (h.entry j hj),
    fun j hj b l hl => h'.live j hj b l (h.live j hj b l hl)⟩

theorem Others.of_map (hf : k'.freshMap = k.freshMap) (hm : ∀ j ≠ i, k'.map j = k.map j) :
    Others i k k' :=
  ⟨hf, fun j hj => by rw [hm j hj], fun j hj b l hl => by rwa [hm j hj]⟩

theorem others_setMap (i : MapId) (k : Kernel σ) (m : VmMap) : Others i k (k.setMap i m) :=
  .of_map rfl fun j hj => by rw [setMap_map, if_neg hj]

theorem others_setMachine (i : MapId) (k : Kernel σ) (s : σ) : Others i k (k.setMachine s) :=
  .of_map rfl fun _ _ => rfl

theorem others_setEntry (i : MapId) (k : Kernel σ) (e : EntryId) (y : VmMapEntry) :
    Others i k (k.setEntry i e y) := others_setMap i k _

theorem MapsInOrder.others (hk : MapsInOrder k) (ho : Others i k k')
    (hl : LiveMap k'.freshMap i (k'.map i) l) : MapsInOrder k' := by
  intro j hj
  by_cases hji : j = i
  · exact ⟨l, hji ▸ hl⟩
  · obtain ⟨lj, hlj⟩ := hk j (ho.fresh ▸ hj)
    rw [ho.fresh]
    exact ⟨lj, ho.live j hji _ lj hlj⟩

theorem Others.pageAt (ho : Others i k k') (hk : MapsInOrder k) (hj : j < k.freshMap) (hji : j ≠ i)
    (a : VmOffset) : MachVM.pageAt (k'.map j) a = MachVM.pageAt (k.map j) a := by
  obtain ⟨lj, hlj⟩ := hk j hj
  rw [hlj.1.pageAt_eq, (ho.live j hji _ lj hlj).1.pageAt_eq]
  exact view_congr (fun e _ => by rw [ho.entry j hji]) a

theorem LiveMap.congr (h : LiveMap bound j m l) (hm : MapInv n l) (he : n.entry = m.entry) :
    LiveMap bound j n l := ⟨hm, by rw [he]; exact h.2⟩

theorem LiveMap.lock (h : LiveMap bound j m l) : LiveMap bound j (vmMapLock m) l := ⟨h.1.lock, h.2⟩

theorem entryReference_others (hx : ∀ j ∈ y.object.shareMap, j ≠ i)
    (hs : entryReference S k y = some k') : k'.map i = k.map i ∧ Others i k k' := by
  rw [entryReference] at hs
  split at hs
  next =>
    cases Option.some.inj hs
    cases hj : y.object.shareMap with
    | none => exact ⟨rfl, .refl i k⟩
    | some j =>
      have hji : j ≠ i := hx j hj
      rw [vmMapReference]
      refine ⟨by rw [setMap_map, if_neg hji.symm], rfl, ?_, ?_⟩
      · intro z hz
        rw [setMap_map]
        split
        next he => rw [he]
        next => rfl
      · intro z hz b lz hl
        rw [setMap_map]
        split
        next he =>
          subst he
          exact hl.congr (hl.1.congr rfl rfl (fun _ _ => ⟨rfl, rfl⟩) rfl (Nat.le_refl _)
            hl.1.hint_mem hl.1.free_mem) rfl
        next => exact hl
  next =>
    obtain ⟨s, -, rfl⟩ := Option.map_eq_some_iff.mp hs
    exact ⟨rfl, others_setMachine i k s⟩

theorem lookup_others {found : Bool} (hs : vmMapLookupEntry fuel (k.map j) a = some (n, found, e)) :
    Others i k (k.setMap j n) := by
  refine ⟨rfl, ?_, ?_⟩
  · intro z _
    rw [setMap_map]
    split
    next he => rw [he, (vmMapLookupEntry_same hs).entry]
    next => rfl
  · intro z _ b lz hl
    rw [setMap_map]
    split
    next he =>
      subst he
      have hsp := vmMapLookupEntry_spec hl.1 hs
      rw [hsp.map_eq]
      exact hl.saveHint hsp.hint_mem
    next => exact hl

theorem vmMapClipStart_view (h : LiveMap k.freshMap i (k.map i) (l₁ ++ e :: l₂))
    (hlo : ((k.map i).entry e).start ≤ a) (hhi : a < ((k.map i).entry e).endAddr)
    (hs : vmMapClipStart S k i e a = some k') :
    ∃ l₁', LiveMap k'.freshMap i (k'.map i) (l₁' ++ e :: l₂) ∧ Others i k k' ∧
      ((k'.map i).entry e).start = a ∧
      ∀ b, view (k'.map i) (l₁' ++ e :: l₂) b = view (k.map i) (l₁ ++ e :: l₂) b := by
  simp only [vmMapClipStart] at hs
  split at hs
  next hc =>
    have hshare := h.2 e (by simp)
    have hnew := h.1.fresh_not_mem
    have hne : (k.map i).freshEntry ≠ e := fun hc => hnew (hc ▸ by simp)
    obtain ⟨hmap, ho⟩ := entryReference_others (fun j hj => (hshare j hj).2) hs
    rw [setMap_map_self] at hmap
    have hothers : Others i k k' := (others_setMap i k _).trans ho
    have hview : ∀ b, view (clipFront (k.map i) e a) ((l₁ ++ [(k.map i).freshEntry]) ++ e :: l₂) b =
        view (k.map i) (l₁ ++ e :: l₂) b := by
      intro b
      have hbefore : view (clipFront (k.map i) e a) l₁ b = view (k.map i) l₁ b := by
        apply view_congr
        intro x hx
        exact clipFront_entry_of_ne (fun hc => hnew (hc ▸ by simp [hx])) (h.1.ne_before hx) a
      rw [List.append_assoc, List.singleton_append, view_append, hbefore, clipFront_view h.1 hc hhi,
        view_append]
    rw [hmap]
    refine ⟨l₁ ++ [(k.map i).freshEntry], ⟨?_, ?_⟩, hothers, ?_, hview⟩
    · simpa using h.1.clipFront hc hhi
    · intro x hx j hj
      rw [hothers.fresh]
      by_cases hxf : x = (k.map i).freshEntry
      · rw [hxf, clipFront_entry_fresh hne] at hj
        exact hshare j hj
      · by_cases hxe : x = e
        · rw [hxe, clipFront_entry_self] at hj
          exact hshare j hj
        · rw [clipFront_entry_of_ne hxf hxe] at hj
          refine h.2 x ?_ j hj
          simp only [List.mem_append, List.mem_cons, List.not_mem_nil] at hx ⊢
          tauto
    · rw [clipFront_entry_self]
  next hc =>
    cases Option.some.inj hs
    exact ⟨l₁, h, .refl i k, BitVec.le_antisymm hlo (BitVec.not_lt.mp hc), fun _ => rfl⟩

theorem vmMapClipEnd_view (h : LiveMap k.freshMap i (k.map i) (l₁ ++ e :: l₂))
    (ha : ((k.map i).entry e).start < a) (hs : vmMapClipEnd S k i e a = some k') :
    ∃ l₂', LiveMap k'.freshMap i (k'.map i) (l₁ ++ e :: l₂') ∧ Others i k k' ∧
      (∀ x ∈ l₁, (k'.map i).entry x = (k.map i).entry x) ∧
      (∃ c, (k'.map i).entry e = { (k.map i).entry e with endAddr := c } ∧ c ≤ a ∧
        c ≤ ((k.map i).entry e).endAddr) ∧
      (k'.map i).pmap = (k.map i).pmap ∧
      ∀ b, view (k'.map i) (e :: l₂') b = view (k.map i) (e :: l₂) b := by
  simp only [vmMapClipEnd] at hs
  split at hs
  next hc =>
    have hshare := h.2 e (by simp)
    have hnew := h.1.fresh_not_mem
    have hne : (k.map i).freshEntry ≠ e := fun hc => hnew (hc ▸ by simp)
    obtain ⟨hmap, ho⟩ := entryReference_others (fun j hj => (hshare j hj).2) hs
    rw [setMap_map_self] at hmap
    have hothers : Others i k k' := (others_setMap i k _).trans ho
    rw [hmap]
    refine ⟨(k.map i).freshEntry :: l₂, ⟨h.1.clipBack ha hc, ?_⟩, hothers, ?_, ?_, rfl, ?_⟩
    · intro x hx j hj
      rw [hothers.fresh]
      by_cases hxf : x = (k.map i).freshEntry
      · rw [hxf, clipBack_entry_fresh hne] at hj
        exact hshare j hj
      · by_cases hxe : x = e
        · rw [hxe, clipBack_entry_self] at hj
          exact hshare j hj
        · rw [clipBack_entry_of_ne hxf hxe] at hj
          refine h.2 x ?_ j hj
          simp only [List.mem_append, List.mem_cons] at hx ⊢
          tauto
    · intro x hx
      exact clipBack_entry_of_ne (fun hc => hnew (hc ▸ by simp [hx])) (h.1.ne_before hx) a
    · exact ⟨a, clipBack_entry_self _ _ _, BitVec.le_refl a, BitVec.le_of_lt hc⟩
    · exact fun b => clipBack_view h.1 ha hc b
  next hc =>
    cases Option.some.inj hs
    exact ⟨l₂, h, .refl i k, fun _ _ => rfl, ⟨_, rfl, BitVec.not_lt.mp hc, BitVec.le_refl _⟩, rfl,
      fun _ => rfl⟩

theorem firstInRange_view (h : LiveMap k.freshMap i (k.map i) l)
    (hs : firstInRange S fuel k i start = some (k', e)) :
    ∃ l₁ l₂, LiveMap k'.freshMap i (k'.map i) (l₁ ++ l₂) ∧ Others i k k' ∧ e = after l₂ header ∧
      (∀ x ∈ l₁, ((k'.map i).entry x).endAddr ≤ start) ∧
      (∀ x ∈ l₂, start ≤ ((k'.map i).entry x).start) ∧
      ∀ b, view (k'.map i) (l₁ ++ l₂) b = view (k.map i) l b := by
  obtain ⟨⟨m, found, x⟩, hl, hs⟩ := Option.bind_eq_some_iff.mp hs
  have hsp := vmMapLookupEntry_spec h.1 hl
  have hentry : m.entry = (k.map i).entry := hsp.entry_eq
  have hm : LiveMap k.freshMap i m l := by
    rw [hsp.map_eq]
    exact h.saveHint hsp.hint_mem
  have ho : Others i k (k.setMap i m) := others_setMap i k m
  cases found with
  | true =>
    obtain ⟨hx, hlo, hhi⟩ := hsp.hit rfl
    obtain ⟨k₁, hk, hs⟩ := Option.bind_eq_some_iff.mp hs
    cases Option.some.inj hs
    obtain ⟨p, q, rfl⟩ := List.append_of_mem hx
    have hlive : LiveMap (k.setMap i m).freshMap i ((k.setMap i m).map i) (p ++ e :: q) := by
      rw [setMap_map_self]
      exact hm
    obtain ⟨p', hp', hothers, hstart, hview⟩ := vmMapClipStart_view hlive
      (by rwa [setMap_map_self, hentry]) (by rwa [setMap_map_self, hentry]) hk
    refine ⟨p', e :: q, hp', ho.trans hothers, rfl, ?_, ?_, ?_⟩
    · intro z hz
      rw [← hstart]
      exact BitVec.le_def.mpr (hp'.1.sorted_before hz)
    · intro z hz
      rcases List.mem_cons.mp hz with rfl | hz
      · exact BitVec.le_of_eq hstart.symm
      · have := hp'.1.sorted_after hz
        have := hp'.1.span_le (e := e) (by simp)
        rw [← hstart, BitVec.le_def]
        omega
    · intro b
      rw [hview, setMap_map_self]
      exact view_congr (fun z _ => by rw [hentry]) b
  | false =>
    obtain ⟨-, l₁, l₂, rfl, rfl, hlt, hgt⟩ := hsp.miss rfl
    cases Option.some.inj hs
    rw [setMap_map_self, hentry]
    refine ⟨l₁, l₂, hm, ho, hm.1.cut.1, hlt, fun z hz => BitVec.le_of_lt (hgt z hz), ?_⟩
    exact fun b => view_congr (fun z _ => by rw [hentry]) b

end MachVM
