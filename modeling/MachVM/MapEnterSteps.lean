import MachVM.MapPlacement

namespace MachVM

open Ring Align

variable {σ : Type} {S : Services σ} {k k' : Kernel σ} {i : MapId} {m n : VmMap}
  {l l₁ l₂ : List EntryId} {e : EntryId} {a c address offset mask : VmOffset} {size : VmSize}
  {object : Option ObjId} {cur max : VmProt} {inh : VmInherit} {anywhere needsCopy : Bool}
  {fuel : Nat} {kr : KernReturn}

def WellFormed (m : VmMap) : Prop := ∃ l, MapInv m l

/-- The addresses of a region, counted without wrapping around. -/
def InRegion (a : VmOffset) (size : VmSize) (x : VmOffset) : Prop :=
  a.toNat ≤ x.toNat ∧ x.toNat < a.toNat + size.toNat

/-- What a request asks an address to lead to. A request without an object asks for memory of
its own, which may be that of the entry that ends where the region starts. -/
structure Granted (m : VmMap) (object : Option ObjId) (offset a : VmOffset) (cur max : VmProt)
    (inh : VmInherit) (x : VmOffset) (t : Mapping) : Prop where
  not_a_map : t.isAMap = false
  not_sub_map : t.isSubMap = false
  protection : t.protection = cur
  maxProtection : t.maxProtection = max
  inheritance : t.inheritance = inh
  memory : (t.object = .ofObject object ∧ t.offset = offset + (x - a)) ∨
    (object = none ∧ ∃ e, OnMap m e ∧ (m.entry e).endAddr = a ∧ t.object = (m.entry e).object ∧
      t.offset = (m.entry e).offset + (x - (m.entry e).start))

/-- A region was placed where it was asked for, and nothing else of the map has changed. -/
structure Placed (m n : VmMap) (address a : VmOffset) (size : VmSize) (mask : VmOffset)
    (anywhere : Bool) (object : Option ObjId) (offset : VmOffset) (cur max : VmProt)
    (inh : VmInherit) : Prop where
  size_pos : 0 < size
  aligned : a &&& mask = 0
  place : if anywhere then address ≤ a else a = address
  low : m.minOffset ≤ a
  high : a.toNat + size.toNat ≤ m.maxOffset.toNat
  free : ∀ x t, InRegion a size x → ¬ Maps m x t
  mapped : ∀ x, InRegion a size x →
    (∃ t, Maps n x t) ∧ ∀ t, Maps n x t → Granted m object offset a cur max inh x t
  others : ∀ x t, ¬ InRegion a size x → (Maps n x t ↔ Maps m x t)
  ordered : WellFormed n

/-- The first start a search tries. -/
def firstCandidate (m : VmMap) (l : List EntryId) (start : VmOffset) : VmOffset :=
  if floorAt m start = m.minOffset then
    if m.firstFree ≠ header then (m.entry m.firstFree).endAddr else floorAt m start
  else
    match l.find? fun e => (m.entry e).start ≤ floorAt m start && floorAt m start < (m.entry e).endAddr with
    | some e => (m.entry e).endAddr
    | none => floorAt m start

/-- The starts a search may try: the first one, and the end of every entry behind it. -/
def candidates (m : VmMap) (l : List EntryId) (start : VmOffset) : List VmOffset :=
  let c := firstCandidate m l start
  c :: (l.filter fun e => c ≤ (m.entry e).start).map fun e => (m.entry e).endAddr

/-- One of the starts, rounded up to the mask without wrapping around, leaves room for the
region. -/
def HasRoom (m : VmMap) (l : List EntryId) (start : VmOffset) (size : VmSize) (mask : VmOffset) :
    Prop :=
  ∃ c ∈ candidates m l start, c.toNat + mask.toNat < 2 ^ 32 ∧
    (roundUp c mask).toNat + size.toNat ≤ m.maxOffset.toNat ∧
    ∀ e ∈ l, c ≤ (m.entry e).start → (roundUp c mask).toNat + size.toNat ≤ (m.entry e).start.toNat

instance (m : VmMap) (l : List EntryId) (start : VmOffset) (size : VmSize) (mask : VmOffset) :
    Decidable (HasRoom m l start size mask) :=
  inferInstanceAs (Decidable (∃ c ∈ candidates m l start, _ ∧ _ ∧ ∀ e ∈ l, _ → _))

theorem InRegion.not_below (h : InRegion a size c) {x : VmMapEntry} (hx : x.endAddr ≤ a) :
    ¬ x.Holds c := by
  rintro ⟨-, hlt⟩
  have := h.1
  rw [BitVec.le_def] at hx
  rw [BitVec.lt_def] at hlt
  omega

theorem InRegion.not_above (h : InRegion a size c) {x : VmMapEntry}
    (hx : a.toNat + size.toNat ≤ x.start.toNat) : ¬ x.Holds c := by
  rintro ⟨hle, -⟩
  have := h.2
  rw [BitVec.le_def] at hle
  omega

/-- The map has gained one region, with the memory of one entry. -/
def Adds (m n : VmMap) (a : VmOffset) (size : VmSize) (y : VmMapEntry) : Prop :=
  ∀ x t, Maps n x t ↔ Maps m x t ∨ InRegion a size x ∧ t = y.mapping x

/-- A gap of the map in numbers that do not wrap around. -/
structure Room (m : VmMap) (l₁ l₂ : List EntryId) (a : VmOffset) (size : VmSize) : Prop where
  pos : 0 < size
  low : m.minOffset ≤ a
  below : ∀ x ∈ l₁, (m.entry x).endAddr ≤ a
  fits : Fits m size a l₂

theorem Room.end_toNat (h : Room m l₁ l₂ a size) : (a + size).toNat = a.toNat + size.toNat :=
  BitVec.toNat_add_of_lt (Nat.lt_of_le_of_lt h.fits.high m.maxOffset.isLt)

theorem Room.gap (h : Room m l₁ l₂ a size) : Gap m l₁ l₂ a (a + size) := by
  have he := h.end_toNat
  have hp := BitVec.lt_def.mp h.pos
  refine ⟨?_, h.low, ?_, h.below, ?_⟩
  · rw [BitVec.lt_def, he]
    simpa using hp
  · rw [BitVec.le_def, he]
    exact h.fits.high
  · intro x hx
    rw [BitVec.le_def, he]
    exact h.fits.front x hx

theorem Room.free (h : Room m l₁ l₂ a size) (hm : MapInv m (l₁ ++ l₂)) {x : VmOffset} {t : Mapping}
    (hx : InRegion a size x) : ¬ Maps m x t := by
  rw [hm.maps_iff]
  rintro ⟨e, he, hh, -⟩
  rcases List.mem_append.mp he with he | he
  · exact hx.not_below (h.below e he) hh
  · exact hx.not_above (h.fits.front e he) hh

theorem Room.placed (h : Room m l₁ l₂ a size) (hm : MapInv m (l₁ ++ l₂)) {y : VmMapEntry}
    (hy : ∀ x, InRegion a size x → Granted m object offset a cur max inh x (y.mapping x))
    (hadd : Adds m n a size y) (hn : WellFormed n) (hmask : a &&& mask = 0)
    (hplace : if anywhere then address ≤ a else a = address) :
    Placed m n address a size mask anywhere object offset cur max inh := by
  refine ⟨h.pos, hmask, hplace, h.low, h.fits.high, fun x t hx => h.free hm hx, ?_, ?_, hn⟩
  · intro x hx
    refine ⟨⟨_, (hadd x _).mpr (.inr ⟨hx, rfl⟩)⟩, ?_⟩
    intro t ht
    rcases (hadd x t).mp ht with ht | ⟨-, rfl⟩
    · exact absurd ht (h.free hm hx)
    · exact hy x hx
  · intro x t hx
    rw [hadd x t]
    exact or_iff_left fun hc => hx hc.1

theorem linkNewEntry_inv (fill : VmMapEntry → VmMapEntry) (h : MapInv m (l₁ ++ l₂))
    (hr : Room m l₁ l₂ a size)
    (hf : ∀ x, (fill x).start = a ∧ (fill x).endAddr = a + size) :
    MapInv (linkNewEntry m (before header l₁) fill) (l₁ ++ m.freshEntry :: l₂) := by
  obtain ⟨hs, he⟩ := hf (m.entry m.freshEntry)
  have hg := hr.gap
  have hl := h.link (y := fill (m.entry m.freshEntry)) (by rw [hs, he]; exact hg.span)
    (by rw [hs]; exact hg.low) (by rw [he]; exact hg.high) (by rw [hs]; exact hg.below)
    (by rw [he]; exact hg.above)
  have hnew : m.freshEntry ∈ header :: (l₁ ++ m.freshEntry :: l₂) := by simp
  simp only [linkNewEntry]
  split
  next => exact hl.congr rfl rfl (fun _ _ => ⟨rfl, rfl⟩) rfl (Nat.le_refl _) hl.hint_mem hnew
  next => exact hl.congr rfl rfl (fun _ _ => ⟨rfl, rfl⟩) rfl (Nat.le_refl _) hl.hint_mem hl.free_mem

theorem linkNewEntry_entry (m : VmMap) (prev : EntryId) (fill : VmMapEntry → VmMapEntry) :
    (linkNewEntry m prev fill).entry =
      (m.setEntry m.freshEntry (fill (m.entry m.freshEntry))).entry := by
  simp only [linkNewEntry]
  split <;> rfl

theorem linkNewEntry_adds (fill : VmMapEntry → VmMapEntry) (h : MapInv m (l₁ ++ l₂))
    (hr : Room m l₁ l₂ a size) (hf : ∀ x, (fill x).start = a ∧ (fill x).endAddr = a + size)
    (hn : MapInv n (l₁ ++ m.freshEntry :: l₂))
    (he : n.entry = (m.setEntry m.freshEntry (fill (m.entry m.freshEntry))).entry) :
    Adds m n a size (fill (m.entry m.freshEntry)) := by
  obtain ⟨hs, hend⟩ := hf (m.entry m.freshEntry)
  have hold : ∀ x ∈ l₁ ++ l₂, n.entry x = m.entry x := by
    intro x hx
    rw [he]
    exact setEntry_entry_of_ne _ _ fun hc => h.fresh_not_mem (hc ▸ List.mem_cons_of_mem _ hx)
  have hnew : n.entry m.freshEntry = fill (m.entry m.freshEntry) := by rw [he, setEntry_entry_self]
  intro x t
  rw [hn.maps_iff, h.maps_iff]
  have hregion : (fill (m.entry m.freshEntry)).Holds x ↔ InRegion a size x := by
    rw [VmMapEntry.Holds, hs, hend, InRegion, BitVec.le_def, BitVec.lt_def, hr.end_toNat]
  constructor
  · rintro ⟨e, hm, hh, ht⟩
    simp only [List.mem_append, List.mem_cons] at hm
    by_cases hef : e = m.freshEntry
    · rw [hef, hnew] at hh ht
      exact .inr ⟨hregion.mp hh, ht⟩
    · have hml : e ∈ l₁ ++ l₂ := by
        rw [List.mem_append]
        tauto
      rw [hold e hml] at hh ht
      exact .inl ⟨e, hml, hh, ht⟩
  · rintro (⟨e, hm, hh, ht⟩ | ⟨hx, ht⟩)
    · refine ⟨e, ?_, by rwa [hold e hm], by rwa [hold e hm]⟩
      simp only [List.mem_append, List.mem_cons] at hm ⊢
      tauto
    · exact ⟨m.freshEntry, by simp, by rw [hnew]; exact hregion.mpr hx, by rw [hnew]; exact ht⟩

theorem extendEntry_inv (h : MapInv m (l₁ ++ e :: l₂)) (hend : (m.entry e).endAddr = a)
    (hr : Room m (l₁ ++ [e]) l₂ a size) : MapInv (extendEntry m e (a + size)) (l₁ ++ e :: l₂) := by
  have he : e ∈ l₁ ++ e :: l₂ := by simp
  have hg := hr.gap
  have hsp := h.span e he
  rw [hend] at hsp
  have hi := h.resize (y := { m.entry e with endAddr := a + size }) (BitVec.lt_trans hsp hg.span)
    (h.low e he) hg.high (fun x hx => BitVec.le_def.mpr (h.sorted_before hx)) hg.above
  exact hi.congr rfl rfl (fun _ _ => ⟨rfl, rfl⟩) rfl (Nat.le_refl _) hi.hint_mem hi.free_mem

theorem extendEntry_adds (h : MapInv m (l₁ ++ e :: l₂)) (hend : (m.entry e).endAddr = a)
    (hr : Room m (l₁ ++ [e]) l₂ a size) : Adds m (extendEntry m e (a + size)) a size (m.entry e) := by
  have he : e ∈ l₁ ++ e :: l₂ := by simp
  have hsp := h.span_le he
  rw [hend] at hsp
  have hold : ∀ x, x ≠ e → (extendEntry m e (a + size)).entry x = m.entry x := fun x hx =>
    setEntry_entry_of_ne _ _ hx
  have hnew : (extendEntry m e (a + size)).entry e = { m.entry e with endAddr := a + size } :=
    setEntry_entry_self _ _ _
  intro x t
  rw [(extendEntry_inv h hend hr).maps_iff, h.maps_iff]
  have hregion : ((extendEntry m e (a + size)).entry e).Holds x ↔
      (m.entry e).Holds x ∨ InRegion a size x := by
    rw [hnew]
    simp only [VmMapEntry.Holds, hend, InRegion, BitVec.le_def, BitVec.lt_def, hr.end_toNat]
    omega
  constructor
  · rintro ⟨y, hm, hh, ht⟩
    by_cases hye : y = e
    · subst hye
      have ht' : t = (m.entry y).mapping x := by rw [ht, hnew]; rfl
      rcases hregion.mp hh with hh | hh
      · exact .inl ⟨y, hm, hh, ht'⟩
      · exact .inr ⟨hh, ht'⟩
    · rw [hold y hye] at hh ht
      exact .inl ⟨y, hm, hh, ht⟩
  · rintro (⟨y, hm, hh, ht⟩ | ⟨hx, ht⟩)
    · by_cases hye : y = e
      · subst hye
        refine ⟨y, hm, hregion.mpr (.inl hh), ?_⟩
        rw [hnew]
        exact ht
      · exact ⟨y, hm, by rwa [hold y hye], by rwa [hold y hye]⟩
    · refine ⟨e, he, hregion.mpr (.inr hx), ?_⟩
      rw [hnew]
      exact ht

theorem MapInv.holds_inj (h : MapInv m l) {x : EntryId} (he : e ∈ l) (hx : x ∈ l)
    (hh : (m.entry e).Holds a) (hh' : (m.entry x).Holds a) : e = x := by
  simp only [VmMapEntry.Holds, BitVec.le_def, BitVec.lt_def] at hh hh'
  obtain ⟨p, q, rfl⟩ := List.append_of_mem he
  rcases List.mem_append.mp hx with hx | hx
  · have := h.sorted_before hx
    omega
  · rcases List.mem_cons.mp hx with rfl | hx
    · rfl
    · have := h.sorted_after hx
      omega

theorem firstPossible_candidate {first : Option (EntryId × VmOffset)} (h : MapInv m l)
    (hs : firstPossible fuel m address = some (n, first)) :
    ∀ e c, first = some (e, c) → c = firstCandidate m l address := by
  simp only [firstPossible] at hs
  rw [← floorAt] at hs
  intro e c hec
  rw [firstCandidate]
  split at hs
  next => cases Option.some.inj hs; simp at hec
  next =>
    split at hs
    next heq =>
      cases Option.some.inj hs
      cases Option.some.inj hec
      rw [if_pos heq]
    next heq =>
      rw [if_neg heq]
      obtain ⟨⟨n', found, x⟩, hl, hr⟩ := Option.map_eq_some_iff.mp hs
      have hsp := vmMapLookupEntry_spec h hl
      cases hr
      cases Option.some.inj hec
      simp only [hsp.entry_eq]
      cases hf : l.find? fun y =>
          (m.entry y).start ≤ floorAt m address && floorAt m address < (m.entry y).endAddr with
      | none =>
        cases found with
        | false => rfl
        | true =>
          have hx := hsp.hit rfl
          have := List.find?_eq_none.mp hf x hx.1
          simp [hx.2.1, hx.2.2] at this
      | some y =>
        have hy := List.find?_some hf
        rw [Bool.and_eq_true, decide_eq_true_eq, decide_eq_true_eq] at hy
        have hm := List.mem_of_find?_eq_some hf
        cases found with
        | true =>
          have hx := hsp.hit rfl
          rw [h.holds_inj hx.1 hm hx.2 hy]
          rfl
        | false =>
          obtain ⟨-, p, q, rfl, -, hbelow, habove⟩ := hsp.miss rfl
          rw [BitVec.le_def, BitVec.lt_def] at hy
          rcases List.mem_append.mp hm with hm | hm
          · have := BitVec.le_def.mp (hbelow y hm)
            omega
          · have := BitVec.lt_def.mp (habove y hm)
            omega

@[simp] theorem candidate_concat (m : VmMap) (c : VmOffset) (p : List EntryId) (x : EntryId) :
    candidate m c (p ++ [x]) = (m.entry x).endAddr := by
  induction p generalizing c with
  | nil => rfl
  | cons y p ih => exact ih _

theorem SearchStart.candidate_between {p q : List EntryId} (h : MapInv m (l₁ ++ (p ++ q)))
    (hs : SearchStart m address e c l₁ (p ++ q)) :
    c ≤ candidate m c p ∧ (∀ x ∈ l₁ ++ p, (m.entry x).endAddr ≤ candidate m c p) ∧
      ∀ x ∈ q, candidate m c p ≤ (m.entry x).start := by
  rcases List.eq_nil_or_concat p with rfl | ⟨p, y, rfl⟩
  · refine ⟨BitVec.le_refl _, ?_, fun x hx => hs.above x (by simpa using hx)⟩
    rw [List.append_nil]
    exact hs.below
  · rw [List.concat_eq_append] at h hs ⊢
    rw [candidate_concat]
    have h' : MapInv m ((l₁ ++ p) ++ y :: q) := by simpa using h
    have hsp := h'.span_le (e := y) (by simp)
    refine ⟨?_, ?_, fun x hx => BitVec.le_def.mpr (h'.sorted_after hx)⟩
    · have := BitVec.le_def.mp (hs.above y (by simp))
      rw [BitVec.le_def]
      omega
    · intro x hx
      rw [← List.append_assoc, List.mem_append, List.mem_singleton] at hx
      rcases hx with hx | rfl
      · have := h'.sorted_before hx
        rw [BitVec.le_def]
        omega
      · exact BitVec.le_refl _

theorem SearchStart.candidate_origin {p q : List EntryId} (h : MapInv m (l₁ ++ (p ++ q)))
    (hs : SearchStart m address e c l₁ (p ++ q)) :
    candidate m c p = floorAt m address ∨ before header (l₁ ++ p) ≠ header ∧
      candidate m c p = (m.entry (before header (l₁ ++ p))).endAddr := by
  rcases List.eq_nil_or_concat p with rfl | ⟨p, y, rfl⟩
  · rw [List.append_nil, ← hs.place]
    exact hs.origin
  · rw [List.concat_eq_append] at h hs ⊢
    have hb : before header (l₁ ++ (p ++ [y])) = y := by
      rw [← List.append_assoc, before_append_cons, before_nil]
    rw [candidate_concat, hb]
    exact .inr ⟨h.ne_header (by simp), rfl⟩

theorem hasRoom_iff {p q : List EntryId} (h : MapInv m (l₁ ++ (p ++ q)))
    (hs : SearchStart m address e c l₁ (p ++ q)) (hc : c = firstCandidate m (l₁ ++ (p ++ q)) address)
    (hp : Passed m size mask c p) (hf : Fits m size (roundUp (candidate m c p) mask) q) :
    HasRoom m (l₁ ++ (p ++ q)) address size mask ↔ (candidate m c p).toNat + mask.toNat < 2 ^ 32 := by
  obtain ⟨hle, hbelow, habove⟩ := hs.candidate_between h
  rw [HasRoom, candidates]
  simp only [← hc]
  constructor
  · rintro ⟨d, hd, hw, -, hfront⟩
    refine Nat.lt_of_not_le fun hn => ?_
    have hlt : d.toNat < (candidate m c p).toNat := by omega
    -- the search would have stopped at the earlier candidate
    have hstop : ∀ p' y q', p = p' ++ y :: q' → candidate m c p' = d → False := by
      intro p' y q' hsplit hd'
      subst hsplit
      have h' : MapInv m (l₁ ++ (p' ++ (y :: q' ++ q))) := by simpa using h
      have hs' : SearchStart m address e c l₁ (p' ++ (y :: q' ++ q)) := by simpa using hs
      have hy := (hs'.candidate_between h').2.2 y (by simp)
      have hpass := hp p' y q' rfl
      have := hfront y (by simp) (hd' ▸ hy)
      rw [hd'] at hpass
      omega
    rcases List.mem_cons.mp hd with rfl | hd
    · cases p with
      | nil => exact absurd hlt (Nat.lt_irrefl _)
      | cons y p => exact hstop [] y p rfl rfl
    · obtain ⟨x, hx, rfl⟩ := List.mem_map.mp hd
      rw [List.mem_filter, decide_eq_true_eq] at hx
      obtain ⟨hx, hcx⟩ := hx
      have hspan := h.span_le hx
      rw [BitVec.le_def] at hcx
      rcases List.mem_append.mp hx with hx | hx
      · have := BitVec.le_def.mp (hs.below x hx)
        omega
      · rcases List.mem_append.mp hx with hx | hx
        · obtain ⟨p₁, p₂, rfl⟩ := List.append_of_mem hx
          cases p₂ with
          | nil =>
            rw [candidate_concat] at hlt
            exact absurd hlt (Nat.lt_irrefl _)
          | cons y p₂ => exact hstop (p₁ ++ [x]) y p₂ (by simp) (candidate_concat m c p₁ x)
        · have := BitVec.le_def.mp (habove x hx)
          omega
  · intro hw
    refine ⟨candidate m c p, ?_, hw, hf.high, ?_⟩
    · rcases List.eq_nil_or_concat p with rfl | ⟨p, y, rfl⟩
      · exact List.mem_cons_self
      · rw [List.concat_eq_append] at hs ⊢
        rw [candidate_concat]
        refine List.mem_cons_of_mem _ (List.mem_map.mpr ⟨y, List.mem_filter.mpr ⟨by simp, ?_⟩, rfl⟩)
        simpa using hs.above y (by simp)
    · intro x hx hcx
      rw [← List.append_assoc, List.mem_append] at hx
      rcases hx with hx | hx
      · have h₁ := BitVec.le_def.mp (hbelow x hx)
        have h₂ := h.span_le (e := x) (by rw [← List.append_assoc, List.mem_append]; exact .inl hx)
        rw [BitVec.le_def] at hcx
        omega
      · exact hf.front x hx

end MachVM
