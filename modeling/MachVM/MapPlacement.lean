import MachVM.Lib.Align
import MachVM.MapReach

namespace MachVM

open Ring Align

/-- What an address leads to, with the offset of that very byte. -/
structure Mapping where
  object : MapObject
  offset : VmOffset
  isAMap : Bool
  isSubMap : Bool
  protection : VmProt
  maxProtection : VmProt
  inheritance : VmInherit

def VmMapEntry.mapping (x : VmMapEntry) (a : VmOffset) : Mapping :=
  ⟨x.object, x.offset + (a - x.start), x.isAMap, x.isSubMap, x.protection, x.maxProtection, x.inheritance⟩

def VmMapEntry.Holds (x : VmMapEntry) (a : VmOffset) : Prop := x.start ≤ a ∧ a < x.endAddr

instance (x : VmMapEntry) (a : VmOffset) : Decidable (x.Holds a) := inferInstanceAs (Decidable (_ ∧ _))

/-- The entries of a map: what a walk along its links meets besides the header. -/
def OnMap (m : VmMap) (e : EntryId) : Prop := e ≠ header ∧ ∃ j, walk m j = e

/-- An address is mapped, and so. -/
def Maps (m : VmMap) (a : VmOffset) (t : Mapping) : Prop :=
  ∃ e, OnMap m e ∧ (m.entry e).Holds a ∧ t = (m.entry e).mapping a

variable {m n : VmMap} {l l₁ l₂ p q : List EntryId} {e x : EntryId} {a c start : VmOffset}
  {length mask : VmOffset} {fuel : Nat} {t : Mapping}

theorem MapInv.onMap_iff (h : MapInv m l) : OnMap m e ↔ e ∈ l := by
  constructor
  · rintro ⟨hne, j, rfl⟩
    have hm : ∀ j, walk m j ∈ header :: l := by
      intro j
      induction j with
      | zero => simp [walk]
      | succ j ih =>
        rw [walk, Function.iterate_succ_apply']
        exact h.next_mem ih
    exact (List.mem_cons.mp (hm j)).resolve_left hne
  · intro he
    obtain ⟨j, _, hj⟩ := h.mem_walk (List.mem_cons_of_mem _ he)
    exact ⟨h.ne_header he, j, hj.symm⟩

theorem MapInv.maps_iff (h : MapInv m l) :
    Maps m a t ↔ ∃ e ∈ l, (m.entry e).Holds a ∧ t = (m.entry e).mapping a := by
  constructor
  · rintro ⟨e, he, ht⟩
    exact ⟨e, h.onMap_iff.mp he, ht⟩
  · rintro ⟨e, he, ht⟩
    exact ⟨e, h.onMap_iff.mpr he, ht⟩

theorem MapInv.end_le_next (h : MapInv m l) (he : e ∈ l) (hn : m.next e ≠ header) :
    (m.entry e).endAddr ≤ (m.entry (m.next e)).start := by
  obtain ⟨p, q, rfl⟩ := List.append_of_mem he
  rw [h.next_at] at hn ⊢
  cases q with
  | nil => exact absurd rfl hn
  | cons y q => exact BitVec.le_def.mpr (h.sorted_after (by simp))

/-- The start a search tries behind some entries. -/
def candidate (m : VmMap) : VmOffset → List EntryId → VmOffset
  | c, [] => c
  | _, x :: p => candidate m (m.entry x).endAddr p

theorem candidate_congr (he : n.entry = m.entry) (c : VmOffset) (p : List EntryId) :
    candidate n c p = candidate m c p := by
  induction p generalizing c with
  | nil => rfl
  | cons x p ih => rw [candidate, candidate, he, ih]

/-- A range that lies in the map and in front of some entries. -/
structure Fits (m : VmMap) (length : VmSize) (a : VmOffset) (q : List EntryId) : Prop where
  high : a.toNat + length.toNat ≤ m.maxOffset.toNat
  front : ∀ x ∈ q, a.toNat + length.toNat ≤ (m.entry x).start.toNat

/-- A search has gone past some entries, because the range fitted in front of none of them. -/
def Passed (m : VmMap) (length mask c : VmOffset) (p : List EntryId) : Prop :=
  ∀ p' x q', p = p' ++ x :: q' →
    (m.entry x).start.toNat < (roundUp (candidate m c p') mask).toNat + length.toNat

theorem passed_nil : Passed m length mask c [] := by
  intro p' x q' hp
  simp at hp

theorem Passed.congr (h : Passed m length mask c p) (he : n.entry = m.entry) :
    Passed n length mask c p := by
  intro p' x q' hp
  rw [candidate_congr he, he]
  exact h p' x q' hp

theorem Passed.cons (h : Passed m length mask (m.entry x).endAddr p)
    (hx : (m.entry x).start.toNat < (roundUp c mask).toNat + length.toNat) :
    Passed m length mask c (x :: p) := by
  intro p' y q' hp
  cases p' with
  | nil =>
    cases hp
    exact hx
  | cons z p' =>
    rw [List.cons_append, List.cons.injEq] at hp
    obtain ⟨rfl, hp⟩ := hp
    exact h p' y q' hp

theorem beyond_iff {max : VmOffset} :
    (max < a + length ∨ a + length < a) ↔ max.toNat < a.toNat + length.toNat := by
  have ha := a.isLt
  have hl := length.isLt
  have hm := max.isLt
  rw [BitVec.lt_def, BitVec.lt_def, BitVec.toNat_add]
  omega

/-- Where a search ends: behind some entries it has passed, with a range that fits or beyond
the end of the map. -/
structure SearchEnd (m : VmMap) (length mask c : VmOffset) (l₁ l₂ : List EntryId)
    (r : Option (EntryId × VmOffset)) (p q : List EntryId) : Prop where
  split : l₂ = p ++ q
  passed : Passed m length mask c p
  full : r = none → m.maxOffset.toNat < (roundUp (candidate m c p) mask).toNat + length.toNat
  fits : ∀ e a, r = some (e, a) → e = before header (l₁ ++ p) ∧
    a = roundUp (candidate m c p) mask ∧ Fits m length a q

theorem findSpace_spec {r : Option (EntryId × VmOffset)} (h : MapInv m (l₁ ++ l₂))
    (he : e = before header l₁) (hs : findSpace m length mask fuel e c = some r) :
    ∃ p q, SearchEnd m length mask c l₁ l₂ r p q := by
  induction fuel generalizing e c l₁ l₂ with
  | zero => simp [findSpace] at hs
  | succ fuel ih =>
    have hnext : m.next e = after l₂ header := he ▸ h.cut.1
    simp only [findSpace] at hs
    rw [show (c + mask) &&& ~~~mask = roundUp c mask from rfl] at hs
    split at hs
    next hb =>
      cases Option.some.inj hs
      exact ⟨[], l₂, rfl, passed_nil, fun _ => beyond_iff.mp hb, by simp⟩
    next hb =>
      rw [beyond_iff, Nat.not_lt] at hb
      have hadd : (roundUp c mask + length).toNat = (roundUp c mask).toNat + length.toNat :=
        BitVec.toNat_add_of_lt (Nat.lt_of_le_of_lt hb m.maxOffset.isLt)
      have hfits : (∀ x ∈ l₂, (roundUp c mask).toNat + length.toNat ≤ (m.entry x).start.toNat) →
          SearchEnd m length mask c l₁ l₂ (some (e, roundUp c mask)) [] l₂ := by
        intro hf
        refine ⟨rfl, passed_nil, by simp, ?_⟩
        intro e' a' hr
        cases Option.some.inj hr
        exact ⟨by rw [List.append_nil]; exact he, rfl, hb, hf⟩
      cases l₂ with
      | nil =>
        rw [after_nil] at hnext
        rw [if_pos hnext] at hs
        cases Option.some.inj hs
        exact ⟨_, _, hfits (by simp)⟩
      | cons y l₂ =>
        have hy : m.next e ≠ header := by
          rw [hnext]
          exact h.ne_header (by simp)
        rw [if_neg hy, hnext, after_cons] at hs
        split at hs
        next hle =>
          cases Option.some.inj hs
          refine ⟨_, _, hfits ?_⟩
          rw [BitVec.le_def, hadd] at hle
          intro x hx
          rcases List.mem_cons.mp hx with rfl | hx
          · exact hle
          · have h₁ := h.sorted_after hx
            have h₂ := h.span_le (e := y) (by simp)
            omega
        next hle =>
          rw [BitVec.le_def, hadd, Nat.not_le] at hle
          have h' : MapInv m ((l₁ ++ [y]) ++ l₂) := by simpa using h
          obtain ⟨p, q, hr⟩ := ih h' (by simp) hs
          refine ⟨y :: p, q, by rw [hr.split]; rfl, hr.passed.cons hle, hr.full, ?_⟩
          intro e' a' he'
          simpa [candidate] using hr.fits e' a' he'

theorem findSpace_some (h : MapInv m (l₁ ++ l₂)) (he : e = before header l₁)
    (hf : l₂.length < fuel) : ∃ r, findSpace m length mask fuel e c = some r := by
  induction l₂ generalizing fuel e c l₁ with
  | nil =>
    obtain ⟨fuel, rfl⟩ := Nat.exists_eq_succ_of_ne_zero (Nat.ne_of_gt hf)
    have hnext : m.next e = header := he ▸ h.cut.1
    simp only [findSpace, hnext, if_true]
    split <;> exact ⟨_, rfl⟩
  | cons y l₂ ih =>
    obtain ⟨fuel, rfl⟩ := Nat.exists_eq_succ_of_ne_zero (Nat.ne_of_gt (Nat.lt_of_le_of_lt (Nat.zero_le _) hf))
    have hnext : m.next e = y := he ▸ h.cut.1
    have hy : y ≠ header := h.ne_header (by simp)
    simp only [findSpace, hnext, hy, if_false]
    split
    next => exact ⟨_, rfl⟩
    next =>
      split
      next => exact ⟨_, rfl⟩
      next =>
        have h' : MapInv m ((l₁ ++ [y]) ++ l₂) := by simpa using h
        exact ih h' (by simp) (Nat.lt_of_succ_lt_succ hf)

/-- The lowest address a search may hand out. -/
def floorAt (m : VmMap) (start : VmOffset) : VmOffset :=
  if start < m.minOffset then m.minOffset else start

theorem le_floorAt (m : VmMap) (start : VmOffset) : start ≤ floorAt m start := by
  rw [floorAt]
  split
  next h => exact BitVec.le_of_lt h
  next => exact BitVec.le_refl _

theorem min_le_floorAt (m : VmMap) (start : VmOffset) : m.minOffset ≤ floorAt m start := by
  rw [floorAt]
  split
  next => exact BitVec.le_refl _
  next h => exact BitVec.not_lt.mp h

/-- Where a search begins: the entries in front of it end at or below the first candidate, and
what lies between the floor and the candidate is mapped, or lies below the free space hint. -/
structure SearchStart (m : VmMap) (start : VmOffset) (e : EntryId) (c : VmOffset)
    (l₁ l₂ : List EntryId) : Prop where
  place : e = before header l₁
  floor : floorAt m start ≤ c
  below : ∀ x ∈ l₁, (m.entry x).endAddr ≤ c
  above : ∀ x ∈ l₂, c ≤ (m.entry x).start
  origin : c = floorAt m start ∨ e ≠ header ∧ c = (m.entry e).endAddr
  skipped : ∀ x, floorAt m start ≤ x → x < c →
    (∃ y ∈ l₁, (m.entry y).Holds x) ∨ (e ≠ header ∧ e = m.firstFree ∧ c = (m.entry e).endAddr)

theorem searchStart_end (h : MapInv m (l₁ ++ e :: l₂)) (hc : floorAt m start ≤ (m.entry e).endAddr)
    (hs : e = m.firstFree ∨ (m.entry e).start ≤ floorAt m start) :
    SearchStart m start e (m.entry e).endAddr (l₁ ++ [e]) l₂ := by
  have hne : e ≠ header := h.ne_header (by simp)
  refine ⟨by simp, hc, ?_, ?_, .inr ⟨hne, rfl⟩, ?_⟩
  · intro x hx
    rcases List.mem_append.mp hx with hx | hx
    · have h₁ := h.sorted_before hx
      have h₂ := h.span_le (e := e) (by simp)
      rw [BitVec.le_def]
      omega
    · cases List.mem_singleton.mp hx
      exact BitVec.le_refl _
  · intro x hx
    exact BitVec.le_def.mpr (h.sorted_after hx)
  · intro x hx hlt
    rcases hs with hs | hs
    · exact .inr ⟨hne, hs, rfl⟩
    · exact .inl ⟨e, by simp, BitVec.le_trans hs hx, hlt⟩

theorem searchStart_floor (he : e = before header l₁)
    (hb : ∀ x ∈ l₁, (m.entry x).endAddr ≤ floorAt m start)
    (ha : ∀ x ∈ l₂, floorAt m start ≤ (m.entry x).start) :
    SearchStart m start e (floorAt m start) l₁ l₂ := by
  refine ⟨he, BitVec.le_refl _, hb, ha, .inl rfl, ?_⟩
  intro x hx hlt
  rw [BitVec.le_def] at hx
  rw [BitVec.lt_def] at hlt
  omega

theorem firstPossible_spec {first : Option (EntryId × VmOffset)} (h : MapInv m l)
    (hs : firstPossible fuel m start = some (n, first)) :
    n = m.saveHint n.hint ∧ n.hint ∈ header :: l ∧
      (first = none → m.maxOffset < floorAt m start) ∧
      ∀ e c, first = some (e, c) → ∃ l₁ l₂, l = l₁ ++ l₂ ∧ SearchStart m start e c l₁ l₂ := by
  simp only [firstPossible] at hs
  rw [← floorAt] at hs
  have hmin := min_le_floorAt m start
  split at hs
  next hmax =>
    cases Option.some.inj hs
    exact ⟨rfl, h.hint_mem, fun _ => hmax, by simp⟩
  next =>
    split at hs
    next heq =>
      cases Option.some.inj hs
      refine ⟨rfl, h.hint_mem, by simp, ?_⟩
      intro e c hec
      cases Option.some.inj hec
      split
      next hne =>
        have hm : m.firstFree ∈ l := (List.mem_cons.mp h.free_mem).resolve_left hne
        obtain ⟨p, q, hl⟩ := List.append_of_mem hm
        refine ⟨p ++ [m.firstFree], q, by simp [hl], searchStart_end (hl ▸ h) ?_ (.inl rfl)⟩
        rw [heq]
        exact BitVec.le_trans (h.low _ hm) (BitVec.le_of_lt (h.span _ hm))
      next hne =>
        rw [not_not] at hne
        refine ⟨[], l, rfl, searchStart_floor (by simpa using hne) (by simp) ?_⟩
        intro x hx
        rw [heq]
        exact h.low x hx
    next =>
      obtain ⟨⟨n', found, e⟩, hl, hr⟩ := Option.map_eq_some_iff.mp hs
      have hsp := vmMapLookupEntry_spec h hl
      cases hr
      refine ⟨hsp.map_eq, hsp.hint_mem, by simp, ?_⟩
      intro e' c hec
      cases Option.some.inj hec
      cases found with
      | true =>
        obtain ⟨hx, hst, hend⟩ := hsp.hit rfl
        obtain ⟨p, q, rfl⟩ := List.append_of_mem hx
        refine ⟨p ++ [e], q, by simp, ?_⟩
        simp only [if_true, hsp.entry_eq]
        exact searchStart_end h (BitVec.le_of_lt hend) (.inr hst)
      | false =>
        obtain ⟨-, l₁, l₂, rfl, he, hbelow, habove⟩ := hsp.miss rfl
        exact ⟨l₁, l₂, rfl, searchStart_floor he hbelow fun x hx => BitVec.le_of_lt (habove x hx)⟩

end MachVM
