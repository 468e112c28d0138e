import MachVM.MapCopy
import MachVM.MapPlacement
import MachVM.MapView

namespace MachVM

open Ring

variable {m : VmMap} {l l₁ l₂ : List EntryId} {a start endAddr : VmOffset} {e hint : EntryId}
  {fuel : Nat} {prot : VmProt}

/-- An address is mapped by one of the entries, with an access that includes the mask. -/
def Allowed (m : VmMap) (l : List EntryId) (prot : VmProt) (a : VmOffset) : Prop :=
  ∃ e ∈ l, (m.entry e).Holds a ∧ (m.entry e).protection &&& prot = prot

theorem Allowed.append_left (h : Allowed m l₂ prot a) : Allowed m (l₁ ++ l₂) prot a :=
  let ⟨e, he, hh⟩ := h
  ⟨e, List.mem_append_right l₁ he, hh⟩

theorem allowed_behind (hlt : ∀ x ∈ l₁, (m.entry x).endAddr ≤ a) :
    Allowed m (l₁ ++ l₂) prot a ↔ Allowed m l₂ prot a := by
  refine ⟨?_, Allowed.append_left⟩
  rintro ⟨e, he, hh, hp⟩
  rcases List.mem_append.mp he with he | he
  · exact absurd hh.2 (BitVec.not_lt.mpr (hlt e he))
  · exact ⟨e, he, hh, hp⟩

theorem checkEntries_iff (endAddr : VmOffset) (prot : VmProt) (h : MapInv m (l₁ ++ l₂)) (hf : l₂.length < fuel)
    (hlt : ∀ x ∈ l₂, start < (m.entry x).endAddr) :
    ∃ ok, checkEntries m endAddr prot fuel start (after l₂ header) = some ok ∧
      (ok = true ↔ ∀ a, start ≤ a → a < endAddr → Allowed m l₂ prot a) := by
  induction l₂ generalizing l₁ start fuel with
  | nil =>
    obtain ⟨fuel, rfl⟩ : ∃ n, fuel = n + 1 := ⟨fuel - 1, by omega⟩
    rw [after_nil, checkEntries]
    split
    next hse =>
      rw [if_pos rfl]
      refine ⟨false, rfl, by simp, fun hall => ?_⟩
      obtain ⟨e, he, -⟩ := hall start (BitVec.le_refl _) hse
      exact absurd he List.not_mem_nil
    next hse =>
      refine ⟨true, rfl, fun _ a ha hae => ?_, fun _ => rfl⟩
      exact absurd (Std.lt_of_le_of_lt ha hae) hse
  | cons y q ih =>
    obtain ⟨fuel, rfl⟩ : ∃ n, fuel = n + 1 := ⟨fuel - 1, by omega⟩
    have h' : MapInv m ((l₁ ++ [y]) ++ q) := by simpa using h
    have hy : y ∈ l₁ ++ y :: q := by simp
    have hbehind : ∀ x ∈ q, (m.entry y).endAddr ≤ (m.entry x).start :=
      fun x hx => BitVec.le_def.mpr (h.sorted_after hx)
    rw [after_cons, checkEntries]
    split
    next hse =>
      rw [if_neg (h.ne_header hy)]
      split
      next hhole =>
        refine ⟨false, rfl, by simp, fun hall => ?_⟩
        obtain ⟨e, he, hh, -⟩ := hall start (BitVec.le_refl _) hse
        rcases List.mem_cons.mp he with rfl | he
        · exact absurd hh.1 (BitVec.not_le.mpr hhole)
        · have hs := Std.lt_of_lt_of_le (hlt y (by simp)) (hbehind e he)
          exact absurd hh.1 (BitVec.not_le.mpr hs)
      next hnear =>
        split
        next hprot =>
          refine ⟨false, rfl, by simp, fun hall => ?_⟩
          obtain ⟨e, he, hh, hp⟩ := hall start (BitVec.le_refl _) hse
          rcases List.mem_cons.mp he with rfl | he
          · exact absurd hp hprot
          · have hs := Std.lt_of_lt_of_le (hlt y (by simp)) (hbehind e he)
            exact absurd hh.1 (BitVec.not_le.mpr hs)
        next hprot =>
          have hq : ∀ x ∈ q, (m.entry y).endAddr < (m.entry x).endAddr := fun x hx =>
            Std.lt_of_le_of_lt (hbehind x hx) (h.span x (by simp [hx]))
          obtain ⟨ok, hok, hiff⟩ := ih h' (Nat.lt_of_succ_lt_succ hf) hq
          refine ⟨ok, by rw [← hok, h.next_at], hiff.trans ⟨fun hall a ha hae => ?_, fun hall a ha hae => ?_⟩⟩
          · by_cases hay : a < (m.entry y).endAddr
            · have hstart := BitVec.le_trans (BitVec.not_lt.mp hnear) ha
              exact ⟨y, by simp, ⟨hstart, hay⟩, not_not.mp hprot⟩
            · have hbeyond : Allowed m ([y] ++ q) prot a := (hall a (BitVec.not_lt.mp hay) hae).append_left
              exact hbeyond
          · have hsa := BitVec.le_trans (BitVec.le_of_lt (hlt y (by simp))) ha
            have hhere : Allowed m ([y] ++ q) prot a := hall a hsa hae
            refine (allowed_behind ?_).mp hhere
            intro x hx
            cases List.mem_singleton.mp hx
            exact ha
    next hse =>
      refine ⟨true, rfl, fun _ a ha hae => ?_, fun _ => rfl⟩
      exact absurd (Std.lt_of_le_of_lt ha hae) hse

/-- The check returns, and its answer is whether every address of the range is mapped with the
access asked for, whatever entry the hint names. Only the hint moves. -/
theorem vmMapCheckProtection_covers (h : MapInv m l) (hf : l.length < fuel)
    (hh : hint ∈ header :: l) (hse : start < endAddr) (prot : VmProt) :
    ∃ saved ∈ header :: l, ∃ ok,
      vmMapCheckProtection fuel (m.saveHint hint) start endAddr prot = some (m.saveHint saved, ok) ∧
      (ok = true ↔ ∀ a, start ≤ a → a < endAddr →
        ∃ e ∈ l, (m.entry e).Holds a ∧ (m.entry e).protection &&& prot = prot) := by
  obtain ⟨⟨saved, hs, hl⟩, -, hat⟩ := vmMapLookupEntry_any_hint h hf hh start
  refine ⟨saved, hs, ?_⟩
  rw [vmMapCheckProtection, hl, Option.bind_eq_bind, Option.bind_some]
  cases he : entryAt m start with
  | none =>
    refine ⟨false, rfl, by simp, fun hall => ?_⟩
    obtain ⟨e, hel, hhold, -⟩ := hall start (BitVec.le_refl _) hse
    have := (hat e).mpr ⟨hel, hhold⟩
    rw [he] at this
    cases this
  | some e =>
    obtain ⟨hel, hlo, hhi⟩ := (hat e).mp he
    obtain ⟨l₁, l₂, rfl⟩ := List.append_of_mem hel
    have hs' : MapInv (m.saveHint saved) (l₁ ++ e :: l₂) := h.saveHint hs
    have hlt : ∀ x ∈ e :: l₂, start < (m.entry x).endAddr := by
      intro x hx
      rcases List.mem_cons.mp hx with rfl | hx
      · exact hhi
      · have hnext := BitVec.le_def.mpr (h.sorted_after hx)
        exact BitVec.lt_trans (Std.lt_of_lt_of_le hhi hnext) (h.span x (by simp [hx]))
    have hlen : (e :: l₂).length < fuel := by
      rw [List.length_append] at hf
      omega
    obtain ⟨ok, hok, hiff⟩ := checkEntries_iff endAddr prot hs' hlen hlt
    refine ⟨ok, ?_, hiff.trans (forall_congr' fun a => forall_congr' fun ha => ?_)⟩
    · change (checkEntries (m.saveHint saved) endAddr prot fuel start e).bind _ = _
      rw [show e = after (e :: l₂) header from rfl, hok]
      rfl
    · refine imp_congr_right fun _ => (allowed_behind (fun x hx => ?_)).symm
      exact BitVec.le_trans (BitVec.le_def.mpr (h.sorted_before hx)) (BitVec.le_trans hlo ha)

/-- Two regions with a hole between them, the hint on the one behind it. The first one may be read and not
written, and the hole may not be read. -/
theorem twoRegions_covers : ∃ s₁ s₂ s₃,
    vmMapCheckProtection 3 (twoRegions.saveHint 2) 0x2000 0x3000 protRead = some (twoRegions.saveHint s₁, true) ∧
      vmMapCheckProtection 3 (twoRegions.saveHint 2) 0x2000 0x3000 protWrite =
        some (twoRegions.saveHint s₂, false) ∧
      vmMapCheckProtection 3 (twoRegions.saveHint 2) 0x2000 0x6000 protRead =
        some (twoRegions.saveHint s₃, false) := by
  have h := fun start endAddr (hse : start < endAddr) => vmMapCheckProtection_covers twoRegions_inv
    (show [1, 2].length < 3 by decide) (show 2 ∈ [header, 1, 2] by decide) hse
  obtain ⟨s₁, -, ok₁, h₁, hok₁⟩ := h 0x2000 0x3000 (by decide) protRead
  obtain ⟨s₂, -, ok₂, h₂, hok₂⟩ := h 0x2000 0x3000 (by decide) protWrite
  obtain ⟨s₃, -, ok₃, h₃, hok₃⟩ := h 0x2000 0x6000 (by decide) protRead
  have hread : ok₁ = true := hok₁.mpr fun a hlo hhi => ⟨1, by decide, ⟨hlo, hhi⟩, by decide⟩
  have hwrite : ok₂ = false :=
    Bool.eq_false_iff.mpr fun hok => absurd (hok₂.mp hok 0x2000 (by decide) (by decide)) (by decide)
  have hhole : ok₃ = false :=
    Bool.eq_false_iff.mpr fun hok => absurd (hok₃.mp hok 0x4000 (by decide) (by decide)) (by decide)
  exact ⟨s₁, s₂, s₃, hread ▸ h₁, hwrite ▸ h₂, hhole ▸ h₃⟩

end MachVM
