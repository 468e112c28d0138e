import Mathlib.Algebra.BigOperators.Group.Finset.Basic
import Mathlib.Tactic.Abel
import MachVM.Lib.Tally

namespace Tally

variable {n m : Nat} {p : Nat → Bool}

theorem tally_of_le (h : n ≤ m) (hp : ∀ x, n ≤ x → p x = false) : tally m p = tally n p := by
  induction m, h using Nat.le_induction with
  | base => rfl
  | succ m hm ih => rw [tally_succ, ih, hp m hm, Bool.toNat_false, Nat.add_zero]

open Finset in
/-- Changing one weight of a sum. -/
theorem sum_change {M : Type*} [AddCommMonoid M] (w w' : Nat → M) {k : Nat} (hk : k < n)
    (h : ∀ x < n, x ≠ k → w' x = w x) : ∑ x ∈ range n, w' x + w k = ∑ x ∈ range n, w x + w' k := by
  have hmem : k ∈ range n := mem_range.mpr hk
  have hrest : ∑ x ∈ (range n).erase k, w' x = ∑ x ∈ (range n).erase k, w x := by
    refine sum_congr rfl fun x hx => ?_
    obtain ⟨hne, hx⟩ := mem_erase.mp hx
    exact h x (mem_range.mp hx) hne
  rw [← add_sum_erase _ w' hmem, ← add_sum_erase _ w hmem, hrest]
  abel

end Tally

namespace Runs

open Tally

variable {f : Nat → Bool} {q p j k n pos siz : Nat}

/-- The `j` places from `q` on are set, and neither the place before them nor the one after them is. -/
def IsRun (f : Nat → Bool) (q j : Nat) : Prop :=
  (∀ k < j, f (q + k) = true) ∧ f (q + j) = false ∧ (q = 0 ∨ f (q - 1) = false)

instance (f : Nat → Bool) (q j : Nat) : Decidable (IsRun f q j) := inferInstanceAs (Decidable (_ ∧ _ ∧ _))

/-- The number of runs of a length that start below a bound. -/
def runs (n : Nat) (f : Nat → Bool) (j : Nat) : Nat := tally n fun q => decide (IsRun f q j)

theorem isRun_congr {f' : Nat → Bool} (h : ∀ i, f' i = f i) : IsRun f' q j ↔ IsRun f q j := by
  rw [funext h]

theorem IsRun.set (h : IsRun f q j) (hp : q ≤ p) (hlt : p < q + j) : f p = true := by
  have := h.1 (p - q) (by omega)
  rwa [Nat.add_sub_cancel' hp] at this

theorem IsRun.before (h : IsRun f q j) (hp : p + 1 = q) : f p = false := by
  rcases h.2.2 with h0 | h0
  · omega
  · rwa [← hp, Nat.add_sub_cancel] at h0

theorem IsRun.length_unique (h : IsRun f q j) (h' : IsRun f q k) : j = k := by
  rcases Nat.lt_trichotomy j k with hlt | heq | hlt
  · exact absurd (h'.set (p := q + j) (by omega) (by omega)) (by simp [h.2.1])
  · exact heq
  · exact absurd (h.set (p := q + k) (by omega) (by omega)) (by simp [h'.2.1])

theorem IsRun.apart (h : IsRun f q j) (h' : IsRun f p k) (hqp : q < p) : q + j < p := by
  by_contra hle
  have hset := h.set (p := p - 1) (by omega) (by omega)
  rw [h'.before (p := p - 1) (by omega)] at hset
  cases hset

/-- The places of an interval get one value. -/
def fill (f : Nat → Bool) (pos n : Nat) (b : Bool) (i : Nat) : Bool := if pos ≤ i ∧ i < pos + n then b else f i

theorem fill_inside {b : Bool} {i : Nat} (h : pos ≤ i) (hi : i < pos + n) : fill f pos n b i = b := if_pos ⟨h, hi⟩

theorem fill_outside {b : Bool} {i : Nat} (h : i < pos ∨ pos + n ≤ i) : fill f pos n b i = f i :=
  if_neg fun hi => by omega

theorem fill_succ (f : Nat → Bool) (pos n : Nat) (b : Bool) (i : Nat) :
    fill f pos (n + 1) b i = if i = pos + n then b else fill f pos n b i := by
  unfold fill
  split <;> split <;> first | rfl | omega | split <;> first | rfl | omega

theorem fill_fill (f : Nat → Bool) (pos n : Nat) (b : Bool) : fill (fill f pos n b) (pos + n) 1 b = fill f pos (n + 1) b := by
  funext i
  rw [fill_succ f pos n b i]
  split
  next hi => rw [fill_inside (by omega) (by omega)]
  next hi => rw [fill_outside (by omega)]

theorem tally_fill {N : Nat} {b : Bool} (hN : pos + n ≤ N) (h : ∀ k < n, f (pos + k) = !b) :
    tally N (fill f pos n b) + n * (!b).toNat = tally N f + n * b.toNat := by
  induction n with
  | zero => rw [tally_congr fun x _ => fill_outside (by omega), Nat.zero_mul, Nat.zero_mul]
  | succ n ih =>
    have hone : tally N (fill f pos (n + 1) b) + (fill f pos n b (pos + n)).toNat =
        tally N (fill f pos n b) + (fill f pos (n + 1) b (pos + n)).toNat := by
      exact tally_change (by omega) fun x _ hx => by rw [fill_succ, if_neg hx]
    rw [fill_outside (by omega), h n (Nat.lt_succ_self n), fill_inside (by omega) (by omega)] at hone
    have := ih (by omega) fun k hk => h k (Nat.lt_succ_of_lt hk)
    simp only [Nat.succ_mul]
    omega

/-- The runs of an interval. -/
theorem isRun_interval {a b : Nat} (hj : 0 < j) :
    IsRun (fun i => decide (a ≤ i ∧ i < b)) q j ↔ q = a ∧ j = b - a := by
  constructor
  · rintro h
    have hfirst := of_decide_eq_true (h.set (Nat.le_refl q) (by omega))
    have hlast := of_decide_eq_true (h.set (p := q + j - 1) (by omega) (by omega))
    have hend := of_decide_eq_false h.2.1
    have hstart : q = a := by
      by_contra hne
      have := of_decide_eq_false (h.before (p := q - 1) (by omega))
      omega
    omega
  · rintro ⟨rfl, rfl⟩
    refine ⟨fun k hk => decide_eq_true (by omega), decide_eq_false (by omega), ?_⟩
    by_cases hq : q = 0
    · exact .inl hq
    · exact .inr (decide_eq_false (by omega))

theorem runs_interval {N a b : Nat} (ha : a < N) (hj : 0 < j) :
    runs N (fun i => decide (a ≤ i ∧ i < b)) j = if j = b - a then 1 else 0 := by
  unfold runs
  split
  next hlen =>
    have hone := @tally_change N a (fun _ => false) (fun q => decide (IsRun (fun i => decide (a ≤ i ∧ i < b)) q j)) ha
      fun x _ hx => decide_eq_false fun h => hx ((isRun_interval hj).mp h).1
    have hzero : tally N (fun _ => false) = 0 := (tally_eq_zero ..).mpr fun _ _ => rfl
    rw [hzero, decide_eq_true ((isRun_interval hj).mpr ⟨rfl, hlen⟩)] at hone
    exact hone
  next hlen =>
    exact (tally_eq_zero ..).mpr fun x _ => decide_eq_false fun h => hlen ((isRun_interval hj).mp h).2

section Take

variable (h : IsRun f pos siz) (hn : 0 < n) (hle : n ≤ siz)

include h hn hle

/-- A run whose first places are taken leaves its rest, and the other runs are as they were. -/
theorem isRun_take (hj : 0 < j) :
    IsRun (fill f pos n false) q j ↔ IsRun f q j ∧ q ≠ pos ∨ q = pos + n ∧ j = siz - n := by
  constructor
  · intro hr
    have hout : ∀ k < j, q + k < pos ∨ pos + n ≤ q + k := fun k hk => by
      by_contra hin
      have := hr.1 k hk
      rw [fill_inside (by omega) (by omega)] at this
      cases this
    have hset : ∀ k < j, f (q + k) = true := fun k hk => by
      rw [← hr.1 k hk, fill_outside (hout k hk)]
    rcases Nat.lt_or_ge q pos with hlt | hge
    · have hend : q + j ≤ pos := by
        by_contra hpos
        have := hout (pos - q) (by omega)
        omega
      have hend : q + j < pos := by
        refine Nat.lt_of_le_of_ne hend fun he => ?_
        have := hset (j - 1) (by omega)
        rw [h.before (by omega)] at this
        cases this
      refine .inl ⟨⟨hset, ?_, hr.2.2.imp_right fun hb => ?_⟩, by omega⟩
      · rw [← hr.2.1, fill_outside (.inl hend)]
      · rw [← hb, fill_outside (by omega)]
    · have hge : pos + n ≤ q := by
        have := hout 0 hj
        omega
      rcases Nat.eq_or_lt_of_le hge with rfl | hgt
      · refine .inr ⟨rfl, ?_⟩
        have hafter := hr.2.1
        rw [fill_outside (by omega)] at hafter
        have hle' : n + j ≤ siz := by
          by_contra hlong
          have := hset (siz - n) (by omega)
          rw [show pos + n + (siz - n) = pos + siz by omega, h.2.1] at this
          cases this
        have hge' : siz ≤ n + j := by
          by_contra hshort
          rw [h.set (by omega) (by omega)] at hafter
          cases hafter
        omega
      · refine .inl ⟨⟨hset, ?_, hr.2.2.imp_right fun hb => ?_⟩, by omega⟩
        · rw [← hr.2.1, fill_outside (by omega)]
        · rw [← hb, fill_outside (by omega)]
  · rintro (⟨hr, hne⟩ | ⟨rfl, rfl⟩)
    · have hout : q + j < pos ∨ pos + n < q := by
        rcases Nat.lt_or_gt_of_ne hne with hlt | hgt
        · exact .inl (hr.apart h hlt)
        · have := h.apart hr hgt
          omega
      refine ⟨fun k hk => ?_, ?_, hr.2.2.imp_right fun hb => ?_⟩
      · rw [fill_outside (by omega), hr.1 k hk]
      · rw [fill_outside (by omega), hr.2.1]
      · rw [fill_outside (by omega), hb]
    · refine ⟨fun k hk => ?_, ?_, .inr (fill_inside (by omega) (by omega))⟩
      · rw [fill_outside (by omega), h.set (by omega) (by omega)]
      · rw [fill_outside (by omega), show pos + n + (siz - n) = pos + siz by omega, h.2.1]

theorem runs_take {N : Nat} (hN : pos + siz ≤ N) (hj : 0 < j) :
    runs N (fill f pos n false) j + (if j = siz then 1 else 0) = runs N f j + if j = siz - n then 1 else 0 := by
  let without : Nat → Bool := fun q => decide (IsRun f q j ∧ q ≠ pos)
  have hfirst : tally N without + (decide (IsRun f pos j)).toNat = runs N f j + (without pos).toNat := by
    refine @tally_change N pos (fun q => decide (IsRun f q j)) without (by omega) fun x _ hx => ?_
    exact decide_eq_decide.mpr ⟨fun h => h.1, fun h => ⟨h, hx⟩⟩
  have hsiz : (decide (IsRun f pos j)).toNat = if j = siz then 1 else 0 := by
    split
    next he => rw [decide_eq_true (he ▸ h), Bool.toNat_true]
    next he => rw [decide_eq_false fun h' => he (h'.length_unique h), Bool.toNat_false]
  have hpos : without pos = false := decide_eq_false fun h => h.2 rfl
  have hrest : runs N (fill f pos n false) j = tally N without + if j = siz - n then 1 else 0 := by
    split
    next he =>
      have hchange : runs N (fill f pos n false) j + (without (pos + n)).toNat =
          tally N without + (decide (IsRun (fill f pos n false) (pos + n) j)).toNat := by
        refine tally_change (by omega) fun x _ hx => decide_eq_decide.mpr ?_
        rw [isRun_take h hn hle hj]
        exact ⟨fun h' => h'.resolve_right fun h'' => hx h''.1, .inl⟩
      have hnone : without (pos + n) = false := decide_eq_false fun h' => by
        have := h.apart h'.1 (by omega)
        omega
      rwa [hnone, decide_eq_true ((isRun_take h hn hle hj).mpr (.inr ⟨rfl, he⟩))] at hchange
    next he =>
      refine tally_congr fun x _ => decide_eq_decide.mpr ?_
      rw [isRun_take h hn hle hj]
      exact ⟨fun h' => h'.resolve_right fun h'' => he h''.2, .inl⟩
  rw [hsiz, hpos, Bool.toNat_false] at hfirst
  omega

end Take

/-- A count of the places from `pos` to `last` that skips some of them behind each place that it counts. -/
def scan (p : Nat → Bool) (last skip : Nat) : Nat → Nat → Nat
  | 0, _ => 0
  | fuel + 1, pos =>
    if last < pos then 0
    else if p pos then scan p last skip fuel (pos + skip + 1) + 1
    else scan p last skip fuel (pos + 1)

/-- What is skipped would not have been counted. -/
theorem scan_tally {p : Nat → Bool} {last skip : Nat} (hlast : ∀ q, last < q → p q = false)
    (hskip : ∀ q k, p q = true → k < skip → p (q + 1 + k) = false) (fuel pos : Nat) (hf : last < pos + fuel) :
    scan p last skip fuel pos + tally pos p = tally (last + 1) p := by
  induction fuel generalizing pos with
  | zero => rw [scan, Nat.zero_add, tally_of_le (by omega) hlast]
  | succ fuel ih =>
    unfold scan
    split
    next hpos => rw [Nat.zero_add, tally_of_le (by omega) hlast]
    next hpos =>
      split
      next hp =>
        have hbehind : ∀ k ≤ skip, tally (pos + 1 + k) p = tally (pos + 1) p := by
          intro k
          induction k with
          | zero => exact fun _ => rfl
          | succ k ihk =>
            intro hk
            rw [← Nat.add_assoc, tally_succ, ihk (by omega), hskip pos k hp (by omega), Bool.toNat_false, Nat.add_zero]
        have := ih (pos + skip + 1) (by omega)
        rw [show pos + skip + 1 = pos + 1 + skip by omega, hbehind skip (Nat.le_refl _), tally_succ, hp,
          Bool.toNat_true] at this
        rw [show pos + skip + 1 = pos + 1 + skip by omega]
        omega
      next hp =>
        have := ih (pos + 1) (by omega)
        rw [tally_succ, (Bool.not_eq_true _).mp hp, Bool.toNat_false] at this
        exact this

end Runs
