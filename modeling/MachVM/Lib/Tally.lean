import Mathlib.Data.List.Range
import Mathlib.Logic.Function.Basic

namespace Tally

/-- How many numbers below a bound satisfy a predicate. -/
def tally (n : Nat) (p : Nat → Bool) : Nat := (List.range n).countP p

variable {n k : Nat} {p q : Nat → Bool}

@[simp] theorem tally_zero (p : Nat → Bool) : tally 0 p = 0 := rfl

theorem tally_succ (n : Nat) (p : Nat → Bool) : tally (n + 1) p = tally n p + (p n).toNat := by
  simp only [tally, List.range_succ, List.countP_append, List.countP_singleton]
  cases p n <;> rfl

theorem tally_congr (h : ∀ x < n, q x = p x) : tally n q = tally n p := by
  induction n with
  | zero => rfl
  | succ n ih =>
    rw [tally_succ, tally_succ, ih fun x hx => h x (Nat.lt_succ_of_lt hx), h n (Nat.lt_succ_self n)]

/-- Changing the predicate at one place. -/
theorem tally_change (hk : k < n) (h : ∀ x < n, x ≠ k → q x = p x) :
    tally n q + (p k).toNat = tally n p + (q k).toNat := by
  induction n with
  | zero => exact absurd hk (Nat.not_lt_zero k)
  | succ n ih =>
    rw [tally_succ, tally_succ]
    by_cases hkn : k = n
    · subst hkn
      have := tally_congr fun x hx => h x (Nat.lt_succ_of_lt hx) (Nat.ne_of_lt hx)
      omega
    · have := ih (by omega) fun x hx => h x (Nat.lt_succ_of_lt hx)
      have := h n (Nat.lt_succ_self n) (Ne.symm hkn)
      rw [this]
      omega

theorem tally_eq_zero (n : Nat) (p : Nat → Bool) : tally n p = 0 ↔ ∀ x < n, p x = false := by
  simp [tally, List.countP_eq_zero]

theorem tally_pos (hk : k < n) (hp : p k = true) : 0 < tally n p := by
  refine Nat.pos_of_ne_zero fun h0 => ?_
  have := (tally_eq_zero n p).mp h0 k hk
  simp [hp] at this

/-- A tally of one has only one place to come from. -/
theorem tally_one_unique {j : Nat} (h : tally n p = 1) (hk : k < n) (hj : j < n) (hpk : p k = true)
    (hpj : p j = true) : j = k := by
  by_contra hne
  have hc : tally n (Function.update p k false) + (p k).toNat =
      tally n p + (Function.update p k false k).toNat :=
    tally_change hk fun x _ hx => Function.update_of_ne hx _ _
  have hpos : 0 < tally n (Function.update p k false) :=
    tally_pos hj (by rw [Function.update_of_ne hne]; exact hpj)
  rw [Function.update_self, hpk, h] at hc
  simp at hc
  omega

end Tally
