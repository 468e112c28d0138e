import Mathlib.Algebra.BigOperators.Group.Finset.Basic
import Mathlib.Algebra.Order.BigOperators.Group.Finset
import Mathlib.Data.Nat.Basic

namespace Levels

variable {α : Type} {lists : Nat → List α} {n low count k i : Nat} {x : α}

/-- A queue of several levels that keeps its length and a level below which there is nothing. -/
structure Leveled (n : Nat) (lists : Nat → List α) (low count : Nat) : Prop where
  total : count = ∑ i ∈ Finset.range n, (lists i).length
  below : ∀ i, i < low → lists i = []

theorem leveled_nil : Leveled n (fun _ => ([] : List α)) 0 0 := ⟨by simp, fun _ _ => rfl⟩

theorem sum_update (lists : Nat → List α) (hk : k < n) (l : List α) :
    ∑ i ∈ Finset.range n, (Function.update lists k l i).length + (lists k).length =
      ∑ i ∈ Finset.range n, (lists i).length + l.length := by
  have hm : k ∈ Finset.range n := Finset.mem_range.mpr hk
  rw [← Finset.add_sum_erase _ _ hm, ← Finset.add_sum_erase (Finset.range n) (fun i => (lists i).length) hm,
    Function.update_self]
  have he : ∑ i ∈ (Finset.range n).erase k, (Function.update lists k l i).length =
      ∑ i ∈ (Finset.range n).erase k, (lists i).length := by
    apply Finset.sum_congr rfl
    intro i hi
    rw [Function.update_of_ne (Finset.ne_of_mem_erase hi)]
  rw [he]
  omega

/-- An element comes in at a level. -/
theorem Leveled.enter (h : Leveled n lists low count) (hk : k < n) :
    Leveled n (Function.update lists k (lists k ++ [x])) (if k < low then k else low) (count + 1) where
  total := by
    have := sum_update lists hk (lists k ++ [x])
    rw [List.length_append, List.length_singleton] at this
    rw [h.total]
    omega
  below i hi := by
    have hik : i ≠ k := by split at hi <;> omega
    rw [Function.update_of_ne hik]
    exact h.below i (by split at hi <;> omega)

/-- An element goes out of its level. -/
theorem Leveled.leave [DecidableEq α] (h : Leveled n lists low count) (hk : k < n) (hx : x ∈ lists k) :
    Leveled n (Function.update lists k ((lists k).erase x)) low (count - 1) where
  total := by
    have := sum_update lists hk ((lists k).erase x)
    have := List.length_pos_of_mem hx
    rw [List.length_erase_of_mem hx] at *
    rw [h.total]
    omega
  below i hi := by
    have hik : i ≠ k := by
      rintro rfl
      simp [h.below i hi] at hx
    rw [Function.update_of_ne hik]
    exact h.below i hi

theorem Leveled.raise (h : Leveled n lists low count) (hk : ∀ i, i < k → lists i = []) : Leveled n lists k count :=
  ⟨h.total, hk⟩

/-- The first level from `i` on that is not empty, among `n` levels. -/
def firstFrom (lists : Nat → List α) (i : Nat) : Nat → Option Nat
  | 0 => none
  | n + 1 => if (lists i).isEmpty then firstFrom lists (i + 1) n else some i

theorem firstFrom_eq_some {m : Nat} (h : firstFrom lists i n = some m) :
    i ≤ m ∧ m < i + n ∧ lists m ≠ [] ∧ ∀ j, i ≤ j → j < m → lists j = [] := by
  induction n generalizing i with
  | zero => simp [firstFrom] at h
  | succ n ih =>
    rw [firstFrom] at h
    split at h
    next he =>
      obtain ⟨h1, h2, h3, h4⟩ := ih h
      refine ⟨by omega, by omega, h3, fun j hj hm => ?_⟩
      by_cases hji : j = i
      · rw [hji]
        exact List.isEmpty_iff.mp he
      · exact h4 j (by omega) hm
    next he =>
      cases Option.some.inj h
      exact ⟨Nat.le_refl _, by omega, fun hn => he (List.isEmpty_iff.mpr hn), fun j hj hm => by omega⟩

theorem firstFrom_eq_none (h : firstFrom lists i n = none) : ∀ j, i ≤ j → j < i + n → lists j = [] := by
  induction n generalizing i with
  | zero => intro j hj hn; omega
  | succ n ih =>
    rw [firstFrom] at h
    split at h
    next he =>
      intro j hj hn
      by_cases hji : j = i
      · rw [hji]
        exact List.isEmpty_iff.mp he
      · exact ih h j (by omega) (by omega)
    next => simp at h

/-- The search from the hint finds the best level of a queue that has elements. -/
theorem Leveled.firstFrom (h : Leveled n lists low count) (hc : 0 < count) :
    ∃ m, Levels.firstFrom lists low (n - low) = some m ∧ m < n ∧ lists m ≠ [] ∧ ∀ j, j < m → lists j = [] := by
  cases hf : Levels.firstFrom lists low (n - low) with
  | none =>
    have he : ∀ i ∈ Finset.range n, (lists i).length = 0 := by
      intro i hi
      have hin := Finset.mem_range.mp hi
      by_cases hil : i < low
      · rw [h.below i hil]
        rfl
      · rw [firstFrom_eq_none hf i (by omega) (by omega)]
        rfl
    have := h.total
    rw [Finset.sum_eq_zero he] at this
    omega
  | some m =>
    obtain ⟨h1, h2, h3, h4⟩ := firstFrom_eq_some hf
    refine ⟨m, rfl, by omega, h3, fun j hj => ?_⟩
    by_cases hjl : j < low
    · exact h.below j hjl
    · exact h4 j (by omega) hj

end Levels
