import Mathlib.Logic.Function.Basic
import Mathlib.Data.List.Basic

/-! A sequence of stores, each to one cell or to none. -/

namespace Stores

variable {α κ ν : Type} [DecidableEq κ] {addr : α → Option κ} {val : α → ν} {f : κ → ν} {l : List α} {p : κ}

def store (addr : α → Option κ) (val : α → ν) (f : κ → ν) (a : α) : κ → ν :=
  match addr a with
  | some p => Function.update f p (val a)
  | none => f

theorem store_self {a : α} (ha : addr a = some p) : store addr val f a p = val a := by
  simp [store, ha]

theorem store_other {a : α} (ha : addr a ≠ some p) : store addr val f a p = f p := by
  cases hq : addr a with
  | none => simp only [store, hq]
  | some q =>
    simp only [store, hq]
    refine Function.update_of_ne ?_ _ _
    rintro rfl
    exact ha hq

/-- A cell that no store goes to keeps its value. -/
theorem foldl_untouched (hl : ∀ a ∈ l, addr a ≠ some p) : l.foldl (store addr val) f p = f p := by
  induction l generalizing f with
  | nil => rfl
  | cons a l ih =>
    rw [List.foldl_cons, ih fun b hb => hl b (List.mem_cons_of_mem _ hb)]
    exact store_other (hl a List.mem_cons_self)

/-- The last store to a cell is the one that counts. -/
theorem foldl_last {l₁ l₂ : List α} {a : α} (ha : addr a = some p) (hl : ∀ b ∈ l₂, addr b ≠ some p) :
    (l₁ ++ a :: l₂).foldl (store addr val) f p = val a := by
  rw [List.foldl_append, List.foldl_cons, foldl_untouched hl]
  exact store_self ha

/-- Either no store goes to a cell, or there is a last one that does. -/
theorem last_or_untouched (addr : α → Option κ) (l : List α) (p : κ) : (∀ a ∈ l, addr a ≠ some p) ∨
    ∃ l₁ a l₂, l = l₁ ++ a :: l₂ ∧ addr a = some p ∧ ∀ b ∈ l₂, addr b ≠ some p := by
  induction l with
  | nil => exact .inl fun a ha => absurd ha List.not_mem_nil
  | cons b l ih =>
    obtain hno | ⟨l₁, a, l₂, rfl, ha, hl⟩ := ih
    · by_cases hb : addr b = some p
      · exact .inr ⟨[], b, l, rfl, hb, hno⟩
      · exact .inl (List.forall_mem_cons.mpr ⟨hb, hno⟩)
    · exact .inr ⟨b :: l₁, a, l₂, rfl, ha, hl⟩

end Stores
