import Mathlib.Data.List.Nodup
import Mathlib.Logic.Function.Basic

namespace Mirror

variable {α : Type}

/-- A queue that holds exactly the elements a flag names, each of them once. -/
structure Mirrors (q : List α) (flag : α → Prop) : Prop where
  nodup : q.Nodup
  mem_iff : ∀ x, x ∈ q ↔ flag x

theorem Mirrors.congr {q : List α} {f g : α → Prop} (h : Mirrors q f) (he : ∀ x, f x ↔ g x) :
    Mirrors q g :=
  ⟨h.nodup, fun x => (h.mem_iff x).trans (he x)⟩

theorem Mirrors.perm {q r : List α} {f : α → Prop} (h : Mirrors q f) (hp : q.Perm r) : Mirrors r f :=
  ⟨hp.nodup_iff.mp h.nodup, fun x => hp.mem_iff.symm.trans (h.mem_iff x)⟩

theorem mirrors_nil : Mirrors ([] : List α) (fun _ => False) :=
  ⟨List.nodup_nil, by simp⟩

/-- Appending an unflagged element keeps the mirror once that element is flagged. -/
theorem Mirrors.append {q : List α} {f g : α → Prop} {x : α} (h : Mirrors q f) (hx : ¬f x)
    (hg : ∀ y, g y ↔ f y ∨ y = x) : Mirrors (q ++ [x]) g := by
  have hn : x ∉ q := fun hm => hx ((h.mem_iff x).mp hm)
  refine ⟨List.Nodup.append h.nodup (List.nodup_singleton x) ?_, ?_⟩
  · simpa [List.disjoint_singleton] using hn
  · intro y
    rw [hg, ← h.mem_iff]
    simp

/-- Erasing an element keeps the mirror once its flag is cleared. -/
theorem Mirrors.erase [DecidableEq α] {q : List α} {f g : α → Prop} {x : α} (h : Mirrors q f)
    (hg : ∀ y, g y ↔ f y ∧ y ≠ x) : Mirrors (q.erase x) g := by
  refine ⟨h.nodup.erase x, ?_⟩
  intro y
  rw [hg, ← h.mem_iff, h.nodup.mem_erase_iff]
  exact and_comm

theorem Mirrors.length_erase [DecidableEq α] {q : List α} {f : α → Prop} {x : α}
    (h : Mirrors q f) (hx : f x) : (q.erase x).length + 1 = q.length := by
  have hm := (h.mem_iff x).mpr hx
  have hp := List.length_pos_of_mem hm
  rw [List.length_erase_of_mem hm]
  omega

section Cells

variable {β : Type} [DecidableEq α] {cell : α → β} {flag : β → Bool} {q : List α} {x : α} {b : β}

/-- A queue whose flag reads the same in the new cell is still mirrored. -/
theorem Mirrors.keep (h : Mirrors q fun y => flag (cell y) = true) (he : flag b = flag (cell x)) :
    Mirrors q fun y => flag (Function.update cell x b y) = true := by
  apply h.congr
  intro y
  by_cases hy : y = x
  · subst y; simp [he]
  · simp [hy]

/-- Appending an element whose flag was down and is now up. -/
theorem Mirrors.raise (h : Mirrors q fun y => flag (cell y) = true) (hu : flag b = true)
    (hd : flag (cell x) = false) :
    Mirrors (q ++ [x]) fun y => flag (Function.update cell x b y) = true := by
  apply h.append
  · simp [hd]
  · intro y
    by_cases hy : y = x
    · subst y; simp [hu]
    · simp [hy]

/-- Erasing an element whose flag is now down. -/
theorem Mirrors.lower (h : Mirrors q fun y => flag (cell y) = true) (hd : flag b = false) :
    Mirrors (q.erase x) fun y => flag (Function.update cell x b y) = true := by
  apply h.erase
  intro y
  by_cases hy : y = x
  · subst y; simp [hd]
  · simp [hy]

end Cells

end Mirror
