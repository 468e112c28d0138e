import Mathlib.Data.List.Perm.Basic
import Mathlib.Data.List.ReduceOption
import Mathlib.Data.Finset.Basic
import Mathlib.Logic.Function.Basic

namespace Blocks

variable {α β : Type} {n k j : Nat} {ls : List (List α)} {l b : List α} {a : α}

/-- The element at a place of a list that is made of blocks of one length. -/
theorem getElem?_flatten (hn : 0 < n) (h : ∀ l ∈ ls, l.length = n) (i : Nat) :
    ls.flatten[i]? = ls[i / n]?.bind fun l => l[i % n]? := by
  induction ls generalizing i with
  | nil => simp
  | cons l ls ih =>
    obtain ⟨hl, hls⟩ := List.forall_mem_cons.mp h
    rw [List.flatten_cons]
    by_cases hi : i < n
    · rw [List.getElem?_append_left (by omega), Nat.div_eq_of_lt hi, Nat.mod_eq_of_lt hi]
      rfl
    · have hd : i / n = (i - n) / n + 1 := by
        rw [← Nat.add_div_right _ hn, Nat.sub_add_cancel (by omega)]
      have hm : i % n = (i - n) % n := Nat.mod_eq_sub_mod (by omega)
      rw [List.getElem?_append_right (by omega), hl, ih hls, hd, hm]
      rfl

/-- A change of one element of one block. -/
theorem flatten_set (hn : 0 < n) (h : ∀ l ∈ ls, l.length = n) {i : Nat} (hl : ls[i / n]? = some l) :
    (ls.set (i / n) (l.set (i % n) a)).flatten = ls.flatten.set i a := by
  induction ls generalizing i with
  | nil => simp at hl
  | cons b ls ih =>
    obtain ⟨hb, hls⟩ := List.forall_mem_cons.mp h
    by_cases hi : i < n
    · rw [Nat.div_eq_of_lt hi, Nat.mod_eq_of_lt hi] at *
      cases Option.some.inj hl
      rw [List.set_cons_zero, List.flatten_cons, List.flatten_cons, List.set_append_left _ _ (by omega)]
    · have hd : i / n = (i - n) / n + 1 := by
        rw [← Nat.add_div_right _ hn, Nat.sub_add_cancel (by omega)]
      have hm : i % n = (i - n) % n := Nat.mod_eq_sub_mod (by omega)
      rw [hd] at hl ⊢
      rw [hm, List.set_cons_succ, List.flatten_cons, List.flatten_cons, ih hls hl, List.set_append_right _ _ (by omega), hb]

theorem length_flatten (h : ∀ l ∈ ls, l.length = n) : ls.flatten.length = ls.length * n := by
  induction ls with
  | nil => simp
  | cons l ls ih =>
    obtain ⟨hl, hls⟩ := List.forall_mem_cons.mp h
    rw [List.flatten_cons, List.length_append, hl, ih hls, List.length_cons, Nat.add_mul, Nat.one_mul, Nat.add_comm]

theorem set_of_getElem? {i : Nat} (h : l[i]? = some a) : l.set i a = l := by
  obtain ⟨hi, rfl⟩ := List.getElem?_eq_some_iff.mp h
  exact List.set_getElem_self hi

/-- An empty place is filled. -/
theorem reduceOption_set {l : List (Option α)} {i : Nat} (h : l[i]? = some none) :
    (l.set i (some a)).reduceOption.Perm (a :: l.reduceOption) := by
  induction l generalizing i with
  | nil => simp at h
  | cons x xs ih =>
    cases i with
    | zero =>
      cases Option.some.inj h
      rw [List.set_cons_zero, List.reduceOption_cons_of_some, List.reduceOption_cons_of_none]
    | succ i =>
      rw [List.set_cons_succ]
      have hp := ih h
      cases x with
      | none => rwa [List.reduceOption_cons_of_none, List.reduceOption_cons_of_none]
      | some x =>
        rw [List.reduceOption_cons_of_some, List.reduceOption_cons_of_some]
        exact (hp.cons x).trans (.swap ..)

/-- Two places with the same value are one where no value is twice. -/
theorem reduceOption_inj {l : List (Option α)} {i : Nat} (hn : l.reduceOption.Nodup) (hi : l[i]? = some (some a))
    (hj : l[j]? = some (some a)) : i = j := by
  induction l generalizing i j with
  | nil => simp at hi
  | cons x xs ih =>
    cases x with
    | none =>
      rw [List.reduceOption_cons_of_none] at hn
      cases i with
      | zero => simp at hi
      | succ i =>
        cases j with
        | zero => simp at hj
        | succ j => exact congrArg _ (ih hn hi hj)
    | some x =>
      rw [List.reduceOption_cons_of_some] at hn
      obtain ⟨hx, hn⟩ := List.nodup_cons.mp hn
      have hmem : ∀ {k}, xs[k]? = some (some x) → False := fun hk =>
        hx (List.reduceOption_mem_iff.mpr (List.mem_of_getElem? hk))
      cases i with
      | zero =>
        cases j with
        | zero => rfl
        | succ j =>
          cases Option.some.inj (Option.some.inj hi)
          exact (hmem hj).elim
      | succ i =>
        cases j with
        | zero =>
          cases Option.some.inj (Option.some.inj hj)
          exact (hmem hi).elim
        | succ j => exact congrArg _ (ih hn hi hj)

section Collect

variable {ι : Type} [DecidableEq ι] {xs : List ι} {x : ι}

theorem flatMap_split (f : ι → List β) (hx : x ∈ xs) : (xs.flatMap f).Perm (f x ++ (xs.erase x).flatMap f) :=
  ((List.perm_cons_erase hx).flatMap_right f).trans (by rw [List.flatMap_cons])

omit [DecidableEq ι] in
theorem flatMap_congr {f g : ι → List β} (h : ∀ y ∈ xs, f y = g y) : xs.flatMap f = xs.flatMap g := by
  rw [List.flatMap_def, List.flatMap_def, List.map_congr_left h]

/-- What all have after a change of one. -/
theorem flatMap_update {γ : Type} {cell : ι → γ} {b : γ} (g : γ → List β) (hn : xs.Nodup) (hx : x ∈ xs) :
    (xs.flatMap fun y => g (Function.update cell x b y)).Perm (g b ++ (xs.erase x).flatMap fun y => g (cell y)) := by
  refine (flatMap_split _ hx).trans ?_
  rw [Function.update_self]
  refine List.Perm.append_left _ (.of_eq (flatMap_congr fun y hy => ?_))
  rw [Function.update_of_ne (hn.mem_erase_iff.mp hy).1]

end Collect

end Blocks
