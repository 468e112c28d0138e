import MachVM.Lib.Mirror

namespace Mirror

variable {α β κ : Type}

/-- A table of queues, one for each key: a cell is on the queue of its key and on no other. -/
def Indexed (table : κ → List α) (cell : α → β) (key : β → Option κ) : Prop :=
  ∀ k, Mirrors (table k) fun x => key (cell x) = some k

/-- No two cells have the same key. -/
def KeyInj (cell : α → β) (key : β → Option κ) : Prop :=
  ∀ x y k, key (cell x) = some k → key (cell y) = some k → x = y

variable {table : κ → List α} {cell : α → β} {key : β → Option κ} {x : α} {b : β}

theorem Indexed.nodup (h : Indexed table cell key) (k : κ) : (table k).Nodup := (h k).nodup

theorem Indexed.mem_iff (h : Indexed table cell key) (k : κ) (y : α) :
    y ∈ table k ↔ key (cell y) = some k :=
  (h k).mem_iff y

/-- Searching the queue that a second key hashes to finds the one cell with that key. -/
theorem Indexed.find_eq_some {γ : Type} {key' : β → Option γ} {hash : γ → κ} {k : γ} {p : α → Bool}
    (h : Indexed table cell fun c => (key' c).map hash) (hi : KeyInj cell key')
    (hp : ∀ y, p y = true ↔ key' (cell y) = some k) :
    (table (hash k)).find? p = some x ↔ key' (cell x) = some k := by
  constructor
  · intro hf
    exact (hp x).mp (List.find?_some hf)
  · intro hx
    have hm : x ∈ table (hash k) := by
      rw [h.mem_iff]
      simp [hx]
    cases hf : (table (hash k)).find? p with
    | none => exact absurd ((hp x).mpr hx) (List.find?_eq_none.mp hf x hm)
    | some y => rw [hi y x k ((hp y).mp (List.find?_some hf)) hx]

variable [DecidableEq α]

theorem update_key (y : α) (he : key b = key (cell x)) :
    key (Function.update cell x b y) = key (cell y) := by
  by_cases hy : y = x
  · subst y; simp [he]
  · simp [hy]

section Tables

/-- A cell that keeps its key stays where it is. -/
theorem Indexed.keep (h : Indexed table cell key) (he : key b = key (cell x)) :
    Indexed table (Function.update cell x b) key := by
  intro k
  apply (h k).congr
  intro y
  rw [update_key y he]

variable [DecidableEq κ]

/-- A cell without a key gets one. -/
theorem Indexed.enter {k : κ} (h : Indexed table cell key) (hd : key (cell x) = none)
    (hu : key b = some k) :
    Indexed (Function.update table k (table k ++ [x])) (Function.update cell x b) key := by
  intro j
  by_cases hj : j = k
  · subst hj
    rw [Function.update_self]
    apply (h j).append
    · simp [hd]
    · intro y
      by_cases hy : y = x
      · subst y; simp [hu]
      · simp [hy]
  · rw [Function.update_of_ne hj]
    apply (h j).congr
    intro y
    by_cases hy : y = x
    · subst y; simp [hd, hu, Ne.symm hj]
    · simp [hy]

/-- A cell loses its key. -/
theorem Indexed.leave {k : κ} (h : Indexed table cell key) (hu : key (cell x) = some k)
    (hd : key b = none) :
    Indexed (Function.update table k ((table k).erase x)) (Function.update cell x b) key := by
  intro j
  by_cases hj : j = k
  · subst hj
    rw [Function.update_self]
    apply (h j).erase
    intro y
    by_cases hy : y = x
    · subst y; simp [hd]
    · simp [hy]
  · rw [Function.update_of_ne hj]
    apply (h j).congr
    intro y
    by_cases hy : y = x
    · subst y; simp [hd, hu, Ne.symm hj]
    · simp [hy]

end Tables

omit [DecidableEq α] in
/-- The order in which the cells of a key stand is free. -/
theorem Indexed.perm [DecidableEq κ] {q r : List α} {k : κ}
    (h : Indexed (Function.update table k q) cell key) (hp : q.Perm r) :
    Indexed (Function.update table k r) cell key := by
  intro j
  have hj := h j
  by_cases hjk : j = k
  · subst hjk
    rw [Function.update_self] at hj ⊢
    exact hj.perm hp
  · rw [Function.update_of_ne hjk] at hj ⊢
    exact hj

section Counts

variable {l : List α} {p : β → Bool}

theorem countP_update_of_notMem (hx : x ∉ l) :
    l.countP (fun y => p (Function.update cell x b y)) = l.countP fun y => p (cell y) := by
  apply List.countP_congr
  intro y hy
  have hne : y ≠ x := fun he => hx (he ▸ hy)
  simp [hne]

/-- Changing one cell of a queue changes a count by what the flag says of the two values. -/
theorem countP_update_mem (hn : l.Nodup) (hx : x ∈ l) :
    l.countP (fun y => p (Function.update cell x b y)) + (p (cell x)).toNat =
      l.countP (fun y => p (cell y)) + (p b).toNat := by
  induction l with
  | nil => simp at hx
  | cons z zs ih =>
    obtain ⟨hz, hzs⟩ := List.nodup_cons.mp hn
    rw [List.countP_cons, List.countP_cons]
    by_cases hzx : z = x
    · subst z
      rw [countP_update_of_notMem hz, Function.update_self]
      cases p b <;> cases p (cell x) <;> simp
    · have hm : x ∈ zs := (List.mem_cons.mp hx).resolve_left (Ne.symm hzx)
      rw [Function.update_of_ne hzx]
      have := ih hzs hm
      omega

end Counts

section Keys

theorem KeyInj.keep (h : KeyInj cell key) (he : key b = key (cell x)) :
    KeyInj (Function.update cell x b) key := by
  intro y z k hy hz
  rw [update_key y he] at hy
  rw [update_key z he] at hz
  exact h y z k hy hz

theorem KeyInj.leave (h : KeyInj cell key) (hd : key b = none) :
    KeyInj (Function.update cell x b) key := by
  intro y z k hy hz
  by_cases hyx : y = x
  · subst y; simp [hd] at hy
  · by_cases hzx : z = x
    · subst z; simp [hd] at hz
    · rw [Function.update_of_ne hyx] at hy
      rw [Function.update_of_ne hzx] at hz
      exact h y z k hy hz

/-- A cell may take any key that no cell has. -/
theorem KeyInj.enter {k : κ} (h : KeyInj cell key) (hu : key b = some k)
    (hf : ∀ y, key (cell y) ≠ some k) : KeyInj (Function.update cell x b) key := by
  intro y z j hy hz
  by_cases hyx : y = x <;> by_cases hzx : z = x
  · exact hyx.trans hzx.symm
  · subst y
    simp only [Function.update_self, hu, Option.some.injEq] at hy
    rw [Function.update_of_ne hzx, ← hy] at hz
    exact absurd hz (hf z)
  · subst z
    simp only [Function.update_self, hu, Option.some.injEq] at hz
    rw [Function.update_of_ne hyx, ← hz] at hy
    exact absurd hy (hf y)
  · rw [Function.update_of_ne hyx] at hy
    rw [Function.update_of_ne hzx] at hz
    exact h y z j hy hz

end Keys

end Mirror
