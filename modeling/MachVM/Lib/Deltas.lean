import Mathlib.Data.List.Basic
import Mathlib.Order.Lattice
import Mathlib.Algebra.Order.Group.Int

namespace Deltas

variable {α : Type} {due due' time time' : α → Int} {base now t : Int} {x y : α} {l : List α}

/-- Each element keeps its time after the one before it, the first its time after a base. -/
def Chain (due time : α → Int) : Int → List α → Prop
  | _, [] => True
  | base, x :: xs => 0 ≤ time x ∧ due x = base + time x ∧ Chain due time (due x) xs

/-- Elements that are due keep how long they have been due, and the rest is a chain from now on. -/
def Timed (due time : α → Int) (now : Int) : List α → Prop
  | [] => True
  | x :: xs =>
    if time x ≤ 0 then due x = now + time x ∧ (∀ y ∈ xs, due x ≤ due y) ∧ Timed due time now xs
    else Chain due time now (x :: xs)

/-- The sum of the positive times up to an element and including its own. -/
def remaining [DecidableEq α] (time : α → Int) (p : α) : List α → Int
  | [] => 0
  | x :: xs => max (time x) 0 + if x = p then 0 else remaining time p xs

theorem timed_cons : Timed due time now (x :: l) =
    if time x ≤ 0 then due x = now + time x ∧ (∀ y ∈ l, due x ≤ due y) ∧ Timed due time now l
    else Chain due time now (x :: l) :=
  rfl

theorem remaining_cons [DecidableEq α] :
    remaining time y (x :: l) = max (time x) 0 + if x = y then 0 else remaining time y l :=
  rfl

theorem Chain.congr (h : Chain due time base l) (hd : ∀ x ∈ l, due' x = due x) (ht : ∀ x ∈ l, time' x = time x) :
    Chain due' time' base l := by
  induction l generalizing base with
  | nil => trivial
  | cons x xs ih =>
    obtain ⟨hx, hb, hc⟩ := h
    obtain ⟨hdx, hd⟩ := List.forall_mem_cons.mp hd
    obtain ⟨htx, ht⟩ := List.forall_mem_cons.mp ht
    refine ⟨by rw [htx]; exact hx, by rw [hdx, htx]; exact hb, ?_⟩
    rw [hdx]
    exact ih hc hd ht

theorem Chain.base_le (h : Chain due time base l) : ∀ y ∈ l, base ≤ due y := by
  induction l generalizing base with
  | nil => simp
  | cons x xs ih =>
    obtain ⟨hx, hb, hc⟩ := h
    intro y hy
    rcases List.mem_cons.mp hy with rfl | hy
    · omega
    · have := ih hc y hy
      omega

/-- A chain from now on is timed, with those at its head that are due now. -/
theorem Chain.timed (h : Chain due time now l) : Timed due time now l := by
  induction l with
  | nil => trivial
  | cons x xs ih =>
    rw [timed_cons]
    split
    next hx =>
      obtain ⟨h0, hb, hc⟩ := h
      have hn : due x = now := by omega
      exact ⟨hb, hc.base_le, ih (hn ▸ hc)⟩
    next => exact h

theorem Timed.congr (h : Timed due time now l) (hd : ∀ x ∈ l, due' x = due x) (ht : ∀ x ∈ l, time' x = time x) :
    Timed due' time' now l := by
  induction l with
  | nil => trivial
  | cons x xs ih =>
    obtain ⟨hdx, hd'⟩ := List.forall_mem_cons.mp hd
    obtain ⟨htx, ht'⟩ := List.forall_mem_cons.mp ht
    rw [timed_cons] at h ⊢
    rw [htx]
    split at h
    next hx =>
      rw [if_pos hx]
      obtain ⟨hb, hle, hc⟩ := h
      refine ⟨by rw [hdx]; exact hb, fun y hy => ?_, ih hc hd' ht'⟩
      rw [hdx, hd' y hy]
      exact hle y hy
    next hx =>
      rw [if_neg hx]
      exact h.congr hd ht

theorem Timed.head_le (h : Timed due time now (x :: l)) : ∀ y ∈ l, due x ≤ due y := by
  rw [timed_cons] at h
  split at h
  next => exact h.2.1
  next => exact h.2.2.base_le

theorem Timed.tail (h : Timed due time now (x :: l)) (hx : time x ≤ 0) : Timed due time now l := by
  rw [timed_cons, if_pos hx] at h
  exact h.2.2

/-- The head is due when its time has come down to zero. -/
theorem Timed.head_due (h : Timed due time now (x :: l)) : time x ≤ 0 ↔ due x ≤ now := by
  rw [timed_cons] at h
  split at h
  next hx =>
    obtain ⟨hb, -, -⟩ := h
    exact iff_of_true hx (by omega)
  next hx =>
    obtain ⟨-, hb, -⟩ := h
    exact iff_of_false hx (by omega)

/-- What is left of a chain when one element is taken out and its time goes to the next one. -/
theorem Chain.remove {l₁ l₂ : List α} (h : Chain due time base (l₁ ++ x :: l₂)) (h₁ : ∀ y ∈ l₁, time' y = time y)
    (hhead : ∀ y ∈ l₂.head?, time' y = time y + max (time x) 0) (h₂ : ∀ y ∈ l₂.tail, time' y = time y) :
    Chain due time' base (l₁ ++ l₂) := by
  induction l₁ generalizing base with
  | nil =>
    obtain ⟨hx, hb, hc⟩ := h
    cases l₂ with
    | nil => trivial
    | cons y ys =>
      obtain ⟨hy, hby, hcy⟩ := hc
      have hty : time' y = time y + time x := by rw [hhead y rfl, max_eq_left hx]
      exact ⟨by omega, by omega, hcy.congr (fun _ _ => rfl) h₂⟩
  | cons z zs ih =>
    obtain ⟨hz, hb, hc⟩ := h
    obtain ⟨htz, hzs⟩ := List.forall_mem_cons.mp h₁
    exact ⟨by rw [htz]; exact hz, by rw [htz]; exact hb, ih hc hzs⟩

/-- An element that is due gives nothing to the next one. -/
theorem Timed.remove {l₁ l₂ : List α} (h : Timed due time now (l₁ ++ x :: l₂)) (h₁ : ∀ y ∈ l₁, time' y = time y)
    (hhead : ∀ y ∈ l₂.head?, time' y = time y + max (time x) 0) (h₂ : ∀ y ∈ l₂.tail, time' y = time y) :
    Timed due time' now (l₁ ++ l₂) := by
  induction l₁ with
  | nil =>
    rw [List.nil_append, timed_cons] at h
    split at h
    next hx =>
      refine h.2.2.congr (fun _ _ => rfl) fun y hy => ?_
      cases l₂ with
      | nil => cases hy
      | cons z zs =>
        rcases List.mem_cons.mp hy with rfl | hy
        · rw [hhead y rfl, max_eq_right hx, add_zero]
        · exact h₂ y hy
    next hx =>
      have hc : Chain due time' now ([] ++ l₂) := Chain.remove h h₁ hhead h₂
      exact hc.timed
  | cons z zs ih =>
    obtain ⟨htz, hzs⟩ := List.forall_mem_cons.mp h₁
    rw [List.cons_append, timed_cons] at h
    split at h
    next hz =>
      obtain ⟨hb, hmin, hc⟩ := h
      rw [List.cons_append, timed_cons, htz, if_pos hz]
      refine ⟨hb, fun y hy => hmin y ?_, ih hc hzs⟩
      rcases List.mem_append.mp hy with hy | hy
      · exact List.mem_append_left _ hy
      · exact List.mem_append_right _ (List.mem_cons_of_mem _ hy)
    next =>
      have hc : Chain due time' now ((z :: zs) ++ l₂) := Chain.remove h h₁ hhead h₂
      exact hc.timed

variable [DecidableEq α]

theorem Chain.remaining (h : Chain due time base l) (hy : y ∈ l) : base + remaining time y l = due y := by
  induction l generalizing base with
  | nil => simp at hy
  | cons x xs ih =>
    obtain ⟨hx, hb, hc⟩ := h
    rw [remaining_cons, max_eq_left hx]
    split
    next he =>
      subst he
      omega
    next he =>
      have hy : y ∈ xs := by simpa [Ne.symm he] using hy
      have := ih hc hy
      omega

/-- The sum up to an element is what is left until it is due. -/
theorem Timed.remaining (h : Timed due time now l) (hy : y ∈ l) : remaining time y l = max (due y - now) 0 := by
  induction l with
  | nil => simp at hy
  | cons x xs ih =>
    rw [timed_cons] at h
    split at h
    next hx =>
      obtain ⟨hb, -, hc⟩ := h
      rw [remaining_cons, max_eq_right hx]
      split
      next he =>
        subst he
        rw [max_eq_right (by omega)]
        rfl
      next he =>
        have hy : y ∈ xs := by simpa [Ne.symm he] using hy
        rw [ih hc hy, zero_add]
    next =>
      have hle := h.base_le y hy
      have := h.remaining hy
      rw [max_eq_left (by omega)]
      omega

end Deltas
