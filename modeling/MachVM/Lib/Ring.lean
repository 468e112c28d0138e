import Mathlib.Data.List.Nodup
import Mathlib.Logic.Function.Iterate
import Mathlib.Algebra.Group.Nat.Defs

namespace Ring

variable {α : Type}

/-- The node in front of a cut: the last of the list, or the node the list starts from. -/
def before : α → List α → α
  | a, [] => a
  | _, x :: l => before x l

/-- The node behind a cut. -/
def after : List α → α → α
  | [], b => b
  | x :: _, _ => x

@[simp] theorem before_nil (a : α) : before a [] = a := rfl
@[simp] theorem before_cons (a x : α) (l : List α) : before a (x :: l) = before x l := rfl
@[simp] theorem after_nil (b : α) : after [] b = b := rfl
@[simp] theorem after_cons (x b : α) (l : List α) : after (x :: l) b = x := rfl

@[simp] theorem before_append_cons (a x : α) (l₁ l₂ : List α) :
    before a (l₁ ++ x :: l₂) = before x l₂ := by
  induction l₁ generalizing a with
  | nil => rfl
  | cons y l₁ ih => exact ih y

theorem before_mem (a : α) (l : List α) : before a l ∈ a :: l := by
  induction l generalizing a with
  | nil => simp
  | cons x l ih => exact List.mem_cons_of_mem a (ih x)

theorem eq_append_before (x : α) (l : List α) : ∃ p, x :: l = p ++ [before x l] := by
  induction l generalizing x with
  | nil => exact ⟨[], rfl⟩
  | cons y l ih =>
    obtain ⟨p, hp⟩ := ih y
    exact ⟨x :: p, by rw [before_cons, List.cons_append, ← hp]⟩

theorem after_mem (l : List α) (b : α) : after l b ∈ l ++ [b] := by
  cases l <;> simp

/-- The two link functions run through the nodes of a list, from one end node to another. -/
def Seg (next prev : α → α) : α → List α → α → Prop
  | a, [], b => next a = b ∧ prev b = a
  | a, x :: l, b => (next a = x ∧ prev x = a) ∧ Seg next prev x l b

/-- A doubly linked ring through a header node. -/
structure Linked (next prev : α → α) (h : α) (l : List α) : Prop where
  seg : Seg next prev h l h
  nodup : (h :: l).Nodup

variable {next prev next' prev' : α → α} {a b h x y : α} {l l₁ l₂ : List α}

theorem Seg.congr (hs : Seg next prev a l b) (hn : ∀ x ∈ a :: l, next' x = next x)
    (hp : ∀ x ∈ l ++ [b], prev' x = prev x) : Seg next' prev' a l b := by
  induction l generalizing a with
  | nil =>
    obtain ⟨h₁, h₂⟩ := hs
    exact ⟨by rw [hn a (by simp), h₁], by rw [hp b (by simp), h₂]⟩
  | cons x l ih =>
    obtain ⟨⟨h₁, h₂⟩, hs⟩ := hs
    refine ⟨⟨by rw [hn a (by simp), h₁], by rw [hp x (by simp), h₂]⟩, ih hs ?_ ?_⟩
    · intro y hy
      exact hn y (List.mem_cons_of_mem a hy)
    · intro y hy
      exact hp y (List.mem_cons_of_mem x hy)

/-- At any cut of the list the node before it and the node after it point at each other. -/
theorem Seg.cut (hs : Seg next prev a (l₁ ++ l₂) b) :
    next (before a l₁) = after l₂ b ∧ prev (after l₂ b) = before a l₁ := by
  induction l₁ generalizing a with
  | nil =>
    cases l₂ with
    | nil => exact hs
    | cons y l₂ => exact hs.1
  | cons x l₁ ih =>
    rw [before_cons]
    exact ih hs.2

theorem Seg.cut_nil (hs : Seg next prev a l b) : next a = after l b ∧ prev (after l b) = a := by
  rw [← List.nil_append l] at hs
  exact hs.cut

theorem Seg.drop (hs : Seg next prev a (l₁ ++ l₂) b) : Seg next prev (before a l₁) l₂ b := by
  induction l₁ generalizing a with
  | nil => exact hs
  | cons x l₁ ih =>
    rw [before_cons]
    exact ih hs.2

/-- Following the next links from the first end node visits the list and then the other one. -/
theorem Seg.iterate (hs : Seg next prev a l b) (j : Nat) :
    (∀ hj : j < (a :: l).length, next^[j] a = (a :: l).get ⟨j, hj⟩) ∧
      (j = (a :: l).length → next^[j] a = b) := by
  induction l generalizing a j with
  | nil =>
    cases j with
    | zero => simp
    | succ j =>
      refine ⟨fun hj => absurd hj (by simp), ?_⟩
      intro hj
      cases Nat.succ.inj hj
      exact hs.1
  | cons x l ih =>
    cases j with
    | zero => simp
    | succ j =>
      rw [Function.iterate_succ_apply, hs.1.1]
      obtain ⟨h₁, h₂⟩ := ih hs.2 j
      exact ⟨fun hj => h₁ (Nat.lt_of_succ_lt_succ hj), fun hj => h₂ (Nat.succ.inj hj)⟩

theorem Linked.prev_next (hr : Linked next prev h l) (hx : x ∈ h :: l) : prev (next x) = x := by
  rcases List.mem_cons.mp hx with rfl | hx
  · have hc := hr.seg.cut_nil
    rw [hc.1, hc.2]
  · obtain ⟨p, q, rfl⟩ := List.append_of_mem hx
    have hs : Seg next prev h ((p ++ [x]) ++ q) h := by simpa using hr.seg
    have hc := hs.cut
    rw [before_append_cons, before_nil] at hc
    rw [hc.1, hc.2]

/-- A walk along the next links meets every node of the ring. -/
theorem Linked.exists_iterate (hr : Linked next prev h l) (hx : x ∈ h :: l) : ∃ j, next^[j] h = x := by
  obtain ⟨⟨j, hj⟩, rfl⟩ := List.mem_iff_get.mp hx
  exact ⟨j, (hr.seg.iterate j).1 hj⟩

/-- The next links determine the nodes. -/
theorem Seg.unique {prev' : α → α} {l' : List α} (hs : Seg next prev a l b) (hs' : Seg next prev' a l' b)
    (hl : b ∉ l) (hl' : b ∉ l') : l = l' := by
  induction l generalizing a l' with
  | nil =>
    cases l' with
    | nil => rfl
    | cons x l' => exact absurd (show b ∈ x :: l' by rw [← hs'.1.1, hs.1]; simp) hl'
  | cons x l ih =>
    cases l' with
    | nil => exact absurd (show b ∈ x :: l by rw [← hs.1.1, hs'.1]; simp) hl
    | cons y l' =>
      have hxy : x = y := by rw [← hs.1.1, hs'.1.1]
      subst hxy
      rw [ih hs.2 hs'.2 (fun hm => hl (List.mem_cons_of_mem _ hm)) fun hm => hl' (List.mem_cons_of_mem _ hm)]

theorem Linked.unique {prev' : α → α} {l' : List α} (hr : Linked next prev h l)
    (hr' : Linked next prev' h l') : l = l' :=
  hr.seg.unique hr'.seg (List.nodup_cons.mp hr.nodup).1 (List.nodup_cons.mp hr'.nodup).1

variable [DecidableEq α]

theorem Seg.insert (hs : Seg next prev a (l₁ ++ l₂) b) (hx : x ∉ a :: (l₁ ++ l₂)) (hxb : x ≠ b)
    (hl : (a :: (l₁ ++ l₂)).Nodup) (hr : (l₁ ++ l₂ ++ [b]).Nodup) :
    Seg (Function.update (Function.update next x (after l₂ b)) (before a l₁) x)
      (Function.update (Function.update prev x (before a l₁)) (after l₂ b) x)
      a (l₁ ++ x :: l₂) b := by
  induction l₁ generalizing a with
  | nil =>
    have hxa : x ≠ a := fun he => hx (by simp [he])
    cases l₂ with
    | nil => simp [Seg, hxa, hxb]
    | cons y l₂ =>
      have hxy : x ≠ y := fun he => hx (by simp [he])
      refine ⟨⟨by simp, by simp [hxy]⟩, ⟨by simp [hxa], by simp⟩, ?_⟩
      refine hs.2.congr ?_ ?_
      · intro z hz
        have hza : z ≠ a := by rintro rfl; exact (List.nodup_cons.mp hl).1 (by simpa using hz)
        have hzx : z ≠ x := by rintro rfl; exact hx (List.mem_cons_of_mem a (by simpa using hz))
        simp [hza, hzx]
      · intro z hz
        have hzy : z ≠ y := by
          rintro rfl
          exact (List.nodup_cons.mp hr).1 hz
        have hzx : z ≠ x := by
          rintro rfl
          rcases List.mem_append.mp hz with hz | hz
          · exact hx (by simp [hz])
          · exact hxb (by simpa using hz)
        simp [hzy, hzx]
  | cons y l₁ ih =>
    have hl' := List.nodup_cons.mp hl
    have hr' := List.nodup_cons.mp ((List.append_assoc (y :: l₁) _ [b]) ▸ hr)
    have hac : a ≠ before y l₁ := fun he =>
      hl'.1 (List.mem_append_left l₂ (he ▸ before_mem y l₁))
    have hyd : y ≠ after l₂ b := fun he =>
      hr'.1 (List.mem_append_right l₁ (he ▸ after_mem l₂ b))
    have hxa : a ≠ x := fun he => hx (by simp [he])
    have hxy : y ≠ x := fun he => hx (by simp [he])
    rw [before_cons]
    refine ⟨⟨by simp [hac, hxa, hs.1.1], by simp [hyd, hxy, hs.1.2]⟩, ?_⟩
    refine ih hs.2 (fun hm => hx (List.mem_cons_of_mem a hm)) hl'.2 ?_
    simpa using hr'.2

theorem Seg.remove (hs : Seg next prev a (l₁ ++ x :: l₂) b) (hl : (a :: (l₁ ++ x :: l₂)).Nodup)
    (hr : (l₁ ++ x :: l₂ ++ [b]).Nodup) :
    Seg (Function.update next (before a l₁) (after l₂ b))
      (Function.update prev (after l₂ b) (before a l₁)) a (l₁ ++ l₂) b := by
  induction l₁ generalizing a with
  | nil =>
    cases l₂ with
    | nil => simp [Seg]
    | cons y l₂ =>
      refine ⟨⟨by simp, by simp⟩, hs.2.2.congr ?_ ?_⟩
      · intro z hz
        have hza : z ≠ a := by
          rintro rfl
          exact (List.nodup_cons.mp hl).1 (List.mem_cons_of_mem x hz)
        simp [hza]
      · intro z hz
        have hzy : z ≠ y := by
          rintro rfl
          exact (List.nodup_cons.mp (List.nodup_cons.mp hr).2).1 hz
        simp [hzy]
  | cons y l₁ ih =>
    have hl' := List.nodup_cons.mp hl
    have hr' := List.nodup_cons.mp ((List.append_assoc (y :: l₁) _ [b]) ▸ hr)
    have hac : a ≠ before y l₁ := fun he =>
      hl'.1 (List.mem_append_left (x :: l₂) (he ▸ before_mem y l₁))
    have hyd : y ≠ after l₂ b := fun he =>
      hr'.1 (List.mem_append_right l₁ (List.mem_cons_of_mem x (he ▸ after_mem l₂ b)))
    rw [before_cons]
    refine ⟨⟨by simp [hac, hs.1.1], by simp [hyd, hs.1.2]⟩, ih hs.2 hl'.2 ?_⟩
    simpa using hr'.2

omit [DecidableEq α] in
theorem Linked.nodup_end (hr : Linked next prev h l) : (l ++ [h]).Nodup := by
  have := hr.nodup
  rw [List.nodup_append_comm]
  simpa using this

omit [DecidableEq α] in
theorem Linked.cut (hr : Linked next prev h (l₁ ++ l₂)) :
    next (before h l₁) = after l₂ h ∧ prev (after l₂ h) = before h l₁ :=
  hr.seg.cut

/-- Linking a new node in at a cut. -/
theorem Linked.insert (hr : Linked next prev h (l₁ ++ l₂)) (hx : x ∉ h :: (l₁ ++ l₂)) :
    Linked (Function.update (Function.update next x (after l₂ h)) (before h l₁) x)
      (Function.update (Function.update prev x (before h l₁)) (after l₂ h) x)
      h (l₁ ++ x :: l₂) := by
  refine ⟨hr.seg.insert hx (fun he => hx (by simp [he])) hr.nodup hr.nodup_end, ?_⟩
  have hn := hr.nodup
  have hp : (h :: (l₁ ++ x :: l₂)).Perm (x :: h :: (l₁ ++ l₂)) :=
    (List.perm_middle.cons h).trans (List.Perm.swap x h _)
  exact hp.nodup_iff.mpr (List.nodup_cons.mpr ⟨hx, hn⟩)

/-- Unlinking a node. -/
theorem Linked.remove (hr : Linked next prev h (l₁ ++ x :: l₂)) :
    Linked (Function.update next (before h l₁) (after l₂ h))
      (Function.update prev (after l₂ h) (before h l₁)) h (l₁ ++ l₂) := by
  refine ⟨hr.seg.remove hr.nodup hr.nodup_end, hr.nodup.sublist ?_⟩
  exact ((List.sublist_cons_self x l₂).append_left l₁).cons_cons h

end Ring
