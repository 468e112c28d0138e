namespace Machine

variable {σ α β ε : Type} {x : Except ε α} {f : α → Except ε β} {allowed allowed' : ε → Prop} {p q : α → Prop}

/-- A computation that returns satisfies the postcondition, and one that fails does so in an allowed way. -/
def Gives (x : Except ε α) (allowed : ε → Prop) (p : α → Prop) : Prop :=
  match x with
  | .ok a => p a
  | .error e => allowed e

@[simp] theorem gives_ok {a : α} : Gives (.ok a : Except ε α) allowed p ↔ p a := .rfl

@[simp] theorem gives_error {e : ε} : Gives (.error e : Except ε α) allowed p ↔ allowed e := .rfl

theorem Gives.bind {r : β → Prop} (h : Gives x allowed p) (hf : ∀ a, p a → Gives (f a) allowed r) :
    Gives (x >>= f) allowed r := by
  cases x with
  | ok a => exact hf a h
  | error e => exact h

theorem Gives.map {g : α → β} {r : β → Prop} (h : Gives x allowed p) (hg : ∀ a, p a → r (g a)) :
    Gives (x.map g) allowed r := by
  cases x with
  | ok a => exact hg a h
  | error e => exact h

theorem Gives.mono (h : Gives x allowed p) (hp : ∀ a, p a → q a) : Gives x allowed q := by
  cases x with
  | ok a => exact hp a h
  | error e => exact h

theorem Gives.weaken (h : Gives x allowed p) (ha : ∀ e, allowed e → allowed' e) : Gives x allowed' p := by
  cases x with
  | ok a => exact h
  | error e => exact ha e h

theorem Gives.of_ok {a : α} (h : Gives x allowed p) (hx : x = .ok a) : p a := by
  subst hx
  exact h

theorem toOption_eq_some {a : α} (hx : x.toOption = some a) : x = .ok a := by
  cases x with
  | ok b => exact congrArg Except.ok (Option.some.inj hx)
  | error e => simp [Except.toOption] at hx

theorem Gives.of_error {e : ε} (h : Gives x allowed p) (hx : x = .error e) : allowed e := by
  subst hx
  exact h

/-- A computation that cannot fail returns. -/
theorem Gives.exists_ok (h : Gives x allowed p) (hn : ∀ e, ¬allowed e) : ∃ a, x = .ok a ∧ p a := by
  cases x with
  | ok a => exact ⟨a, rfl, h⟩
  | error e => exact absurd h (hn e)

/-- A loop over the numbers from `i` on. -/
def sweep (f : σ → Nat → Except ε σ) (s : σ) (i : Nat) : Nat → Except ε σ
  | 0 => .ok s
  | n + 1 => f s i >>= fun r => sweep f r (i + 1) n

/-- An invariant that may depend on how far the loop has come. -/
theorem sweep_gives {f : σ → Nat → Except ε σ} {s : σ} {i n : Nat} (inv : Nat → σ → Prop)
    (hf : ∀ j r, i ≤ j → j < i + n → inv j r → Gives (f r j) allowed (inv (j + 1))) (hs : inv i s) :
    Gives (sweep f s i n) allowed (inv (i + n)) := by
  induction n generalizing s i with
  | zero => exact hs
  | succ n ih =>
    refine (hf i s (Nat.le_refl i) (by omega) hs).bind fun r hr => ?_
    rw [show i + (n + 1) = i + 1 + n by omega]
    exact ih (fun j q hj hn => hf j q (by omega) (by omega)) hr

/-- A loop over the elements of a list. -/
def visit (f : σ → α → Except ε σ) (s : σ) : List α → Except ε σ
  | [] => .ok s
  | a :: as => f s a >>= fun r => visit f r as

theorem visit_gives {f : σ → α → Except ε σ} {s : σ} {as : List α} (inv : σ → Prop)
    (hf : ∀ r, ∀ a ∈ as, inv r → Gives (f r a) allowed inv) (hs : inv s) :
    Gives (visit f s as) allowed inv := by
  induction as generalizing s with
  | nil => exact hs
  | cons a as ih =>
    exact (hf s a List.mem_cons_self hs).bind fun r hr => ih (fun q b hb => hf q b (List.mem_cons_of_mem a hb)) hr

end Machine
