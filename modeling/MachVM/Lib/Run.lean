namespace Machine

variable {σ α : Type} {init : σ → Prop} {step : σ → α → Option σ} {ok ok' : σ → α → Prop} {s r : σ}

/-- The states of the runs from an initial state whose every step satisfies a condition. -/
inductive Reach (init : σ → Prop) (step : σ → α → Option σ) (ok : σ → α → Prop) : σ → Prop
  | start {s : σ} (hi : init s) : Reach init step ok s
  | next {s r : σ} {a : α} (h : Reach init step ok s) (ha : ok s a) (hs : step s a = some r) :
      Reach init step ok r

/-- What holds initially and is kept by the steps of a run holds in every state of the run. -/
theorem Reach.invariant {p : σ → Prop} (hi : ∀ s, init s → p s)
    (hn : ∀ s a r, p s → ok s a → step s a = some r → p r) (h : Reach init step ok s) : p s := by
  induction h with
  | start h => exact hi _ h
  | next _ ha hs ih => exact hn _ _ _ ih ha hs

theorem Reach.mono (hok : ∀ s a, ok s a → ok' s a) (h : Reach init step ok s) : Reach init step ok' s := by
  induction h with
  | start h => exact .start h
  | next _ ha hs ih => exact .next ih (hok _ _ ha) hs

/-- A run of the steps of a list, each of which has to satisfy the condition. -/
def runIf (step : σ → α → Option σ) (ok : σ → α → Prop) [∀ s a, Decidable (ok s a)] : σ → List α → Option σ
  | s, [] => some s
  | s, a :: as => if ok s a then (step s a).bind fun r => runIf step ok r as else none

theorem Reach.run [∀ s a, Decidable (ok s a)] {as : List α} (h : Reach init step ok s)
    (hr : runIf step ok s as = some r) : Reach init step ok r := by
  induction as generalizing s with
  | nil =>
    cases Option.some.inj hr
    exact h
  | cons a as ih =>
    rw [runIf] at hr
    split at hr
    next ha =>
      obtain ⟨q, hq, hr⟩ := Option.bind_eq_some_iff.mp hr
      exact ih (h.next ha hq) hr
    next => simp at hr

/-- The state that a run ends in, given that it comes to its end. -/
theorem Reach.runD [∀ s a, Decidable (ok s a)] {as : List α} (h : Reach init step ok s)
    (hr : (runIf step ok s as).isSome = true) : Reach init step ok ((runIf step ok s as).getD s) := by
  obtain ⟨r, hr⟩ := Option.isSome_iff_exists.mp hr
  rw [hr]
  exact h.run hr

/-- A run with the actions it takes. -/
inductive Path (step : σ → α → Option σ) (ok : σ → α → Prop) : σ → List α → σ → Prop
  | nil (s : σ) : Path step ok s [] s
  | cons {s q r : σ} {a : α} {as : List α} (ha : ok s a) (hs : step s a = some q) (h : Path step ok q as r) :
      Path step ok s (a :: as) r

theorem Path.invariant {p : σ → Prop} {as : List α} (hn : ∀ s a r, p s → ok s a → step s a = some r → p r)
    (hp : p s) (h : Path step ok s as r) : p r := by
  induction h with
  | nil => exact hp
  | cons ha hs _ ih => exact ih (hn _ _ _ hp ha hs)

/-- The actions of one kind that lower a rank which the others do not raise are no more than the rank at the
start. -/
theorem Path.count_le {p : σ → Prop} {rank : σ → Nat} {kind : α → Bool} {as : List α}
    (hn : ∀ s a r, p s → ok s a → step s a = some r → p r ∧ rank r + (kind a).toNat ≤ rank s) (hp : p s)
    (h : Path step ok s as r) : as.countP kind + rank r ≤ rank s := by
  induction h with
  | nil => simp
  | @cons s q r a as ha hs _ ih =>
    obtain ⟨hq, hle⟩ := hn _ _ _ hp ha hs
    have := ih hq
    rw [List.countP_cons]
    cases hk : kind a with
    | true =>
      rw [hk, Bool.toNat_true] at hle
      rw [if_pos rfl]
      omega
    | false =>
      rw [hk, Bool.toNat_false] at hle
      rw [if_neg (by simp)]
      omega

end Machine
