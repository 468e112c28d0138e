namespace Owns

variable {ι κ α : Type}

/-- No point has two owners. -/
def Exclusive (owns : ι → α → Prop) : Prop := ∀ i j x, owns i x → owns j x → i = j

variable {owns : ι → α → Prop} {owns' : κ → α → Prop} {i j : ι} {x : α}

/-- The points of the new owners come from old ones, and no two new owners share what came from one. -/
theorem Exclusive.trace (src : κ → ι → Prop) (h : Exclusive owns)
    (hin : ∀ k x, owns' k x → ∃ i, src k i ∧ owns i x)
    (hd : ∀ k l i x, src k i → src l i → owns' k x → owns' l x → k = l) : Exclusive owns' := by
  intro k l x hk hl
  obtain ⟨i, hki, hi⟩ := hin k x hk
  obtain ⟨j, hlj, hj⟩ := hin l x hl
  have hij := h i j x hi hj
  subst hij
  exact hd k l i x hki hlj hk hl

theorem Exclusive.map (f : κ → ι) (h : Exclusive owns) (hin : ∀ k x, owns' k x → owns (f k) x)
    (hd : ∀ k l x, f k = f l → owns' k x → owns' l x → k = l) : Exclusive owns' :=
  h.trace (fun k i => f k = i) (fun k x hk => ⟨f k, rfl, hin k x hk⟩)
    fun k l _ x hk hl => hd k l x (hk.trans hl.symm)

theorem Exclusive.shrink {owns' : ι → α → Prop} (h : Exclusive owns) (hin : ∀ k x, owns' k x → owns k x) :
    Exclusive owns' :=
  h.map id hin fun _ _ _ he _ _ => he

/-- One owner gets points of another, and the others get none. -/
theorem Exclusive.split [DecidableEq ι] {owns' : ι → α → Prop} {a b : ι} (h : Exclusive owns)
    (hb : ∀ x, owns' b x → owns a x) (ho : ∀ k x, k ≠ b → owns' k x → owns k x)
    (hd : ∀ x, owns' a x → ¬owns' b x) : Exclusive owns' := by
  refine h.map (fun k => if k = b then a else k) (fun k x hk => ?_) fun k l x he hk hl => ?_
  · split
    next hkb => exact hb x (hkb ▸ hk)
    next hkb => exact ho k x hkb hk
  · split at he
    next hkb =>
      split at he
      next hlb => rw [hkb, hlb]
      next => exact absurd (hkb ▸ hk) (hd x (he ▸ hl))
    next =>
      split at he
      next hlb => exact absurd (hlb ▸ hl) (hd x (he ▸ hk))
      next => exact he

/-- One owner gives all its points to another. -/
theorem Exclusive.merge [DecidableEq ι] {owns' : ι → α → Prop} {a b : ι} (h : Exclusive owns)
    (hb : ∀ x, owns' b x → owns b x ∨ owns a x) (ho : ∀ k x, k ≠ b → owns' k x → owns k x)
    (ha : ∀ x, ¬owns' a x) : Exclusive owns' := by
  refine h.trace (fun k i => i = k ∨ k = b ∧ i = a) (fun k x hk => ?_) fun k l i x hki hli hk hl => ?_
  · by_cases hkb : k = b
    · subst hkb
      rcases hb x hk with hx | hx
      · exact ⟨k, .inl rfl, hx⟩
      · exact ⟨a, .inr ⟨rfl, rfl⟩, hx⟩
    · exact ⟨k, .inl rfl, ho k x hkb hk⟩
  · by_cases hik : i = k
    · subst hik
      rcases hli with rfl | ⟨_, rfl⟩
      · rfl
      · exact absurd hk (ha x)
    · obtain ⟨rfl, rfl⟩ := hki.resolve_left hik
      rcases hli with rfl | ⟨rfl, _⟩
      · exact absurd hl (ha x)
      · rfl

end Owns
