import MachVM.ObjectGraph

namespace MachVM

open Tally

variable {g : ObjGraph} {held rank : ObjId → Nat} {o x b c : ObjId} {l : ObjLink}

theorem ObjectInv.recount {held' : ObjId → Nat} {n : Int} (h : ObjectInv g held rank)
    (ha : (g.link o).alive = true) (hn : n = g.shadowRefs o + held' o)
    (hh : ∀ y, y ≠ o → held' y = held y) (hc : o ∈ g.cachedList → n = 0) :
    ObjectInv (g.set o { g.link o with refCount := n }) held' rank := by
  have hr : ∀ y, (g.set o { g.link o with refCount := n }).shadowRefs y = g.shadowRefs y := by
    intro y
    refine shadowRefs_congr rfl ?_
    intro z
    by_cases hz : z = o
    · subst hz
      simp [shadows]
    · rw [set_link_of_ne g _ hz]
  have hl : ∀ y, ((g.set o { g.link o with refCount := n }).link y).alive = (g.link y).alive ∧
      ((g.set o { g.link o with refCount := n }).link y).shadow = (g.link y).shadow ∧
      ((g.set o { g.link o with refCount := n }).link y).shadowOffset = (g.link y).shadowOffset ∧
      ((g.set o { g.link o with refCount := n }).link y).copy = (g.link y).copy ∧
      ((g.set o { g.link o with refCount := n }).link y).temporary = (g.link y).temporary ∧
      ((g.set o { g.link o with refCount := n }).link y).internal = (g.link y).internal ∧
      ((g.set o { g.link o with refCount := n }).link y).canPersist = (g.link y).canPersist := by
    intro y
    by_cases hy : y = o
    · subst hy
      simp
    · simp [set_link_of_ne g _ hy]
  refine ⟨?_, ?_, ?_, ?_, ?_, h.cached_nodup, ?_, ?_, ?_, ?_⟩
  · intro y hy
    rw [(hl y).1]
    exact h.fresh y hy
  · intro y hy
    rw [(hl y).1] at hy
    rw [hr]
    by_cases hyo : y = o
    · subst hyo
      simpa using hn
    · rw [set_link_of_ne g _ hyo, hh y hyo]
      exact h.exact y hy
  · intro y hy
    rw [(hl y).1] at hy
    have hyo : y ≠ o := by
      rintro rfl
      simp [ha] at hy
    rw [hr, hh y hyo]
    exact h.dead y hy
  · intro y z hy hz
    rw [(hl y).1] at hy
    rw [(hl y).2.1] at hz
    exact h.ranked y z hy hz
  · intro y hy
    obtain ⟨h₁, h₂, h₃⟩ := h.cached y hy
    refine ⟨by rw [(hl y).1]; exact h₁, ?_, by rw [(hl y).2.2.2.2.1]; exact h₃⟩
    by_cases hyo : y = o
    · subst hyo
      simpa using hc hy
    · rw [set_link_of_ne g _ hyo]
      exact h₂
  · intro y hy
    rw [(hl y).1] at hy
    rw [(hl y).2.2.2.2.1, (hl y).2.2.2.2.2.1, (hl y).2.2.2.2.2.2]
    exact h.kind y hy
  · intro y hy ht
    rw [(hl y).1] at hy
    rw [(hl y).2.2.2.2.1] at ht
    rw [(hl y).2.1]
    exact h.external y hy ht
  · intro y z hy hz ht
    rw [(hl y).1] at hy
    rw [(hl y).2.1] at hz
    rw [(hl z).2.2.2.2.1] at ht
    rw [(hl z).2.2.2.1, (hl y).2.2.1]
    exact h.shadow_external y z hy hz ht
  · intro y z hy hz
    rw [(hl y).1] at hy
    rw [(hl y).2.2.2.1] at hz
    rw [(hl y).2.2.2.2.1, (hl z).1, (hl z).2.1, (hl z).2.2.1]
    exact h.copy_spec y z hy hz

theorem ObjectInv.reference (h : ObjectInv g held rank) (ha : (g.link o).alive = true)
    (hc : o ∉ g.cachedList) :
    ObjectInv (g.set o { g.link o with refCount := (g.link o).refCount + 1 }) (plus held o) rank := by
  refine h.recount ha ?_ (fun y hy => plus_of_ne held hy) (fun hm => absurd hm hc)
  rw [h.exact o ha, plus_self]
  push_cast
  omega

theorem ObjectInv.release (h : ObjectInv g (plus held o) rank) (hc : o ∉ g.cachedList) :
    ObjectInv (g.set o { g.link o with refCount := (g.link o).refCount - 1 }) held rank := by
  have ha := h.held_alive (o := o) (by rw [plus_self]; omega)
  refine h.recount ha ?_ (fun y hy => (plus_of_ne held hy).symm) (fun hm => absurd hm hc)
  have := h.exact o ha
  rw [plus_self] at this
  push_cast at this
  omega

theorem ObjectInv.not_cached (h : ObjectInv g held rank) (hh : 0 < held o) : o ∉ g.cachedList := by
  intro hm
  obtain ⟨ha, h₀, -⟩ := h.cached o hm
  have := h.exact o ha
  omega

theorem ObjectInv.not_cached_of_shadowed (h : ObjectInv g held rank) (ha : (g.link x).alive = true)
    (hs : (g.link x).shadow = some b) : b ∉ g.cachedList := by
  intro hm
  obtain ⟨hb, h₀, -⟩ := h.cached b hm
  have := h.exact b hb
  have := h.shadowRefs_pos ha hs
  omega

/-- The graph with a new object. -/
def ObjGraph.alloc (g : ObjGraph) (l : ObjLink) : ObjGraph :=
  { g.set g.next l with next := g.next + 1 }

theorem ObjectInv.alloc {src : Option ObjId} (h : ObjectInv g (plusOpt held src) rank)
    (ha : l.alive = true) (hr : l.refCount = 1) (hs : l.shadow = src) (hc : l.copy = none)
    (hi : l.internal = l.temporary) (hp : l.canPersist = false) (ht : src ≠ none → l.temporary = true)
    (hst : ∀ b ∈ src, (g.link b).temporary = true) :
    ObjectInv (g.alloc l) (plus held g.next)
      (Function.update rank g.next (src.elim 0 rank + 1)) := by
  have hnew := h.fresh g.next (Nat.le_refl _)
  have hdead := h.dead g.next hnew
  have hlink : ∀ y, y ≠ g.next → (g.alloc l).link y = g.link y := fun y hy => set_link_of_ne g l hy
  have hself : (g.alloc l).link g.next = l := set_link_self g g.next l
  have hne : ∀ y, (g.link y).alive = true → y ≠ g.next := by
    rintro y hy rfl
    simp [hnew] at hy
  have hsrc : ∀ b ∈ src, (g.link b).alive = true := by
    rintro b rfl
    exact h.held_alive (by simp [plusOpt, plus])
  have hheld : ∀ y, plusOpt held src y = held y + (shadows l y).toNat := by
    intro y
    cases src with
    | none => simp [plusOpt, shadows, hs]
    | some b =>
      by_cases hy : y = b
      · subst hy
        simp [plusOpt, plus, shadows, ha, hs]
      · simp [plusOpt, plus, shadows, hs, hy, Ne.symm hy]
  have hrefs : ∀ y, (g.alloc l).shadowRefs y = g.shadowRefs y + (shadows l y).toNat := by
    intro y
    have hcong : tally g.next (fun z => shadows ((g.alloc l).link z) y) = g.shadowRefs y := by
      refine tally_congr ?_
      intro z hz
      rw [hlink z (Nat.ne_of_lt hz)]
    have hs := tally_succ g.next fun z => shadows ((g.alloc l).link z) y
    rw [hself, hcong] at hs
    exact hs
  refine ⟨?_, ?_, ?_, ?_, ?_, h.cached_nodup, ?_, ?_, ?_, ?_⟩
  · intro y hy
    rw [hlink y (Nat.ne_of_gt hy)]
    exact h.fresh y (Nat.le_of_succ_le hy)
  · intro y hy
    rw [hrefs]
    by_cases hyn : y = g.next
    · subst hyn
      have := hheld g.next
      rw [hself, hr, plus_self]
      omega
    · rw [hlink y hyn] at hy ⊢
      have := h.exact y hy
      rw [hheld] at this
      rw [plus_of_ne held hyn, this]
      push_cast
      omega
  · intro y hy
    have hyn : y ≠ g.next := by
      rintro rfl
      rw [hself, ha] at hy
      cases hy
    rw [hlink y hyn] at hy
    have := h.dead y hy
    rw [hheld] at this
    rw [hrefs, plus_of_ne held hyn]
    omega
  · intro y z hy hz
    by_cases hyn : y = g.next
    · subst hyn
      rw [hself, hs] at hz
      have hzn := hne z (hsrc z hz)
      rw [Function.update_self, Function.update_of_ne hzn, hz]
      exact Nat.lt_succ_self _
    · rw [hlink y hyn] at hy hz
      have hzn := hne z (h.shadow_alive hy hz)
      rw [Function.update_of_ne hyn, Function.update_of_ne hzn]
      exact h.ranked y z hy hz
  · intro y hy
    have := h.cached y hy
    rwa [hlink y (hne y this.1)]
  · intro y hy
    by_cases hyn : y = g.next
    · subst hyn
      rw [hself]
      refine ⟨hi, fun hc => ?_⟩
      rw [hp] at hc
      cases hc
    · rw [hlink y hyn] at hy ⊢
      exact h.kind y hy
  · intro y hy htmp
    by_cases hyn : y = g.next
    · subst hyn
      rw [hself] at htmp ⊢
      rw [hs]
      by_contra hne
      rw [ht hne] at htmp
      cases htmp
    · rw [hlink y hyn] at hy htmp ⊢
      exact h.external y hy htmp
  · intro y z hy hz htmp
    by_cases hyn : y = g.next
    · subst hyn
      rw [hself, hs] at hz
      rw [hlink z (hne z (hsrc z hz)), hst z hz] at htmp
      cases htmp
    · rw [hlink y hyn] at hy hz ⊢
      rw [hlink z (hne z (h.shadow_alive hy hz))] at htmp ⊢
      exact h.shadow_external y z hy hz htmp
  · intro y z hy hz
    have hyn : y ≠ g.next := by
      rintro rfl
      rw [hself, hc] at hz
      cases hz
    rw [hlink y hyn] at hy hz ⊢
    have hcs := h.copy_spec y z hy hz
    rw [hlink z (hne z hcs.2.1)]
    exact hcs

theorem ObjectInv.congr {g' : ObjGraph} (h : ObjectInv g held rank) (hn : g'.next = g.next)
    (hc : g'.cachedList = g.cachedList) (ha : ∀ y, (g'.link y).alive = (g.link y).alive)
    (hl : ∀ y, (g.link y).alive = true → g'.link y = g.link y) : ObjectInv g' held rank := by
  have hr : ∀ y, g'.shadowRefs y = g.shadowRefs y := by
    intro y
    refine shadowRefs_congr hn ?_
    intro z
    cases hz : (g.link z).alive with
    | true => rw [hl z hz]
    | false => simp [shadows, ha z, hz]
  refine ⟨?_, ?_, ?_, ?_, ?_, hc ▸ h.cached_nodup, ?_, ?_, ?_, ?_⟩
  · intro y hy
    rw [ha y]
    exact h.fresh y (hn ▸ hy)
  · intro y hy
    rw [ha y] at hy
    rw [hl y hy, hr]
    exact h.exact y hy
  · intro y hy
    rw [ha y] at hy
    rw [hr]
    exact h.dead y hy
  · intro y z hy hz
    rw [ha y] at hy
    rw [hl y hy] at hz
    exact h.ranked y z hy hz
  · intro y hy
    rw [hc] at hy
    rw [hl y (h.cached y hy).1]
    exact h.cached y hy
  · intro y hy
    rw [ha y] at hy
    rw [hl y hy]
    exact h.kind y hy
  · intro y hy ht
    rw [ha y] at hy
    rw [hl y hy] at ht ⊢
    exact h.external y hy ht
  · intro y z hy hz ht
    rw [ha y] at hy
    rw [hl y hy] at hz ⊢
    rw [hl z (h.shadow_alive hy hz)] at ht ⊢
    exact h.shadow_external y z hy hz ht
  · intro y z hy hz
    rw [ha y] at hy
    rw [hl y hy] at hz ⊢
    have hcs := h.copy_spec y z hy hz
    rw [hl z hcs.2.1]
    exact hcs

theorem plusOpt_apply (held : ObjId → Nat) (src : Option ObjId) (y : ObjId) :
    plusOpt held src y = held y + (if src = some y then 1 else 0) := by
  cases src with
  | none => simp [plusOpt]
  | some b =>
    simp only [plusOpt, plus, Option.some.injEq]
    by_cases hy : y = b
    · simp [hy]
    · simp [hy, Ne.symm hy]

/-- A change of links in which only the shadow of one object moves; copies may change. -/
structure Relinked (g : ObjGraph) (hl : ObjId → ObjLink) (x : ObjId) (new : Option ObjId) : Prop where
  alive : ∀ y, (hl y).alive = (g.link y).alive
  refCount : ∀ y, (hl y).refCount = (g.link y).refCount
  temporary : ∀ y, (hl y).temporary = (g.link y).temporary
  internal : ∀ y, (hl y).internal = (g.link y).internal
  canPersist : ∀ y, (hl y).canPersist = (g.link y).canPersist
  shadow_self : (hl x).shadow = new
  shadow : ∀ y, y ≠ x → (hl y).shadow = (g.link y).shadow

theorem ObjectInv.relink {hl : ObjId → ObjLink} {old new : Option ObjId}
    (h : ObjectInv g (plusOpt held new) rank) (hm : Relinked g hl x new)
    (ha : (g.link x).alive = true) (hs : (g.link x).shadow = old) (htx : (g.link x).temporary = true)
    (hr : ∀ b ∈ new, rank b < rank x)
    (hse : ∀ y b, (g.link y).alive = true → (hl y).shadow = some b → (g.link b).temporary = false →
      (hl b).copy = some y ∧ (hl y).shadowOffset = 0)
    (hcs : ∀ b c, (g.link b).alive = true → (hl b).copy = some c → (g.link b).temporary = false ∧
      (g.link c).alive = true ∧ (hl c).shadow = some b ∧ (hl c).shadowOffset = 0) :
    ObjectInv { g with link := hl } (plusOpt held old) rank := by
  have hrefs : ∀ y, ObjGraph.shadowRefs { g with link := hl } y + plusOpt held old y =
      g.shadowRefs y + plusOpt held new y := by
    intro y
    have hq : ∀ z < g.next, z ≠ x → shadows (hl z) y = shadows (g.link z) y := by
      intro z _ hz
      simp [shadows, hm.alive z, hm.shadow z hz]
    have hch := tally_change (h.lt ha) hq
    rw [shadows_toNat ha, shadows_toNat ((hm.alive x).trans ha), hs, hm.shadow_self] at hch
    rw [plusOpt_apply, plusOpt_apply]
    have hg : ObjGraph.shadowRefs { g with link := hl } y = tally g.next fun z => shadows (hl z) y := rfl
    have hg' : g.shadowRefs y = tally g.next fun z => shadows (g.link z) y := rfl
    omega
  refine ⟨?_, ?_, ?_, ?_, ?_, h.cached_nodup, ?_, ?_, ?_, ?_⟩
  · intro y hy
    rw [hm.alive]
    exact h.fresh y hy
  · intro y hy
    rw [hm.alive] at hy
    rw [hm.refCount]
    have h₁ := h.exact y hy
    have h₂ := hrefs y
    omega
  · intro y hy
    rw [hm.alive] at hy
    have h₁ := h.dead y hy
    have h₂ := hrefs y
    omega
  · intro y z hy hz
    rw [hm.alive] at hy
    by_cases hyx : y = x
    · subst hyx
      rw [hm.shadow_self] at hz
      exact hr z hz
    · rw [hm.shadow y hyx] at hz
      exact h.ranked y z hy hz
  · intro y hy
    rw [hm.alive, hm.refCount, hm.temporary]
    exact h.cached y hy
  · intro y hy
    rw [hm.alive] at hy
    rw [hm.temporary, hm.internal, hm.canPersist]
    exact h.kind y hy
  · intro y hy ht
    rw [hm.alive] at hy
    rw [hm.temporary] at ht
    have hyx : y ≠ x := by
      rintro rfl
      rw [htx] at ht
      cases ht
    rw [hm.shadow y hyx]
    exact h.external y hy ht
  · intro y z hy hz ht
    rw [hm.alive] at hy
    rw [hm.temporary] at ht
    exact hse y z hy hz ht
  · intro y z hy hz
    rw [hm.alive] at hy
    rw [hm.temporary, hm.alive]
    exact hcs y z hy hz

/-- What a link keeps when only its shadow moves. -/
structure Reshadowed (l l' : ObjLink) (new : Option ObjId) : Prop where
  alive : l'.alive = l.alive
  shadow : l'.shadow = new
  copy : l'.copy = l.copy
  refCount : l'.refCount = l.refCount
  temporary : l'.temporary = l.temporary
  internal : l'.internal = l.internal
  canPersist : l'.canPersist = l.canPersist

theorem Reshadowed.relinked {new : Option ObjId} (hm : Reshadowed (g.link x) l new) :
    Relinked g (g.set x l).link x new := by
  have hcases : ∀ P : ObjLink → ObjLink → Prop, (∀ l, P l l) → P l (g.link x) →
      ∀ y, P ((g.set x l).link y) (g.link y) := by
    intro P h₀ h₁ y
    by_cases hy : y = x
    · subst hy
      rw [set_link_self]
      exact h₁
    · rw [set_link_of_ne g l hy]
      exact h₀ _
  refine ⟨?_, ?_, ?_, ?_, ?_, ?_, ?_⟩
  · exact hcases (fun a b => a.alive = b.alive) (fun _ => rfl) hm.alive
  · exact hcases (fun a b => a.refCount = b.refCount) (fun _ => rfl) hm.refCount
  · exact hcases (fun a b => a.temporary = b.temporary) (fun _ => rfl) hm.temporary
  · exact hcases (fun a b => a.internal = b.internal) (fun _ => rfl) hm.internal
  · exact hcases (fun a b => a.canPersist = b.canPersist) (fun _ => rfl) hm.canPersist
  · rw [set_link_self]
    exact hm.shadow
  · intro y hy
    rw [set_link_of_ne g l hy]

theorem ObjectInv.reshadow {old new : Option ObjId} (h : ObjectInv g (plusOpt held new) rank)
    (hm : Reshadowed (g.link x) l new) (ha : (g.link x).alive = true)
    (hs : (g.link x).shadow = old) (htx : (g.link x).temporary = true)
    (hold : ∀ b ∈ old, (g.link b).temporary = true) (hnew : ∀ b ∈ new, (g.link b).temporary = true)
    (hr : ∀ b ∈ new, rank b < rank x) : ObjectInv (g.set x l) (plusOpt held old) rank := by
  have hlink : ∀ y, y ≠ x → (g.set x l).link y = g.link y := fun y hy => set_link_of_ne g l hy
  have hcopy : ∀ y, ((g.set x l).link y).copy = (g.link y).copy := by
    intro y
    by_cases hy : y = x
    · subst hy
      rw [set_link_self]
      exact hm.copy
    · rw [hlink y hy]
  show ObjectInv { g with link := (g.set x l).link } (plusOpt held old) rank
  refine h.relink hm.relinked ha hs htx hr ?_ ?_
  · intro y z hy hz ht
    rw [hcopy]
    by_cases hyx : y = x
    · subst hyx
      rw [set_link_self, hm.shadow] at hz
      rw [hnew z hz] at ht
      cases ht
    · rw [hlink y hyx] at hz ⊢
      exact h.shadow_external y z hy hz ht
  · intro y z hy hz
    rw [hcopy] at hz
    obtain ⟨h₁, h₂, h₃, h₄⟩ := h.copy_spec y z hy hz
    have hzx : z ≠ x := by
      rintro rfl
      have := hold y (hs ▸ h₃)
      rw [h₁] at this
      cases this
    rw [hlink z hzx]
    exact ⟨h₁, h₂, h₃, h₄⟩

end MachVM
