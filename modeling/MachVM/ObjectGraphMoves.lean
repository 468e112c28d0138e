import MachVM.ObjectGraphSteps

namespace MachVM

open Tally

variable {g : ObjGraph} {held rank : ObjId → Nat} {o x b c n : ObjId} {l : ObjLink}

/-- The graph without a terminated object, which its shadow no longer names as its copy. -/
def ObjGraph.kill (g : ObjGraph) (o : ObjId) : ObjGraph :=
  { g with link := fun y => { g.link y with
      alive := (g.link y).alive && y ≠ o
      copy := if (g.link o).shadow = some y ∧ (g.link y).copy = some o then none else (g.link y).copy } }

theorem ObjectInv.kill (h : ObjectInv g held rank) (ha : (g.link o).alive = true)
    (h₀ : (g.link o).refCount = 0) (hc : o ∉ g.cachedList) :
    ObjectInv (g.kill o) (plusOpt held (g.link o).shadow) rank := by
  have hex := h.exact o ha
  have halive : ∀ y, ((g.kill o).link y).alive = true → (g.link y).alive = true ∧ y ≠ o := by
    intro y hy
    simpa [ObjGraph.kill] using hy
  have hrefs : ∀ y, (g.kill o).shadowRefs y + (if (g.link o).shadow = some y then 1 else 0) =
      g.shadowRefs y := by
    intro y
    have hq : ∀ z < g.next, z ≠ o → shadows ((g.kill o).link z) y = shadows (g.link z) y := by
      intro z _ hz
      simp [shadows, ObjGraph.kill, hz]
    have hch := tally_change (h.lt ha) hq
    have ho : shadows ((g.kill o).link o) y = false := by simp [shadows, ObjGraph.kill]
    rw [ho, shadows_toNat ha] at hch
    exact hch
  refine ⟨?_, ?_, ?_, ?_, ?_, h.cached_nodup, ?_, ?_, ?_, ?_⟩
  · intro y hy
    simp [ObjGraph.kill, h.fresh y hy]
  · intro y hy
    have h₁ := h.exact y (halive y hy).1
    have h₂ := hrefs y
    rw [plusOpt_apply]
    change (g.link y).refCount = _
    omega
  · intro y hy
    have h₂ := hrefs y
    rw [plusOpt_apply]
    by_cases hyo : y = o
    · subst hyo
      have hne : (g.link y).shadow ≠ some y := fun hs => h.shadow_ne ha hs rfl
      simp only [hne, if_false] at h₂ ⊢
      omega
    · have hd : (g.link y).alive = false := by simpa [ObjGraph.kill, hyo] using hy
      have h₁ := h.dead y hd
      omega
  · intro y z hy hz
    exact h.ranked y z (halive y hy).1 hz
  · intro y hy
    obtain ⟨h₁, h₂, h₃⟩ := h.cached y hy
    have hyo : y ≠ o := by
      rintro rfl
      exact hc hy
    exact ⟨by simpa [ObjGraph.kill, hyo] using h₁, h₂, h₃⟩
  · intro y hy
    exact h.kind y (halive y hy).1
  · intro y hy ht
    exact h.external y (halive y hy).1 ht
  · intro y z hy hz ht
    obtain ⟨hcp, hoff⟩ := h.shadow_external y z (halive y hy).1 hz ht
    refine ⟨?_, hoff⟩
    have hne : ¬((g.link o).shadow = some z ∧ (g.link z).copy = some o) := by
      rintro ⟨-, ho⟩
      rw [hcp] at ho
      exact (halive y hy).2 (Option.some.inj ho)
    change (if (g.link o).shadow = some z ∧ (g.link z).copy = some o then none else (g.link z).copy) = _
    rw [if_neg hne]
    exact hcp
  · intro y z hy hz
    have hz' : ¬((g.link o).shadow = some y ∧ (g.link y).copy = some o) ∧ (g.link y).copy = some z := by
      simp only [ObjGraph.kill] at hz
      split at hz
      next => cases hz
      next hn => exact ⟨hn, hz⟩
    obtain ⟨h₁, h₂, h₃, h₄⟩ := h.copy_spec y z (halive y hy).1 hz'.2
    have hzo : z ≠ o := by
      rintro rfl
      exact hz'.1 ⟨h₃, hz'.2⟩
    exact ⟨h₁, by simpa [ObjGraph.kill, hzo] using h₂, h₃, h₄⟩

theorem ObjectInv.copy_of_shadow (h : ObjectInv g held rank) (ha : (g.link o).alive = true)
    (hs : (g.link o).shadow = some b) (hc : (g.link b).copy ≠ none) : (g.link b).copy = some o := by
  obtain ⟨c, hc⟩ := Option.ne_none_iff_exists'.mp hc
  have ht := (h.copy_spec b c (h.shadow_alive ha hs) hc).1
  exact (h.shadow_external o b ha hs ht).1

theorem ObjectInv.temporary_of_no_copy (h : ObjectInv g held rank) (ha : (g.link x).alive = true)
    (hs : (g.link x).shadow = some b) (hc : (g.link b).copy = none) :
    (g.link b).temporary = true := by
  by_contra ht
  have := (h.shadow_external x b ha hs (by simpa using ht)).1
  rw [hc] at this
  cases this

theorem ObjectInv.temporary_of_shadow (h : ObjectInv g held rank) (ha : (g.link x).alive = true)
    (hs : (g.link x).shadow = some b) : (g.link x).temporary = true := by
  by_contra ht
  have := h.external x ha (by simpa using ht)
  rw [hs] at this
  cases this

theorem ObjectInv.bypass {hl : ObjId → ObjLink} (h : ObjectInv g held rank)
    (ha : (g.link x).alive = true) (hs : (g.link x).shadow = some b)
    (htb : (g.link b).temporary = true) (hz : ∀ z ∈ (g.link b).shadow, (g.link z).copy = none)
    (hlx : Reshadowed (g.link x) (hl x) (g.link b).shadow)
    (hlb : hl b = { g.link b with refCount := (g.link b).refCount - 1 })
    (hlz : ∀ z ∈ (g.link b).shadow, hl z = { g.link z with refCount := (g.link z).refCount + 1 })
    (hlo : ∀ y, y ≠ x → y ≠ b → (g.link b).shadow ≠ some y → hl y = g.link y) :
    ObjectInv { g with link := hl } held rank := by
  have hb := h.shadow_alive ha hs
  have hbx := h.shadow_ne ha hs
  have htx := h.temporary_of_shadow ha hs
  have hnb : b ∉ g.cachedList := h.not_cached_of_shadowed ha hs
  cases hsb : (g.link b).shadow with
  | none =>
    have h₁ : ObjectInv (g.set x (hl x)) (plusOpt held (some b)) rank := by
      rw [hsb] at hlx
      exact ObjectInv.reshadow (show ObjectInv g (plusOpt held none) rank from h) hlx ha hs htx
        (by rintro y ⟨⟩; exact htb) (by rintro y ⟨⟩) (by rintro y ⟨⟩)
    have h₂ := ObjectInv.release h₁ hnb
    rw [set_link_of_ne g _ hbx, ← hlb] at h₂
    refine h₂.congr rfl rfl ?_ ?_
    all_goals
      intro y
      by_cases hyb : y = b
      · subst hyb
        simp
      · rw [set_link_of_ne _ _ hyb]
        by_cases hyx : y = x
        · subst hyx
          simp
        · rw [set_link_of_ne _ _ hyx]
          simp [hlo y hyx hyb (by rw [hsb]; simp)]
  | some z =>
    have hza := h.shadow_alive hb hsb
    have hnz : z ∉ g.cachedList := h.not_cached_of_shadowed hb hsb
    have hzb := h.shadow_ne hb hsb
    have hrz : rank z < rank x := Nat.lt_trans (h.ranked b z hb hsb) (h.ranked x b ha hs)
    have hzx : z ≠ x := by
      rintro rfl
      exact Nat.lt_irrefl _ hrz
    have htz := h.temporary_of_no_copy hb hsb (hz z hsb)
    have h₀ := h.reference hza hnz
    rw [← hlz z hsb] at h₀
    have hlink : ∀ y, y ≠ z → (g.set z (hl z)).link y = g.link y := fun y hy => set_link_of_ne g _ hy
    have htz' : ((g.set z (hl z)).link z).temporary = true := by
      rw [set_link_self, hlz z hsb]
      exact htz
    have h₁ : ObjectInv ((g.set z (hl z)).set x (hl x)) (plusOpt held (some b)) rank := by
      rw [hsb] at hlx
      refine ObjectInv.reshadow (show ObjectInv _ (plusOpt held (some z)) rank from h₀) ?_ ?_ ?_ ?_ ?_ ?_ ?_
      · rw [hlink x (Ne.symm hzx)]
        exact hlx
      · rw [hlink x (Ne.symm hzx)]
        exact ha
      · rw [hlink x (Ne.symm hzx)]
        exact hs
      · rw [hlink x (Ne.symm hzx)]
        exact htx
      · rintro y ⟨⟩
        rw [hlink b (Ne.symm hzb)]
        exact htb
      · rintro y ⟨⟩
        exact htz'
      · rintro y ⟨⟩
        exact hrz
    have h₂ := ObjectInv.release h₁ hnb
    rw [set_link_of_ne _ _ hbx, hlink b (Ne.symm hzb), ← hlb] at h₂
    refine h₂.congr rfl rfl ?_ ?_
    all_goals
      intro y
      by_cases hyb : y = b
      · subst hyb
        simp
      · rw [set_link_of_ne _ _ hyb]
        by_cases hyx : y = x
        · subst hyx
          simp
        · rw [set_link_of_ne _ _ hyx]
          by_cases hyz : y = z
          · subst hyz
            simp
          · rw [hlink y hyz]
            simp [hlo y hyx hyb (by rw [hsb]; simpa using Ne.symm hyz)]

theorem ObjectInv.merge {hl : ObjId → ObjLink} (h : ObjectInv g held rank)
    (ha : (g.link x).alive = true) (hs : (g.link x).shadow = some b)
    (htb : (g.link b).temporary = true) (hr : (g.link b).refCount = 1)
    (hz : ∀ z ∈ (g.link b).shadow, (g.link z).copy = none)
    (hlx : Reshadowed (g.link x) (hl x) (g.link b).shadow) (hlb : (hl b).alive = false)
    (hlo : ∀ y, y ≠ x → y ≠ b → hl y = g.link y) : ObjectInv { g with link := hl } held rank := by
  have hb := h.shadow_alive ha hs
  have hbx := h.shadow_ne ha hs
  have htx := h.temporary_of_shadow ha hs
  have hnb : b ∉ g.cachedList := h.not_cached_of_shadowed ha hs
  have h₁ : ObjectInv (g.set x { g.link x with shadow := none }) (plusOpt held (some b)) rank := by
    refine ObjectInv.reshadow (show ObjectInv g (plusOpt held none) rank from h)
      ⟨rfl, rfl, rfl, rfl, rfl, rfl, rfl⟩ ha hs htx ?_ (by rintro y ⟨⟩) (by rintro y ⟨⟩)
    rintro y ⟨⟩
    exact htb
  have h₂ := ObjectInv.release h₁ hnb
  rw [set_link_of_ne g _ hbx] at h₂
  generalize hg₂ : (g.set x { g.link x with shadow := none }).set b
    { g.link b with refCount := (g.link b).refCount - 1 } = g₂ at h₂
  have hb₂ : g₂.link b = { g.link b with refCount := (g.link b).refCount - 1 } := by
    rw [← hg₂, set_link_self]
  have hx₂ : g₂.link x = { g.link x with shadow := none } := by
    rw [← hg₂, set_link_of_ne _ _ (Ne.symm hbx), set_link_self]
  have ho₂ : ∀ y, y ≠ x → y ≠ b → g₂.link y = g.link y := by
    intro y hyx hyb
    rw [← hg₂, set_link_of_ne _ _ hyb, set_link_of_ne _ _ hyx]
  have h₃ := h₂.kill (o := b) (by rw [hb₂]; exact hb) (by rw [hb₂]; simp [hr])
    (by rw [← hg₂]; exact hnb)
  rw [hb₂] at h₃
  have hcopy : ∀ y, ((g₂.kill b).link y).copy = (g₂.link y).copy := by
    intro y
    have hno : ¬((g₂.link b).shadow = some y ∧ (g₂.link y).copy = some b) := by
      rintro ⟨hsy, hcy⟩
      rw [hb₂] at hsy
      have hya : y ≠ b := fun hyb => h.shadow_ne hb hsy hyb
      have hyx : y ≠ x := by
        rintro rfl
        exact Nat.lt_irrefl _ (Nat.lt_trans (h.ranked b y hb hsy) (h.ranked y b ha hs))
      rw [ho₂ y hyx hya, hz y hsy] at hcy
      cases hcy
    simp only [ObjGraph.kill, if_neg hno]
  have hkill : ∀ y, y ≠ b → (g₂.kill b).link y = g₂.link y := by
    intro y hyb
    have h₁ := hcopy y
    have h₂ : ((g₂.kill b).link y).alive = (g₂.link y).alive := by simp [ObjGraph.kill, hyb]
    calc (g₂.kill b).link y = { g₂.link y with
            alive := ((g₂.kill b).link y).alive, copy := ((g₂.kill b).link y).copy } := rfl
      _ = g₂.link y := by rw [h₁, h₂]
  have hxk : (g₂.kill b).link x = { g.link x with shadow := none } := by
    rw [hkill x (Ne.symm hbx), hx₂]
  have hzk : ∀ z ∈ (g.link b).shadow, (g₂.kill b).link z = g.link z ∧ rank z < rank x ∧
      (g.link z).temporary = true := by
    intro z hzs
    have hrz : rank z < rank x := Nat.lt_trans (h.ranked b z hb hzs) (h.ranked x b ha hs)
    have hzx : z ≠ x := by
      rintro rfl
      exact Nat.lt_irrefl _ hrz
    have hzb := h.shadow_ne hb hzs
    exact ⟨by rw [hkill z hzb, ho₂ z hzx hzb], hrz, h.temporary_of_no_copy hb hzs (hz z hzs)⟩
  have h₄ := ObjectInv.reshadow (l := hl x) h₃
    (by rw [hxk]; exact ⟨hlx.alive, hlx.shadow, hlx.copy, hlx.refCount, hlx.temporary,
      hlx.internal, hlx.canPersist⟩)
    (by rw [hxk]; exact ha) rfl (by rw [hxk]; exact htx) (by rw [hxk]; rintro y ⟨⟩)
    (fun z hzs => by rw [(hzk z hzs).1]; exact (hzk z hzs).2.2) (fun z hzs => (hzk z hzs).2.1)
  rw [hxk] at h₄
  refine ObjectInv.congr (show ObjectInv _ held rank from h₄) (by rw [← hg₂]; rfl) (by rw [← hg₂]; rfl) ?_ ?_
  · intro y
    by_cases hyx : y = x
    · subst hyx
      simp
    · rw [set_link_of_ne _ _ hyx]
      by_cases hyb : y = b
      · subst hyb
        simp [hlb, ObjGraph.kill]
      · rw [hkill y hyb, ho₂ y hyx hyb]
        simp [hlo y hyx hyb]
  · intro y hy
    by_cases hyx : y = x
    · subst hyx
      simp
    · rw [set_link_of_ne _ _ hyx] at hy ⊢
      have hyb : y ≠ b := by
        rintro rfl
        simp [ObjGraph.kill] at hy
      rw [hkill y hyb, ho₂ y hyx hyb]
      simp [hlo y hyx hyb]

end MachVM
