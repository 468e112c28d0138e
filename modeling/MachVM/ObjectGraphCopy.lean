import MachVM.ObjectGraphMoves

namespace MachVM

open Tally

variable {g : ObjGraph} {held rank : ObjId → Nat} {o x b c n : ObjId} {l : ObjLink}

theorem ObjectInv.rerank {rank' : ObjId → Nat} (h : ObjectInv g held rank)
    (hr : ∀ x b, (g.link x).alive = true → (g.link x).shadow = some b → rank' b < rank' x) :
    ObjectInv g held rank' :=
  ⟨h.fresh, h.exact, h.dead, hr, h.cached, h.cached_nodup, h.kind, h.external,
    h.shadow_external, h.copy_spec⟩

theorem ObjectInv.insertRank (h : ObjectInv g held rank) (hn : g.shadowRefs n = 0)
    (hs : (g.link n).shadow = none) (hbn : b ≠ n) : ∃ rank', ObjectInv g held rank' ∧
      rank' b < rank' n ∧ ∀ x, x ≠ n → rank b < rank x → rank' n < rank' x := by
  refine ⟨Function.update (fun y => 2 * rank y) n (2 * rank b + 1), h.rerank ?_, ?_, ?_⟩
  · intro x z hx hz
    have hxn : x ≠ n := by
      rintro rfl
      rw [hs] at hz
      cases hz
    have hzn : z ≠ n := by
      rintro rfl
      have := h.shadowRefs_pos hx hz
      omega
    rw [Function.update_of_ne hxn, Function.update_of_ne hzn]
    have := h.ranked x z hx hz
    omega
  · rw [Function.update_self, Function.update_of_ne hbn]
    omega
  · intro x hx hr
    rw [Function.update_self, Function.update_of_ne hx]
    omega

theorem ObjectInv.copy_none_of_temporary (h : ObjectInv g held rank) (ha : (g.link o).alive = true)
    (ht : (g.link o).temporary = true) : (g.link o).copy = none := by
  by_contra hc
  obtain ⟨c, hc⟩ := Option.ne_none_iff_exists'.mp hc
  have := (h.copy_spec o c ha hc).1
  rw [ht] at this
  cases this

/-- The links after a new object has become the copy of another. -/
def ObjGraph.attach (g : ObjGraph) (b n : ObjId) : ObjGraph :=
  (g.set b { g.link b with refCount := (g.link b).refCount + 1, copy := some n }).set n
    { g.link n with shadow := some b, shadowOffset := 0 }

theorem ObjectInv.attach (h : ObjectInv g held rank) (hb : (g.link b).alive = true)
    (htb : (g.link b).temporary = false) (hcb : (g.link b).copy = none) (hqb : b ∉ g.cachedList)
    (hn : (g.link n).alive = true) (htn : (g.link n).temporary = true)
    (hsn : (g.link n).shadow = none) (hr : rank b < rank n) : ObjectInv (g.attach b n) held rank := by
  have hsb := h.external b hb htb
  have hbn : b ≠ n := by
    rintro rfl
    exact Nat.lt_irrefl _ hr
  have hcn := h.copy_none_of_temporary hn htn
  have h₀ : ObjectInv _ (plusOpt held (some b)) rank := h.reference hb hqb
  generalize hg₀ : g.set b { g.link b with refCount := (g.link b).refCount + 1 } = g₀ at h₀
  have hb₀ : g₀.link b = { g.link b with refCount := (g.link b).refCount + 1 } := by
    rw [← hg₀, set_link_self]
  have ho₀ : ∀ y, y ≠ b → g₀.link y = g.link y := by
    intro y hy
    rw [← hg₀, set_link_of_ne g _ hy]
  have hlb : (g.attach b n).link b =
      { g.link b with refCount := (g.link b).refCount + 1, copy := some n } := by
    rw [ObjGraph.attach, set_link_of_ne _ _ hbn, set_link_self]
  have hln : (g.attach b n).link n = { g.link n with shadow := some b, shadowOffset := 0 } := by
    rw [ObjGraph.attach, set_link_self]
  have hlo : ∀ y, y ≠ b → y ≠ n → (g.attach b n).link y = g₀.link y := by
    intro y hyb hyn
    rw [ObjGraph.attach, set_link_of_ne _ _ hyn, set_link_of_ne _ _ hyb, ho₀ y hyb]
  have hl : ∀ y, ((g.attach b n).link y).alive = (g₀.link y).alive ∧
      ((g.attach b n).link y).refCount = (g₀.link y).refCount ∧
      ((g.attach b n).link y).temporary = (g₀.link y).temporary ∧
      ((g.attach b n).link y).internal = (g₀.link y).internal ∧
      ((g.attach b n).link y).canPersist = (g₀.link y).canPersist ∧
      (y ≠ n → ((g.attach b n).link y).shadow = (g₀.link y).shadow) := by
    intro y
    by_cases hyn : y = n
    · subst hyn
      rw [hln, ho₀ y (Ne.symm hbn)]
      simp
    · by_cases hyb : y = b
      · subst hyb
        rw [hlb, hb₀]
        simp
      · rw [hlo y hyb hyn]
        simp
  have hm : Relinked g₀ (g.attach b n).link n (some b) :=
    ⟨fun y => (hl y).1, fun y => (hl y).2.1, fun y => (hl y).2.2.1, fun y => (hl y).2.2.2.1,
      fun y => (hl y).2.2.2.2.1, by rw [hln], fun y hy => (hl y).2.2.2.2.2 hy⟩
  have hn₀ := ho₀ n (Ne.symm hbn)
  have hs₀ : (g₀.link n).shadow = none := by
    rw [hn₀]
    exact hsn
  have h₁ := h₀.relink hm (by rw [hn₀]; exact hn) hs₀ (by rw [hn₀]; exact htn)
    (by rintro y ⟨⟩; exact hr) ?_ ?_
  · have hg : g.attach b n = { g₀ with link := (g.attach b n).link } := by
      rw [← hg₀]
      rfl
    rw [hg]
    exact h₁
  · intro y z hy hz ht
    by_cases hyn : y = n
    · subst hyn
      rw [hln] at hz ⊢
      cases Option.some.inj hz
      rw [hlb]
      exact ⟨rfl, rfl⟩
    · have hyb : y ≠ b := by
        rintro rfl
        rw [hlb] at hz
        rw [hsb] at hz
        cases hz
      rw [hlo y hyb hyn] at hz ⊢
      have hse := h₀.shadow_external y z hy hz ht
      have hzb : z ≠ b := by
        rintro rfl
        rw [hb₀] at hse
        rw [hcb] at hse
        cases hse.1
      have hzn : z ≠ n := by
        rintro rfl
        rw [hn₀, htn] at ht
        cases ht
      rw [hlo z hzb hzn]
      exact hse
  · intro y z hy hz
    by_cases hyb : y = b
    · subst hyb
      rw [hlb] at hz
      cases Option.some.inj hz
      rw [hb₀, hn₀, hln]
      exact ⟨htb, hn, rfl, rfl⟩
    · have hyn : y ≠ n := by
        rintro rfl
        rw [hln] at hz
        rw [hcn] at hz
        cases hz
      rw [hlo y hyb hyn] at hz
      have hspec := h₀.copy_spec y z hy hz
      have hzn : z ≠ n := by
        rintro rfl
        rw [hn₀, hsn] at hspec
        cases hspec.2.2.1
      have hzb : z ≠ b := by
        rintro rfl
        rw [hb₀] at hspec
        rw [hsb] at hspec
        cases hspec.2.2.1
      rw [hlo z hzb hzn]
      exact hspec

/-- The links after a copy object has been moved from its source to a new object. -/
def ObjGraph.detach (g : ObjGraph) (b c n : ObjId) : ObjGraph :=
  ((g.set n { g.link n with refCount := (g.link n).refCount + 1 }).set c
    { g.link c with shadow := some n }).set b
    { g.link b with refCount := (g.link b).refCount - 1, copy := none }

theorem ObjectInv.detach (h : ObjectInv g held rank) (hb : (g.link b).alive = true)
    (hcb : (g.link b).copy = some c) (hn : (g.link n).alive = true)
    (htn : (g.link n).temporary = true) (hqn : n ∉ g.cachedList) (hr : rank n < rank c) :
    ObjectInv (g.detach b c n) held rank := by
  obtain ⟨htb, hc, hsc, -⟩ := h.copy_spec b c hb hcb
  have hbc := h.shadow_ne hc hsc
  have htc := h.temporary_of_shadow hc hsc
  have hnb : n ≠ b := by
    rintro rfl
    rw [htb] at htn
    cases htn
  have hnc : n ≠ c := by
    rintro rfl
    exact Nat.lt_irrefl _ hr
  have hqb : b ∉ g.cachedList := h.not_cached_of_shadowed hc hsc
  have hsb := h.external b hb htb
  have h₀ : ObjectInv _ (plusOpt held (some n)) rank := h.reference hn hqn
  generalize hg₀ : g.set n { g.link n with refCount := (g.link n).refCount + 1 } = g₀ at h₀
  have hn₀ : g₀.link n = { g.link n with refCount := (g.link n).refCount + 1 } := by
    rw [← hg₀, set_link_self]
  have ho₀ : ∀ y, y ≠ n → g₀.link y = g.link y := by
    intro y hy
    rw [← hg₀, set_link_of_ne g _ hy]
  have hc₀ := ho₀ c (Ne.symm hnc)
  have hb₀ := ho₀ b (Ne.symm hnb)
  generalize hg₁ : (g₀.set c { g.link c with shadow := some n }).set b
    { g.link b with copy := none } = g₁
  have hb₁ : g₁.link b = { g.link b with copy := none } := by
    rw [← hg₁, set_link_self]
  have hc₁ : g₁.link c = { g.link c with shadow := some n } := by
    rw [← hg₁, set_link_of_ne _ _ (Ne.symm hbc), set_link_self]
  have ho₁ : ∀ y, y ≠ b → y ≠ c → g₁.link y = g₀.link y := by
    intro y hyb hyc
    rw [← hg₁, set_link_of_ne _ _ hyb, set_link_of_ne _ _ hyc]
  have hl : ∀ y, (g₁.link y).alive = (g₀.link y).alive ∧
      (g₁.link y).refCount = (g₀.link y).refCount ∧
      (g₁.link y).temporary = (g₀.link y).temporary ∧
      (g₁.link y).internal = (g₀.link y).internal ∧
      (g₁.link y).canPersist = (g₀.link y).canPersist ∧
      (y ≠ c → (g₁.link y).shadow = (g₀.link y).shadow) := by
    intro y
    by_cases hyc : y = c
    · subst hyc
      rw [hc₁, hc₀]
      simp
    · by_cases hyb : y = b
      · subst hyb
        rw [hb₁, hb₀]
        simp
      · rw [ho₁ y hyb hyc]
        simp
  have hm : Relinked g₀ g₁.link c (some n) :=
    ⟨fun y => (hl y).1, fun y => (hl y).2.1, fun y => (hl y).2.2.1, fun y => (hl y).2.2.2.1,
      fun y => (hl y).2.2.2.2.1, by rw [hc₁], fun y hy => (hl y).2.2.2.2.2 hy⟩
  have hs₀ : (g₀.link c).shadow = some b := by
    rw [hc₀]
    exact hsc
  have h₁ := h₀.relink hm (by rw [hc₀]; exact hc) hs₀ (by rw [hc₀]; exact htc)
    (by rintro y ⟨⟩; exact hr) ?_ ?_
  · have hg : ({ g₀ with link := g₁.link } : ObjGraph) = g₁ := by
      rw [← hg₁]
      rfl
    rw [hg] at h₁
    have hq₁ : b ∉ g₁.cachedList := by
      rw [← hg₁, ← hg₀]
      exact hqb
    have h₂ := ObjectInv.release h₁ hq₁
    rw [hb₁] at h₂
    have hd : g.detach b c n = g₁.set b
        { { g.link b with copy := none } with refCount := (g.link b).refCount - 1 } := by
      rw [← hg₁, ← hg₀]
      simp only [ObjGraph.detach, ObjGraph.set, Function.update_idem]
    rw [hd]
    exact h₂
  · intro y z hy hz ht
    by_cases hyc : y = c
    · subst hyc
      rw [hc₁] at hz
      cases Option.some.inj hz
      rw [hn₀] at ht
      rw [htn] at ht
      cases ht
    · have hyb : y ≠ b := by
        rintro rfl
        rw [hb₁] at hz
        rw [hsb] at hz
        cases hz
      rw [ho₁ y hyb hyc] at hz ⊢
      have hse := h₀.shadow_external y z hy hz ht
      have hzb : z ≠ b := by
        rintro rfl
        rw [hb₀, hcb] at hse
        exact hyc (Option.some.inj hse.1).symm
      have hzc : z ≠ c := by
        rintro rfl
        rw [hc₀, htc] at ht
        cases ht
      rw [ho₁ z hzb hzc]
      exact hse
  · intro y z hy hz
    have hyb : y ≠ b := by
      rintro rfl
      rw [hb₁] at hz
      cases hz
    have hyc : y ≠ c := by
      rintro rfl
      rw [hc₁] at hz
      have := h.copy_none_of_temporary hc htc
      rw [this] at hz
      cases hz
    rw [ho₁ y hyb hyc] at hz
    have hspec := h₀.copy_spec y z hy hz
    have hzc : z ≠ c := by
      rintro rfl
      rw [hs₀] at hspec
      exact hyb (Option.some.inj hspec.2.2.1).symm
    have hzb : z ≠ b := by
      rintro rfl
      rw [hb₀, hsb] at hspec
      cases hspec.2.2.1
    rw [ho₁ z hzb hzc]
    exact hspec

theorem ObjectInv.persist {g' : ObjGraph} (h : ObjectInv g held rank) (p : ObjId → Bool)
    (hn : g'.next = g.next) (hc : g'.cachedList = g.cachedList)
    (hl : ∀ y, g'.link y = { g.link y with canPersist := p y })
    (hp : ∀ y, (g.link y).alive = true → p y = true → (g.link y).temporary = false) :
    ObjectInv g' held rank := by
  have halive : ∀ y, (g'.link y).alive = (g.link y).alive := fun y => by rw [hl]
  have hcount : ∀ y, (g'.link y).refCount = (g.link y).refCount := fun y => by rw [hl]
  have hshadow : ∀ y, (g'.link y).shadow = (g.link y).shadow := fun y => by rw [hl]
  have hoff : ∀ y, (g'.link y).shadowOffset = (g.link y).shadowOffset := fun y => by rw [hl]
  have hcopy : ∀ y, (g'.link y).copy = (g.link y).copy := fun y => by rw [hl]
  have htemp : ∀ y, (g'.link y).temporary = (g.link y).temporary := fun y => by rw [hl]
  have hrefs : ∀ y, g'.shadowRefs y = g.shadowRefs y := by
    intro y
    refine shadowRefs_congr hn ?_
    intro z
    simp [shadows, halive, hshadow]
  refine ⟨?_, ?_, ?_, ?_, ?_, hc ▸ h.cached_nodup, ?_, ?_, ?_, ?_⟩
  · intro y hy
    rw [halive]
    exact h.fresh y (hn ▸ hy)
  · intro y hy
    rw [halive] at hy
    rw [hcount, hrefs]
    exact h.exact y hy
  · intro y hy
    rw [halive] at hy
    rw [hrefs]
    exact h.dead y hy
  · intro y z hy hz
    rw [halive] at hy
    rw [hshadow] at hz
    exact h.ranked y z hy hz
  · intro y hy
    rw [hc] at hy
    rw [halive, hcount, htemp]
    exact h.cached y hy
  · intro y hy
    rw [halive] at hy
    rw [hl]
    exact ⟨(h.kind y hy).1, hp y hy⟩
  · intro y hy ht
    rw [halive] at hy
    rw [htemp] at ht
    rw [hshadow]
    exact h.external y hy ht
  · intro y z hy hz ht
    rw [halive] at hy
    rw [hshadow] at hz
    rw [htemp] at ht
    rw [hcopy, hoff]
    exact h.shadow_external y z hy hz ht
  · intro y z hy hz
    rw [halive] at hy
    rw [hcopy] at hz
    rw [htemp, halive, hshadow, hoff]
    exact h.copy_spec y z hy hz

end MachVM
