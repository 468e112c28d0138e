import MachVM.CollapseKeep

namespace MachVM

variable {s t : VmState} {object backing : ObjId} {n : Nat}

theorem Rechained.chain (hr : Rechained s object backing t) (hs : (s.object object).shadow = some backing)
    (hn : ShadowChain s backing n) : ShadowChain t object n := by
  cases hn with
  | last hb => exact .last (hr.parent_shadow.trans hb)
  | @next _ z m hb hz =>
    refine .next (hr.parent_shadow.trans hb) (hz.congr ?_)
    intro y k hy hk
    have hback : ShadowChain s backing (m + 1) := .next hb hz
    have hyo : y ≠ object := by
      rintro rfl
      have := hy.unique (.next hs hback)
      omega
    have hyb : y ≠ backing := by
      rintro rfl
      have := hy.unique hback
      omega
    exact (hr.shadow y hyo (Or.inl hyb)).1

/-- What one turn of the loop does when it does anything. -/
structure Turned (s : VmState) (object : ObjId) (n : Nat) (t : VmState) : Prop where
  inv : CollapseInv t
  alive : (t.object object).alive = true
  chain : ∃ m, n = m + 1 ∧ ShadowChain t object m
  kept : ∀ y, (t.object y).alive = true → (s.object y).alive = true ∧ (t.object y).size = (s.object y).size
  content : ∀ o off d, (t.object o).alive = true → off.toNat < (s.object o).size.toNat →
    Content s o off d → Content t o off d

theorem collapseStep_turned (h : CollapseInv s) (ha : (s.object object).alive = true)
    (hn : ShadowChain s object n) :
    ∃ r, collapseStep s object = .ok r ∧ ∀ t ∈ r, Turned s object n t := by
  have hnothing : ∀ t ∈ (none : Option VmState), Turned s object n t := by rintro t ⟨⟩
  simp only [collapseStep]
  split
  next => exact ⟨none, rfl, hnothing⟩
  next hidle =>
    have hg : (s.object object).pagingInProgress = 0 := by
      by_contra hc
      exact hidle (Or.inl hc)
    have hp : (s.object object).pager = none := by
      by_contra hc
      exact hidle (Or.inr hc)
    split
    next => exact ⟨none, rfl, hnothing⟩
    next backing hs =>
      obtain ⟨m, rfl, hm⟩ : ∃ m, n = m + 1 ∧ ShadowChain s backing m := by
        cases hn with
        | last hl => rw [hs] at hl; cases hl
        | next hl hb =>
          cases Option.some.inj (hs.symm.trans hl)
          exact ⟨_, rfl, hb⟩
      have hne : backing ≠ object := by
        rintro rfl
        have := hm.unique hn
        omega
      have hob : (s.object backing).shadow ≠ some object := by
        intro hc
        have := hm.unique (.next hc hn)
        omega
      have hbb : (s.object backing).shadow ≠ some backing := by
        intro hc
        have := hm.unique (.next hc hm)
        omega
      have hturn : ∀ t, (s.object backing).internal = true → Rechained s object backing t → CollapseInv t →
          Turned s object (m + 1) t := by
        intro t hi hr hinv
        refine ⟨hinv, hr.alive, ⟨m, rfl, hr.chain hs hm⟩, hr.kept, ?_⟩
        intro o off d hot hlt hc
        exact (hr.content h ha hs hi hc (hr.kept o hot).1).1 hot fun _ => hlt
      split
      next => exact ⟨none, rfl, hnothing⟩
      next hback =>
        have hi : (s.object backing).internal = true := by
          by_contra hc
          exact hback (Or.inl (by simpa using hc))
        have hgb : (s.object backing).pagingInProgress = 0 := by
          by_contra hc
          exact hback (Or.inr hc)
        split
        next => exact ⟨none, rfl, hnothing⟩
        next hcopy =>
          split
          next hr =>
            obtain ⟨t, ht, hmt⟩ := collapseInto_merged h ha hp hg hne (any_copy_false hcopy)
            have hrt := hmt.rechained h ha hs hp hg hi hr hne
            refine ⟨some t, by rw [ht]; rfl, ?_⟩
            intro t' ht'
            cases Option.some.inj ht'
            exact hturn t hi hrt (hmt.inv hrt h ha hs hp hg hi hgb hne)
          next =>
            split
            next => exact ⟨none, rfl, hnothing⟩
            next hcreated =>
              split
              next => exact ⟨none, rfl, hnothing⟩
              next hneed =>
                have hc : (s.object backing).pagerCreated = false := by simpa using hcreated
                obtain ⟨hrt, hinv⟩ := bypassBacking_rechained h ha hs hp hg hi hc hneed hne hob hbb
                refine ⟨_, rfl, ?_⟩
                intro t' ht'
                cases Option.some.inj ht'
                exact hturn _ hi hrt hinv

theorem vmObjectCollapse_keeps (fuel : Nat) (h : CollapseInv s) (ha : (s.object object).alive = true)
    (hn : ShadowChain s object n) (hf : n < fuel) :
    ∃ t, vmObjectCollapse fuel s object = .ok t ∧ (t.object object).alive = true ∧
      (∀ y, (t.object y).alive = true → (s.object y).alive = true ∧
        (t.object y).size = (s.object y).size) ∧
      ∀ o off d, (t.object o).alive = true → off.toNat < (s.object o).size.toNat →
        Content s o off d → Content t o off d := by
  induction fuel generalizing s n with
  | zero => exact absurd hf (Nat.not_lt_zero n)
  | succ fuel ih =>
    obtain ⟨r, hr, hturn⟩ := collapseStep_turned h ha hn
    simp only [vmObjectCollapse, hr]
    cases r with
    | none => exact ⟨s, rfl, ha, fun y hy => ⟨hy, rfl⟩, fun o off d _ _ hc => hc⟩
    | some u =>
      have hu := hturn u rfl
      obtain ⟨m, rfl, hm⟩ := hu.chain
      obtain ⟨t, ht, hat, hkt, hct⟩ := ih hu.inv hu.alive hm (Nat.lt_of_succ_lt_succ hf)
      refine ⟨t, ht, hat, ?_, ?_⟩
      · intro y hy
        obtain ⟨h₁, h₂⟩ := hkt y hy
        obtain ⟨h₃, h₄⟩ := hu.kept y h₁
        exact ⟨h₃, h₂.trans h₄⟩
      · intro o off d hot hlt hc
        obtain ⟨h₁, -⟩ := hkt o hot
        refine hct o off d hot ?_ (hu.content o off d h₁ hlt hc)
        rw [(hu.kept o h₁).2]
        exact hlt

/-- Collapsing an object ends, and every object that is still there shows the same content
as before at every offset inside it. -/
theorem vmObjectCollapse_preserves_content (h : CollapseInv s)
    (hchain : ∀ o, (s.object o).alive = true → ∃ n, ShadowChain s o n)
    (ha : (s.object object).alive = true) :
    ∃ enough, ∀ fuel, enough ≤ fuel → ∃ t, vmObjectCollapse fuel s object = .ok t ∧
      (t.object object).alive = true ∧
      ∀ o off d, (t.object o).alive = true → off.toNat < (s.object o).size.toNat →
        (Content t o off d ↔ Content s o off d) := by
  obtain ⟨n, hn⟩ := hchain object ha
  refine ⟨n + 1, ?_⟩
  intro fuel hf
  obtain ⟨t, ht, hat, hkt, hct⟩ := vmObjectCollapse_keeps fuel h ha hn hf
  refine ⟨t, ht, hat, ?_⟩
  intro o off d hot hlt
  refine ⟨?_, hct o off d hot hlt⟩
  intro hd
  obtain ⟨m, hm⟩ := hchain o (hkt o hot).1
  obtain ⟨e, he⟩ := hm.content off
  cases (hct o off e hot hlt he).unique hd
  exact he

/-- Object 2 shadows object 0, which shadows object 1. The two at the bottom have a page each. -/
def chainState (a : Bool) (f : VmOffset) (r : Int) (z : VmSize) : VmState where
  page
    | 0 => { object := some 0, tabled := true, busy := false, absent := a, data := 3 }
    | 1 => { object := some 1, offset := f, tabled := true, busy := false, data := 5 }
    | _ => {}
  bucket b := if b = 0 then [0, 1] else []
  object
    | 0 => { memq := [0], residentPageCount := 1, size := z, shadow := some 1 }
    | 1 => { memq := [1], residentPageCount := 1, size := 8192, refCount := r }
    | 2 => { size := 8192, shadow := some 0 }
    | _ => { alive := false, refCount := 0 }
  nextObject := 3

section Samples

variable {a : Bool} {f : VmOffset} {r : Int} {z : VmSize}

theorem chainState_page (p : PageId) : p = 0 ∨ p = 1 ∨ (chainState a f r z).page p = {} := by
  match p with
  | 0 => exact Or.inl rfl
  | 1 => exact Or.inr (Or.inl rfl)
  | n + 2 => exact Or.inr (Or.inr rfl)

theorem chainState_object (o : ObjId) : o = 0 ∨ o = 1 ∨ o = 2 ∨
    (chainState a f r z).object o = { alive := false, refCount := 0 } := by
  match o with
  | 0 => exact Or.inl rfl
  | 1 => exact Or.inr (Or.inl rfl)
  | 2 => exact Or.inr (Or.inr (Or.inl rfl))
  | n + 3 => exact Or.inr (Or.inr (Or.inr rfl))

theorem chainState_tabled (p : PageId) : ((chainState a f r z).page p).tabled = true ↔ p = 0 ∨ p = 1 := by
  obtain rfl | rfl | hp := chainState_page (a := a) (f := f) (r := r) (z := z) p
  · simp [chainState]
  · simp [chainState]
  · rw [hp]
    constructor
    · rintro ⟨⟩
    · rintro (rfl | rfl)
      · exact absurd hp (by simp [chainState])
      · exact absurd hp (by simp [chainState])

theorem chainState_resident : ResidentInv (chainState a f r z) := by
  have hflags : ∀ p, ((chainState a f r z).page p).free = false ∧
      ((chainState a f r z).page p).active = false ∧ ((chainState a f r z).page p).inactive = false := by
    intro p
    obtain rfl | rfl | hp := chainState_page (a := a) (f := f) (r := r) (z := z) p
    · exact ⟨rfl, rfl, rfl⟩
    · exact ⟨rfl, rfl, rfl⟩
    · rw [hp]
      exact ⟨rfl, rfl, rfl⟩
  have hnone : ∀ {P : PageId → Prop}, (∀ p, ¬P p) → Mirror.Mirrors ([] : List PageId) P :=
    fun h => ⟨List.nodup_nil, fun p => ⟨fun hm => absurd hm (by simp), fun hp => absurd hp (h p)⟩⟩
  refine ⟨⟨?_, ?_, ?_, rfl, rfl, rfl, ?_, ?_, ?_⟩, ⟨?_, ?_, ?_, ?_, ?_⟩, ?_⟩
  · exact hnone fun p => by simp [(hflags p).1]
  · exact hnone fun p => by simp [(hflags p).2.1]
  · exact hnone fun p => by simp [(hflags p).2.2]
  · intro p _
    exact (hflags p).2
  · intro p _
    exact (hflags p).2.2
  · intro p _
    exact (hflags p).2
  · intro b
    have hhash : ∀ o off, vmPageHash (chainState a f r z).hashMask o off = 0 := by
      intro o off
      simp [vmPageHash, chainState]
    by_cases hb : b = 0
    · subst hb
      have hbucket : (chainState a f r z).bucket 0 = [0, 1] := rfl
      rw [hbucket]
      refine ⟨by decide, ?_⟩
      intro p
      rw [chainState_tabled]
      constructor
      · intro hm
        have hp : p = 0 ∨ p = 1 := by simpa using hm
        refine ⟨hp, ?_⟩
        obtain rfl | rfl := hp
        · exact ⟨0, rfl, (hhash _ _).symm⟩
        · exact ⟨1, rfl, (hhash _ _).symm⟩
      · rintro ⟨hp, -⟩
        simpa using hp
    · have hbucket : (chainState a f r z).bucket b = [] := if_neg hb
      rw [hbucket]
      refine hnone ?_
      rintro p ⟨-, o, -, hh⟩
      exact hb (hh.trans (hhash o _))
  · intro o
    have howner : ∀ p, ((chainState a f r z).page p).tabled = true ∧
        ((chainState a f r z).page p).object = some o ↔ p = o ∧ (o = 0 ∨ o = 1) := by
      intro p
      rw [chainState_tabled]
      constructor
      · rintro ⟨rfl | rfl, ho⟩
        · exact ⟨Option.some.inj ho, Or.inl (Option.some.inj ho).symm⟩
        · exact ⟨Option.some.inj ho, Or.inr (Option.some.inj ho).symm⟩
      · rintro ⟨rfl, rfl | rfl⟩
        · exact ⟨Or.inl rfl, rfl⟩
        · exact ⟨Or.inr rfl, rfl⟩
    by_cases ho : o = 0 ∨ o = 1
    · have hq : ((chainState a f r z).object o).memq = [o] := by
        obtain rfl | rfl := ho
        · rfl
        · rfl
      rw [hq]
      refine ⟨List.nodup_singleton o, fun p => ?_⟩
      rw [howner, List.mem_singleton]
      exact ⟨fun hp => ⟨hp, ho⟩, fun hp => hp.1⟩
    · have hq : ((chainState a f r z).object o).memq = [] := by
        obtain rfl | rfl | rfl | hd := chainState_object (a := a) (f := f) (r := r) (z := z) o
        · exact absurd (Or.inl rfl) ho
        · exact absurd (Or.inr rfl) ho
        · rfl
        · rw [hd]
      rw [hq]
      exact hnone fun p hp => ho ((howner p).mp hp).2
  · intro o
    obtain rfl | rfl | rfl | ho := chainState_object (a := a) (f := f) (r := r) (z := z) o
    · rfl
    · rfl
    · rfl
    · rw [ho]
      rfl
  · intro p hp
    obtain rfl | rfl := (chainState_tabled p).mp hp
    · simp [chainState]
    · simp [chainState]
  · intro p q hp hq ho _
    obtain rfl | rfl := (chainState_tabled p).mp hp
    · obtain rfl | rfl := (chainState_tabled q).mp hq
      · rfl
      · simp [chainState] at ho
    · obtain rfl | rfl := (chainState_tabled q).mp hq
      · simp [chainState] at ho
      · rfl
  · intro p hp
    rw [(hflags p).1] at hp
    cases hp

theorem chainState_inv : CollapseInv (chainState false 4096 1 8192) := by
  have hlive : ∀ o, ((chainState false 4096 1 8192).object o).alive = true → o = 0 ∨ o = 1 ∨ o = 2 := by
    intro o ho
    obtain h | h | h | h := chainState_object (a := false) (f := 4096) (r := 1) (z := 8192) o
    · exact Or.inl h
    · exact Or.inr (Or.inl h)
    · exact Or.inr (Or.inr h)
    · rw [h] at ho
      cases ho
  refine ⟨chainState_resident, ?_, ?_, ?_, ?_, ?_, ?_⟩
  · intro o ho
    by_contra hc
    obtain rfl | rfl | rfl := hlive o (by simpa using hc)
    all_goals exact absurd ho (by decide)
  · intro x y hx hy
    obtain rfl | rfl | rfl := hlive x hx
    · cases hy
      rfl
    · cases hy
    · cases hy
      rfl
  · intro y hy
    obtain rfl | rfl | rfl := hlive y hy
    all_goals decide
  · intro x y hx hy _
    obtain rfl | rfl | rfl := hlive x hx
    · cases hy
      decide
    · cases hy
    · cases hy
      decide
  · intro o ho hp
    obtain rfl | rfl | rfl := hlive o ho
    all_goals exact absurd rfl hp
  · intro o ho _ _ mem off a d hc
    obtain ⟨ht, -, -, ha, -⟩ := cell_eq_some.mp hc
    obtain rfl | rfl := (chainState_tabled mem).mp ht
    · exact ha.symm
    · exact ha.symm

theorem chainState_chain (o : ObjId) : ∃ n, ShadowChain (chainState a f r z) o n := by
  have h₁ : ShadowChain (chainState a f r z) 1 0 := .last rfl
  have h₀ : ShadowChain (chainState a f r z) 0 1 := .next rfl h₁
  obtain rfl | rfl | rfl | ho := chainState_object (a := a) (f := f) (r := r) (z := z) o
  · exact ⟨1, h₀⟩
  · exact ⟨0, h₁⟩
  · exact ⟨2, .next rfl h₀⟩
  · exact ⟨0, .last (by rw [ho])⟩

end Samples

/-- The page of the backing object moves up, and is seen through both objects in front of it. -/
theorem chainState_preserves_content :
    ∃ enough, ∀ fuel, enough ≤ fuel → ∃ t, vmObjectCollapse fuel (chainState false 4096 1 8192) 0 = .ok t ∧
      (t.object 0).alive = true ∧
      ∀ o off d, (t.object o).alive = true →
        off.toNat < ((chainState false 4096 1 8192).object o).size.toNat →
        (Content t o off d ↔ Content (chainState false 4096 1 8192) o off d) :=
  vmObjectCollapse_preserves_content chainState_inv (fun o _ => chainState_chain o) rfl

/-- An absent page of the parent hides a page of the backing object from the bypass check,
and a page outside the parent is lost to an object in front of it that reaches further. -/
theorem collapse_loses_content :
    (ResidentInv (chainState true 0 2 8192) ∧ Content (chainState true 0 2 8192) 0 0 5 ∧
      ∃ t, vmObjectCollapse 3 (chainState true 0 2 8192) 0 = .ok t ∧
        (t.object 0).alive = true ∧ ¬Content t 0 0 5) ∧
    (ResidentInv (chainState false 4096 1 4096) ∧ Content (chainState false 4096 1 4096) 2 4096 5 ∧
      ∃ t, vmObjectCollapse 3 (chainState false 4096 1 4096) 0 = .ok t ∧
        (t.object 2).alive = true ∧ ¬Content t 2 4096 5) := by
  refine ⟨⟨chainState_resident, ?_, ?_⟩, chainState_resident, ?_, ?_⟩
  · exact .deeper (by decide) rfl (.own (by decide))
  · have hrun : ((vmObjectCollapse 3 (chainState true 0 2 8192) 0).map fun t =>
        ((t.object 0).alive, ownData t 0 0, (t.object 0).shadow)).toOption = some (true, none, none) := by
      decide +kernel
    cases ht : vmObjectCollapse 3 (chainState true 0 2 8192) 0 with
    | error why =>
      rw [ht] at hrun
      cases hrun
    | ok t =>
      rw [ht] at hrun
      have hv := Option.some.inj hrun
      have hown : ownData t 0 0 = none := congrArg (fun v => v.2.1) hv
      have hshadow : (t.object 0).shadow = none := congrArg (fun v => v.2.2) hv
      refine ⟨t, rfl, congrArg Prod.fst hv, ?_⟩
      intro hc
      exact absurd ((Content.zero hown hshadow).unique hc) (by decide)
  · exact .deeper (by decide) rfl (.deeper (by decide) rfl (.own (by decide)))
  · have hrun : ((vmObjectCollapse 3 (chainState false 4096 1 4096) 0).map fun t =>
        (((t.object 2).alive, ownData t 2 4096, (t.object 2).shadow, (t.object 2).shadowOffset),
          ownData t 0 4096, (t.object 0).shadow)).toOption =
          some ((true, none, some 0, 0), none, none) := by decide +kernel
    cases ht : vmObjectCollapse 3 (chainState false 4096 1 4096) 0 with
    | error why =>
      rw [ht] at hrun
      cases hrun
    | ok t =>
      rw [ht] at hrun
      have hv := Option.some.inj hrun
      have hown₂ : ownData t 2 4096 = none := congrArg (fun v => v.1.2.1) hv
      have hshadow₂ : (t.object 2).shadow = some 0 := congrArg (fun v => v.1.2.2.1) hv
      have hoff₂ : (t.object 2).shadowOffset = 0 := congrArg (fun v => v.1.2.2.2) hv
      have hown₀ : ownData t 0 4096 = none := congrArg (fun v => v.2.1) hv
      have hshadow₀ : (t.object 0).shadow = none := congrArg (fun v => v.2.2) hv
      refine ⟨t, rfl, congrArg (fun v => v.1.1) hv, ?_⟩
      intro hc
      have hzero : Content t 2 4096 zeroPage := by
        refine .deeper hown₂ hshadow₂ ?_
        rw [hoff₂]
        exact .zero hown₀ hshadow₀
      exact absurd (hzero.unique hc) (by decide)

end MachVM
