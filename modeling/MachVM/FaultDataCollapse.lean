import MachVM.CollapseKeep
import MachVM.FaultData
import MachVM.FaultDataTurns
import MachVM.MemoryObjectReach

namespace MachVM
namespace FaultData

variable {s t u : VmState} {m p : PageId} {o x backing : ObjId} {off backingOffset : VmOffset} {size : VmSize}
  {n fuel : Nat}

/-- What collapsing an object leaves alone: its own pages, and what every other object has that is not
merged into it. -/
structure Collapsed (s t : VmState) (o : ObjId) : Prop where
  resident : ResidentInv t
  pages : ∀ p, (s.page p).tabled = true → (s.page p).object = some o → t.page p = s.page p
  alive : ∀ x, x ≠ o → (t.object x).alive = true → (s.object x).alive = true
  shadow : ∀ x, x ≠ o → (t.object x).shadow = (s.object x).shadow
  own : ∀ x, x ≠ o → (t.object x).alive = true ∨ (s.object x).shadow = some o → ∀ off,
    ownData t x off = ownData s x off

theorem Collapsed.refl (h : ResidentInv s) (o : ObjId) : Collapsed s s o :=
  ⟨h, fun _ _ _ => rfl, fun _ _ => id, fun _ _ => rfl, fun _ _ _ _ => rfl⟩

theorem Collapsed.trans (h : Collapsed s t o) (h' : Collapsed t u o) : Collapsed s u o where
  resident := h'.resident
  pages := by
    intro p hp ho
    have hst := h.pages p hp ho
    rw [← hst] at hp ho
    rw [h'.pages p hp ho, hst]
  alive := fun x hx ha => h.alive x hx (h'.alive x hx ha)
  shadow := fun x hx => (h'.shadow x hx).trans (h.shadow x hx)
  own := by
    intro x hx hor off
    cases hor with
    | inl ha => rw [h'.own x hx (.inl ha) off, h.own x hx (.inl (h'.alive x hx ha)) off]
    | inr hs => rw [h'.own x hx (.inr ((h.shadow x hx).trans hs)) off, h.own x hx (.inr hs) off]

theorem collapsePage_moves (h : ResidentInv s) (ht : (s.page m).tabled = true)
    (ho : (s.page m).object = some backing) (hne : backing ≠ o)
    (hc : collapsePage o backingOffset size s m = .ok t) :
    ResidentInv t ∧ SameObjects s t ∧ (∀ p, p ≠ m → t.page p = s.page p) ∧
      ((t.page m).tabled = true → (t.page m).object = some o) := by
  have hfree : ∀ t, pageResult (vmPageFree s m) = .ok t → ResidentInv t ∧ SameObjects s t ∧
      (∀ p, p ≠ m → t.page p = s.page p) ∧ ((t.page m).tabled = true → (t.page m).object = some o) := by
    intro t hf
    have hf := pageResult_ok hf
    obtain ⟨htouched, hu⟩ := vmPageFree_touched (o := backing) h (fun _ => ho) hf
    exact ⟨htouched.resident, (vmPageFree_cell h hf).1, htouched.others, fun hc => absurd (hu.symm.trans hc) (by simp)⟩
  simp only [collapsePage] at hc
  split at hc
  next => exact hfree t hc
  next =>
    split at hc
    next =>
      split at hc
      next => cases hc
      next => exact hfree t hc
    next hl =>
      have hr := pageResult_ok hc
      have hcell := cell_eq_some.mpr ⟨ht, ho, rfl, rfl, rfl⟩
      obtain ⟨hobj, hmoved⟩ := vmPageRename_cell h hcell hne hr
      have hft : (s.page m).free = false := by
        cases hfree : (s.page m).free with
        | false => rfl
        | true => exact absurd ((h.free_untabled m hfree).symm.trans ht) (by simp)
      refine ⟨vmPageRename_resident h hft (fun _ => hl) hr, hobj, fun p hp => vmPageRename_others h.table hr hp, ?_⟩
      intro _
      have hm : cell t m = some (o, (s.page m).offset - backingOffset, (s.page m).absent, (s.page m).data) := by
        rw [hmoved, Function.update_self]
      exact (cell_eq_some.mp hm).2.1

theorem collapsePages_move (q : List PageId) (s : VmState) (h : ResidentInv s) (hq : q.Nodup)
    (hb : ∀ m ∈ q, (s.page m).tabled = true ∧ (s.page m).object = some backing) (hne : backing ≠ o)
    (hc : List.foldlM (collapsePage o backingOffset size) s q = .ok t) :
    ResidentInv t ∧ SameObjects s t ∧ (∀ p, p ∉ q → t.page p = s.page p) ∧
      ∀ p ∈ q, (t.page p).tabled = true → (t.page p).object = some o := by
  induction q generalizing s with
  | nil =>
    cases hc
    exact ⟨h, SameObjects.refl _, fun _ _ => rfl, fun p hp => absurd hp List.not_mem_nil⟩
  | cons m q ih =>
    obtain ⟨ht, ho⟩ := hb m List.mem_cons_self
    obtain ⟨hmq, hqn⟩ := List.nodup_cons.mp hq
    rw [List.foldlM_cons] at hc
    cases hc₁ : collapsePage o backingOffset size s m with
    | error e =>
      rw [hc₁] at hc
      cases hc
    | ok s₁ =>
      rw [hc₁] at hc
      obtain ⟨h₁, hobj₁, hoth₁, hm₁⟩ := collapsePage_moves h ht ho hne hc₁
      have hb₁ : ∀ p ∈ q, (s₁.page p).tabled = true ∧ (s₁.page p).object = some backing := by
        intro p hp
        rw [hoth₁ p (fun hpm => hmq (hpm ▸ hp))]
        exact hb p (List.mem_cons_of_mem _ hp)
      obtain ⟨ht, hobj, hoth, hmoved⟩ := ih s₁ h₁ hqn hb₁ hc
      refine ⟨ht, hobj₁.trans hobj, ?_, ?_⟩
      · intro p hp
        rw [hoth p (fun h => hp (List.mem_cons_of_mem _ h)), hoth₁ p (fun h => hp (h ▸ List.mem_cons_self))]
      · intro p hp
        cases List.mem_cons.mp hp with
        | inl hpm =>
          subst hpm
          rw [hoth p hmq]
          exact hm₁
        | inr hpq => exact hmoved p hpq

/-- One turn of the loop, as far as other objects see it. -/
structure Stepped (s t : VmState) (o backing : ObjId) : Prop where
  collapsed : Collapsed s t o
  parent : (t.object o).shadow = (s.object backing).shadow

theorem collapseInto_stepped (h : ResidentInv s) (hne : backing ≠ o) (hs : (s.object backing).shadow ≠ some o)
    (hc : collapseInto s o backing = .ok t) : Stepped s t o backing := by
  have hb : ∀ m ∈ (s.object backing).memq, (s.page m).tabled = true ∧ (s.page m).object = some backing :=
    fun m hm => ((h.table.memq backing).mem_iff m).mp hm
  simp only [collapseInto] at hc
  cases hf : (s.object backing).memq.foldlM (collapsePage o (s.object o).shadowOffset (s.object o).size) s with
  | error e =>
    rw [hf] at hc
    cases hc
  | ok v =>
    rw [hf] at hc
    obtain ⟨hv, hobj, hoth, hmoved⟩ := collapsePages_move _ s h (h.table.memq backing).nodup hb hne hf
    simp only [bind, Except.bind] at hc
    split at hc
    next => cases hc
    next =>
      have hres : ResidentInv t := by
        cases hc
        refine ResidentInv.modObject (ResidentInv.modObject (ResidentInv.modObject hv ?_) ?_) ?_
        all_goals
          intro y
          exact ⟨rfl, rfl⟩
      cases hc
      have hshadow : ∀ y, (v.object y).shadow = (s.object y).shadow :=
        fun y => core_field VmObject.shadow (fun _ => rfl) (hobj.core y)
      have halive : ∀ y, (v.object y).alive = (s.object y).alive :=
        fun y => core_field VmObject.alive (fun _ => rfl) (hobj.core y)
      have hpages : ∀ p, (s.page p).object ≠ some backing → v.page p = s.page p := by
        intro p hp
        apply hoth
        exact fun hm => hp (hb p hm).2
      refine ⟨⟨?_, ?_, ?_, ?_, ?_⟩, ?_⟩
      · exact hres
      · intro p _ ho
        apply hpages
        rw [ho]
        exact fun hc => hne (Option.some.inj hc).symm
      · intro y hy
        simp only [modObject_object, hy, if_false]
        by_cases hyb : y = backing
        · simp [hyb]
        · simp only [hyb, if_false]
          rw [halive]
          exact id
      · intro y hy
        simp only [modObject_object, hy, if_false]
        by_cases hyb : y = backing
        · simp [hyb, hne, hshadow]
        · simp only [hyb, if_false]
          exact hshadow y
      · intro y hy hor off
        have hyb : y ≠ backing := by
          rintro rfl
          cases hor with
          | inl ha => simp [modObject_object] at ha
          | inr ho => exact hs ho
        refine ownData_congr h.table hres.table ?_ ?_ hobj.pagerData ?_
        · simp only [modObject_object, hy, hyb, if_false]
          exact core_field VmObject.pager (fun _ => rfl) (hobj.core y)
        · simp only [modObject_object, hy, hyb, if_false]
          exact core_field VmObject.pagingOffset (fun _ => rfl) (hobj.core y)
        · intro p d
          simp only [modObject_cell]
          by_cases hp : p ∈ (s.object backing).memq
          · constructor
            · intro hc
              obtain ⟨htab, ho, -⟩ := cell_eq_some.mp hc
              exact absurd (Option.some.inj (ho.symm.trans (hmoved p hp htab))) hy
            · intro hc
              obtain ⟨-, ho, -⟩ := cell_eq_some.mp hc
              exact absurd (Option.some.inj (ho.symm.trans (hb p hp).2)) hyb
          · simp only [cell, hoth p hp]
      · simp [modObject_object, Ne.symm hne, hshadow]

theorem bypassBacking_stepped (h : ResidentInv s) (hne : backing ≠ o) (hs : (s.object backing).shadow ≠ some o)
    (hbb : (s.object backing).shadow ≠ some backing) : Stepped s (bypassBacking s o backing) o backing := by
  obtain ⟨hres, hcell, hpd⟩ := bypassBacking_pages h o backing
  have hobj := bypassBacking_object hne hs hbb
  have hfield : ∀ {α : Type} (f : VmObject → α), (∀ x r, f { x with refCount := r } = f x) → ∀ y, y ≠ o →
      f ((bypassBacking s o backing).object y) = f (s.object y) := by
    intro α f hf y hy
    rw [hobj y, if_neg hy]
    split
    next hyb => rw [hf, hyb]
    next =>
      split
      next => rw [hf]
      next => rfl
  refine ⟨⟨hres, ?_, ?_, ?_, ?_⟩, ?_⟩
  · intro p _ _
    simp only [bypassBacking]
    cases (s.object backing).shadow <;> rfl
  · intro y hy
    rw [hfield VmObject.alive (fun _ _ => rfl) y hy]
    exact id
  · exact hfield VmObject.shadow fun _ _ => rfl
  · intro y hy _ off
    refine ownData_congr h.table hres.table (hfield VmObject.pager (fun _ _ => rfl) y hy)
      (hfield VmObject.pagingOffset (fun _ _ => rfl) y hy) hpd ?_
    intro p d
    rw [hcell]
  · rw [hobj o, if_neg (Ne.symm hne), if_pos rfl]

theorem Stepped.chain (h : Stepped s t o backing) (hs : (s.object o).shadow = some backing)
    (hn : ShadowChain s backing n) : ShadowChain t o n := by
  cases hn with
  | last hb => exact .last (h.parent.trans hb)
  | @next _ z k hb hz =>
    refine .next (h.parent.trans hb) (hz.congr ?_)
    intro y j hy hj
    apply h.collapsed.shadow
    rintro rfl
    have := hy.unique (.next hs (.next hb hz))
    omega

theorem collapseStep_stepped (h : ResidentInv s) (hn : ShadowChain s o n) (hc : collapseStep s o = .ok (some t)) :
    Collapsed s t o ∧ ∃ k, ShadowChain t o k := by
  simp only [collapseStep] at hc
  split at hc
  next => cases hc
  next =>
    split at hc
    next => cases hc
    next backing hs =>
      have hback : ∃ k, n = k + 1 ∧ ShadowChain s backing k := by
        cases hn with
        | last hl => exact absurd (hs.symm.trans hl) (by simp)
        | next hl hb =>
          cases Option.some.inj (hs.symm.trans hl)
          exact ⟨_, rfl, hb⟩
      obtain ⟨k, rfl, hb⟩ := hback
      have hne : backing ≠ o := by
        rintro rfl
        have := hb.unique hn
        omega
      have hloop : ∀ z, z = o ∨ z = backing → (s.object backing).shadow ≠ some z := by
        intro z hz hc
        cases hb with
        | last hl => exact absurd (hl.symm.trans hc) (by simp)
        | next hl hbz =>
          cases Option.some.inj (hc.symm.trans hl)
          cases hz with
          | inl hz =>
            subst hz
            have := hbz.unique hn
            omega
          | inr hz =>
            subst hz
            have := hbz.unique (.next hl hbz)
            omega
      have hdone : Stepped s t o backing → Collapsed s t o ∧ ∃ k, ShadowChain t o k :=
        fun hst => ⟨hst.collapsed, _, hst.chain hs hb⟩
      split at hc
      next => cases hc
      next =>
        split at hc
        next => cases hc
        next =>
          split at hc
          next =>
            apply hdone
            cases hi : collapseInto s o backing with
            | error e =>
              rw [hi] at hc
              cases hc
            | ok v =>
              rw [hi] at hc
              cases hc
              exact collapseInto_stepped h hne (hloop o (.inl rfl)) hi
          next =>
            split at hc
            next => cases hc
            next =>
              split at hc
              next => cases hc
              next =>
                apply hdone
                cases hc
                exact bypassBacking_stepped h hne (hloop o (.inl rfl)) (hloop backing (.inr rfl))

theorem vmObjectCollapse_collapsed (h : ResidentInv s) (hn : ShadowChain s o n)
    (hc : vmObjectCollapse fuel s o = .ok t) : Collapsed s t o := by
  induction fuel generalizing s n with
  | zero => cases hc
  | succ fuel ih =>
    rw [vmObjectCollapse] at hc
    cases hst : collapseStep s o with
    | error e =>
      rw [hst] at hc
      cases hc
    | ok v =>
      rw [hst] at hc
      cases v with
      | none =>
        cases hc
        exact Collapsed.refl h o
      | some u =>
        obtain ⟨hcol, k, hk⟩ := collapseStep_stepped h hn hst
        exact hcol.trans (ih hcol.resident hk hc)

end FaultData
end MachVM

namespace MachVM
namespace FaultData

variable {w : World} {a : FaultCall} {s₀ s t u : VmState} {m p q : PageId} {c o x n : ObjId} {off off' : VmOffset}
  {d : PageData} {prot : VmProt} {length : Nat}

/-- Nothing that tells where data is has changed. -/
structure SameSight (s t : VmState) : Prop where
  bucket : t.bucket = s.bucket
  hashMask : t.hashMask = s.hashMask
  place : ∀ p, SamePlace (s.page p) (t.page p)
  shown : ∀ p, (t.page p).absent = (s.page p).absent ∧ (t.page p).data = (s.page p).data
  object : ∀ o, (t.object o).pager = (s.object o).pager ∧ (t.object o).pagingOffset = (s.object o).pagingOffset ∧
    (t.object o).alive = (s.object o).alive
  pagerData : t.pagerData = s.pagerData

theorem SameSight.symm (h : SameSight s t) : SameSight t s where
  bucket := h.bucket.symm
  hashMask := h.hashMask.symm
  place := fun p => ⟨(h.place p).tabled.symm, (h.place p).object.symm, (h.place p).offset.symm⟩
  shown := fun p => ⟨(h.shown p).1.symm, (h.shown p).2.symm⟩
  object := fun o => ⟨(h.object o).1.symm, (h.object o).2.1.symm, (h.object o).2.2.symm⟩
  pagerData := h.pagerData.symm

theorem SameSight.trans (h : SameSight s t) (h' : SameSight t u) : SameSight s u where
  bucket := h'.bucket.trans h.bucket
  hashMask := h'.hashMask.trans h.hashMask
  place := fun p => ⟨(h'.place p).tabled.trans (h.place p).tabled, (h'.place p).object.trans (h.place p).object,
    (h'.place p).offset.trans (h.place p).offset⟩
  shown := fun p => ⟨(h'.shown p).1.trans (h.shown p).1, (h'.shown p).2.trans (h.shown p).2⟩
  object := fun o => ⟨(h'.object o).1.trans (h.object o).1, (h'.object o).2.1.trans (h.object o).2.1,
    (h'.object o).2.2.trans (h.object o).2.2⟩
  pagerData := h'.pagerData.trans h.pagerData

theorem SameSight.lookup (h : SameSight s t) (o : ObjId) (off : VmOffset) :
    vmPageLookup t o off = vmPageLookup s o off := by
  simp only [vmPageLookup, h.bucket, h.hashMask, (h.place _).object, (h.place _).offset]

theorem SameSight.ownData (h : SameSight s t) (o : ObjId) (off : VmOffset) :
    ownData t o off = MachVM.ownData s o off := by
  simp only [MachVM.ownData, residentData, h.lookup, (h.shown _).1, (h.shown _).2, (h.object o).1, (h.object o).2.1,
    h.pagerData]

theorem sight_modPage {f : VmPage → VmPage}
    (hf : ∀ y, SamePlace y (f y) ∧ (f y).absent = y.absent ∧ (f y).data = y.data) :
    SameSight s (s.modPage m f) := by
  have hpage : ∀ p, (s.modPage m f).page p = s.page p ∨ (s.modPage m f).page p = f (s.page p) := by
    intro p
    by_cases hp : p = m
    · subst hp
      exact .inr (by simp [VmState.modPage])
    · exact .inl (by simp [VmState.modPage, hp])
  refine ⟨rfl, rfl, ?_, ?_, fun _ => ⟨rfl, rfl, rfl⟩, rfl⟩
  · intro p
    cases hpage p with
    | inl h => rw [h]; exact ⟨rfl, rfl, rfl⟩
    | inr h => rw [h]; exact (hf _).1
  · intro p
    cases hpage p with
    | inl h => rw [h]; exact ⟨rfl, rfl⟩
    | inr h => rw [h]; exact (hf _).2

theorem sight_modObject {f : VmObject → VmObject}
    (hf : ∀ y, (f y).pager = y.pager ∧ (f y).pagingOffset = y.pagingOffset ∧ (f y).alive = y.alive) :
    SameSight s (s.modObject o f) := by
  refine ⟨rfl, rfl, fun _ => ⟨rfl, rfl, rfl⟩, fun _ => ⟨rfl, rfl⟩, ?_, rfl⟩
  intro y
  rw [modObject_object]
  split
  next hy =>
    subst hy
    exact hf _
  next => exact ⟨rfl, rfl, rfl⟩

theorem sight_addRef (s : VmState) (o : ObjId) (i : Int) : SameSight s (addRef s o i) :=
  sight_modObject fun _ => ⟨rfl, rfl, rfl⟩

theorem vmPageActivate_sight (h : vmPageActivate s m = some t) : SameSight s t ∧ t.object = s.object ∧
    t.nextObject = s.nextObject ∧ ∃ f : VmPage → VmPage, t.page = Function.update s.page m (f (s.page m)) := by
  have hdrop : ∀ u : VmState, (if (u.page m).wireCount = 0 then
      if (u.page m).active then none else some (enterActive u m) else some u) = some t →
      t.bucket = u.bucket ∧ t.hashMask = u.hashMask ∧ t.object = u.object ∧ t.pagerData = u.pagerData ∧
        t.nextObject = u.nextObject ∧
        ∃ b, t.page = Function.update u.page m { u.page m with active := b } := by
    intro u hu
    split at hu
    next =>
      split at hu
      next => cases hu
      next =>
        cases Option.some.inj hu
        exact ⟨rfl, rfl, rfl, rfl, rfl, true, rfl⟩
    next =>
      cases Option.some.inj hu
      exact ⟨rfl, rfl, rfl, rfl, rfl, (t.page m).active, by simp⟩
  have hall : t.bucket = s.bucket ∧ t.hashMask = s.hashMask ∧ t.object = s.object ∧ t.pagerData = s.pagerData ∧
      t.nextObject = s.nextObject ∧
      ∃ b b', t.page = Function.update s.page m { s.page m with active := b, inactive := b' } := by
    simp only [vmPageActivate] at h
    split at h
    next =>
      obtain ⟨h₁, h₂, h₃, h₄, h₅, b, hb⟩ := hdrop _ h
      refine ⟨h₁, h₂, h₃, h₄, h₅, b, false, ?_⟩
      rw [hb]
      simp [leaveInactive]
    next =>
      obtain ⟨h₁, h₂, h₃, h₄, h₅, b, hb⟩ := hdrop _ h
      exact ⟨h₁, h₂, h₃, h₄, h₅, b, (s.page m).inactive, hb⟩
  obtain ⟨h₁, h₂, h₃, h₄, h₅, b, b', hp⟩ := hall
  refine ⟨⟨h₁, h₂, ?_, ?_, fun o => by rw [h₃]; exact ⟨rfl, rfl, rfl⟩, h₄⟩, h₃, h₅,
    fun y => { y with active := b, inactive := b' }, hp⟩
  · intro p
    rw [hp]
    by_cases hpm : p = m
    · subst hpm
      rw [Function.update_self]
      exact ⟨rfl, rfl, rfl⟩
    · rw [Function.update_of_ne hpm]
      exact ⟨rfl, rfl, rfl⟩
  · intro p
    rw [hp]
    by_cases hpm : p = m
    · subst hpm
      rw [Function.update_self]
      exact ⟨rfl, rfl⟩
    · rw [Function.update_of_ne hpm]
      exact ⟨rfl, rfl⟩

theorem vmPageInsert_lookup_ne (hnot : ∀ b, q ∉ s.bucket b) (h : vmPageInsert s q n off' = some t) (ho : o ≠ n) :
    vmPageLookup t o off = vmPageLookup s o off := by
  have hpage := (vmPageInsert_page h).2
  have hq : ((t.page q).object = some o && (t.page q).offset = off : Bool) = false := by
    rw [hpage, Function.update_self]
    simp [Ne.symm ho]
  have hold : ∀ l : List PageId, q ∉ l →
      l.find? (fun p => (t.page p).object = some o && (t.page p).offset = off) =
        l.find? fun p => (s.page p).object = some o && (s.page p).offset = off := by
    intro l hl
    induction l with
    | nil => rfl
    | cons p l ih =>
      have hpq : p ≠ q := fun hc => hl (hc ▸ List.mem_cons_self)
      have hp : t.page p = s.page p := by rw [hpage, Function.update_of_ne hpq]
      rw [List.find?_cons, List.find?_cons, hp, ih fun hc => hl (List.mem_cons_of_mem _ hc)]
  have hbucket : t.hashMask = s.hashMask ∧ ∀ b, t.bucket b = s.bucket b ∨ t.bucket b = s.bucket b ++ [q] := by
    unfold vmPageInsert at h
    split at h
    next => cases h
    next =>
      cases Option.some.inj h
      refine ⟨rfl, fun b => ?_⟩
      by_cases hb : b = vmPageHash s.hashMask n off'
      · subst hb
        exact .inr (by simp [VmState.setObject, VmState.setBucket, VmState.setPage, queueEnter])
      · exact .inl (by simp [VmState.setObject, VmState.setBucket, VmState.setPage, hb])
  simp only [vmPageLookup, hbucket.1]
  cases hbucket.2 (vmPageHash s.hashMask o off) with
  | inl hb => rw [hb, hold _ (hnot _)]
  | inr hb => rw [hb, List.find?_append, hold _ (hnot _), List.find?_cons, hq, List.find?_nil, Option.or_none]

theorem vmPageRemove_lookup (hs : TableInv s) (o : ObjId) (off : VmOffset) (p : PageId) :
    vmPageLookup (vmPageRemove s q) o off = some p ↔ vmPageLookup s o off = some p ∧ p ≠ q := by
  rw [vmPageLookup_eq_some (vmPageRemove_table hs q), vmPageLookup_eq_some hs, vmPageRemove_page hs]
  by_cases hp : p = q
  · subst hp
    simp
  · simp [hp]

/-- What writing a page to the pager of its object leaves. The page itself goes to a new object. -/
structure Pushed (s t : VmState) (q : PageId) (c : ObjId) : Prop where
  others : ∀ p, p ≠ q → t.page p = s.page p
  lookup : ∀ o off, o ≠ s.nextObject → ∀ p, vmPageLookup t o off = some p ↔ vmPageLookup s o off = some p ∧ p ≠ q
  object : ∀ o, o ≠ s.nextObject → (t.object o).core = (s.object o).core
  pagerData : ∃ pager, (s.object c).pager = some pager ∧ t.pagerData = Function.update s.pagerData pager
    (Function.update (s.pagerData pager) ((s.page q).offset + (s.object c).pagingOffset) (some (s.page q).data))

theorem vmPageoutPage_pushed (hs : ResidentInv s) (ho : (s.page q).object = some c)
    (h : vmPageoutPage s q = .ok t) : Pushed s t q c := by
  simp only [vmPageoutPage] at h
  obtain ⟨old, hold, h⟩ := bind_eq_ok h
  obtain ⟨pager, hpager, h⟩ := bind_eq_ok h
  cases Option.some.inj (ho.symm.trans (pageResult_ok hold))
  have hpager := pageResult_ok hpager
  obtain ⟨s₃, hi, h⟩ := bind_eq_ok h
  obtain ⟨s₅, hact, h⟩ := bind_eq_ok h
  have hi := pageResult_ok hi
  have hobj := vmPageRemove_objects s q
  have htable := vmPageRemove_table hs.table q
  have hpage := vmPageRemove_page hs.table q
  have hlook := vmPageRemove_lookup (q := q) hs.table
  generalize vmPageRemove s q = s₁ at hi hobj htable hpage hlook
  have hnext : s₁.nextObject = s.nextObject := hobj.next
  -- the page in its new object
  have hnot : ∀ b, q ∉ (vmObjectAllocate s₁ pageSize).1.bucket b := by
    intro b hb
    have := (((htable.bucket b).mem_iff q).mp hb).1
    rw [hpage, Function.update_self] at this
    cases this
  have hobj₃ := vmPageInsert_objects hi
  have hpage₃ : s₃.page = Function.update s₁.page q _ := (vmPageInsert_page hi).2
  have hlook₃ : ∀ o off, o ≠ s.nextObject → vmPageLookup s₃ o off = vmPageLookup s₁ o off := by
    intro o off hne
    rw [← hnext] at hne
    have : vmPageLookup s₃ o off = vmPageLookup (vmObjectAllocate s₁ pageSize).1 o off :=
      vmPageInsert_lookup_ne hnot hi hne
    exact this
  have hcore₃ : ∀ o, o ≠ s.nextObject → (s₃.object o).core = (s.object o).core := by
    intro o hne
    rw [hobj₃.core, ← hobj.core]
    exact congrArg VmObject.core (vmObjectAllocate_object s₁ pageSize (by rw [hnext]; exact hne))
  have hoth₃ : ∀ p, p ≠ q → s₃.page p = s.page p := by
    intro p hp
    rw [hpage₃, Function.update_of_ne hp, hpage, Function.update_of_ne hp]
  -- its flags
  have hflags : SameSight s₃ s₅ ∧ s₅.object = s₃.object ∧ ∀ p, p ≠ q → s₅.page p = s₃.page p := by
    have hmod : ∀ (u : VmState) (f : VmPage → VmPage) (p : PageId), p ≠ q → (u.modPage q f).page p = u.page p := by
      intro u f p hp
      simp [VmState.modPage, hp]
    have h₄ : SameSight s₃ (s₃.modPage q fun p => { p with dirty := true, busy := false, wanted := false }) :=
      sight_modPage fun _ => ⟨⟨rfl, rfl, rfl⟩, rfl, rfl⟩
    split at hact
    next =>
      cases hact
      refine ⟨h₄.trans (sight_modPage fun _ => ⟨⟨rfl, rfl, rfl⟩, rfl, rfl⟩), rfl, ?_⟩
      intro p hp
      rw [hmod _ _ p hp, hmod _ _ p hp]
    next =>
      obtain ⟨hsight, hobject, -, f, hf⟩ := vmPageActivate_sight (pageResult_ok hact)
      refine ⟨h₄.trans hsight, hobject, ?_⟩
      intro p hp
      rw [hf, Function.update_of_ne hp, hmod _ _ p hp]
  obtain ⟨hsight, hobject, hoth⟩ := hflags
  generalize hs₆ : (if (s₅.page q).laundry = true then s₅
    else { s₅.modPage q fun p => { p with laundry := true } with laundryCount := s₅.laundryCount + 1 }) = s₆ at h
  have hlast : SameSight s₅ s₆ ∧ s₆.object = s₅.object ∧ ∀ p, p ≠ q → s₆.page p = s₅.page p := by
    rw [← hs₆]
    split
    next =>
      exact ⟨⟨rfl, rfl, fun _ => ⟨rfl, rfl, rfl⟩, fun _ => ⟨rfl, rfl⟩, fun _ => ⟨rfl, rfl, rfl⟩, rfl⟩, rfl,
        fun _ _ => rfl⟩
    next =>
      have := sight_modPage (s := s₅) (m := q) (f := fun p => { p with laundry := true })
        fun _ => ⟨⟨rfl, rfl, rfl⟩, rfl, rfl⟩
      refine ⟨⟨this.bucket, this.hashMask, this.place, this.shown, this.object, this.pagerData⟩, rfl, ?_⟩
      intro p hp
      simp [VmState.modPage, hp]
  obtain ⟨hsight₆, hobject₆, hoth₆⟩ := hlast
  have hpd : s₆.pagerData = s.pagerData := by
    rw [hsight₆.pagerData, hsight.pagerData, hobj₃.pagerData]
    exact hobj.pagerData
  cases h
  refine ⟨?_, ?_, ?_, pager, hpager, ?_⟩
  · intro p hp
    exact (hoth₆ p hp).trans ((hoth p hp).trans (hoth₃ p hp))
  · intro o off hne p
    rw [← hlook, ← hlook₃ o off hne, ← hsight.lookup, ← hsight₆.lookup]
    rfl
  · intro o hne
    change (s₆.object o).core = _
    rw [hobject₆, hobject, hcore₃ o hne]
  · change Function.update s₆.pagerData pager _ = _
    rw [hpd]

end FaultData
end MachVM
