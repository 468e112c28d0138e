import MachVM.CollapsePages

namespace MachVM

open Tally

/-- What merging and bypassing a backing object have in common: the parent shows what it and
the backing object had, takes over the shadow of the latter, and nobody else notices. -/
structure Rechained (s : VmState) (object backing : ObjId) (t : VmState) : Prop where
  alive : (t.object object).alive = true
  parent_own : ∀ off, off.toNat < (s.object object).size.toNat → ownData t object off =
    (ownData s object off).or (ownData s backing (off + (s.object object).shadowOffset))
  parent_shadow : (t.object object).shadow = (s.object backing).shadow
  parent_offset : (t.object object).shadowOffset =
    (s.object object).shadowOffset + (s.object backing).shadowOffset
  own : ∀ y off, y ≠ object → (t.object y).alive = true → ownData t y off = ownData s y off
  shadow : ∀ y, y ≠ object → y ≠ backing ∨ (t.object y).alive = true →
    (t.object y).shadow = (s.object y).shadow ∧ (t.object y).shadowOffset = (s.object y).shadowOffset
  closed : ∀ x y, (t.object x).alive = true → (t.object x).shadow = some y → (t.object y).alive = true
  kept : ∀ y, (t.object y).alive = true → (s.object y).alive = true ∧ (t.object y).size = (s.object y).size

/-- Offsets past the end of an object without pages below it do not matter. -/
def InRange (s : VmState) (o : ObjId) (off : VmOffset) : Prop :=
  (s.object o).internal = true ∨ (s.object o).shadow ≠ none → off.toNat < (s.object o).size.toNat

variable {s t : VmState} {object backing o x y : ObjId} {off : VmOffset} {d : PageData}

theorem toNat_add_of_le {a b c : VmOffset} {n : Nat} (h : b.toNat + n ≤ c.toNat) (ha : a.toNat < n) :
    (a + b).toNat = a.toNat + b.toNat := by
  rw [BitVec.toNat_add, Nat.mod_eq_of_lt]
  have := c.isLt
  omega

theorem CollapseInv.inRange (h : CollapseInv s) (ha : (s.object x).alive = true)
    (hs : (s.object x).shadow = some y) (ho : off.toNat < (s.object x).size.toNat) :
    InRange s y (off + (s.object x).shadowOffset) := by
  intro hy
  have hc := h.contained x y ha hs hy
  rw [toNat_add_of_le hc ho]
  omega

theorem Rechained.content (hr : Rechained s object backing t) (h : CollapseInv s)
    (ha : (s.object object).alive = true) (hs : (s.object object).shadow = some backing)
    (hi : (s.object backing).internal = true) (hc : Content s o off d) (hao : (s.object o).alive = true) :
    ((t.object o).alive = true → InRange s o off → Content t o off d) ∧
    (o = backing → ∀ off', off = off' + (s.object object).shadowOffset →
      off'.toNat < (s.object object).size.toNat → ownData s object off' = none → Content t object off' d) := by
  have hrange : ∀ off', InRange s object off' → off'.toNat < (s.object object).size.toNat :=
    fun off' hr => hr (Or.inr (by rw [hs]; simp))
  induction hc with
  | @own o off d hown =>
    refine ⟨?_, ?_⟩
    · intro hat hir
      by_cases ho : o = object
      · subst ho
        refine .own ?_
        rw [hr.parent_own off (hrange off hir), hown]
        rfl
      · exact .own ((hr.own o off ho hat).trans hown)
    · rintro rfl off' rfl hlt hnone
      refine .own ?_
      rw [hr.parent_own off' hlt, hnone, hown]
      rfl
  | @deeper o b off d hown hsb _ ih =>
    have hab := h.shadow_alive o b hao hsb
    have ih := ih hab
    refine ⟨?_, ?_⟩
    · intro hat hir
      have hlt : off.toNat < (s.object o).size.toNat := hir (Or.inr (by rw [hsb]; simp))
      by_cases ho : o = object
      · subst ho
        cases Option.some.inj (hs.symm.trans hsb)
        exact ih.2 rfl off rfl hlt hown
      · obtain ⟨hst, hot⟩ := hr.shadow o ho (Or.inr hat)
        have hbt := hr.closed o b hat (hst.trans hsb)
        refine .deeper ((hr.own o off ho hat).trans hown) (hst.trans hsb) ?_
        rw [hot]
        exact ih.1 hbt (h.inRange hao hsb hlt)
    · rintro rfl off' rfl hlt hnone
      have hst := hr.parent_shadow.trans hsb
      have hown' : ownData t object off' = none := by
        rw [hr.parent_own off' hlt, hnone, hown]
        rfl
      refine .deeper hown' hst ?_
      rw [hr.parent_offset, ← BitVec.add_assoc]
      exact ih.1 (hr.closed object b hr.alive hst) (h.inRange hao hsb (h.inRange ha hs hlt (Or.inl hi)))
  | @zero o off hown hsn =>
    refine ⟨?_, ?_⟩
    · intro hat hir
      by_cases ho : o = object
      · subst ho
        rw [hs] at hsn
        cases hsn
      · obtain ⟨hst, -⟩ := hr.shadow o ho (Or.inr hat)
        exact .zero ((hr.own o off ho hat).trans hown) (hst.trans hsn)
    · rintro rfl off' rfl hlt hnone
      refine .zero ?_ (hr.parent_shadow.trans hsn)
      rw [hr.parent_own off' hlt, hnone, hown]
      rfl

theorem CollapseInv.only_shadow (h : CollapseInv s) (ha : (s.object object).alive = true)
    (hs : (s.object object).shadow = some backing) (hr : (s.object backing).refCount = 1)
    (hx : (s.object x).alive = true) (hxs : (s.object x).shadow = some backing) : x = object := by
  have hlt : ∀ y, (s.object y).alive = true → y < s.nextObject := by
    intro y hy
    by_contra hc
    have := h.fresh y (Nat.le_of_not_lt hc)
    rw [hy] at this
    cases this
  have hsh : ∀ y, (s.object y).alive = true → (s.object y).shadow = some backing →
      shadows (s.graph.link y) backing = true := by
    intro y hy hys
    simp [shadows, VmState.graph, VmObject.link, hy, hys]
  have hpos : 0 < s.graph.shadowRefs backing := tally_pos (hlt object ha) (hsh object ha hs)
  have hle := h.counted backing (h.shadow_alive object backing ha hs)
  have hone : s.graph.shadowRefs backing = 1 := by omega
  exact tally_one_unique hone (hlt object ha) (hlt x hx) (hsh object ha hs) (hsh x hx hxs)

theorem Merged.resident_other (hm : Merged s object backing t) (h : CollapseInv s) (ho : o ≠ object)
    (hb : o ≠ backing) : residentData t o off = residentData s o off := by
  refine residentData_congr h.resident.table hm.resident.table ?_
  intro mem a e
  by_cases hc : ∃ off' a' e', cell s mem = some (backing, off', a', e')
  · obtain ⟨off', a', e', hc⟩ := hc
    constructor
    · intro ht
      rw [hm.cell_backing mem off' a' e' hc, moved, hc, Option.bind_some] at ht
      split at ht
      next => cases ht
      next =>
        split at ht
        next => cases ht
        next => exact absurd (congrArg Prod.fst (Option.some.inj ht)).symm ho
    · intro ht
      rw [hc] at ht
      exact absurd (congrArg Prod.fst (Option.some.inj ht)).symm hb
  · rw [hm.cell_other mem]
    intro off' a' e' he
    exact hc ⟨off', a', e', he⟩

theorem Merged.resident_parent (hm : Merged s object backing t) (h : CollapseInv s)
    (ha : (s.object object).alive = true) (hp : (s.object object).pager = none)
    (hg : (s.object object).pagingInProgress = 0) (hne : backing ≠ object)
    (hlt : off.toNat < (s.object object).size.toNat)
    (hwrap : (off + (s.object object).shadowOffset).toNat =
      off.toNat + (s.object object).shadowOffset.toNat) :
    residentData t object off =
      (residentData s object off).or (residentData s backing (off + (s.object object).shadowOffset)) := by
  have htab := h.resident.table
  have hin : ¬(off + (s.object object).shadowOffset < (s.object object).shadowOffset ∨
      (s.object object).size ≤ off + (s.object object).shadowOffset - (s.object object).shadowOffset) := by
    rw [BitVec.add_sub_cancel, BitVec.lt_def, BitVec.le_def, hwrap]
    omega
  have hlook : residentData s object off = none → vmPageLookup s object off = none := by
    intro hn
    cases hl : vmPageLookup s object off with
    | none => rfl
    | some pp =>
      obtain ⟨a, e, hc⟩ := (lookup_iff_cell htab).mp hl
      cases h.no_absent object ha hp hg pp off a e hc
      rw [(residentData_iff htab).mpr ⟨pp, hc⟩] at hn
      cases hn
  refine Option.ext ?_
  intro e
  rw [residentData_iff hm.resident.table, Option.or_eq_some_iff]
  constructor
  · rintro ⟨mem, hc⟩
    by_cases hb : ∃ off' a' e', cell s mem = some (backing, off', a', e')
    · obtain ⟨off', a', e', hb⟩ := hb
      rw [hm.cell_backing mem off' a' e' hb, moved, hb, Option.bind_some] at hc
      split at hc
      next => cases hc
      next =>
        split at hc
        next => cases hc
        next hl =>
          have hc := Option.some.inj hc
          have ho : off' - (s.object object).shadowOffset = off := congrArg (fun c => c.2.1) hc
          have hae : (a', e') = (false, e) := congrArg (fun c => c.2.2) hc
          cases hae
          have hoff : off' = off + (s.object object).shadowOffset := by
            rw [← ho, BitVec.sub_add_cancel]
          subst hoff
          rw [ho] at hl
          right
          refine ⟨?_, (residentData_iff htab).mpr ⟨mem, hb⟩⟩
          rw [residentData, Option.not_isSome_iff_eq_none.mp hl]
          rfl
    · left
      rw [hm.cell_other mem fun off' a' e' he => hb ⟨off', a', e', he⟩] at hc
      exact (residentData_iff htab).mpr ⟨mem, hc⟩
  · rintro (hl | ⟨hn, hb⟩)
    · obtain ⟨mem, hc⟩ := (residentData_iff htab).mp hl
      refine ⟨mem, ?_⟩
      rw [hm.cell_other mem, hc]
      intro off' a' e' he
      rw [hc] at he
      exact absurd (congrArg Prod.fst (Option.some.inj he)).symm hne
    · obtain ⟨mem, hc⟩ := (residentData_iff htab).mp hb
      refine ⟨mem, ?_⟩
      rw [hm.cell_backing mem _ _ _ hc, moved, hc, Option.bind_some, if_neg hin, BitVec.add_sub_cancel, hlook hn]
      rfl

theorem Merged.rechained (hm : Merged s object backing t) (h : CollapseInv s)
    (ha : (s.object object).alive = true) (hs : (s.object object).shadow = some backing)
    (hp : (s.object object).pager = none) (hg : (s.object object).pagingInProgress = 0)
    (hi : (s.object backing).internal = true) (hr : (s.object backing).refCount = 1)
    (hne : backing ≠ object) : Rechained s object backing t := by
  have hpar : ∀ {α : Type} (f : VmObject → α), (∀ x, f x.core = f x) →
      f (t.object object) = f (mergedParent (s.object object) (s.object backing)) :=
    fun f hf => core_field f hf hm.parent
  have halive : ∀ y, (t.object y).alive = true → y ≠ backing := by
    rintro y hy rfl
    rw [hm.gone] at hy
    cases hy
  have hot : (t.object object).alive = true := (hpar VmObject.alive fun _ => rfl).trans ha
  have hshadow : (t.object object).shadow = (s.object backing).shadow := hpar VmObject.shadow fun _ => rfl
  have hcore : ∀ y, y ≠ object → (t.object y).alive = true → (t.object y).core = (s.object y).core :=
    fun y hy hat => hm.other y hy (halive y hat)
  refine ⟨hot, ?_, hshadow, hpar VmObject.shadowOffset fun _ => rfl, ?_, ?_, ?_, ?_⟩
  · intro off hlt
    have hwrap := toNat_add_of_le (h.contained object backing ha hs (Or.inl hi)) hlt
    have hpt : (t.object object).pager = (s.object backing).pager := hpar VmObject.pager fun _ => rfl
    have hpo : (t.object object).pagingOffset =
        (s.object backing).pagingOffset + (s.object object).shadowOffset :=
      hpar VmObject.pagingOffset fun _ => rfl
    have hadd : off + ((s.object backing).pagingOffset + (s.object object).shadowOffset) =
        off + (s.object object).shadowOffset + (s.object backing).pagingOffset := by
      rw [BitVec.add_comm (s.object backing).pagingOffset, BitVec.add_assoc]
    simp only [ownData]
    rw [hm.resident_parent h ha hp hg hne hlt hwrap, hpt, hpo, hm.pagerData, hadd, hp]
    simp [Option.or_assoc]
  · intro y off hy hat
    have hc := hcore y hy hat
    simp only [ownData]
    rw [hm.resident_other h hy (halive y hat), core_field VmObject.pager (fun _ => rfl) hc,
      core_field VmObject.pagingOffset (fun _ => rfl) hc, hm.pagerData]
  · intro y hy hat
    have hc := hm.other y hy (hat.elim id (halive y))
    exact ⟨core_field VmObject.shadow (fun _ => rfl) hc,
      core_field VmObject.shadowOffset (fun _ => rfl) hc⟩
  · intro x y hx hxy
    have hab := h.shadow_alive object backing ha hs
    have hkeep : ∀ y, (s.object y).alive = true → y ≠ backing → (t.object y).alive = true := by
      intro y hy hyb
      by_cases hyo : y = object
      · rw [hyo]
        exact hot
      · exact (core_field VmObject.alive (fun _ => rfl) (hm.other y hyo hyb)).trans hy
    by_cases hxo : x = object
    · subst hxo
      rw [hshadow] at hxy
      refine hkeep y (h.shadow_alive backing y hab hxy) ?_
      rintro rfl
      exact hne (h.only_shadow ha hs hr hab hxy)
    · have hc := hcore x hxo hx
      have hxa : (s.object x).alive = true := (core_field VmObject.alive (fun _ => rfl) hc).symm.trans hx
      have hxs : (s.object x).shadow = some y := (core_field VmObject.shadow (fun _ => rfl) hc).symm.trans hxy
      refine hkeep y (h.shadow_alive x y hxa hxs) ?_
      rintro rfl
      exact hxo (h.only_shadow ha hs hr hxa hxs)
  · intro y hat
    by_cases hyo : y = object
    · rw [hyo]
      exact ⟨ha, hpar VmObject.size fun _ => rfl⟩
    · have hc := hcore y hyo hat
      exact ⟨(core_field VmObject.alive (fun _ => rfl) hc).symm.trans hat,
        core_field VmObject.size (fun _ => rfl) hc⟩

end MachVM
