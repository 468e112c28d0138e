import MachVM.ObjectPages
import MachVM.ResidentSteps

namespace MachVM

/-- The data of a resident page, if there is one and it is not absent. -/
def residentData (s : VmState) (o : ObjId) (off : VmOffset) : Option PageData :=
  (vmPageLookup s o off).bind fun mem => if (s.page mem).absent then none else some (s.page mem).data

/-- What an object itself has at an offset: a page, or else data with its pager. -/
def ownData (s : VmState) (o : ObjId) (off : VmOffset) : Option PageData :=
  (residentData s o off).or
    ((s.object o).pager.bind fun pager => s.pagerData pager (off + (s.object o).pagingOffset))

/-- The content seen through an object, found by walking its shadow chain. -/
inductive Content (s : VmState) : ObjId → VmOffset → PageData → Prop
  | own {o : ObjId} {off : VmOffset} {d : PageData} : ownData s o off = some d → Content s o off d
  | deeper {o b : ObjId} {off : VmOffset} {d : PageData} : ownData s o off = none →
      (s.object o).shadow = some b → Content s b (off + (s.object o).shadowOffset) d → Content s o off d
  | zero {o : ObjId} {off : VmOffset} : ownData s o off = none → (s.object o).shadow = none →
      Content s o off zeroPage

/-- A shadow chain of a given length. -/
inductive ShadowChain (s : VmState) : ObjId → Nat → Prop
  | last {o : ObjId} : (s.object o).shadow = none → ShadowChain s o 0
  | next {o b : ObjId} {n : Nat} : (s.object o).shadow = some b → ShadowChain s b n →
      ShadowChain s o (n + 1)

variable {s t u : VmState} {o b : ObjId} {off : VmOffset} {d d' : PageData} {mem : PageId} {n n' : Nat}

theorem Content.unique (h : Content s o off d) (h' : Content s o off d') : d' = d := by
  induction h with
  | own ho =>
    cases h' with
    | own ho' => exact Option.some.inj (ho'.symm.trans ho)
    | deeper hn => exact absurd (hn.symm.trans ho) (by simp)
    | zero hn => exact absurd (hn.symm.trans ho) (by simp)
  | deeper hn hs _ ih =>
    cases h' with
    | own ho => exact absurd (hn.symm.trans ho) (by simp)
    | deeper _ hs' hb =>
      cases Option.some.inj (hs.symm.trans hs')
      exact ih hb
    | zero _ hs' => exact absurd (hs.symm.trans hs') (by simp)
  | zero hn hs =>
    cases h' with
    | own ho => exact absurd (hn.symm.trans ho) (by simp)
    | deeper _ hs' => exact absurd (hs.symm.trans hs') (by simp)
    | zero => rfl

theorem ShadowChain.content (h : ShadowChain s o n) (off : VmOffset) : ∃ d, Content s o off d := by
  induction h generalizing off with
  | @last o hs =>
    cases ho : ownData s o off with
    | some d => exact ⟨d, .own ho⟩
    | none => exact ⟨_, .zero ho hs⟩
  | @next o b n hs _ ih =>
    cases ho : ownData s o off with
    | some d => exact ⟨d, .own ho⟩
    | none =>
      obtain ⟨d, hd⟩ := ih (off + (s.object o).shadowOffset)
      exact ⟨d, .deeper ho hs hd⟩

theorem ShadowChain.unique (h : ShadowChain s o n) (h' : ShadowChain s o n') : n' = n := by
  induction h generalizing n' with
  | last hs =>
    cases h' with
    | last => rfl
    | next hs' => exact absurd (hs.symm.trans hs') (by simp)
  | next hs _ ih =>
    cases h' with
    | last hs' => exact absurd (hs.symm.trans hs') (by simp)
    | next hs' hb =>
      cases Option.some.inj (hs.symm.trans hs')
      rw [ih hb]

theorem ShadowChain.congr (h : ShadowChain s o n)
    (hs : ∀ y m, ShadowChain s y m → m ≤ n → (t.object y).shadow = (s.object y).shadow) :
    ShadowChain t o n := by
  induction h with
  | @last o ho => exact .last ((hs o 0 (.last ho) (Nat.le_refl _)).trans ho)
  | @next o b n ho hb ih =>
    refine .next ((hs o (n + 1) (.next ho hb) (Nat.le_refl _)).trans ho) (ih ?_)
    intro y m hy hm
    exact hs y m hy (Nat.le_succ_of_le hm)

/-- What is resident where: the pair a tabled page is entered under, and what it shows. -/
def cell (s : VmState) (mem : PageId) : Option (ObjId × VmOffset × Bool × PageData) :=
  if (s.page mem).tabled then
    (s.page mem).object.map fun o => (o, (s.page mem).offset, (s.page mem).absent, (s.page mem).data)
  else none

theorem cell_eq_some {absent : Bool} : cell s mem = some (o, off, absent, d) ↔
    (s.page mem).tabled = true ∧ (s.page mem).object = some o ∧ (s.page mem).offset = off ∧
      (s.page mem).absent = absent ∧ (s.page mem).data = d := by
  unfold cell
  by_cases ht : (s.page mem).tabled = true
  · cases ho : (s.page mem).object with
    | none => simp [ht]
    | some x => simp [ht]
  · simp [ht]

theorem lookup_iff_cell (h : TableInv s) : vmPageLookup s o off = some mem ↔
    ∃ absent d, cell s mem = some (o, off, absent, d) := by
  rw [vmPageLookup_eq_some h]
  constructor
  · rintro ⟨ht, ho, hf⟩
    exact ⟨_, _, cell_eq_some.mpr ⟨ht, ho, hf, rfl, rfl⟩⟩
  · rintro ⟨absent, d, hc⟩
    obtain ⟨ht, ho, hf, -⟩ := cell_eq_some.mp hc
    exact ⟨ht, ho, hf⟩

theorem residentData_iff (h : TableInv s) : residentData s o off = some d ↔
    ∃ mem, cell s mem = some (o, off, false, d) := by
  unfold residentData
  rw [Option.bind_eq_some_iff]
  constructor
  · rintro ⟨mem, hl, hd⟩
    obtain ⟨absent, d', hc⟩ := (lookup_iff_cell h).mp hl
    obtain ⟨-, -, -, ha, hd'⟩ := cell_eq_some.mp hc
    rw [ha, hd'] at hd
    cases absent with
    | true => cases hd
    | false =>
      cases Option.some.inj hd
      exact ⟨mem, hc⟩
  · rintro ⟨mem, hc⟩
    obtain ⟨-, -, -, ha, hd'⟩ := cell_eq_some.mp hc
    exact ⟨mem, (lookup_iff_cell h).mpr ⟨_, _, hc⟩, by simp [ha, hd']⟩

theorem residentData_congr (hs : TableInv s) (ht : TableInv t)
    (hc : ∀ mem absent d, cell t mem = some (o, off, absent, d) ↔ cell s mem = some (o, off, absent, d)) :
    residentData t o off = residentData s o off := by
  refine Option.ext ?_
  intro d
  rw [residentData_iff hs, residentData_iff ht]
  exact exists_congr fun mem => hc mem false d

/-- What page operations leave alone: everything of an object but its page list and counts. -/
def VmObject.core (x : VmObject) : VmObject :=
  { x with memq := [], residentPageCount := 0, absentCount := 0 }

theorem core_field {α : Type} (f : VmObject → α) (hf : ∀ x, f x.core = f x) {x y : VmObject}
    (h : x.core = y.core) : f x = f y := by
  rw [← hf x, h, hf y]

structure SameObjects (s t : VmState) : Prop where
  core : ∀ o, (t.object o).core = (s.object o).core
  next : t.nextObject = s.nextObject
  pagerData : t.pagerData = s.pagerData

theorem SameObjects.refl (s : VmState) : SameObjects s s := ⟨fun _ => rfl, rfl, rfl⟩

theorem SameObjects.trans (h : SameObjects s t) (h' : SameObjects t u) : SameObjects s u :=
  ⟨fun o => (h'.core o).trans (h.core o), h'.next.trans h.next, h'.pagerData.trans h.pagerData⟩

theorem SameObjects.setObject {x : VmObject} (hx : x.core = (s.object o).core) :
    SameObjects s (s.setObject o x) := by
  refine ⟨?_, rfl, rfl⟩
  intro y
  simp only [VmState.setObject]
  by_cases hy : y = o
  · subst hy
    rw [Function.update_self, hx]
  · rw [Function.update_of_ne hy]

theorem vmPageInsert_objects (h : vmPageInsert s mem o off = some t) : SameObjects s t := by
  unfold vmPageInsert at h
  split at h
  next => cases h
  next =>
    cases Option.some.inj h
    have h : SameObjects s (s.setObject o { s.object o with
        memq := queueEnter (s.object o).memq mem
        residentPageCount := (s.object o).residentPageCount + 1 }) := SameObjects.setObject rfl
    exact ⟨h.core, rfl, rfl⟩

theorem vmPageRemove_objects (s : VmState) (mem : PageId) : SameObjects s (vmPageRemove s mem) := by
  simp only [vmPageRemove]
  split
  next o _ _ =>
    have h : SameObjects s (s.setObject o { s.object o with
        memq := queueRemove (s.object o).memq mem
        residentPageCount := (s.object o).residentPageCount - 1 }) := SameObjects.setObject rfl
    exact ⟨h.core, rfl, rfl⟩
  next => exact SameObjects.refl s

theorem vmPageQueuesRemove_objects (s : VmState) (mem : PageId) :
    SameObjects s (vmPageQueuesRemove s mem) := by
  simp only [vmPageQueuesRemove]
  split <;> split <;> exact ⟨fun _ => rfl, rfl, rfl⟩

theorem vmObjectAbsentRelease_objects (s : VmState) (o : Option ObjId) :
    SameObjects s (vmObjectAbsentRelease s o) := by
  cases o with
  | none => exact SameObjects.refl s
  | some o => exact SameObjects.setObject rfl

theorem vmPageFree_cell (h : ResidentInv s) (he : vmPageFree s mem = some t) :
    SameObjects s t ∧ cell t = Function.update (cell s) mem none := by
  unfold vmPageFree at he
  split at he
  next => cases he
  next =>
    cases Option.some.inj he
    generalize hu : vmPageQueuesRemove (vmPageRemove s mem) mem = v
    have hobj : SameObjects s v := by
      rw [← hu]
      exact (vmPageRemove_objects s mem).trans (vmPageQueuesRemove_objects _ mem)
    have hpage : v.page = Function.update s.page mem
        { s.page mem with tabled := false, active := false, inactive := false } := by
      rw [← hu, vmPageQueuesRemove_page, vmPageRemove_page h.table]
      simp
    generalize hw : pageWakeup (laundryRelease v mem) mem = w
    have hobj₁ : SameObjects s w := by
      rw [← hw]
      exact hobj.trans ⟨fun _ => rfl, rfl, rfl⟩
    have hcell : ∀ x : VmState, (∀ y, y ≠ mem → x.page y = s.page y) → (x.page mem).tabled = false →
        cell x = Function.update (cell s) mem none := by
      intro x ho hm
      funext y
      by_cases hy : y = mem
      · subst hy
        rw [Function.update_self]
        simp [cell, hm]
      · rw [Function.update_of_ne hy]
        simp [cell, ho y hy]
    have hother : ∀ y, y ≠ mem → w.page y = s.page y := by
      intro y hy
      rw [← hw]
      simp [pageWakeup, laundryRelease, hpage, hy]
    have hself : (w.page mem).tabled = false := by
      rw [← hw]
      simp [pageWakeup, laundryRelease, hpage]
    generalize hx : (if (w.page mem).absent then vmObjectAbsentRelease w (w.page mem).object else w) = x
    have hpx : x.page = w.page := by
      rw [← hx]
      split
      next => exact vmObjectAbsentRelease_page w _
      next => rfl
    have hobj₂ : SameObjects s x := by
      rw [← hx]
      split
      next => exact hobj₁.trans (vmObjectAbsentRelease_objects w _)
      next => exact hobj₁
    split
    next => exact ⟨hobj₂, hcell x (by rw [hpx]; exact hother) (by rw [hpx]; exact hself)⟩
    next =>
      refine ⟨hobj₂.trans ⟨fun _ => rfl, rfl, rfl⟩, hcell _ ?_ ?_⟩
      · intro y hy
        simp [enterFree, hy, hpx, hother y hy]
      · simp [enterFree, hpx, hself]

theorem vmPageRename_cell {absent : Bool} (h : ResidentInv s) (hc : cell s mem = some (b, off, absent, d))
    (hne : b ≠ o) {off' : VmOffset} (he : vmPageRename s mem o off' = some t) :
    SameObjects s t ∧ cell t = Function.update (cell s) mem (some (o, off', absent, d)) := by
  obtain ⟨ht, hob, -, ha, hd⟩ := cell_eq_some.mp hc
  unfold vmPageRename at he
  rw [if_neg (by rw [hob]; exact fun hc => hne (Option.some.inj hc))] at he
  refine ⟨(vmPageRemove_objects s mem).trans (vmPageInsert_objects he), ?_⟩
  have hpage := (vmPageInsert_page he).2
  rw [vmPageRemove_page h.table] at hpage
  funext y
  by_cases hy : y = mem
  · subst hy
    rw [Function.update_self]
    refine cell_eq_some.mpr ?_
    simp [hpage, ha, hd]
  · rw [Function.update_of_ne hy]
    simp [cell, hpage, hy]

end MachVM
