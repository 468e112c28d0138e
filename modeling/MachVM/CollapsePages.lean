import MachVM.ObjectChainSteps
import MachVM.ObjectContent

namespace MachVM

/-- Where a page of the backing object is resident after it has been merged into the parent. -/
def moved (s : VmState) (object : ObjId) (backingOffset : VmOffset) (size : VmSize) (mem : PageId) :
    Option (ObjId × VmOffset × Bool × PageData) :=
  (cell s mem).bind fun c =>
    if c.2.1 < backingOffset ∨ size ≤ c.2.1 - backingOffset then none
    else if (vmPageLookup s object (c.2.1 - backingOffset)).isSome then none
    else some (object, c.2.1 - backingOffset, c.2.2)

variable {s t : VmState} {object backing : ObjId} {off backingOffset : VmOffset} {size : VmSize}
  {absent : Bool} {d : PageData} {mem : PageId}

theorem vmPageFree_tabled (h : ResidentInv s) (ht : (s.page mem).tabled = true) :
    ∃ t, vmPageFree s mem = some t := by
  have hf : (s.page mem).free = false := by
    by_contra hc
    have := h.free_untabled mem (by simpa using hc)
    rw [ht] at this
    cases this
  simp [vmPageFree, hf]

theorem vmPageRename_tabled (h : ResidentInv s) (hob : (s.page mem).object = some backing)
    (hne : backing ≠ object) (off : VmOffset) : ∃ t, vmPageRename s mem object off = some t := by
  have hneq : (s.page mem).object ≠ some object := by
    rw [hob]
    exact fun hc => hne (Option.some.inj hc)
  have hu : ((vmPageRemove s mem).page mem).tabled = false := by
    rw [vmPageRemove_page h.table]
    simp
  simp [vmPageRename, hneq, vmPageInsert, hu]

theorem collapsePage_cell (size : VmSize) (h : ResidentInv s) (hc : cell s mem = some (backing, off, absent, d))
    (hne : backing ≠ object)
    (hp : ∀ pp a d', cell s pp = some (object, off - backingOffset, a, d') → a = false) :
    ∃ t, collapsePage object backingOffset size s mem = .ok t ∧ ResidentInv t ∧ SameObjects s t ∧
      cell t = Function.update (cell s) mem (moved s object backingOffset size mem) := by
  obtain ⟨ht, hob, hof, -⟩ := cell_eq_some.mp hc
  obtain ⟨tf, htf⟩ := vmPageFree_tabled h ht
  have hfree := vmPageFree_cell h htf
  have hfok : pageResult (vmPageFree s mem) = .ok tf := by rw [htf]; rfl
  simp only [collapsePage, moved, hc, Option.bind_some, hof]
  split
  next hout => exact ⟨tf, hfok, vmPageFree_resident h htf, hfree.1, hfree.2⟩
  next hin =>
    cases hl : vmPageLookup s object (off - backingOffset) with
    | some pp =>
      obtain ⟨a, d', hcp⟩ := (lookup_iff_cell h.table).mp hl
      have ha : (s.page pp).absent = false := by
        rw [(cell_eq_some.mp hcp).2.2.2.1]
        exact hp pp a d' hcp
      simp only [ha, Option.isSome_some, if_true]
      exact ⟨tf, hfok, vmPageFree_resident h htf, hfree.1, hfree.2⟩
    | none =>
      have hft : (s.page mem).free = false := by
        by_contra hcon
        have := h.free_untabled mem (by simpa using hcon)
        rw [ht] at this
        cases this
      obtain ⟨t, hr⟩ := vmPageRename_tabled h hob hne (off - backingOffset)
      obtain ⟨h₁, h₂⟩ := vmPageRename_cell h hc hne hr
      refine ⟨t, by rw [hr]; rfl, vmPageRename_resident h hft (fun _ => hl) hr, h₁, ?_⟩
      simpa using h₂

theorem moved_congr {s' : VmState} {mem' : PageId} {off' : VmOffset} {absent' : Bool} {d' : PageData}
    (h : TableInv s) (h' : TableInv s') (hc : cell s mem = some (backing, off, absent, d))
    (hc' : cell s mem' = some (backing, off', absent', d')) (hm : mem' ≠ mem) (hne : backing ≠ object)
    (hs : cell s' = Function.update (cell s) mem (moved s object backingOffset size mem)) :
    (∀ pp a e, cell s' pp = some (object, off' - backingOffset, a, e) ↔
      cell s pp = some (object, off' - backingOffset, a, e)) ∧
    moved s' object backingOffset size mem' = moved s object backingOffset size mem' := by
  have hoff : off - backingOffset ≠ off' - backingOffset := by
    intro heq
    have hoo : off = off' := by
      have := congrArg (· + backingOffset) heq
      simpa using this
    subst hoo
    obtain ⟨h₁, h₂, h₃, -⟩ := cell_eq_some.mp hc
    obtain ⟨h₁', h₂', h₃', -⟩ := cell_eq_some.mp hc'
    exact hm (h.unique mem' mem h₁' h₁ (h₂'.trans h₂.symm) (h₃'.trans h₃.symm))
  have hcells : ∀ pp a e, cell s' pp = some (object, off' - backingOffset, a, e) ↔
      cell s pp = some (object, off' - backingOffset, a, e) := by
    intro pp a e
    rw [hs]
    by_cases hpm : pp = mem
    · subst hpm
      rw [Function.update_self, hc]
      constructor
      · intro hmv
        simp only [moved, hc, Option.bind_some] at hmv
        split at hmv
        next => cases hmv
        next =>
          split at hmv
          next => cases hmv
          next =>
            have := congrArg (fun c => c.2.1) (Option.some.inj hmv)
            exact absurd this hoff
      · intro hb
        exact absurd (congrArg Prod.fst (Option.some.inj hb)) hne
    · rw [Function.update_of_ne hpm]
  refine ⟨hcells, ?_⟩
  have hself : cell s' mem' = cell s mem' := by rw [hs, Function.update_of_ne hm]
  have hlook : (vmPageLookup s' object (off' - backingOffset)).isSome =
      (vmPageLookup s object (off' - backingOffset)).isSome := by
    rw [Bool.eq_iff_iff, Option.isSome_iff_exists, Option.isSome_iff_exists]
    refine exists_congr fun pp => ?_
    rw [lookup_iff_cell h, lookup_iff_cell h']
    exact exists_congr fun a => exists_congr fun e => hcells pp a e
  simp only [moved, hself, hc', Option.bind_some, hlook]

theorem collapsePages_cell (backingOffset : VmOffset) (size : VmSize) (q : List PageId) (s : VmState) (h : ResidentInv s) (hq : q.Nodup)
    (hb : ∀ mem ∈ q, ∃ off a e, cell s mem = some (backing, off, a, e)) (hne : backing ≠ object)
    (hp : ∀ pp off a e, cell s pp = some (object, off, a, e) → a = false ∨
      ∀ mem ∈ q, ∀ off' a' e', cell s mem = some (backing, off', a', e') → off' - backingOffset ≠ off) :
    ∃ t, q.foldlM (collapsePage object backingOffset size) s = .ok t ∧ ResidentInv t ∧ SameObjects s t ∧
      ∀ mem, cell t mem = if mem ∈ q then moved s object backingOffset size mem else cell s mem := by
  induction q generalizing s with
  | nil => exact ⟨s, rfl, h, SameObjects.refl s, fun mem => by simp⟩
  | cons mem q ih =>
    obtain ⟨off, a, e, hc⟩ := hb mem List.mem_cons_self
    have hnot : mem ∉ q := (List.nodup_cons.mp hq).1
    have hpm : ∀ pp a' e', cell s pp = some (object, off - backingOffset, a', e') → a' = false := by
      intro pp a' e' hpp
      cases hp pp _ a' e' hpp with
      | inl ha => exact ha
      | inr hno => exact absurd rfl (hno mem List.mem_cons_self off a e hc)
    obtain ⟨s₁, he₁, h₁, ho₁, hs₁⟩ := collapsePage_cell size h hc hne hpm
    have hrest : ∀ mem' ∈ q, cell s₁ mem' = cell s mem' ∧
        moved s₁ object backingOffset size mem' = moved s object backingOffset size mem' := by
      intro mem' hm'
      have hmm : mem' ≠ mem := by
        rintro rfl
        exact hnot hm'
      obtain ⟨off', a', e', hc'⟩ := hb mem' (List.mem_cons_of_mem _ hm')
      exact ⟨by rw [hs₁, Function.update_of_ne hmm],
        (moved_congr h.table h₁.table hc hc' hmm hne hs₁).2⟩
    have hb₁ : ∀ mem' ∈ q, ∃ off a e, cell s₁ mem' = some (backing, off, a, e) := by
      intro mem' hm'
      rw [(hrest mem' hm').1]
      exact hb mem' (List.mem_cons_of_mem _ hm')
    have hp₁ : ∀ pp off a e, cell s₁ pp = some (object, off, a, e) → a = false ∨
        ∀ mem ∈ q, ∀ off' a' e', cell s₁ mem = some (backing, off', a', e') →
          off' - backingOffset ≠ off := by
      intro pp off₂ a₂ e₂ hpp
      by_cases hmem : ∃ mem' ∈ q, ∃ off' a' e', cell s₁ mem' = some (backing, off', a', e') ∧
          off' - backingOffset = off₂
      · obtain ⟨mem', hm', off', a', e', hc₁, rfl⟩ := hmem
        have hmm : mem' ≠ mem := by
          rintro rfl
          exact hnot hm'
        have hc' := hc₁
        rw [(hrest mem' hm').1] at hc'
        have hpp' := ((moved_congr h.table h₁.table hc hc' hmm hne hs₁).1 pp a₂ e₂).mp hpp
        cases hp pp _ a₂ e₂ hpp' with
        | inl ha => exact Or.inl ha
        | inr hno => exact absurd rfl (hno mem' (List.mem_cons_of_mem _ hm') off' a' e' hc')
      · right
        intro mem' hm' off' a' e' hc' heq
        exact hmem ⟨mem', hm', off', a', e', hc', heq⟩
    obtain ⟨t, het, ht, hot, hct⟩ := ih s₁ h₁ (List.nodup_cons.mp hq).2 hb₁ hp₁
    refine ⟨t, ?_, ht, ho₁.trans hot, ?_⟩
    · rw [List.foldlM_cons, he₁]
      exact het
    · intro mem'
      rw [hct mem']
      by_cases hmm : mem' = mem
      · subst hmm
        simp only [hnot, if_false, List.mem_cons_self, if_true]
        rw [hs₁, Function.update_self]
      · by_cases hm' : mem' ∈ q
        · simp [hm', (hrest mem' hm').2]
        · simp [hm', hmm, hs₁]

end MachVM

namespace MachVM

open Tally

/-- The shape of shadow chains that `vm_object_collapse` relies on: references cover the live
shadows of an object, a shadow shows a part of what it shadows, and a page is absent only
while its object has a pager to get it from or paging in progress. -/
structure CollapseInv (s : VmState) : Prop where
  resident : ResidentInv s
  fresh : ∀ o, s.nextObject ≤ o → (s.object o).alive = false
  shadow_alive : ∀ x y, (s.object x).alive = true → (s.object x).shadow = some y →
    (s.object y).alive = true
  counted : ∀ y, (s.object y).alive = true → (s.graph.shadowRefs y : Int) ≤ (s.object y).refCount
  contained : ∀ x y, (s.object x).alive = true → (s.object x).shadow = some y →
    ((s.object y).internal = true ∨ (s.object y).shadow ≠ none) →
    (s.object x).shadowOffset.toNat + (s.object x).size.toNat ≤ (s.object y).size.toNat
  pager_created : ∀ o, (s.object o).alive = true → (s.object o).pager ≠ none →
    (s.object o).pagerCreated = true
  no_absent : ∀ o, (s.object o).alive = true → (s.object o).pager = none →
    (s.object o).pagingInProgress = 0 → ∀ mem off a d, cell s mem = some (o, off, a, d) → a = false

/-- The parent takes over the pager and the shadow of the backing object. -/
def mergedParent (x b : VmObject) : VmObject :=
  { x with
    pager := b.pager, pagerInitialized := b.pagerInitialized, pagerReady := b.pagerReady
    pagerCreated := b.pagerCreated, pagerRequest := b.pagerRequest, pagerName := b.pagerName
    pagingOffset := b.pagingOffset + x.shadowOffset
    shadow := b.shadow, shadowOffset := x.shadowOffset + b.shadowOffset }

/-- The state after the backing object has been merged into its parent. -/
structure Merged (s : VmState) (object backing : ObjId) (t : VmState) : Prop where
  resident : ResidentInv t
  next : t.nextObject = s.nextObject
  pagerData : t.pagerData = s.pagerData
  cell_other : ∀ mem, (∀ off a d, cell s mem ≠ some (backing, off, a, d)) → cell t mem = cell s mem
  cell_backing : ∀ mem off a d, cell s mem = some (backing, off, a, d) →
    cell t mem = moved s object (s.object object).shadowOffset (s.object object).size mem
  other : ∀ y, y ≠ object → y ≠ backing → (t.object y).core = (s.object y).core
  parent : (t.object object).core = (mergedParent (s.object object) (s.object backing)).core
  gone : (t.object backing).alive = false

variable {s t : VmState} {object backing o : ObjId} {off : VmOffset} {d : PageData}

theorem mem_memq_iff_cell (h : TableInv s) {mem : PageId} : mem ∈ (s.object o).memq ↔
    ∃ off a d, cell s mem = some (o, off, a, d) := by
  rw [(h.memq o).mem_iff]
  constructor
  · rintro ⟨ht, ho⟩
    exact ⟨_, _, _, cell_eq_some.mpr ⟨ht, ho, rfl, rfl, rfl⟩⟩
  · rintro ⟨off, a, d, hc⟩
    obtain ⟨ht, ho, -⟩ := cell_eq_some.mp hc
    exact ⟨ht, ho⟩

theorem ResidentInv.modObject {f : VmObject → VmObject} (h : ResidentInv s)
    (hf : ∀ x, (f x).memq = x.memq ∧ (f x).residentPageCount = x.residentPageCount) :
    ResidentInv (s.modObject o f) := by
  refine ⟨QueueInv.congr h.queues (fun _ => ⟨rfl, rfl, rfl, rfl⟩) rfl rfl rfl rfl rfl rfl,
    TableInv.congr h.table (fun _ => ⟨rfl, rfl, rfl⟩) rfl rfl ?_, h.free_untabled⟩
  intro y
  rw [modObject_object]
  split
  next hy =>
    rw [hy]
    exact hf (s.object o)
  next => exact ⟨rfl, rfl⟩

theorem modObject_cell (s : VmState) (o : ObjId) (f : VmObject → VmObject) :
    cell (s.modObject o f) = cell s := rfl

theorem collapseInto_merged (h : CollapseInv s) (ha : (s.object object).alive = true)
    (hp : (s.object object).pager = none) (hg : (s.object object).pagingInProgress = 0)
    (hne : backing ≠ object)
    (hz : ∀ z ∈ (s.object backing).shadow, (s.object z).copy = none) :
    ∃ t, collapseInto s object backing = .ok t ∧ Merged s object backing t := by
  have hb : ∀ mem ∈ (s.object backing).memq, ∃ off a e, cell s mem = some (backing, off, a, e) :=
    fun mem hm => (mem_memq_iff_cell h.resident.table).mp hm
  obtain ⟨u, hu, hres, hsame, hcell⟩ := collapsePages_cell (s.object object).shadowOffset
    (s.object object).size (s.object backing).memq s h.resident
    (h.resident.table.memq backing).nodup hb hne
    (fun pp off a e hc => Or.inl (h.no_absent object ha hp hg pp off a e hc))
  have hcore := hsame.core
  have hshadow : (u.object backing).shadow = (s.object backing).shadow :=
    core_field VmObject.shadow (fun _ => rfl) (hcore backing)
  have hcopy : ∀ z, (u.object z).copy = (s.object z).copy :=
    fun z => core_field VmObject.copy (fun _ => rfl) (hcore z)
  have hno : ¬((u.object backing).shadow.any fun z =>
      ((((u.modObject object fun x => { x with
        pager := (u.object backing).pager, pagerInitialized := (u.object backing).pagerInitialized
        pagerReady := (u.object backing).pagerReady, pagerCreated := (u.object backing).pagerCreated
        pagerRequest := (u.object backing).pagerRequest, pagerName := (u.object backing).pagerName
        pagingOffset := (u.object backing).pagingOffset + (s.object object).shadowOffset
        shadow := (u.object backing).shadow
        shadowOffset := x.shadowOffset + (u.object backing).shadowOffset }).modObject backing fun x =>
          { x with pager := none, pagerRequest := none, pagerName := none }).object z).copy.isSome)) = true := by
    rw [Option.any_eq_true, hshadow]
    rintro ⟨z, hzs, hzc⟩
    have hcz : (u.object z).copy = none := (hcopy z).trans (hz z hzs)
    rw [modObject_object, modObject_object, modObject_object] at hzc
    by_cases hzb : z = backing
    · subst hzb
      simp [hne, hcz] at hzc
    · by_cases hzo : z = object
      · subst hzo
        simp [hzb, hcz] at hzc
      · simp [hzb, hzo, hcz] at hzc
  simp only [collapseInto, hu, bind, Except.bind]
  rw [if_neg hno]
  refine ⟨_, rfl, ?_, hsame.next, hsame.pagerData, ?_, ?_, ?_, ?_, ?_⟩
  · refine ResidentInv.modObject (ResidentInv.modObject (ResidentInv.modObject hres ?_) ?_) ?_
    all_goals
      intro x
      exact ⟨rfl, rfl⟩
  · intro mem hm
    rw [modObject_cell, modObject_cell, modObject_cell, hcell mem, if_neg]
    intro hmem
    obtain ⟨off, a, e, hc⟩ := hb mem hmem
    exact hm off a e hc
  · intro mem off a e hc
    rw [modObject_cell, modObject_cell, modObject_cell, hcell mem, if_pos]
    exact (mem_memq_iff_cell h.resident.table).mpr ⟨off, a, e, hc⟩
  · intro y hyo hyb
    simp only [modObject_object, hyo, hyb, if_false]
    exact hcore y
  · simp only [modObject_object, Ne.symm hne, if_false, if_true]
    have ho := hcore object
    have hk := hcore backing
    simp only [VmObject.core, mergedParent, VmObject.mk.injEq] at ho hk ⊢
    simp [ho, hk]
  · simp [modObject_object]

end MachVM
