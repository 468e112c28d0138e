import MachVM.PmapReach

namespace MachVM.I386

open Machine State

/-- An entry of a user pmap is valid for the hardware if it is for the software, and so it is with a frame. -/
structure Pte.Whole (pte : Pte) : Prop where
  valid : pte.valid = pte.swValid
  frame : pte.pfn ≠ 0 → pte.valid = true

/-- The entries of all user pmaps are whole. -/
def UserWhole (s : State) : Prop := ∀ p va pte, p ≠ kernelPmap → s.pmapPte p va = some pte → pte.Whole

variable {s r : State} {p : PmapId} {va : Va} {f : Frame} {pte : Pte} {e : Enter} {n : Nat}

theorem whole_empty : Pte.Whole {} := ⟨rfl, fun h => absurd rfl h⟩

theorem UserWhole.congr (h : UserWhole s) (hp : r.pmapPte = s.pmapPte) : UserWhole r := by
  intro q w x hq hx
  rw [hp] at hx
  exact h q w x hq hx

theorem UserWhole.writePte (h : UserWhole s) (hw : p ≠ kernelPmap → pte.Whole) : UserWhole (s.writePte p va pte) := by
  intro q w x hq hx
  rw [writePte_pmapPte] at hx
  split at hx
  next he =>
    obtain ⟨y, -, rfl⟩ := Option.map_eq_some_iff.mp hx
    exact hw (he.1 ▸ hq)
  next => exact h q w x hq hx

theorem UserWhole.setPde {i : Nat} {d : Option Pde} (h : UserWhole s) (hd : ∀ x, d = some x → ∀ k, (x.table k).Whole) :
    UserWhole (s.setPde p i d) := by
  intro q w x hq hx
  by_cases hi : q = p ∧ pdenum w = i
  · obtain ⟨rfl, rfl⟩ := hi
    cases hm : s.pmaps q with
    | none => simp [pmapPte, State.setPde, setPmap, hm] at hx
    | some m =>
      cases d with
      | none => simp [pmapPte, State.setPde, setPmap, hm] at hx
      | some y =>
        simp [pmapPte, State.setPde, setPmap, hm] at hx
        exact hx ▸ hd y rfl _
  · rw [setPde_pmapPte s p i d q w hi] at hx
    exact h q w x hq hx

theorem Pte.Whole.congr {x : Pte} (h : pte.Whole) (hv : x.valid = pte.valid) (hs : x.swValid = pte.swValid)
    (hf : x.pfn = pte.pfn) : x.Whole :=
  ⟨by rw [hv, hs, h.valid], fun h0 => by rw [hv]; exact h.frame (hf ▸ h0)⟩

theorem Pte.Whole.protect (h : pte.Whole) (prot : VmProt) (hp : p ≠ kernelPmap) :
    (i386Protection p prot pte.swValid pte).Whole := by
  have hv : (i386Protection p prot pte.swValid pte).valid = pte.swValid := if_neg hp
  exact h.congr (hv.trans h.valid.symm) rfl rfl

theorem template_whole (hp : e.pmap ≠ kernelPmap) : e.template.Whole := by
  have hv : e.template.valid = true := if_neg hp
  exact ⟨hv, fun _ => hv⟩

theorem reflectModify_whole (h : UserWhole s) : UserWhole (reflectModify s pte) := h.congr reflectModify_pmapPte

theorem removePte_whole (h : UserWhole s) : Gives (removePte s p va) (fun _ => True) UserWhole := by
  unfold removePte
  split
  next => split <;> first | exact trivial | exact h
  next pte hp =>
    split
    next => exact h
    next =>
      split
      next => exact h
      next =>
        cases pvRemove (s.pvHeadTable pte.pfn) p va with
        | error x => exact trivial
        | ok head => exact ((reflectModify_whole h).writePte fun _ => whole_empty).congr rfl

theorem pmapRemoveRange_whole (h : UserWhole s) : Gives (pmapRemoveRange s p va n) (fun _ => True) UserWhole :=
  sweep_gives (fun _ => UserWhole) (fun _ _ _ _ hr => removePte_whole hr) h

theorem removeAllLoop_whole (h : UserWhole s) : Gives (removeAllLoop f s n) (fun _ => True) UserWhole := by
  induction n generalizing s with
  | zero => exact h
  | succ n ih =>
    rw [removeAllLoop]
    split
    next => exact h
    next q hq =>
      refine Gives.bind (p := UserWhole) ?_ fun r hr => ih hr
      unfold removeHead
      dsimp only
      repeat' split
      all_goals first | exact trivial | exact ((reflectModify_whole h).writePte fun _ => whole_empty).congr rfl

theorem protectPte_whole (h : UserWhole s) (prot : VmProt) :
    Gives (protectPte s p prot va) (fun _ => True) UserWhole := by
  unfold protectPte
  split
  next => split <;> first | exact trivial | exact h
  next pte hp =>
    split
    next => exact h.writePte fun hk => (h p va pte hk hp).protect prot hk
    next => exact h

theorem copyOnWriteElem_whole (h : UserWhole s) (x : PmapId × Va) :
    Gives (copyOnWriteElem s x) (fun _ => True) UserWhole := by
  unfold copyOnWriteElem
  split
  next => exact trivial
  next pte hp =>
    split
    next => exact trivial
    next =>
      split
      next => exact h.writePte fun hk => (h x.1 x.2 pte hk hp).protect protRead hk
      next => exact h

theorem pmapCopyOnWrite_whole (h : UserWhole s) (f : Frame) :
    Gives (pmapCopyOnWrite s f) (fun _ => True) UserWhole :=
  visit_gives UserWhole (fun _ x _ hr => copyOnWriteElem_whole hr x) h

theorem pmapRemoveAll_whole (h : UserWhole s) (f : Frame) : Gives (pmapRemoveAll s f) (fun _ => True) UserWhole := by
  unfold pmapRemoveAll
  split
  next => exact removeAllLoop_whole h
  next => exact h

theorem pvEnter_pmapPte {q : State} (h : pvEnter s e = some q) : q.pmapPte = s.pmapPte := by
  obtain ⟨-, rfl⟩ | ⟨-, head, rfl, -⟩ := pvEnter_eq_some h <;> rfl

theorem pmapEnter_whole (h : UserWhole s) : Gives (pmapEnter s e) (fun _ => True) fun r => UserWhole r.1 := by
  unfold pmapEnter
  split
  next => exact h
  next pte hp =>
    split
    next => exact h.writePte fun hk => (template_whole hk).congr rfl rfl rfl
    next =>
      have h0 : Gives (if pte.pfn ≠ 0 then pmapRemoveRange s e.pmap e.v 1 else .ok s) (fun _ => True) UserWhole := by
        split
        next => exact pmapRemoveRange_whole h
        next => exact h
      refine h0.bind fun r hr => ?_
      split
      next => exact hr
      next q hq => exact (hr.congr (pvEnter_pmapPte hq)).writePte template_whole

theorem pmapExpand_whole {page : Option Va} (h : UserWhole s) :
    Gives (pmapExpand s p va page) (fun _ => True) UserWhole := by
  unfold pmapExpand
  split
  next => exact trivial
  next =>
    split
    next => exact h
    next kv =>
      split
      next => exact h
      next => exact h.setPde fun x hx k => by cases Option.some.inj hx; exact whole_empty

theorem collectPde_whole {i : Nat} (h : UserWhole s) : Gives (collectPde s p i) (fun _ => True) UserWhole := by
  unfold collectPde
  split
  next => exact h
  next d hd =>
    split
    next => exact trivial
    next =>
      generalize (List.range nptes).any (fun k => (d.table k).wired) = wired
      cases wired with
      | true => exact h
      | false => exact (pmapRemoveRange_whole h).bind fun r hr => hr.setPde fun x hx => by cases hx

theorem updateWalk_whole {check clr : PhysAttributes} (h : UserWhole s) (xs : List (PmapId × Va)) :
    Gives (updateWalk f check clr s xs) (fun _ => True) fun r => UserWhole r.1 := by
  induction xs generalizing s with
  | nil => exact h.congr rfl
  | cons x xs ih =>
    rw [updateWalk]
    split
    next => exact trivial
    next pte hp =>
      dsimp only
      have hs : UserWhole (s.setAttributes f ((s.physAttributes f).or pte.attributes)) := h.congr rfl
      split
      next =>
        split
        next => exact hs
        next => exact ih hs
      next => exact ih (hs.writePte fun hk => (h x.1 x.2 pte hk hp).congr rfl rfl rfl)

theorem updatePhysAttributes_whole {check clr : PhysAttributes} (h : UserWhole s) :
    Gives (updatePhysAttributes s f check clr) (fun _ => True) fun r => UserWhole r.1 := by
  unfold updatePhysAttributes
  split
  next => exact h
  next => exact updateWalk_whole h _

theorem proceed_whole {t : ThreadId} {page : Option Va} (h : UserWhole s) (op : Op) :
    Gives (proceed s t page op) (fun _ => True) UserWhole := by
  unfold proceed
  split
  next e =>
    split
    next => exact (pmapEnter_whole h).bind fun r hr => hr.congr rfl
    next => exact (pmapExpand_whole h).bind fun r hr => hr.congr rfl
    next => exact h.congr rfl
  next p i =>
    split
    next => exact (collectPde_whole h).bind fun r hr => hr.congr rfl
    next => exact h.congr rfl
  next p i =>
    split
    next =>
      have hd : Gives (destroyPde s p i) (fun _ => True) UserWhole := by
        unfold destroyPde
        split
        next => exact h
        next =>
          split
          next => exact h
          next => exact trivial
      exact hd.bind fun r hr => hr.congr rfl
    next =>
      intro q w x hq hx
      by_cases hp : q = p
      · subst hp
        simp [pmapPte, setPmap, State.setOp] at hx
      · exact h q w x hq ((setPmap_pmapPte_of_ne hp).symm.trans hx)

theorem setRefCount_whole {c : Nat} (h : UserWhole s) : UserWhole (setRefCount s p c) := by
  refine h.congr ?_
  funext q w
  by_cases hq : q = p
  · subst hq
    cases hm : s.pmaps q <;> simp [pmapPte, setRefCount, setPmap, hm]
  · exact setPmap_pmapPte_of_ne hq

theorem step_whole (h : UserWhole s) (a : Action) : Gives (step s a) (fun _ => True) UserWhole := by
  cases a with
  | create p =>
    intro q w x hq hx
    by_cases hp : q = p
    · subst hp
      simp [pmapPte, pmapCreate, setPmap] at hx
    · exact h q w x hq ((setPmap_pmapPte_of_ne hp).symm.trans hx)
  | reference p => exact setRefCount_whole h
  | destroy t p =>
    rw [step]
    split
    next => exact (setRefCount_whole h).congr rfl
    next => exact setRefCount_whole h
  | enter t p v pa prot wired => exact h.congr rfl
  | remove p va n => exact pmapRemoveRange_whole h
  | removeAll f => exact pmapRemoveAll_whole h f
  | copyOnWrite f => exact pmapCopyOnWrite_whole h f
  | pageProtect f prot =>
    rw [step, pmapPageProtect]
    split
    next => exact pmapCopyOnWrite_whole h f
    next =>
      split
      next => exact h
      next => exact pmapRemoveAll_whole h f
  | protect p va n prot => exact sweep_gives (fun _ => UserWhole) (fun _ _ _ _ hr => protectPte_whole hr prot) h
  | changeWiring p va wired =>
    rw [step, pmapChangeWiring]
    split
    next => exact trivial
    next pte hp => exact h.writePte fun hk => (h p va pte hk hp).congr rfl rfl rfl
  | collect t p =>
    rw [step]
    split
    next => exact trivial
    next => exact h.congr rfl
  | clearModify f =>
    rw [step, pmapClearModify]
    split
    next => exact (updatePhysAttributes_whole h).bind fun r hr => hr.congr rfl
    next => exact h
  | isModified f =>
    rw [step, pmapIsModified]
    split
    next => exact (updatePhysAttributes_whole h).bind fun r hr => hr
    next => exact h
  | clearReference f =>
    rw [step, pmapClearReference]
    split
    next => exact (updatePhysAttributes_whole h).bind fun r hr => hr
    next => exact h
  | isReferenced f =>
    rw [step, pmapIsReferenced]
    split
    next => exact (updatePhysAttributes_whole h).bind fun r hr => hr
    next => exact h
  | read p va =>
    rw [step]
    split
    next => exact h
    next pte hp => exact h.writePte fun hk => (h p va pte hk hp).congr rfl rfl rfl
  | write p va sup =>
    rw [step]
    split
    next => exact h
    next pte hp =>
      have hw : UserWhole (s.writePte p va { pte with ref := true, modify := true }) :=
        h.writePte fun hk => (h p va pte hk hp).congr rfl rfl rfl
      exact hw.congr rfl
  | proceed t page =>
    rw [step]
    split
    next => exact h
    next op ht => exact proceed_whole h op

theorem reachable_whole (h : Reachable s) : UserWhole s := by
  refine h.invariant (fun s hs p va pte hp hx => ?_) fun r a q hr _ hs => ?_
  · rw [pmapPte, hs.users p hp] at hx
    cases hx
  · exact (step_whole hr a).of_ok (toOption_eq_some hs)

/-! ### `pmap_page_protect` -/

/-- What `pmap_copy_on_write` makes of an entry. -/
def lowered (p : PmapId) (pte : Pte) : Pte :=
  if pte.prot = .uw then i386Protection p protRead pte.swValid pte else pte

variable {x : PmapId × Va} {q : State}

theorem lowered_pfn (p : PmapId) (pte : Pte) : (lowered p pte).pfn = pte.pfn := by
  unfold lowered
  split <;> rfl

theorem copyOnWriteElem_mapping (hc : Coherent s) (hx : x ∈ s.pvList f) (h : copyOnWriteElem s x = .ok r) :
    r.mapping = Function.update s.mapping x ((s.mapping x).map (lowered x.1)) := by
  obtain ⟨pte, hm, -, hd, hp, -⟩ := hc.pte_of_mem hx
  unfold copyOnWriteElem at h
  rw [hp] at h
  dsimp only at h
  rw [if_neg (by simp [hc.present _ _ hm])] at h
  rw [hm, Option.map_some]
  split at h
  next hu =>
    cases Except.ok.inj h
    rw [writePte_mapping _ hd hp, lowered, if_pos hu, i386Protection_pfn, if_pos (mapping_eq_some.mp hm).2.2]
  next hu =>
    cases Except.ok.inj h
    rw [lowered, if_neg hu, ← hm, Function.update_eq_self]

theorem copyOnWrites_mapping {as : List (PmapId × Va)} (hc : Coherent s) (hs : ∀ x ∈ as, x ∈ s.pvList f)
    (hn : as.Nodup) (h : visit copyOnWriteElem s as = .ok r) : Coherent r ∧ r.layout = s.layout ∧
      ∀ x, r.mapping x = if x ∈ as then (s.mapping x).map (lowered x.1) else s.mapping x := by
  induction as generalizing s with
  | nil =>
    cases Except.ok.inj h
    exact ⟨hc, rfl, fun x => by simp⟩
  | cons a as ih =>
    obtain ⟨hna, hn⟩ := List.nodup_cons.mp hn
    rw [visit] at h
    cases hq : copyOnWriteElem s a with
    | error e => rw [hq] at h; cases h
    | ok q =>
      rw [hq] at h
      have ha := hs a List.mem_cons_self
      obtain ⟨hcq, hkq, hl⟩ := (copyOnWriteElem_gives hc ha).of_ok hq
      have hmq := copyOnWriteElem_mapping hc ha hq
      obtain ⟨hcr, hlr, hm⟩ := ih hcq (fun x hx => hl ▸ hs x (List.mem_cons_of_mem _ hx)) hn h
      refine ⟨hcr, hlr.trans hkq.layout, fun x => ?_⟩
      rw [hm, hmq]
      by_cases hx : x = a
      · subst hx
        rw [if_neg hna, Function.update_self, if_pos List.mem_cons_self]
      · rw [Function.update_of_ne hx]
        simp [hx]

theorem pmapCopyOnWrite_mapping (hc : Coherent s) (h : pmapCopyOnWrite s f = .ok r) : Coherent r ∧
    r.layout = s.layout ∧
      ∀ x, r.mapping x = (s.mapping x).map fun pte => if pte.pfn = f then lowered x.1 pte else pte := by
  obtain ⟨hcr, hl, hm⟩ := copyOnWrites_mapping hc (fun _ => id) (hc.lists.nodup f) h
  refine ⟨hcr, hl, fun x => ?_⟩
  rw [hm]
  cases hx : s.mapping x with
  | none => simp
  | some pte =>
    have hmem : x ∈ s.pvList f ↔ pte.pfn = f := by
      rw [hc.mem_pvList, hx]
      exact ⟨fun ⟨y, hy, hf⟩ => Option.some.inj hy ▸ hf, fun hf => ⟨pte, rfl, hf⟩⟩
    by_cases hf : pte.pfn = f
    · rw [if_pos (hmem.mpr hf), Option.map_some, Option.map_some, if_pos hf]
    · rw [if_neg (mt hmem.mp hf), Option.map_some, if_neg hf]

theorem removeHead_mapping (hc : Coherent s) (hp : (s.pvHeadTable f).pmap = some p) (h : removeHead s f p = .ok r) :
    ∃ v pte, s.mapping (p, v) = some pte ∧ pte.pfn = f ∧ r.mapping = Function.update s.mapping (p, v) none := by
  have he : s.pvList f = (p, (s.pvHeadTable f).va) :: (s.pvHeadTable f).next := by
    simp only [pvList, PvHead.elems, hp]
  obtain ⟨pte, hx, hf, _, hpte, _⟩ := hc.pte_of_mem (he ▸ List.mem_cons_self)
  refine ⟨(s.pvHeadTable f).va, pte, hx, hf, ?_⟩
  unfold removeHead at h
  dsimp only at hpte h
  rw [hpte] at h
  dsimp only at h
  rw [if_neg (by simp [hc.present _ _ hx]), if_neg (by simp [hf])] at h
  split at h
  next => cases h
  next =>
    cases Except.ok.inj h
    exact unmap_mapping hx

theorem removeAllLoop_mapping (hc : Coherent s) (h : removeAllLoop f s n = .ok r) :
    r.layout = s.layout ∧ ∀ x pte, pte.pfn ≠ f → (r.mapping x = some pte ↔ s.mapping x = some pte) := by
  induction n generalizing s with
  | zero =>
    cases Except.ok.inj h
    exact ⟨rfl, fun _ _ _ => .rfl⟩
  | succ n ih =>
    rw [removeAllLoop] at h
    split at h
    next =>
      cases Except.ok.inj h
      exact ⟨rfl, fun _ _ _ => .rfl⟩
    next p hp =>
      cases hq : removeHead s f p with
      | error e => rw [hq] at h; cases h
      | ok q =>
        rw [hq] at h
        obtain ⟨hcq, hkq, -⟩ := (removeHead_gives hc hp).of_ok hq
        obtain ⟨v, old, hold, hf, hm⟩ := removeHead_mapping hc hp hq
        obtain ⟨hl, hr⟩ := ih hcq h
        refine ⟨hl.trans hkq.layout, fun x pte hne => (hr x pte hne).trans ?_⟩
        rw [hm]
        by_cases hx : x = (p, v)
        · subst hx
          rw [Function.update_self, hold]
          refine ⟨fun hh => absurd hh (by simp), fun hh => ?_⟩
          cases Option.some.inj hh
          exact absurd hf hne
        · rw [Function.update_of_ne hx]

theorem pmapRemoveAll_mapping (hc : Coherent s) (hg : s.managedPhys f = true) (h : pmapRemoveAll s f = .ok r) :
    Coherent r ∧ r.layout = s.layout ∧ ∀ x pte, r.mapping x = some pte ↔ s.mapping x = some pte ∧ pte.pfn ≠ f := by
  obtain ⟨hcr, -, hnil⟩ := (pmapRemoveAll_gives hc f).of_ok h
  unfold pmapRemoveAll at h
  rw [if_pos hg] at h
  obtain ⟨hl, hm⟩ := removeAllLoop_mapping hc h
  refine ⟨hcr, hl, fun x pte => ?_⟩
  by_cases hf : pte.pfn = f
  · have hno : r.mapping x ≠ some pte := fun hx => by
      have := hcr.mem_pvList.mpr ⟨pte, hx, hf⟩
      rw [hnil hg] at this
      cases this
    exact ⟨fun hx => absurd hx hno, fun hx => absurd hf hx.2⟩
  · rw [hm x pte hf]
    exact ⟨fun hx => ⟨hx, hf⟩, fun hx => hx.1⟩

end MachVM.I386
