import MachVM.CollapseContent

namespace MachVM

open Tally

variable {s t : VmState} {object backing o x y : ObjId} {off : VmOffset}

theorem shadows_congr {l l' : ObjLink} (ha : l.alive = l'.alive) (hs : l.shadow = l'.shadow) (y : ObjId) :
    shadows l y = shadows l' y := by
  simp only [shadows, ha, hs]

theorem shadowRefs_two (g g' : ObjGraph) {a b : ObjId} (hn : g'.next = g.next) (ha : a < g.next)
    (hb : b < g.next) (hab : a ≠ b) (ho : ∀ z, z ≠ a → z ≠ b → shadows (g'.link z) y = shadows (g.link z) y) :
    g'.shadowRefs y + (shadows (g.link a) y).toNat + (shadows (g.link b) y).toNat =
      g.shadowRefs y + (shadows (g'.link a) y).toNat + (shadows (g'.link b) y).toNat := by
  have h₁ := shadowRefs_set (l := g'.link a) ha y
  have hb' : b < (g.set a (g'.link a)).next := hb
  have h₂ := shadowRefs_set (l := g'.link b) hb' y
  rw [set_link_of_ne _ _ (Ne.symm hab)] at h₂
  have h₃ : g'.shadowRefs y = ((g.set a (g'.link a)).set b (g'.link b)).shadowRefs y := by
    refine shadowRefs_congr hn ?_
    intro z
    by_cases hzb : z = b
    · rw [hzb, set_link_self]
    · rw [set_link_of_ne _ _ hzb]
      by_cases hza : z = a
      · rw [hza, set_link_self]
      · rw [set_link_of_ne _ _ hza, ho z hza hzb]
  omega

theorem CollapseInv.lt (h : CollapseInv s) (ha : (s.object o).alive = true) : o < s.nextObject := by
  by_contra hc
  have := h.fresh o (Nat.le_of_not_lt hc)
  rw [ha] at this
  cases this

theorem Merged.inv (hm : Merged s object backing t) (hr : Rechained s object backing t) (h : CollapseInv s)
    (ha : (s.object object).alive = true) (hs : (s.object object).shadow = some backing)
    (hp : (s.object object).pager = none) (hg : (s.object object).pagingInProgress = 0)
    (hi : (s.object backing).internal = true) (hgb : (s.object backing).pagingInProgress = 0)
    (hne : backing ≠ object) : CollapseInv t := by
  have hpar : ∀ {α : Type} (f : VmObject → α), (∀ x, f x.core = f x) →
      f (t.object object) = f (mergedParent (s.object object) (s.object backing)) :=
    fun f hf => core_field f hf hm.parent
  have hoth : ∀ {α : Type} (f : VmObject → α), (∀ x, f x.core = f x) → ∀ y, y ≠ object → y ≠ backing →
      f (t.object y) = f (s.object y) :=
    fun f hf y hyo hyb => core_field f hf (hm.other y hyo hyb)
  have hab := h.shadow_alive object backing ha hs
  have hdead : ∀ y, (t.object y).alive = true → y ≠ backing := by
    rintro y hy rfl
    rw [hm.gone] at hy
    cases hy
  have halive : ∀ y, (t.object y).alive = true → (s.object y).alive = true := fun y hy => (hr.kept y hy).1
  have hsize : ∀ y, (t.object y).alive = true → (t.object y).size = (s.object y).size :=
    fun y hy => (hr.kept y hy).2
  have hcount : ∀ y, (t.object y).alive = true → (t.object y).refCount = (s.object y).refCount := by
    intro y hy
    by_cases hyo : y = object
    · rw [hyo]
      exact hpar VmObject.refCount fun _ => rfl
    · exact hoth VmObject.refCount (fun _ => rfl) y hyo (hdead y hy)
  refine ⟨hm.resident, ?_, hr.closed, ?_, ?_, ?_, ?_⟩
  · intro o ho
    by_contra hc
    have := h.lt (halive o (by simpa using hc))
    rw [hm.next] at ho
    exact Nat.lt_irrefl _ (Nat.lt_of_lt_of_le this ho)
  · intro y hy
    rw [hcount y hy]
    refine Int.le_trans ?_ (h.counted y (halive y hy))
    have htwo := shadowRefs_two (y := y) s.graph t.graph hm.next (h.lt ha) (h.lt hab)
      (Ne.symm hne) (by
        intro z hza hzb
        exact shadows_congr (hoth VmObject.alive (fun _ => rfl) z hza hzb)
          (hoth VmObject.shadow (fun _ => rfl) z hza hzb) y)
    have h₁ : shadows (s.graph.link object) y = false := by
      simp [shadows, VmState.graph, VmObject.link, hs, Ne.symm (hdead y hy)]
    have h₂ : shadows (t.graph.link backing) y = false := by
      simp [shadows, VmState.graph, VmObject.link, hm.gone]
    have h₃ : shadows (t.graph.link object) y = shadows (s.graph.link backing) y :=
      shadows_congr (hr.alive.trans hab.symm) hr.parent_shadow y
    rw [h₁, h₂, h₃] at htwo
    simp only [Bool.toNat_false] at htwo
    omega
  · intro x y hx hxy hcond
    have hy := hr.closed x y hx hxy
    rw [hsize x hx, hsize y hy]
    have hcond' : (s.object y).internal = true ∨ (s.object y).shadow ≠ none := by
      by_cases hyo : y = object
      · rw [hyo, hs]
        exact Or.inr (by simp)
      · rwa [hoth VmObject.internal (fun _ => rfl) y hyo (hdead y hy),
          hoth VmObject.shadow (fun _ => rfl) y hyo (hdead y hy)] at hcond
    by_cases hxo : x = object
    · subst hxo
      rw [hr.parent_shadow] at hxy
      have h₁ := h.contained x backing ha hs (Or.inl hi)
      have h₂ := h.contained backing y hab hxy hcond'
      rw [hr.parent_offset, BitVec.toNat_add, Nat.mod_eq_of_lt]
      · omega
      · have := (s.object y).size.isLt
        omega
    · have hxb := hdead x hx
      rw [hoth VmObject.shadow (fun _ => rfl) x hxo hxb] at hxy
      rw [hoth VmObject.shadowOffset (fun _ => rfl) x hxo hxb]
      exact h.contained x y (halive x hx) hxy hcond'
  · intro o ho hpo
    by_cases hoo : o = object
    · subst hoo
      rw [show (t.object o).pager = (s.object backing).pager from hpar VmObject.pager fun _ => rfl] at hpo
      rw [show (t.object o).pagerCreated = (s.object backing).pagerCreated from
        hpar VmObject.pagerCreated fun _ => rfl]
      exact h.pager_created backing hab hpo
    · have hob := hdead o ho
      rw [hoth VmObject.pager (fun _ => rfl) o hoo hob] at hpo
      rw [hoth VmObject.pagerCreated (fun _ => rfl) o hoo hob]
      exact h.pager_created o (halive o ho) hpo
  · intro o ho hpo hgo mem off a d hc
    by_cases hb : ∃ off' a' e', cell s mem = some (backing, off', a', e')
    · obtain ⟨off', a', e', hb⟩ := hb
      rw [hm.cell_backing mem off' a' e' hb, moved, hb, Option.bind_some] at hc
      split at hc
      next => cases hc
      next =>
        split at hc
        next => cases hc
        next =>
          have hc := Option.some.inj hc
          have hoo : object = o := congrArg Prod.fst hc
          have haa : a' = a := congrArg (fun c => c.2.2.1) hc
          subst hoo
          rw [show (t.object object).pager = (s.object backing).pager from
            hpar VmObject.pager fun _ => rfl] at hpo
          rw [← haa]
          exact h.no_absent backing hab hpo hgb mem off' a' e' hb
    · rw [hm.cell_other mem fun off' a' e' he => hb ⟨off', a', e', he⟩] at hc
      by_cases hoo : o = object
      · subst hoo
        exact h.no_absent o ha hp hg mem off a d hc
      · have hob := hdead o ho
        rw [hoth VmObject.pager (fun _ => rfl) o hoo hob] at hpo
        rw [hoth VmObject.pagingInProgress (fun _ => rfl) o hoo hob] at hgo
        exact h.no_absent o (halive o ho) hpo hgo mem off a d hc

theorem bypassBacking_pages (h : ResidentInv s) (object backing : ObjId) : ResidentInv (bypassBacking s object backing) ∧
    cell (bypassBacking s object backing) = cell s ∧
    (bypassBacking s object backing).pagerData = s.pagerData := by
  have hm : ∀ {u : VmState} {o : ObjId} {f : VmObject → VmObject},
      (∀ x, (f x).memq = x.memq ∧ (f x).residentPageCount = x.residentPageCount) →
      (ResidentInv u ∧ cell u = cell s ∧ u.pagerData = s.pagerData) →
      ResidentInv (u.modObject o f) ∧ cell (u.modObject o f) = cell s ∧
        (u.modObject o f).pagerData = s.pagerData :=
    fun hf hu => ⟨hu.1.modObject hf, hu.2.1, hu.2.2⟩
  simp only [bypassBacking]
  refine hm (by intro x; exact ⟨rfl, rfl⟩) ?_
  cases (s.object backing).shadow with
  | none =>
    simp only [vmObjectReference]
    exact hm (by intro x; exact ⟨rfl, rfl⟩) ⟨h, rfl, rfl⟩
  | some z =>
    simp only [vmObjectReference]
    exact hm (by intro x; exact ⟨rfl, rfl⟩) (hm (by intro x; exact ⟨rfl, rfl⟩) ⟨h, rfl, rfl⟩)

theorem ownData_of_not_needed (h : CollapseInv s) (ha : (s.object object).alive = true)
    (hs : (s.object object).shadow = some backing) (hp : (s.object object).pager = none)
    (hg : (s.object object).pagingInProgress = 0) (hi : (s.object backing).internal = true)
    (hc : (s.object backing).pagerCreated = false)
    (hn : ¬((s.object backing).memq.any
      (pageNeeded s object (s.object object).shadowOffset (s.object object).size)) = true)
    (hlt : off.toNat < (s.object object).size.toNat) (hown : ownData s object off = none) :
    ownData s backing (off + (s.object object).shadowOffset) = none := by
  have htab := h.resident.table
  have hab := h.shadow_alive object backing ha hs
  have hwrap := toNat_add_of_le (h.contained object backing ha hs (Or.inl hi)) hlt
  have hpb : (s.object backing).pager = none := by
    by_contra hcon
    rw [h.pager_created backing hab hcon] at hc
    cases hc
  have hres : residentData s backing (off + (s.object object).shadowOffset) = none := by
    by_contra hcon
    obtain ⟨e, he⟩ := Option.ne_none_iff_exists'.mp hcon
    obtain ⟨mem, hm⟩ := (residentData_iff htab).mp he
    have hmem := (mem_memq_iff_cell htab).mpr ⟨_, _, _, hm⟩
    have hneed : pageNeeded s object (s.object object).shadowOffset (s.object object).size mem = false := by
      by_contra hcon
      exact hn (List.any_eq_true.mpr ⟨mem, hmem, by simpa using hcon⟩)
    have hoff := (cell_eq_some.mp hm).2.2.1
    have hge : (s.object object).shadowOffset ≤ off + (s.object object).shadowOffset := by
      rw [BitVec.le_def, hwrap]
      omega
    have hle : off ≤ (s.object object).size := by
      rw [BitVec.le_def]
      omega
    simp only [pageNeeded, hoff, BitVec.add_sub_cancel, decide_eq_true hge, decide_eq_true hle,
      Bool.true_and] at hneed
    obtain ⟨pp, hpp⟩ := Option.isSome_iff_exists.mp (by simpa using hneed)
    obtain ⟨a, e', hcp⟩ := (lookup_iff_cell htab).mp hpp
    cases h.no_absent object ha hp hg pp off a e' hcp
    rw [ownData, (residentData_iff htab).mpr ⟨pp, hcp⟩] at hown
    cases hown
  rw [ownData, hres, hpb]
  rfl

theorem bypassBacking_rechained (h : CollapseInv s) (ha : (s.object object).alive = true)
    (hs : (s.object object).shadow = some backing) (hp : (s.object object).pager = none)
    (hg : (s.object object).pagingInProgress = 0) (hi : (s.object backing).internal = true)
    (hc : (s.object backing).pagerCreated = false)
    (hn : ¬((s.object backing).memq.any
      (pageNeeded s object (s.object object).shadowOffset (s.object object).size)) = true)
    (hne : backing ≠ object) (hob : (s.object backing).shadow ≠ some object)
    (hbb : (s.object backing).shadow ≠ some backing) :
    Rechained s object backing (bypassBacking s object backing) ∧
      CollapseInv (bypassBacking s object backing) := by
  have hab := h.shadow_alive object backing ha hs
  obtain ⟨hres, hcell, hpd⟩ := bypassBacking_pages h.resident object backing
  obtain ⟨hnext, -⟩ := bypassBacking_lists s object backing
  have hobj := bypassBacking_object hne hob hbb
  generalize bypassBacking s object backing = t at hres hcell hpd hnext hobj
  have hparent : t.object object = { s.object object with
      shadow := (s.object backing).shadow,
      shadowOffset := (s.object object).shadowOffset + (s.object backing).shadowOffset } := by
    rw [hobj, if_neg (Ne.symm hne), if_pos rfl]
  have hoth : ∀ {α : Type} (f : VmObject → α), (∀ x n, f { x with refCount := n } = f x) → ∀ y, y ≠ object →
      f (t.object y) = f (s.object y) := by
    intro α f hf y hyo
    rw [hobj]
    by_cases hyb : y = backing
    · rw [if_pos hyb, hf, hyb]
    · rw [if_neg hyb, if_neg hyo]
      split
      next => rw [hf]
      next => rfl
  have halive : ∀ y, (t.object y).alive = (s.object y).alive := by
    intro y
    by_cases hy : y = object
    · rw [hy, hparent]
    · exact hoth VmObject.alive (fun _ _ => rfl) y hy
  have hsize : ∀ y, (t.object y).size = (s.object y).size := by
    intro y
    by_cases hy : y = object
    · rw [hy, hparent]
    · exact hoth VmObject.size (fun _ _ => rfl) y hy
  have hpager : ∀ y, (t.object y).pager = (s.object y).pager ∧
      (t.object y).pagingOffset = (s.object y).pagingOffset ∧
      (t.object y).pagerCreated = (s.object y).pagerCreated ∧
      (t.object y).pagingInProgress = (s.object y).pagingInProgress ∧
      (t.object y).internal = (s.object y).internal := by
    intro y
    by_cases hy : y = object
    · rw [hy, hparent]
      simp
    · exact ⟨hoth VmObject.pager (fun _ _ => rfl) y hy, hoth VmObject.pagingOffset (fun _ _ => rfl) y hy,
        hoth VmObject.pagerCreated (fun _ _ => rfl) y hy, hoth VmObject.pagingInProgress (fun _ _ => rfl) y hy,
        hoth VmObject.internal (fun _ _ => rfl) y hy⟩
  have hown : ∀ y off, ownData t y off = ownData s y off := by
    intro y off
    have hrd : residentData t y off = residentData s y off := by
      refine residentData_congr h.resident.table hres.table ?_
      intro mem a e
      rw [hcell]
    rw [ownData, ownData, hrd, (hpager y).1, (hpager y).2.1, hpd]
  have hpshadow : (t.object object).shadow = (s.object backing).shadow := by rw [hparent]
  have hpoffset : (t.object object).shadowOffset =
      (s.object object).shadowOffset + (s.object backing).shadowOffset := by rw [hparent]
  have hclosed : ∀ x y, (t.object x).alive = true → (t.object x).shadow = some y →
      (t.object y).alive = true := by
    intro x y hx hxy
    rw [halive] at hx ⊢
    by_cases hxo : x = object
    · subst hxo
      rw [hpshadow] at hxy
      exact h.shadow_alive backing y hab hxy
    · rw [hoth VmObject.shadow (fun _ _ => rfl) x hxo] at hxy
      exact h.shadow_alive x y hx hxy
  refine ⟨⟨(halive object).trans ha, ?_, hpshadow, hpoffset, fun y off _ _ => hown y off, ?_, hclosed,
    fun y hy => ⟨(halive y).symm.trans hy, hsize y⟩⟩, ?_⟩
  · intro off hlt
    rw [hown]
    cases ho : ownData s object off with
    | some e => rfl
    | none => rw [ownData_of_not_needed h ha hs hp hg hi hc hn hlt ho]; rfl
  · intro y hy _
    exact ⟨hoth VmObject.shadow (fun _ _ => rfl) y hy, hoth VmObject.shadowOffset (fun _ _ => rfl) y hy⟩
  · refine ⟨hres, ?_, hclosed, ?_, ?_, ?_, ?_⟩
    · intro o ho
      rw [halive]
      exact h.fresh o (hnext ▸ ho)
    · intro y hy
      rw [halive] at hy
      have hle := h.counted y hy
      have hset := shadowRefs_set (g := s.graph) (h.lt ha) (t.graph.link object) y
      have hrefs : t.graph.shadowRefs y = (s.graph.set object (t.graph.link object)).shadowRefs y := by
        refine shadowRefs_congr hnext ?_
        intro z
        by_cases hz : z = object
        · rw [hz, set_link_self]
        · rw [set_link_of_ne _ _ hz]
          exact shadows_congr (halive z) (hoth VmObject.shadow (fun _ _ => rfl) z hz) y
      rw [shadows_toNat ha, shadows_toNat ((halive object).trans ha),
        show (s.graph.link object).shadow = some backing from hs,
        show (t.graph.link object).shadow = (s.object backing).shadow from hpshadow, ← hrefs] at hset
      have hcount : (t.object y).refCount = (s.object y).refCount +
          ((if (s.object backing).shadow = some y then 1 else 0 : Nat) : Int) -
          ((if some backing = some y then 1 else 0 : Nat) : Int) := by
        rw [hobj]
        by_cases hyb : y = backing
        · subst hyb
          simp [hbb]
        · by_cases hyo : y = object
          · subst hyo
            simp [hyb, Ne.symm hyb, hob]
          · by_cases hyz : (s.object backing).shadow = some y
            · simp [hyb, Ne.symm hyb, hyo, hyz]
            · simp [hyb, Ne.symm hyb, hyo, hyz]
      rw [hcount]
      generalize (if (s.object backing).shadow = some y then 1 else 0 : Nat) = a at hset ⊢
      generalize (if some backing = some y then 1 else 0 : Nat) = b at hset ⊢
      omega
    · intro x y hx hxy hcond
      rw [halive] at hx
      rw [hsize, hsize]
      have hcond' : (s.object y).internal = true ∨ (s.object y).shadow ≠ none := by
        by_cases hyo : y = object
        · rw [hyo, hs]
          exact Or.inr (by simp)
        · rwa [(hpager y).2.2.2.2, hoth VmObject.shadow (fun _ _ => rfl) y hyo] at hcond
      by_cases hxo : x = object
      · subst hxo
        rw [hpshadow] at hxy
        have h₁ := h.contained x backing ha hs (Or.inl hi)
        have h₂ := h.contained backing y hab hxy hcond'
        rw [hpoffset, BitVec.toNat_add, Nat.mod_eq_of_lt]
        · omega
        · have := (s.object y).size.isLt
          omega
      · rw [hoth VmObject.shadow (fun _ _ => rfl) x hxo] at hxy
        rw [hoth VmObject.shadowOffset (fun _ _ => rfl) x hxo]
        exact h.contained x y hx hxy hcond'
    · intro o ho hpo
      rw [halive] at ho
      rw [(hpager o).1] at hpo
      rw [(hpager o).2.2.1]
      exact h.pager_created o ho hpo
    · intro o ho hpo hgo mem off a e hce
      rw [halive] at ho
      rw [(hpager o).1] at hpo
      rw [(hpager o).2.2.2.1] at hgo
      rw [hcell] at hce
      exact h.no_absent o ho hpo hgo mem off a e hce

end MachVM
