import MachVM.PmapSteps

namespace MachVM.I386

open Machine State

variable {s : State} {f : Frame} {x : PmapId × Va} {check clr : PhysAttributes} {xs : List (PmapId × Va)}

/-- The page has been written to since its modify bits were last cleared. -/
def Dirty (s : State) (f : Frame) : Prop := writtenSince (fun _ => true) f s.history = true

theorem updateWalk_check (hc : Coherent s) (hx : ∀ x ∈ xs, x ∈ s.pvList f) :
    Gives (updateWalk f check {} s xs) (fun _ => False) fun r =>
      Coherent r.1 ∧ Kept s r.1 ∧ r.1.history = s.history ∧ r.2 = (r.1.physAttributes f).has check ∧
        (r.2 = false → ((s.physAttributes f).modified = true → (r.1.physAttributes f).modified = true) ∧
          ∀ x ∈ xs, ∀ pte, s.mapping x = some pte → pte.modify = true →
            (r.1.physAttributes f).modified = true) := by
  induction xs generalizing s with
  | nil =>
    have ha : (s.physAttributes f).clear {} = s.physAttributes f := by simp [PhysAttributes.clear]
    have hs : s.setAttributes f (s.physAttributes f) = s := by
      rw [setAttributes, Function.update_eq_self]
    rw [updateWalk, ha, hs]
    exact ⟨hc, .refl s, rfl, rfl, fun _ => ⟨id, by simp⟩⟩
  | cons x xs ih =>
    obtain ⟨pte, hm, rfl, _, hp, _⟩ := hc.pte_of_mem (hx x List.mem_cons_self)
    have hf := hc.fold hm
    have hk := kept_setAttributes s pte.pfn ((s.physAttributes pte.pfn).or pte.attributes)
    rw [updateWalk, hp]
    dsimp only
    rw [if_pos rfl]
    split
    next hb => exact ⟨hf, hk, rfl, by rw [setAttributes_self, hb], fun h => by simp at h⟩
    next =>
      apply (ih hf fun y hy => hx y (List.mem_cons_of_mem x hy)).mono
      rintro r ⟨hr, hkr, hh, hb, hn⟩
      refine ⟨hr, hk.trans hkr, hh, hb, fun hfalse => ?_⟩
      obtain ⟨hfold, hrest⟩ := hn hfalse
      rw [setAttributes_self] at hfold
      refine ⟨fun ha => hfold (by simp [PhysAttributes.or, ha]), fun y hy pte' hy' hym => ?_⟩
      rcases List.mem_cons.mp hy with rfl | hy
      · rw [hm] at hy'
        cases Option.some.inj hy'
        exact hfold (by simp [PhysAttributes.or, Pte.attributes, hym])
      · exact hrest y hy pte' hy' hym

theorem updatePhysAttributes_check (hc : Coherent s) (f : Frame) (check : PhysAttributes) :
    Gives (updatePhysAttributes s f check {}) (fun _ => False) fun r =>
      Coherent r.1 ∧ Kept s r.1 ∧ r.1.history = s.history ∧ r.2 = (r.1.physAttributes f).has check ∧
        (r.2 = false → ((s.physAttributes f).modified = true → (r.1.physAttributes f).modified = true) ∧
          ∀ x ∈ s.pvList f, ∀ pte, s.mapping x = some pte → pte.modify = true →
            (r.1.physAttributes f).modified = true) := by
  unfold updatePhysAttributes
  split
  next h => exact ⟨hc, .refl s, rfl, h.2.symm, fun h => by simp at h⟩
  next => exact updateWalk_check hc fun _ h => h

theorem pmapIsModified_gives (hc : Coherent s) (hg : s.managedPhys f = true) :
    Gives (pmapIsModified s f) (fun _ => False) fun r =>
      Coherent r.1 ∧ Kept s r.1 ∧ (r.2 = true ↔ Dirty s f) := by
  unfold pmapIsModified
  rw [if_pos hg]
  apply (updatePhysAttributes_check hc f { modified := true }).mono
  rintro r ⟨hr, hk, hh, hb, hn⟩
  have hb' : r.2 = (r.1.physAttributes f).modified := by simpa [PhysAttributes.has] using hb
  have hmod := hr.modified f (by rw [managedPhys_congr hk.layout, hg])
  refine ⟨hr, hk, ?_⟩
  constructor
  · intro h
    rw [Dirty, ← hh, hmod]
    exact .inl (hb' ▸ h)
  · intro h
    by_contra hfalse
    obtain ⟨hfold, hrest⟩ := hn (by simpa using hfalse)
    rcases (hc.modified f hg).mp h with ha | ⟨x, pte, hx, hxf, hxm⟩
    · exact hfalse (hb'.trans (hfold ha))
    · exact hfalse (hb'.trans (hrest x (hc.mem_pvList.mpr ⟨pte, hx, hxf⟩) pte hx hxm))

/-- What a walk that clears bits has done before it clears those of the attribute byte. -/
structure Cleared (s r : State) (clr : PhysAttributes) (xs : List (PmapId × Va)) : Prop where
  coherent : Coherent r
  kept : Kept s r
  pvList : r.pvList = s.pvList
  history : r.history = s.history
  fewer : ∀ x pte, r.mapping x = some pte → pte.modify = true → ∃ old, s.mapping x = some old ∧ old.modify = true
  cleared : clr.modified = true → ∀ x ∈ xs, ∀ pte, r.mapping x = some pte → pte.modify = false

theorem Cleared.trans {r q : State} {ys : List (PmapId × Va)} (h : Cleared s r clr xs) (h' : Cleared r q clr ys) :
    Cleared s q clr (xs ++ ys) where
  coherent := h'.coherent
  kept := h.kept.trans h'.kept
  pvList := h'.pvList.trans h.pvList
  history := h'.history.trans h.history
  fewer x pte hx hm := by
    obtain ⟨old, ho, hom⟩ := h'.fewer x pte hx hm
    exact h.fewer x old ho hom
  cleared hclr x hx pte hp := by
    rcases List.mem_append.mp hx with hx | hx
    · by_contra hm
      obtain ⟨old, ho, hom⟩ := h'.fewer x pte hp (by simpa using hm)
      rw [h.cleared hclr x hx old ho] at hom
      exact Bool.false_ne_true hom
    · exact h'.cleared hclr x hx pte hp

theorem cleared_entry {pte : Pte} (clr : PhysAttributes) (hc : Coherent s) (hm : s.mapping x = some pte) :
    Cleared s ((s.setAttributes pte.pfn ((s.physAttributes pte.pfn).or pte.attributes)).writePte x.1 x.2
      (pte.clear clr)) clr [x] := by
  obtain ⟨hd, hp, hg⟩ := mapping_eq_some.mp hm
  have hf := hc.fold hm
  have hd' : (s.setAttributes pte.pfn ((s.physAttributes pte.pfn).or pte.attributes)).inDomain x = true := hd
  have hw := writePte_mapping (pte.clear clr) hd' hp
  rw [if_pos (show State.managedPhys (s.setAttributes _ _) (pte.clear clr).pfn = true from hg),
    setAttributes_mapping] at hw
  refine ⟨?_, ?_, rfl, rfl, ?_, ?_⟩
  · refine hf.rewrite hd hp rfl ?_ fun _ => hc.present x pte hm
    rw [setAttributes_self]
    cases hpm : pte.modify with
    | true => exact .inl (by simp [PhysAttributes.or, Pte.attributes, hpm])
    | false => exact .inr (by simp [Pte.clear, hpm])
  · refine (kept_setAttributes s pte.pfn _).trans (kept_writePte hd hp fun _ hn => ?_)
    rw [setAttributes_mapping] at hn
    exact absurd hm (by simp [hn])
  · intro y pte' hy hym
    rw [hw] at hy
    by_cases hye : y = x
    · subst y
      rw [Function.update_self] at hy
      cases Option.some.inj hy
      exact ⟨pte, hm, by simp only [Pte.clear, Bool.and_eq_true] at hym; exact hym.1⟩
    · rw [Function.update_of_ne hye] at hy
      exact ⟨pte', hy, hym⟩
  · intro hclr y hy pte' hp'
    obtain rfl := List.mem_singleton.mp hy
    rw [hw, Function.update_self] at hp'
    cases Option.some.inj hp'
    simp [Pte.clear, hclr]

theorem updateWalk_clear (hc : Coherent s) (hclr : clr ≠ {}) (hx : ∀ x ∈ xs, x ∈ s.pvList f) :
    Gives (updateWalk f check clr s xs) Panic.ofCaller fun r =>
      ∃ q, Cleared s q clr xs ∧ r.1 = q.setAttributes f ((q.physAttributes f).clear clr) := by
  induction xs generalizing s with
  | nil =>
    exact ⟨s, ⟨hc, .refl s, rfl, rfl, fun x pte h hm => ⟨pte, h, hm⟩, fun _ x hx => by simp at hx⟩, rfl⟩
  | cons x xs ih =>
    obtain ⟨pte, hm, rfl, _, hp, _⟩ := hc.pte_of_mem (hx x List.mem_cons_self)
    have h1 := cleared_entry clr hc hm
    rw [updateWalk, hp]
    dsimp only
    rw [if_neg hclr]
    apply (ih h1.coherent fun y hy => h1.pvList ▸ hx y (List.mem_cons_of_mem x hy)).mono
    rintro r ⟨q, hq, hr⟩
    exact ⟨q, h1.trans hq, hr⟩

theorem updatePhysAttributes_clear (hc : Coherent s) (hclr : clr ≠ {}) (f : Frame) (check : PhysAttributes) :
    Gives (updatePhysAttributes s f check clr) Panic.ofCaller fun r =>
      ∃ q, Cleared s q clr (s.pvList f) ∧ r.1 = q.setAttributes f ((q.physAttributes f).clear clr) := by
  unfold updatePhysAttributes
  rw [if_neg fun h => hclr h.1]
  exact updateWalk_clear hc hclr fun _ h => h

theorem Cleared.coherent_note {q : State} {b : Bool} (h : Cleared s q clr (s.pvList f)) (hclr : clr.modified = true) :
    Coherent ((q.setAttributes f ((q.physAttributes f).clear clr)).note (.cleared f b)) where
  lists := h.coherent.lists
  present := h.coherent.present
  modified g hg := by
    rw [note_mapping, setAttributes_mapping]
    change (!(f == g && true) && writtenSince _ g q.history) = true ↔
      ((q.setAttributes f _).physAttributes g).modified = true ∨ _
    by_cases hge : g = f
    · subst g
      rw [setAttributes_self]
      refine iff_of_false (by simp) ?_
      rintro (ha | ⟨x, pte, hx, hxf, hxm⟩)
      · simp [PhysAttributes.clear, hclr] at ha
      · have hmem := h.coherent.mem_pvList.mpr ⟨pte, hx, hxf⟩
        rw [h.pvList] at hmem
        rw [h.cleared hclr x hmem pte hx] at hxm
        exact Bool.false_ne_true hxm
    · rw [setAttributes_of_ne hge, beq_false_of_ne (Ne.symm hge)]
      exact h.coherent.modified g hg

theorem pmapClearModify_gives (hc : Coherent s) (f : Frame) :
    Gives (pmapClearModify s f) Panic.ofCaller fun r => Coherent r ∧ Kept s r := by
  unfold pmapClearModify
  split
  next =>
    refine (updatePhysAttributes_clear hc (by decide) f {}).bind ?_
    rintro ⟨r, b⟩ ⟨q, hq, hr⟩
    obtain rfl : r = _ := hr
    exact ⟨hq.coherent_note rfl, (hq.kept.trans (kept_setAttributes q f _)).trans (kept_note _ _)⟩
  next => exact ⟨hc, .refl s⟩

theorem pmapClearReference_gives (hc : Coherent s) (f : Frame) :
    Gives (pmapClearReference s f) Panic.ofCaller fun r => Coherent r ∧ Kept s r := by
  unfold pmapClearReference
  split
  next =>
    refine (updatePhysAttributes_clear hc (by decide) f {}).bind ?_
    rintro ⟨r, b⟩ ⟨q, hq, hr⟩
    obtain rfl : r = _ := hr
    refine ⟨⟨hq.coherent.lists, hq.coherent.present, fun g hg => ?_⟩, hq.kept.trans (kept_setAttributes q f _)⟩
    refine (hq.coherent.modified g hg).trans ?_
    rw [setAttributes_mapping]
    by_cases hge : g = f
    · subst g
      simp [PhysAttributes.clear]
    · rw [setAttributes_of_ne hge]
  next => exact ⟨hc, .refl s⟩

theorem pmapIsModified_keeps (hc : Coherent s) (f : Frame) :
    Gives (pmapIsModified s f) (fun _ => False) fun r => Coherent r.1 ∧ Kept s r.1 := by
  unfold pmapIsModified
  split
  next => exact (updatePhysAttributes_check hc f _).mono fun r h => ⟨h.1, h.2.1⟩
  next => exact ⟨hc, .refl s⟩

theorem pmapIsReferenced_gives (hc : Coherent s) (f : Frame) :
    Gives (pmapIsReferenced s f) (fun _ => False) fun r => Coherent r.1 ∧ Kept s r.1 := by
  unfold pmapIsReferenced
  split
  next => exact (updatePhysAttributes_check hc f _).mono fun r h => ⟨h.1, h.2.1⟩
  next => exact ⟨hc, .refl s⟩

end MachVM.I386
