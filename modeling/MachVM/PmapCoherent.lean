import MachVM.Pmap

namespace MachVM.I386

open Machine State

/-- The lists and the attribute bytes agree with the page tables: a list has the mappings of its page, what
maps a page is marked as present, and the modify bits of a page, in its entries and in its attribute byte,
tell of the writes since they were last cleared. -/
structure Coherent (s : State) : Prop where
  lists : Mirror.Indexed s.pvList s.mapping (Option.map Pte.pfn)
  present : ∀ x pte, s.mapping x = some pte → pte.swValid = true
  modified : ∀ f, s.managedPhys f = true → (writtenSince (fun _ => true) f s.history = true ↔
    (s.physAttributes f).modified = true ∨
      ∃ x pte, s.mapping x = some pte ∧ pte.pfn = f ∧ pte.modify = true)

/-- What the operations on the mappings leave alone. A pmap without references gets no mapping. -/
structure Kept (s r : State) : Prop where
  layout : r.layout = s.layout
  ops : r.ops = s.ops
  refCount : ∀ p, r.refCount p = s.refCount p
  unmapped : ∀ x, s.refCount x.1 = some 0 → s.mapping x = none → r.mapping x = none

variable {s r q : State} {p : PmapId} {va : Va} {f : Frame} {x : PmapId × Va} {pte old : Pte} {h : PvHead}
  {a : PhysAttributes}

theorem Kept.refl (s : State) : Kept s s := ⟨rfl, rfl, fun _ => rfl, fun _ _ h => h⟩

theorem Kept.trans (h : Kept s r) (h' : Kept r q) : Kept s q where
  layout := h'.layout.trans h.layout
  ops := h'.ops.trans h.ops
  refCount p := (h'.refCount p).trans (h.refCount p)
  unmapped x h0 hn := h'.unmapped x ((h.refCount x.1).trans h0) (h.unmapped x h0 hn)

theorem kept_setPvHead (s : State) (f : Frame) (h : PvHead) : Kept s (s.setPvHead f h) :=
  ⟨rfl, rfl, fun _ => rfl, fun _ _ h => h⟩

theorem kept_setAttributes (s : State) (f : Frame) (a : PhysAttributes) : Kept s (s.setAttributes f a) :=
  ⟨rfl, rfl, fun _ => rfl, fun _ _ h => h⟩

theorem kept_note (s : State) (e : Event) : Kept s (s.note e) :=
  ⟨rfl, rfl, fun _ => rfl, fun _ _ h => h⟩

theorem kept_reflectModify (s : State) (pte : Pte) : Kept s (reflectModify s pte) := by
  unfold reflectModify
  split
  next => exact kept_setAttributes s pte.pfn { modified := true }
  next => exact Kept.refl s

theorem kept_writePte (hd : s.inDomain (p, va) = true) (hp : s.pmapPte p va = some old)
    (hm : s.refCount p = some 0 → s.mapping (p, va) = none → s.managedPhys pte.pfn = false) :
    Kept s (s.writePte p va pte) where
  layout := rfl
  ops := rfl
  refCount := writePte_refCount
  unmapped x h0 hn := by
    rw [writePte_mapping pte hd hp]
    by_cases hx : x = (p, va)
    · subst x
      rw [Function.update_self, hm h0 hn]
      rfl
    · rw [Function.update_of_ne hx, hn]

@[simp] theorem reflectModify_mapping : (reflectModify s pte).mapping = s.mapping := by
  unfold reflectModify
  split <;> rfl

@[simp] theorem reflectModify_pmapPte : (reflectModify s pte).pmapPte = s.pmapPte := by
  unfold reflectModify
  split <;> rfl

@[simp] theorem reflectModify_pvList : (reflectModify s pte).pvList = s.pvList := by
  unfold reflectModify
  split <;> rfl

@[simp] theorem reflectModify_history : (reflectModify s pte).history = s.history := by
  unfold reflectModify
  split <;> rfl

theorem reflectModify_modified :
    ((reflectModify s pte).physAttributes f).modified = true ↔
      (s.physAttributes f).modified = true ∨ pte.pfn = f ∧ pte.modify = true := by
  unfold reflectModify
  split
  next hm =>
    by_cases hf : f = pte.pfn
    · subst f
      simp [setAttributes, hm]
    · simp [setAttributes, hf, Ne.symm hf]
  next hm => simp [hm]

namespace Coherent

theorem congr (h : Coherent s) (hl : r.layout = s.layout) (hv : r.pvList = s.pvList)
    (hm : r.mapping = s.mapping) (ha : r.physAttributes = s.physAttributes) (hh : r.history = s.history) :
    Coherent r where
  lists := by
    rw [hv, hm]
    exact h.lists
  present := by
    rw [hm]
    exact h.present
  modified := by
    rw [hm, ha, hh, managedPhys_congr hl]
    exact h.modified

theorem mem_pvList (h : Coherent s) : x ∈ s.pvList f ↔ ∃ pte, s.mapping x = some pte ∧ pte.pfn = f := by
  rw [h.lists.mem_iff, Option.map_eq_some_iff]

theorem pte_of_mem (h : Coherent s) (hx : x ∈ s.pvList f) :
    ∃ pte, s.mapping x = some pte ∧ pte.pfn = f ∧ s.inDomain x = true ∧ s.pmapPte x.1 x.2 = some pte ∧
      s.managedPhys f = true := by
  obtain ⟨pte, hm, rfl⟩ := h.mem_pvList.mp hx
  obtain ⟨hd, hp, hf⟩ := mapping_eq_some.mp hm
  exact ⟨pte, hm, rfl, hd, hp, hf⟩

theorem rewrite (h : Coherent s) (hd : s.inDomain (p, va) = true) (hp : s.pmapPte p va = some old)
    (hf : pte.pfn = old.pfn) (hm : (s.physAttributes old.pfn).modified = true ∨ pte.modify = old.modify)
    (hv : s.mapping (p, va) = some old → pte.swValid = true) : Coherent (s.writePte p va pte) := by
  have hw := writePte_mapping pte hd hp
  by_cases ho : s.mapping (p, va) = some old
  · have hg := (mapping_eq_some.mp ho).2.2
    rw [hf, hg, if_pos rfl] at hw
    refine ⟨?_, ?_, ?_⟩
    · rw [hw]
      exact h.lists.keep (by simp [ho, hf])
    · intro x pte' hx
      rw [hw] at hx
      by_cases hxe : x = (p, va)
      · subst x
        rw [Function.update_self] at hx
        cases Option.some.inj hx
        exact hv ho
      · rw [Function.update_of_ne hxe] at hx
        exact h.present x pte' hx
    · intro g hg'
      refine (h.modified g hg').trans ?_
      rw [hw]
      by_cases ha : (s.physAttributes g).modified = true
      · exact iff_of_true (.inl ha) (.inl ha)
      refine or_congr .rfl ?_
      -- the entry counts for this page only if it has kept its modify bit
      have hm : old.pfn = g → pte.modify = old.modify := by
        rintro rfl
        exact hm.resolve_left ha
      constructor
      · rintro ⟨x, pte', hx, hxf, hxm⟩
        by_cases hxe : x = (p, va)
        · subst x
          rw [ho] at hx
          cases Option.some.inj hx
          exact ⟨(p, va), pte, by rw [Function.update_self], hf.trans hxf, (hm hxf).trans hxm⟩
        · exact ⟨x, pte', by rw [Function.update_of_ne hxe, hx], hxf, hxm⟩
      · rintro ⟨x, pte', hx, hxf, hxm⟩
        by_cases hxe : x = (p, va)
        · subst x
          rw [Function.update_self] at hx
          cases Option.some.inj hx
          have hof := hf.symm.trans hxf
          exact ⟨(p, va), old, ho, hof, (hm hof).symm.trans hxm⟩
        · rw [Function.update_of_ne hxe] at hx
          exact ⟨x, pte', hx, hxf, hxm⟩
  · have hg : s.managedPhys old.pfn = false := by
      cases hg : s.managedPhys old.pfn with
      | false => rfl
      | true => exact absurd (mapping_eq_some.mpr ⟨hd, hp, hg⟩) ho
    have hn : s.mapping (p, va) = none := by simp [mapping, hd, hp, Option.filter_some, hg]
    rw [hf, hg, if_neg Bool.false_ne_true, ← hn, Function.update_eq_self] at hw
    exact h.congr rfl rfl hw rfl rfl

theorem unmap (hc : Coherent s) (hx : s.mapping (p, va) = some pte)
    (he : h.elems = (s.pvList pte.pfn).erase (p, va)) :
    Coherent (((reflectModify s pte).writePte p va {}).setPvHead pte.pfn h) := by
  obtain ⟨hd, hp, hg⟩ := mapping_eq_some.mp hx
  have hk := kept_reflectModify s pte
  have hm : ((reflectModify s pte).writePte p va {}).mapping = Function.update s.mapping (p, va) none := by
    rw [writePte_mapping _ (by rw [inDomain_congr hk.layout, hd]) (by rw [reflectModify_pmapPte, hp])]
    simp
  refine ⟨?_, ?_, ?_⟩
  · rw [setPvHead_pvList, writePte_pvList, reflectModify_pvList, he, setPvHead_mapping, hm]
    convert hc.lists.leave (b := (none : Option Pte)) (by rw [hx]; rfl) rfl
  · intro y pte' hy
    rw [setPvHead_mapping, hm] at hy
    by_cases hye : y = (p, va)
    · subst y
      simp at hy
    · rw [Function.update_of_ne hye] at hy
      exact hc.present y pte' hy
  · intro g hg'
    have hg' : s.managedPhys g = true := by rwa [← managedPhys_congr hk.layout]
    rw [setPvHead_mapping, hm]
    change writtenSince _ g (reflectModify s pte).history = true ↔
      ((reflectModify s pte).physAttributes g).modified = true ∨ _
    rw [reflectModify_history, reflectModify_modified, hc.modified g hg']
    constructor
    · rintro (ha | ⟨y, pte', hy, hyf, hym⟩)
      · exact .inl (.inl ha)
      · by_cases hye : y = (p, va)
        · subst y
          rw [hx] at hy
          cases Option.some.inj hy
          exact .inl (.inr ⟨hyf, hym⟩)
        · exact .inr ⟨y, pte', by rw [Function.update_of_ne hye, hy], hyf, hym⟩
    · rintro ((ha | ⟨hf, hym⟩) | ⟨y, pte', hy, hyf, hym⟩)
      · exact .inl ha
      · exact .inr ⟨(p, va), pte, hx, hf, hym⟩
      · by_cases hye : y = (p, va)
        · subst y
          simp at hy
        · rw [Function.update_of_ne hye] at hy
          exact .inr ⟨y, pte', hy, hyf, hym⟩

theorem map (pte : Pte) (hc : Coherent s) (hd : s.inDomain (p, va) = true) (hp : s.pmapPte p va = some old)
    (hn : s.mapping (p, va) = none) (hg : s.managedPhys pte.pfn = true) (hv : pte.swValid = true)
    (hm : pte.modify = false) (he : (s.pvList pte.pfn ++ [(p, va)]).Perm h.elems) :
    Coherent ((s.setPvHead pte.pfn h).writePte p va pte) := by
  have hw : ((s.setPvHead pte.pfn h).writePte p va pte).mapping = Function.update s.mapping (p, va) (some pte) := by
    have hd' : (s.setPvHead pte.pfn h).inDomain (p, va) = true := hd
    rw [writePte_mapping pte hd' hp]
    exact congrArg _ (if_pos hg)
  refine ⟨?_, ?_, ?_⟩
  · rw [writePte_pvList, setPvHead_pvList, hw]
    exact (hc.lists.enter (by rw [hn]; rfl) rfl).perm he
  · intro y pte' hy
    rw [hw] at hy
    by_cases hye : y = (p, va)
    · subst y
      rw [Function.update_self] at hy
      cases Option.some.inj hy
      exact hv
    · rw [Function.update_of_ne hye] at hy
      exact hc.present y pte' hy
  · intro g hg'
    rw [hw]
    refine (hc.modified g hg').trans (or_congr .rfl ?_)
    constructor
    · rintro ⟨y, pte', hy, hyf, hym⟩
      have hye : y ≠ (p, va) := by
        rintro rfl
        simp [hn] at hy
      exact ⟨y, pte', by rw [Function.update_of_ne hye, hy], hyf, hym⟩
    · rintro ⟨y, pte', hy, hyf, hym⟩
      by_cases hye : y = (p, va)
      · subst y
        rw [Function.update_self] at hy
        cases Option.some.inj hy
        exact absurd hym (by simp [hm])
      · rw [Function.update_of_ne hye] at hy
        exact ⟨y, pte', hy, hyf, hym⟩

theorem map_unmanaged (hc : Coherent s) (hd : s.inDomain (p, va) = true) (hp : s.pmapPte p va = some old)
    (hn : s.mapping (p, va) = none) (hg : s.managedPhys pte.pfn = false) : Coherent (s.writePte p va pte) := by
  refine hc.congr rfl rfl ?_ rfl rfl
  rw [writePte_mapping pte hd hp, hg, if_neg Bool.false_ne_true, ← hn, Function.update_eq_self]

theorem write (hc : Coherent s) (hd : s.inDomain (p, va) = true) (hp : s.pmapPte p va = some pte) :
    Coherent (processorWrite s p va pte) := by
  have hw := writePte_mapping { pte with ref := true, modify := true } hd hp
  by_cases hg : s.managedPhys pte.pfn = true
  · have hx : s.mapping (p, va) = some pte := mapping_eq_some.mpr ⟨hd, hp, hg⟩
    rw [if_pos hg] at hw
    refine ⟨?_, ?_, ?_⟩
    · rw [processorWrite, note_mapping, note_pvList, writePte_pvList, hw]
      exact hc.lists.keep (by rw [hx]; rfl)
    · intro y pte' hy
      rw [processorWrite, note_mapping, hw] at hy
      by_cases hye : y = (p, va)
      · subst y
        rw [Function.update_self] at hy
        cases Option.some.inj hy
        exact hc.present (p, va) pte hx
      · rw [Function.update_of_ne hye] at hy
        exact hc.present y pte' hy
    · intro g hg'
      rw [processorWrite, note_mapping, hw]
      change (pte.pfn == g || writtenSince _ g s.history) = true ↔ (s.physAttributes g).modified = true ∨ _
      by_cases hge : pte.pfn = g
      · rw [beq_iff_eq.mpr hge, Bool.true_or]
        exact iff_of_true rfl (.inr ⟨(p, va), _, Function.update_self .., hge, rfl⟩)
      · rw [beq_false_of_ne hge, Bool.false_or, hc.modified g hg']
        refine or_congr .rfl ?_
        constructor
        · rintro ⟨y, pte', hy, hyf, hym⟩
          have hye : y ≠ (p, va) := by
            rintro rfl
            rw [hx] at hy
            cases Option.some.inj hy
            exact hge hyf
          exact ⟨y, pte', by rw [Function.update_of_ne hye, hy], hyf, hym⟩
        · rintro ⟨y, pte', hy, hyf, hym⟩
          have hye : y ≠ (p, va) := by
            rintro rfl
            rw [Function.update_self] at hy
            cases Option.some.inj hy
            exact hge hyf
          rw [Function.update_of_ne hye] at hy
          exact ⟨y, pte', hy, hyf, hym⟩
  · have hn : s.mapping (p, va) = none := by simp [mapping, hd, hp, Option.filter_some, hg]
    rw [if_neg hg, ← hn, Function.update_eq_self] at hw
    refine ⟨?_, ?_, ?_⟩
    · rw [processorWrite, note_mapping, note_pvList, writePte_pvList, hw]
      exact hc.lists
    · rw [processorWrite, note_mapping, hw]
      exact hc.present
    · intro g hg'
      have hge : pte.pfn ≠ g := by
        rintro rfl
        exact hg hg'
      rw [processorWrite, note_mapping, hw]
      change (pte.pfn == g || writtenSince _ g s.history) = true ↔ _
      rw [beq_false_of_ne hge, Bool.false_or]
      exact hc.modified g hg'

theorem fold (hc : Coherent s) (hx : s.mapping x = some pte) :
    Coherent (s.setAttributes pte.pfn ((s.physAttributes pte.pfn).or pte.attributes)) where
  lists := hc.lists
  present := hc.present
  modified g hg := by
    refine (hc.modified g hg).trans ?_
    by_cases hge : g = pte.pfn
    · subst g
      simp only [setAttributes_mapping, setAttributes_self, PhysAttributes.or, Pte.attributes, Bool.or_eq_true,
        or_assoc]
      refine or_congr .rfl ⟨.inr, ?_⟩
      rintro (hm | he)
      · exact ⟨x, pte, hx, rfl, hm⟩
      · exact he
    · rw [setAttributes_of_ne hge, setAttributes_mapping]

end Coherent

end MachVM.I386
