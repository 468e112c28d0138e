import MachVM.PmapCoherent

namespace MachVM.I386

open Machine State

/-- The panics that the conditions of a call can bring about. The others tell of lists and tables that do not
agree. -/
def Panic.ofCaller : Panic → Prop
  | .pteMissingFromKernel | .removingWired | .wiringPteMissing | .systemPageTableTooSmall | .collectKernel
  | .ptePageNotMapped | .noPtTable => True
  | .nullPvList | .mappingNotInPvList | .pteInvalid | .pteWrongPage | .copyOnWriteInvalidPte | .nullPte => False

variable {s r : State} {p : PmapId} {va : Va} {f : Frame} {x : PmapId × Va} {pte old : Pte} {n : Nat}

theorem PvHead.elems_eq_nil {h : PvHead} : h.elems = [] ↔ h.pmap = none := by
  unfold PvHead.elems
  split <;> simp_all

@[simp] theorem PvHead.copyNext_elems (h : PvHead) : h.copyNext.elems = h.next := by
  unfold copyNext
  split
  next hn => rw [hn]; rfl
  next hn => rw [hn]; rfl

theorem pvRemove_eq_ok {h : PvHead} (hx : (p, va) ∈ h.elems) :
    ∃ h', pvRemove h p va = .ok h' ∧ h'.elems = h.elems.erase (p, va) := by
  cases hp : h.pmap with
  | none => simp [PvHead.elems, hp] at hx
  | some q =>
    simp only [PvHead.elems, hp] at hx ⊢
    by_cases hq : q = p ∧ h.va = va
    · obtain ⟨rfl, rfl⟩ := hq
      rw [List.erase_cons_head]
      exact ⟨h.copyNext, by simp [pvRemove, hp], h.copyNext_elems⟩
    · have hne : (q, h.va) ≠ (p, va) := fun he => hq (Prod.mk.inj he)
      have hm := (List.mem_cons.mp hx).resolve_left (Ne.symm hne)
      rw [List.erase_cons_tail (by simpa using hne)]
      exact ⟨⟨some q, h.va, h.next.erase (p, va), by simp⟩, by simp [pvRemove, hp, hq, hm], rfl⟩

theorem unmap_mapping {h : PvHead} (hx : s.mapping (p, va) = some pte) :
    (((reflectModify s pte).writePte p va {}).setPvHead f h).mapping = Function.update s.mapping (p, va) none := by
  obtain ⟨hd, hp, _⟩ := mapping_eq_some.mp hx
  rw [setPvHead_mapping,
    writePte_mapping _ (by rw [inDomain_congr (kept_reflectModify s pte).layout, hd]) (by rw [reflectModify_pmapPte, hp])]
  simp

theorem kept_unmap {h : PvHead} (hx : s.mapping (p, va) = some pte) :
    Kept s (((reflectModify s pte).writePte p va {}).setPvHead f h) := by
  obtain ⟨hd, hp, _⟩ := mapping_eq_some.mp hx
  have hk := kept_reflectModify s pte
  have hd' : (reflectModify s pte).inDomain (p, va) = true := by rw [inDomain_congr hk.layout, hd]
  have hp' : (reflectModify s pte).pmapPte p va = some pte := by rw [reflectModify_pmapPte, hp]
  exact (hk.trans (kept_writePte hd' hp' fun _ _ => managedPhys_zero)).trans (kept_setPvHead _ _ _)

theorem update_of_mapping_none (hn : s.mapping x = none) : s.mapping = Function.update s.mapping x none := by
  rw [← hn, Function.update_eq_self]

theorem removePte_gives (hc : Coherent s) (hd : s.inDomain (p, va) = true) :
    Gives (removePte s p va) Panic.ofCaller fun r =>
      Coherent r ∧ Kept s r ∧ r.mapping = Function.update s.mapping (p, va) none ∧
        (r.pmapPte p va).isSome = (s.pmapPte p va).isSome := by
  unfold removePte
  cases hp : s.pmapPte p va with
  | none =>
    have hn : s.mapping (p, va) = none := mapping_eq_none (by simp [hp])
    dsimp only
    split
    next => exact trivial
    next => exact ⟨hc, .refl s, update_of_mapping_none hn, by rw [hp]⟩
  | some pte =>
    dsimp only
    split
    next h0 =>
      have hn : s.mapping (p, va) = none := mapping_eq_none (by simp [hp, h0])
      exact ⟨hc, .refl s, update_of_mapping_none hn, by rw [hp]⟩
    next =>
      split
      next hg =>
        have hn : s.mapping (p, va) = none := by simpa [mapping, hd, hp, Option.filter_some] using hg
        exact ⟨hc, .refl s, update_of_mapping_none hn, by rw [hp]⟩
      next hg =>
        have hx : s.mapping (p, va) = some pte := mapping_eq_some.mpr ⟨hd, hp, by simpa using hg⟩
        obtain ⟨h', hr, he⟩ := pvRemove_eq_ok (hc.mem_pvList.mpr ⟨pte, hx, rfl⟩)
        rw [hr]
        refine ⟨hc.unmap hx he, kept_unmap hx, unmap_mapping hx, ?_⟩
        rw [setPvHead_pmapPte, writePte_pmapPte, if_pos ⟨rfl, rfl⟩, reflectModify_pmapPte, hp]
        rfl

/-- The addresses of a range. -/
def InRange (s : State) (p : PmapId) (va : Va) (n : Nat) : Prop :=
  ∀ w, va ≤ w → w < va + n → s.inDomain (p, w) = true

theorem pmapRemoveRange_gives (hc : Coherent s) (hd : InRange s p va n) :
    Gives (pmapRemoveRange s p va n) Panic.ofCaller fun r =>
      Coherent r ∧ Kept s r ∧ ∀ w, va ≤ w → w < va + n → r.mapping (p, w) = none := by
  apply sweep_gives fun j r => Coherent r ∧ Kept s r ∧ ∀ w, va ≤ w → w < j → r.mapping (p, w) = none
  · intro j r hj hn hr
    obtain ⟨hr, hk, hm⟩ := hr
    apply (removePte_gives hr (by rw [inDomain_congr hk.layout, hd j hj hn])).mono
    rintro q ⟨hq, hkq, hu, _⟩
    refine ⟨hq, hk.trans hkq, fun w hw hwj => ?_⟩
    rw [hu]
    by_cases he : w = j
    · rw [he, Function.update_self]
    · rw [Function.update_of_ne (by simpa using he)]
      exact hm w hw (Nat.lt_of_le_of_ne (Nat.le_of_lt_succ hwj) he)
  · exact ⟨hc, .refl s, fun w hw hwj => absurd hwj (Nat.not_lt.mpr hw)⟩

theorem removeHead_gives (hc : Coherent s) (hp : (s.pvHeadTable f).pmap = some p) :
    Gives (removeHead s f p) Panic.ofCaller fun r =>
      Coherent r ∧ Kept s r ∧ (r.pvList f).length + 1 = (s.pvList f).length := by
  have he : s.pvList f = (p, (s.pvHeadTable f).va) :: (s.pvHeadTable f).next := by
    simp only [pvList, PvHead.elems, hp]
  obtain ⟨pte, hx, rfl, _, hpte, _⟩ := hc.pte_of_mem (he ▸ List.mem_cons_self)
  unfold removeHead
  dsimp only at hpte ⊢
  rw [hpte]
  dsimp only
  rw [if_neg (by simp [hc.present _ _ hx]), if_neg (by simp)]
  split
  next => exact trivial
  next =>
    refine ⟨hc.unmap hx (by simp [he]), kept_unmap hx, ?_⟩
    rw [setPvHead_pvList, Function.update_self, PvHead.copyNext_elems, he]
    rfl

theorem removeAllLoop_gives (hc : Coherent s) :
    Gives (removeAllLoop f s n) Panic.ofCaller fun r =>
      Coherent r ∧ Kept s r ∧ ((s.pvList f).length ≤ n → r.pvList f = []) := by
  induction n generalizing s with
  | zero => exact ⟨hc, .refl s, fun h => List.eq_nil_of_length_eq_zero (Nat.le_zero.mp h)⟩
  | succ n ih =>
    unfold removeAllLoop
    split
    next hp => exact ⟨hc, .refl s, fun _ => PvHead.elems_eq_nil.mpr hp⟩
    next p hp =>
      refine (removeHead_gives hc hp).bind fun r ⟨hr, hk, hl⟩ => (ih hr).mono ?_
      rintro q ⟨hq, hkq, hn⟩
      exact ⟨hq, hk.trans hkq, fun h => hn (by omega)⟩

theorem pmapRemoveAll_gives (hc : Coherent s) (f : Frame) :
    Gives (pmapRemoveAll s f) Panic.ofCaller fun r =>
      Coherent r ∧ Kept s r ∧ (s.managedPhys f = true → r.pvList f = []) := by
  unfold pmapRemoveAll
  split
  next =>
    apply (removeAllLoop_gives hc).mono
    rintro r ⟨hr, hk, hn⟩
    exact ⟨hr, hk, fun _ => hn (Nat.le_refl _)⟩
  next hg => exact ⟨hc, .refl s, fun h => absurd h hg⟩

@[simp] theorem i386Protection_pfn {prot : VmProt} {b : Bool} : (i386Protection p prot b pte).pfn = pte.pfn := rfl

@[simp] theorem i386Protection_modify {prot : VmProt} {b : Bool} :
    (i386Protection p prot b pte).modify = pte.modify := rfl

@[simp] theorem i386Protection_swValid {prot : VmProt} {b : Bool} : (i386Protection p prot b pte).swValid = b := rfl

theorem rewrite_gives (pte : Pte) (hc : Coherent s) (hd : s.inDomain (p, va) = true) (hp : s.pmapPte p va = some old)
    (hf : pte.pfn = old.pfn) (hm : pte.modify = old.modify) (hv : pte.swValid = old.swValid) :
    Coherent (s.writePte p va pte) ∧ Kept s (s.writePte p va pte) := by
  refine ⟨hc.rewrite hd hp hf (.inr hm) fun hx => hv.trans (hc.present _ _ hx), kept_writePte hd hp fun _ hn => ?_⟩
  rw [hf]
  simpa [mapping, hd, hp, Option.filter_some] using hn

theorem copyOnWriteElem_gives (hc : Coherent s) (hx : x ∈ s.pvList f) :
    Gives (copyOnWriteElem s x) Panic.ofCaller fun r => Coherent r ∧ Kept s r ∧ r.pvList f = s.pvList f := by
  obtain ⟨pte, hm, _, hd, hp, _⟩ := hc.pte_of_mem hx
  unfold copyOnWriteElem
  rw [hp]
  dsimp only
  rw [if_neg (by simp [hc.present _ _ hm])]
  split
  next =>
    obtain ⟨hr, hk⟩ := rewrite_gives (i386Protection x.1 protRead pte.swValid pte) hc hd hp rfl rfl rfl
    exact ⟨hr, hk, by rw [writePte_pvList]⟩
  next => exact ⟨hc, .refl s, rfl⟩

theorem pmapCopyOnWrite_gives (hc : Coherent s) (f : Frame) :
    Gives (pmapCopyOnWrite s f) Panic.ofCaller fun r => Coherent r ∧ Kept s r := by
  have h : Gives (pmapCopyOnWrite s f) Panic.ofCaller fun r => Coherent r ∧ Kept s r ∧ r.pvList f = s.pvList f := by
    apply visit_gives _ _ ⟨hc, .refl s, rfl⟩
    rintro r x hx ⟨hr, hk, hl⟩
    apply (copyOnWriteElem_gives hr (hl ▸ hx)).mono
    rintro q ⟨hq, hkq, hlq⟩
    exact ⟨hq, hk.trans hkq, hlq.trans hl⟩
  exact h.mono fun r hr => ⟨hr.1, hr.2.1⟩

theorem pmapPageProtect_gives (hc : Coherent s) (f : Frame) (prot : VmProt) :
    Gives (pmapPageProtect s f prot) Panic.ofCaller fun r => Coherent r ∧ Kept s r := by
  unfold pmapPageProtect
  split
  next => exact pmapCopyOnWrite_gives hc f
  next =>
    split
    next => exact ⟨hc, .refl s⟩
    next => exact (pmapRemoveAll_gives hc f).mono fun r hr => ⟨hr.1, hr.2.1⟩

theorem protectPte_gives (hc : Coherent s) (hd : s.inDomain (p, va) = true) (prot : VmProt) :
    Gives (protectPte s p prot va) Panic.ofCaller fun r => Coherent r ∧ Kept s r := by
  unfold protectPte
  split
  next =>
    split
    next => exact trivial
    next => exact ⟨hc, .refl s⟩
  next pte hp =>
    split
    next => exact rewrite_gives (i386Protection p prot pte.swValid pte) hc hd hp rfl rfl rfl
    next => exact ⟨hc, .refl s⟩

theorem pmapProtect_gives (hc : Coherent s) (hd : InRange s p va n) (prot : VmProt) :
    Gives (pmapProtect s p va n prot) Panic.ofCaller fun r => Coherent r ∧ Kept s r := by
  apply sweep_gives (fun _ r => Coherent r ∧ Kept s r) _ ⟨hc, .refl s⟩
  rintro j r hj hn ⟨hr, hk⟩
  apply (protectPte_gives hr (by rw [inDomain_congr hk.layout, hd j hj hn]) prot).mono
  rintro q ⟨hq, hkq⟩
  exact ⟨hq, hk.trans hkq⟩

theorem pmapChangeWiring_gives (hc : Coherent s) (hd : s.inDomain (p, va) = true) (wired : Bool) :
    Gives (pmapChangeWiring s p va wired) Panic.ofCaller fun r => Coherent r ∧ Kept s r := by
  unfold pmapChangeWiring
  split
  next => exact trivial
  next pte hp => exact rewrite_gives { pte with wired := wired } hc hd hp rfl rfl rfl

theorem setPde_pmapPte (s : State) (p : PmapId) (i : Nat) (d : Option Pde) (q : PmapId) (w : Va)
    (h : ¬(q = p ∧ pdenum w = i)) : (s.setPde p i d).pmapPte q w = s.pmapPte q w := by
  by_cases hq : q = p
  · subst q
    have hi : pdenum w ≠ i := fun he => h ⟨rfl, he⟩
    cases hm : s.pmaps p with
    | none => simp [pmapPte, setPde, setPmap, hm]
    | some m => simp [pmapPte, setPde, setPmap, hm, hi]
  · simp [pmapPte, setPde, setPmap, hq]

theorem setPde_refCount (s : State) (p : PmapId) (i : Nat) (d : Option Pde) (q : PmapId) :
    (s.setPde p i d).refCount q = s.refCount q := by
  by_cases hq : q = p
  · subst q
    cases h : s.pmaps p <;> simp [State.refCount, setPde, setPmap, h]
  · simp [State.refCount, setPde, setPmap, hq]

theorem setPde_gives {i : Nat} {d : Option Pde} (hc : Coherent s)
    (hn : ∀ w, pdenum w = i → s.mapping (p, w) = none) (hd : ∀ e, d = some e → ∀ k, (e.table k).pfn = 0) :
    Coherent (s.setPde p i d) ∧ Kept s (s.setPde p i d) := by
  have hm : (s.setPde p i d).mapping = s.mapping := by
    funext x
    by_cases hx : x.1 = p ∧ pdenum x.2 = i
    · have hs : s.mapping x = none := by
        obtain ⟨q, w⟩ := x
        obtain ⟨rfl, hi⟩ := hx
        exact hn w hi
      rw [hs]
      apply mapping_eq_none
      intro pte hp
      obtain ⟨rfl, rfl⟩ := hx
      cases hs : s.pmaps x.1 with
      | none => simp [pmapPte, setPde, setPmap, hs] at hp
      | some m =>
        cases d with
        | none => simp [pmapPte, setPde, setPmap, hs] at hp
        | some e =>
          simp [pmapPte, setPde, setPmap, hs] at hp
          rw [← hp]
          exact hd e rfl _
    · exact mapping_congr rfl (setPde_pmapPte s p i d x.1 x.2 hx)
  exact ⟨hc.congr rfl rfl hm rfl rfl, rfl, rfl, setPde_refCount s p i d, fun x _ h => by rw [hm, h]⟩

theorem pmapExpand_gives {page : Option Va} (hc : Coherent s) :
    Gives (pmapExpand s p va page) Panic.ofCaller fun r => Coherent r ∧ Kept s r := by
  unfold pmapExpand
  split
  next => exact trivial
  next =>
    split
    next => exact ⟨hc, .refl s⟩
    next kv =>
      split
      next => exact ⟨hc, .refl s⟩
      next hp =>
        apply setPde_gives hc
        · intro w hw
          apply mapping_eq_none
          intro pte hpte
          have hv := not_not.mp hp
          cases hm : s.pmaps p with
          | none => simp [pmapPte, hm] at hpte
          | some m => cases hd : m.cr3 (pdenum va) <;> simp [pmapPte, hm, hw, hd] at hpte hv
        · rintro e he k
          cases Option.some.inj he
          rfl

theorem collectPde_gives {i : Nat} (hc : Coherent s) (hp : p ≠ kernelPmap) :
    Gives (collectPde s p i) Panic.ofCaller fun r => Coherent r ∧ Kept s r := by
  unfold collectPde
  split
  next => exact ⟨hc, .refl s⟩
  next d _ =>
    split
    next => exact trivial
    next =>
      generalize (List.range nptes).any (fun k => (d.table k).wired) = wired
      cases wired with
      | true => exact ⟨hc, .refl s⟩
      | false =>
        have hd : InRange s p (i * nptes) nptes := fun w _ _ => by simp [inDomain, hp]
        refine (pmapRemoveRange_gives hc hd).bind fun r ⟨hr, hk, hn⟩ => ?_
        have hq := setPde_gives (p := p) (i := i) (d := none) hr (fun w hw => ?_) (fun e he => by simp at he)
        · exact ⟨hq.1, hk.trans hq.2⟩
        · have hdm := Nat.div_add_mod w nptes
          have hlt := Nat.mod_lt w (show 0 < nptes by decide)
          have hmul : nptes * (w / nptes) = i * nptes := by rw [Nat.mul_comm, ← hw, pdenum]
          exact hn w (by rw [← hdm, hmul]; exact Nat.le_add_right _ _)
            (by rw [← hdm, hmul]; exact Nat.add_lt_add_left hlt _)

theorem destroyPde_gives {i : Nat} (hc : Coherent s) :
    Gives (destroyPde s p i) Panic.ofCaller fun r => Coherent r ∧ Kept s r := by
  unfold destroyPde
  split
  next => exact ⟨hc, .refl s⟩
  next =>
    split
    next => exact ⟨hc, .refl s⟩
    next => exact trivial

end MachVM.I386

namespace MachVM.I386

open Machine State

variable {s q : State} {e : Enter} {old : Pte}

theorem pvEnter_eq_some (h : pvEnter s e = some q) :
    s.managedPhys e.pa = false ∧ q = s ∨
      s.managedPhys e.pa = true ∧ ∃ h : PvHead,
        q = s.setPvHead e.pa h ∧ (s.pvList e.pa ++ [(e.pmap, e.v)]).Perm h.elems := by
  unfold pvEnter at h
  split at h
  next hg =>
    cases Option.some.inj h
    exact .inl ⟨by simpa using hg, rfl⟩
  next hg =>
    refine .inr ⟨by simpa using hg, ?_⟩
    dsimp only at h
    split at h
    next hp =>
      cases Option.some.inj h
      refine ⟨_, rfl, ?_⟩
      rw [pvList, PvHead.elems_eq_nil.mpr hp]
      exact .refl _
    next p hp =>
      split at h
      next =>
        cases Option.some.inj h
        refine ⟨_, rfl, ?_⟩
        simp only [pvList, PvHead.elems, hp]
        exact (List.perm_append_comm.trans (.swap ..))
      next => simp at h

@[simp] theorem template_pfn (e : Enter) : e.template.pfn = e.pa := rfl

@[simp] theorem template_modify (e : Enter) : e.template.modify = false := rfl

@[simp] theorem template_swValid (e : Enter) : e.template.swValid = true := rfl

theorem pvEnter_write (hc : Coherent s) (hd : s.inDomain (e.pmap, e.v) = true)
    (hl : s.refCount e.pmap ≠ some 0) (hp : s.pmapPte e.pmap e.v = some old)
    (hn : s.mapping (e.pmap, e.v) = none) (h : pvEnter s e = some q) :
    Coherent (q.writePte e.pmap e.v e.template) ∧ Kept s (q.writePte e.pmap e.v e.template) := by
  obtain ⟨hg, rfl⟩ | ⟨hg, head, rfl, he⟩ := pvEnter_eq_some h
  · exact ⟨hc.map_unmanaged hd hp hn hg, kept_writePte hd hp fun h0 _ => absurd h0 hl⟩
  · exact ⟨hc.map e.template hd hp hn hg rfl rfl he,
      (kept_setPvHead s e.pa head).trans (kept_writePte hd hp fun h0 _ => absurd h0 hl)⟩

/-- What is left of a `pmap_enter` is for the same address. -/
def Enter.Goes (e : Enter) (r : Option Enter) : Prop := ∀ e', r = some e' → e'.pmap = e.pmap ∧ e'.v = e.v

theorem pmapEnter_gives (hc : Coherent s) (hd : s.inDomain (e.pmap, e.v) = true)
    (hl : s.refCount e.pmap ≠ some 0) :
    Gives (pmapEnter s e) Panic.ofCaller fun r => Coherent r.1 ∧ Kept s r.1 ∧ e.Goes r.2 := by
  unfold pmapEnter
  split
  next =>
    refine ⟨hc, .refl s, ?_⟩
    rintro e' he
    cases Option.some.inj he
    exact ⟨rfl, rfl⟩
  next pte hp =>
    split
    next hf =>
      refine ⟨hc.rewrite hd hp hf.symm (.inr rfl) fun _ => rfl, kept_writePte hd hp fun h0 _ => absurd h0 hl, ?_⟩
      exact fun _ he => by simp at he
    next =>
      -- the address maps no managed page any more, and its table is still there
      have h0 : Gives (if pte.pfn ≠ 0 then pmapRemoveRange s e.pmap e.v 1 else .ok s) Panic.ofCaller fun r =>
          Coherent r ∧ Kept s r ∧ r.mapping (e.pmap, e.v) = none ∧ (r.pmapPte e.pmap e.v).isSome = true := by
        split
        next =>
          refine (removePte_gives hc hd).bind fun r ⟨hr, hk, hm, hi⟩ => ⟨hr, hk, ?_, ?_⟩
          · rw [hm, Function.update_self]
          · rw [hi, hp]
            rfl
        next h0 => exact ⟨hc, .refl s, mapping_eq_none (by simpa [hp] using h0), by rw [hp]; rfl⟩
      refine h0.bind fun r ⟨hr, hk, hn, hi⟩ => ?_
      split
      next =>
        refine ⟨hr, hk, ?_⟩
        rintro e' he
        cases Option.some.inj he
        exact ⟨rfl, rfl⟩
      next q hq =>
        obtain ⟨old, ho⟩ := Option.isSome_iff_exists.mp hi
        obtain ⟨hw, hkw⟩ := pvEnter_write hr (by rw [inDomain_congr hk.layout, hd])
          (by rwa [hk.refCount]) ho hn hq
        exact ⟨hw, hk.trans hkw, fun _ he => by simp at he⟩

end MachVM.I386
