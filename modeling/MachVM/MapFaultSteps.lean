import MachVM.MapInvariant

namespace MachVM

open Ring

variable {σ : Type} {S : Services σ} {k k' : Kernel σ} {i : MapId} {l l₁ l₂ : List EntryId}
  {e : EntryId} {a vaddr : VmOffset} {faultType : VmProt} {fuel : Nat}
  {P : VmMap → List EntryId → Prop} [Steady P]

@[simp] theorem setMap_map_self (k : Kernel σ) (i : MapId) (m : VmMap) :
    (k.setMap i m).map i = m := by simp [Kernel.setMap]

@[simp] theorem setMachine_map (k : Kernel σ) (s : σ) : (k.setMachine s).map = k.map := rfl

@[simp] theorem setEntry_map_self (k : Kernel σ) (i : MapId) (e : EntryId) (y : VmMapEntry) :
    (k.setEntry i e y).map i = (k.map i).setEntry e y := by simp [Kernel.setEntry]

theorem LookupSpec.plain {m n : VmMap} {found : Bool} (h : P m l)
    (hs : LookupSpec m l a n found e) : P n l := by
  rw [hs.map_eq]
  exact Steady.saveHint h hs.hint_mem

theorem LookupSpec.entry_eq {m n : VmMap} {found : Bool} (hs : LookupSpec m l a n found e) :
    n.entry = m.entry := by
  rw [hs.map_eq]
  rfl

theorem lookupHint_spec {m n : VmMap} {hit : Option EntryId} (h : MapInv m l)
    (hs : lookupHint fuel m vaddr = some (n, hit)) :
    n = m.saveHint n.hint ∧ n.hint ∈ header :: l ∧
      ∀ e ∈ hit, e ∈ l ∧ (m.entry e).start ≤ vaddr ∧ vaddr < (m.entry e).endAddr := by
  simp only [lookupHint] at hs
  split at hs
  next =>
    obtain ⟨⟨n', found, e⟩, he, hr⟩ := Option.map_eq_some_iff.mp hs
    have hsp := vmMapLookupEntry_spec h he
    cases hr
    refine ⟨hsp.map_eq, hsp.hint_mem, ?_⟩
    intro x hx
    cases found with
    | false => simp at hx
    | true =>
      cases Option.some.inj hx
      exact hsp.hit rfl
  next hc =>
    cases Option.some.inj hs
    rw [not_or, not_or] at hc
    refine ⟨rfl, h.hint_mem, ?_⟩
    intro x hx
    cases Option.some.inj hx
    exact ⟨(List.mem_cons.mp h.hint_mem).resolve_left hc.1, BitVec.not_lt.mp hc.2.1,
      BitVec.not_le.mp hc.2.2⟩

theorem lookupHint_plain {m n : VmMap} {hit : Option EntryId} (h : P m l)
    (hs : lookupHint fuel m vaddr = some (n, hit)) :
    P n l ∧ ∀ e ∈ hit, e ∈ l ∧ (n.entry e).start ≤ vaddr ∧ vaddr < (n.entry e).endAddr := by
  obtain ⟨hn, hmem, hhit⟩ := lookupHint_spec (Steady.plain h).toMapInv hs
  rw [hn]
  exact ⟨Steady.saveHint h hmem, hhit⟩

theorem lockUpgrade_plain {granted : Bool} (h : P (k.map i) l)
    (hs : lockUpgrade S k i = some (k', granted)) :
    P (k'.map i) l ∧ (k'.map i).entry = (k.map i).entry := by
  obtain ⟨⟨s, failed⟩, _, hr⟩ := Option.map_eq_some_iff.mp hs
  cases failed with
  | true =>
    cases hr
    exact ⟨h, rfl⟩
  | false =>
    cases hr
    rw [setMap_map_self]
    exact ⟨Steady.lock h, rfl⟩

theorem shadowEntry_plain (h : P (k.map i) l) (he : e ∈ l)
    (hs : shadowEntry S k i e = some k') :
    P (k'.map i) l ∧ ((k'.map i).entry e).object ≠ .null := by
  obtain ⟨⟨s, o, off⟩, _, hr⟩ := Option.map_eq_some_iff.mp hs
  subst hr
  have hp := (Steady.plain h).plain e he
  rw [setEntry_map_self]
  refine ⟨Steady.setBody h rfl rfl rfl ⟨hp.not_a_map, hp.not_sub_map, by simp, by simp⟩, ?_⟩
  simp

theorem allocateEntry_plain (h : P (k.map i) l) (he : e ∈ l)
    (hs : allocateEntry S k i e = some k') :
    P (k'.map i) l ∧ ((k'.map i).entry e).object ≠ .null := by
  obtain ⟨⟨s, o⟩, _, hr⟩ := Option.map_eq_some_iff.mp hs
  subst hr
  have hp := (Steady.plain h).plain e he
  rw [setEntry_map_self]
  refine ⟨Steady.setBody h rfl rfl rfl ⟨hp.not_a_map, hp.not_sub_map, by simp, by simp⟩, ?_⟩
  simp

theorem needsCopyPass_plain {prot : VmProt} {out : Option VmProt} (h : P (k.map i) l)
    (he : e ∈ l) (hs : needsCopyPass S k i e faultType prot = some (k', out)) :
    P (k'.map i) l := by
  simp only [needsCopyPass] at hs
  split at hs
  next =>
    split at hs
    next =>
      obtain ⟨⟨k₁, granted⟩, hu, hs⟩ := Option.bind_eq_some_iff.mp hs
      have h₁ := (lockUpgrade_plain h hu).1
      cases granted with
      | true =>
        obtain ⟨k₂, hk, hs⟩ := Option.bind_eq_some_iff.mp hs
        cases Option.some.inj hs
        exact (shadowEntry_plain (by rw [setMap_map_self]; exact Steady.lock h₁) he hk).1
      | false =>
        cases Option.some.inj hs
        exact h₁
    next =>
      cases Option.some.inj hs
      exact h
  next =>
    cases Option.some.inj hs
    exact h

theorem nullObjectPass_plain {granted : Bool} (h : P (k.map i) l) (he : e ∈ l)
    (hs : nullObjectPass S k i e = some (k', granted)) : P (k'.map i) l := by
  simp only [nullObjectPass] at hs
  split at hs
  next =>
    obtain ⟨⟨k₁, granted⟩, hu, hs⟩ := Option.bind_eq_some_iff.mp hs
    have h₁ := (lockUpgrade_plain h hu).1
    cases granted with
    | true =>
      obtain ⟨k₂, hk, hs⟩ := Option.bind_eq_some_iff.mp hs
      cases Option.some.inj hs
      exact (allocateEntry_plain h₁ he hk).1
    | false =>
      cases Option.some.inj hs
      exact h₁
  next =>
    cases Option.some.inj hs
    exact h

theorem lookupObject_plain {prot : VmProt} {wired shared : Bool} {out : LookupOutcome}
    (h : P (k.map i) l) (he : e ∈ l)
    (hs : lookupObject S k i i e vaddr faultType prot wired shared = some (k', out)) :
    P (k'.map i) l ∧ ∀ j ft, out = .again j ft → j = i := by
  obtain ⟨⟨k₁, prot'⟩, hn, hs⟩ := Option.bind_eq_some_iff.mp hs
  have h₁ := needsCopyPass_plain h he hn
  cases prot' with
  | none =>
    cases Option.some.inj hs
    exact ⟨h₁, by rintro j ft ⟨⟩; rfl⟩
  | some prot' =>
    obtain ⟨⟨k₂, granted⟩, hn, hs⟩ := Option.bind_eq_some_iff.mp hs
    have h₂ := nullObjectPass_plain h₁ he hn
    cases granted with
    | true =>
      cases Option.some.inj hs
      exact ⟨h₂, by rintro j ft ⟨⟩⟩
    | false =>
      cases Option.some.inj hs
      exact ⟨h₂, by rintro j ft ⟨⟩; rfl⟩

theorem lookupPass_plain {out : LookupOutcome} (h : P (k.map i) l)
    (hs : lookupPass S fuel k i vaddr faultType = some (k', out)) :
    P (k'.map i) l ∧ ∀ j ft, out = .again j ft → j = i := by
  obtain ⟨⟨m, hit⟩, hl, hs⟩ := Option.bind_eq_some_iff.mp hs
  obtain ⟨hm, hh⟩ := lookupHint_plain h hl
  have h₁ : P ((k.setMap i m).map i) l := by rwa [setMap_map_self]
  cases hit with
  | none =>
    cases Option.some.inj hs
    exact ⟨h₁, by rintro j ft ⟨⟩⟩
  | some e =>
    have he := (hh e rfl).1
    have hp := (Steady.plain hm).plain e he
    simp only [hp.not_sub_map, hp.not_a_map, Bool.false_eq_true, if_false] at hs
    split at hs
    next =>
      cases Option.some.inj hs
      exact ⟨h₁, by rintro j ft ⟨⟩⟩
    next => exact lookupObject_plain h₁ he hs

theorem vmMapLookup_plain {j : MapId} {r : Except KernReturn LookupResult}
    (h : P (k.map i) l) (hs : vmMapLookup S fuel k i vaddr faultType = some (k', j, r)) :
    j = i ∧ P (k'.map i) l := by
  induction fuel generalizing k faultType with
  | zero => simp [vmMapLookup] at hs
  | succ fuel ih =>
    obtain ⟨⟨k₁, out⟩, hp, hs⟩ := Option.bind_eq_some_iff.mp hs
    obtain ⟨h₁, hj⟩ := lookupPass_plain h hp
    cases out with
    | again j' ft =>
      cases hj j' ft rfl
      exact ih h₁ hs
    | failed why =>
      cases Option.some.inj hs
      exact ⟨rfl, h₁⟩
    | found r =>
      cases Option.some.inj hs
      exact ⟨rfl, h₁⟩

theorem vmFaultEnter_plain {w : Bool} {r : LookupResult} {page : PageId} {prot : VmProt}
    {out : FaultOutcome} (h : P (k.map i) l)
    (hs : vmFaultEnter S fuel k i vaddr faultType w r page prot = some (k', out)) :
    P (k'.map i) l ∧ ∀ j ft, out = .again j ft → j = i := by
  induction fuel generalizing k r prot with
  | zero => simp [vmFaultEnter] at hs
  | succ fuel ih =>
    rw [vmFaultEnter] at hs
    split at hs
    next =>
      generalize (if S.copyObjectChanged k.machine page then prot &&& ~~~protWrite else prot) = p at hs
      simp only at hs
      split at hs
      next =>
        obtain ⟨s, _, hs⟩ := Option.bind_eq_some_iff.mp hs
        cases Option.some.inj hs
        exact ⟨h, by rintro j ft ⟨⟩; rfl⟩
      next =>
        obtain ⟨s, _, hs⟩ := Option.bind_eq_some_iff.mp hs
        cases Option.some.inj hs
        exact ⟨h, by rintro j ft ⟨⟩⟩
    next =>
      obtain ⟨⟨k₁, j, retry⟩, hl, hs⟩ := Option.bind_eq_some_iff.mp hs
      obtain ⟨rfl, h₁⟩ := vmMapLookup_plain h hl
      cases retry with
      | error why =>
        obtain ⟨s, _, hs⟩ := Option.bind_eq_some_iff.mp hs
        cases Option.some.inj hs
        exact ⟨h₁, by rintro j ft ⟨⟩⟩
      | ok t =>
        simp only at hs
        split at hs
        next =>
          obtain ⟨s, _, hs⟩ := Option.bind_eq_some_iff.mp hs
          cases Option.some.inj hs
          exact ⟨h₁, by rintro j ft ⟨⟩; rfl⟩
        next => exact ih h₁ hs

theorem vmFault_plain {w : Bool} {kr : KernReturn} (h : P (k.map i) l)
    (hs : vmFault S fuel k i vaddr faultType w = some (k', kr)) : P (k'.map i) l := by
  induction fuel generalizing k faultType with
  | zero => simp [vmFault] at hs
  | succ fuel ih =>
    obtain ⟨⟨k₁, j, found⟩, hl, hs⟩ := Option.bind_eq_some_iff.mp hs
    obtain ⟨rfl, h₁⟩ := vmMapLookup_plain h hl
    cases found with
    | error why =>
      cases Option.some.inj hs
      exact h₁
    | ok r =>
      obtain ⟨⟨s, result⟩, _, hs⟩ := Option.bind_eq_some_iff.mp hs
      cases result with
      | retry => exact ih (k := k₁.setMachine s) h₁ hs
      | memoryShortage => exact ih (k := k₁.setMachine s) h₁ hs
      | interrupted =>
        cases Option.some.inj hs
        exact h₁
      | memoryError =>
        cases Option.some.inj hs
        exact h₁
      | success page prot =>
        obtain ⟨⟨k₂, out⟩, hv, hs⟩ := Option.bind_eq_some_iff.mp hs
        obtain ⟨h₂, hj⟩ := vmFaultEnter_plain (k := k₁.setMachine s) h₁ hv
        cases out with
        | again j' ft =>
          cases hj j' ft rfl
          exact ih h₂ hs
        | done kr =>
          cases Option.some.inj hs
          exact h₂

theorem wirePage_plain {va : VmOffset} (h : P (k.map i) l)
    (hs : wirePage S fuel k i e va = some k') : P (k'.map i) l := by
  obtain ⟨⟨k₁, kr⟩, hf, hs⟩ := Option.bind_eq_some_iff.mp hs
  have h₁ : P (k₁.map i) l := by
    simp only [vmFaultWireFast] at hf
    split at hf
    next =>
      cases Option.some.inj hf
      exact h
    next =>
      obtain ⟨r, _, hr⟩ := Option.map_eq_some_iff.mp hf
      cases hr
      exact h
  simp only at hs
  split at hs
  next =>
    cases Option.some.inj hs
    exact h₁
  next =>
    obtain ⟨⟨k₃, kr⟩, hv, hr⟩ := Option.map_eq_some_iff.mp hs
    cases hr
    exact vmFault_plain h₁ hv

theorem wireRange_plain {endAddr va : VmOffset} (h : P (k.map i) l)
    (hs : wireRange S fuel k i e endAddr va = some k') : P (k'.map i) l := by
  induction fuel generalizing k va with
  | zero => simp [wireRange] at hs
  | succ fuel ih =>
    rw [wireRange] at hs
    split at hs
    next =>
      obtain ⟨k₁, hk, hs⟩ := Option.bind_eq_some_iff.mp hs
      exact ih (wirePage_plain h hk) hs
    next =>
      cases Option.some.inj hs
      exact h

theorem vmFaultWire_plain (h : P (k.map i) l) (hs : vmFaultWire S fuel k i e = some k') :
    P (k'.map i) l := by
  obtain ⟨s, _, hs⟩ := Option.bind_eq_some_iff.mp hs
  exact wireRange_plain (by exact h) hs

theorem unwirePage_map {o : ObjId} {va : VmOffset}
    (hs : unwirePage S fuel k i e (some o) va = some k') : k'.map = k.map := by
  obtain ⟨s, _, hs⟩ := Option.bind_eq_some_iff.mp hs
  obtain ⟨t, _, rfl⟩ := Option.map_eq_some_iff.mp hs
  rfl

theorem unwireRange_map {o : ObjId} {endAddr va : VmOffset}
    (hs : unwireRange S fuel k i e (some o) endAddr va = some k') : k'.map = k.map := by
  induction fuel generalizing k va with
  | zero => simp [unwireRange] at hs
  | succ fuel ih =>
    rw [unwireRange] at hs
    split at hs
    next =>
      obtain ⟨k₁, hk, hs⟩ := Option.bind_eq_some_iff.mp hs
      exact (ih hs).trans (unwirePage_map hk)
    next =>
      cases Option.some.inj hs
      rfl

theorem PlainEntry.vmObject {x : VmMapEntry} (h : PlainEntry x) (hn : x.object ≠ .null) :
    ∃ o, x.object.vmObject = some o := by
  cases hx : x.object with
  | null => exact absurd hx hn
  | object o => exact ⟨o, rfl⟩
  | map j => exact absurd hx (h.object_ne j)

theorem vmFaultUnwire_map (hp : PlainEntry ((k.map i).entry e))
    (hn : ((k.map i).entry e).object ≠ .null) (hs : vmFaultUnwire S fuel k i e = some k') :
    k'.map = k.map := by
  obtain ⟨o, ho⟩ := hp.vmObject hn
  simp only [vmFaultUnwire, hp.not_a_map, hp.not_sub_map, Bool.or_self, Bool.false_eq_true, if_false,
    ho] at hs
  obtain ⟨k₁, hu, hs⟩ := Option.bind_eq_some_iff.mp hs
  obtain ⟨s, _, hs⟩ := Option.bind_eq_some_iff.mp hs
  cases Option.some.inj hs
  have := unwireRange_map hu
  exact this

end MachVM
