import MachVM.MapCopy
import Mathlib.Data.Set.Insert

namespace MachVM

/-- A map that differs at most in the lookup hint and the reference count, the two fields
that have locks of their own. -/
def SameMap (m n : VmMap) : Prop := n = { m with hint := n.hint, refCount := n.refCount }

/-- From one kernel to another every map outside `A` either advanced its version number or
stayed the same; no version number ran backwards. -/
structure Within {σ : Type} (A : Set MapId) (k k' : Kernel σ) : Prop where
  fresh : k.freshMap ≤ k'.freshMap
  mono : ∀ j < k.freshMap, (k.map j).timestamp ≤ (k'.map j).timestamp
  same : ∀ j < k.freshMap, j ∉ A → (k'.map j).timestamp = (k.map j).timestamp →
    SameMap (k.map j) (k'.map j)

variable {σ : Type} {S : Services σ} {A B : Set MapId} {k k' k₁ k₂ : Kernel σ} {i j : MapId}
  {m n : VmMap} {e : EntryId} {a vaddr start endAddr : VmOffset} {fuel : Nat}

theorem SameMap.refl (m : VmMap) : SameMap m m := rfl

theorem SameMap.timestamp (h : SameMap m n) : n.timestamp = m.timestamp := by rw [h]

theorem SameMap.trans {p : VmMap} (h : SameMap m n) (h' : SameMap n p) : SameMap m p := by
  rw [SameMap] at h h' ⊢
  rw [h', h]

theorem Within.refl (A : Set MapId) (k : Kernel σ) : Within A k k :=
  ⟨Nat.le_refl _, fun _ _ => Nat.le_refl _, fun _ _ _ _ => rfl⟩

theorem Within.trans (h : Within A k k₁) (h' : Within A k₁ k₂) : Within A k k₂ := by
  have hlt : ∀ j < k.freshMap, j < k₁.freshMap := fun j hj => Nat.lt_of_lt_of_le hj h.fresh
  refine ⟨Nat.le_trans h.fresh h'.fresh, ?_, ?_⟩
  · intro j hj
    exact Nat.le_trans (h.mono j hj) (h'.mono j (hlt j hj))
  · intro j hj hA ht
    have h₁ := h.mono j hj
    have h₂ := h'.mono j (hlt j hj)
    exact (h.same j hj hA (by omega)).trans (h'.same j (hlt j hj) hA (by omega))

theorem Within.weaken (h : Within A k k') (hs : ∀ j ∈ A, j < k.freshMap → j ∈ B) : Within B k k' :=
  ⟨h.fresh, h.mono, fun j hj hB => h.same j hj fun hA => hB (hs j hA hj)⟩

theorem Within.of_map (hf : k'.freshMap = k.freshMap) (hm : k'.map = k.map) : Within A k k' := by
  refine ⟨Nat.le_of_eq hf.symm, ?_, ?_⟩
  · intro j _
    rw [hm]
  · intro j _ _ _
    rw [hm]
    exact SameMap.refl _

theorem within_setMachine (A : Set MapId) (k : Kernel σ) (s : σ) : Within A k (k.setMachine s) :=
  .of_map rfl rfl

theorem setMap_map (k : Kernel σ) (i j : MapId) (m : VmMap) :
    (k.setMap i m).map j = if j = i then m else k.map j := by
  simp only [Kernel.setMap, Function.update_apply]

theorem setMap_setMap (k : Kernel σ) (i : MapId) (m n : VmMap) :
    (k.setMap i m).setMap i n = k.setMap i n := by simp [Kernel.setMap]

theorem Within.of_setMap (ht : (k.map i).timestamp ≤ m.timestamp)
    (hs : i ∉ A → m.timestamp = (k.map i).timestamp → SameMap (k.map i) m) :
    Within A k (k.setMap i m) := by
  refine ⟨Nat.le_refl _, ?_, ?_⟩
  · intro j _
    rw [setMap_map]
    split
    next h => rwa [h]
    next => exact Nat.le_refl _
  · intro j _ hA
    rw [setMap_map]
    split
    next h =>
      subst h
      exact hs hA
    next => exact fun _ => SameMap.refl _

theorem within_setMap (hi : i ∈ A) (ht : m.timestamp = (k.map i).timestamp) :
    Within A k (k.setMap i m) :=
  .of_setMap (Nat.le_of_eq ht.symm) fun hn => absurd hi hn

theorem within_setEntry {x : VmMapEntry} (hi : i ∈ A) : Within A k (k.setEntry i e x) :=
  within_setMap hi rfl

theorem SameMap.within (h : SameMap (k.map i) m) : Within A k (k.setMap i m) :=
  .of_setMap (Nat.le_of_eq h.timestamp.symm) fun _ _ => h

theorem within_lockMap (A : Set MapId) (k : Kernel σ) (i : MapId) : Within A k (lockMap k i) := by
  refine .of_setMap (Nat.le_succ _) ?_
  intro _ ht
  exact absurd ht (Nat.succ_ne_self _)

theorem lockMap_map_self (k : Kernel σ) (i : MapId) : (lockMap k i).map i = vmMapLock (k.map i) := by
  rw [lockMap, setMap_map, if_pos rfl]

theorem Within.locked (h : Within (insert i A) (lockMap k i) k') : Within A k k' := by
  have hl := within_lockMap A k i
  refine ⟨h.fresh, ?_, ?_⟩
  · intro j hj
    exact Nat.le_trans (hl.mono j hj) (h.mono j hj)
  · intro j hj hA ht
    have h₁ := hl.mono j hj
    have h₂ := h.mono j hj
    by_cases hji : j = i
    · subst hji
      have h₃ : ((lockMap k j).map j).timestamp = (k.map j).timestamp + 1 := by
        rw [lockMap_map_self, vmMapLock]
      omega
    · have hn : j ∉ insert i A := by simp [hji, hA]
      exact (hl.same j hj hA (by omega)).trans (h.same j hj hn (by omega))

theorem Within.created (h : Within A k k₁) (h' : Within (insert i A) k₁ k₂) (hi : k.freshMap ≤ i) :
    Within A k k₂ := by
  have hw : Within (insert i A) k k₂ := (h.weaken fun j hj _ => .inr hj).trans h'
  refine hw.weaken ?_
  intro j hj hlt
  rcases Set.mem_insert_iff.mp hj with hj | hj
  · exact absurd (hj ▸ hlt) (Nat.not_lt.mpr hi)
  · exact hj

theorem searchEntry_hint {last cur : EntryId} {found : Bool}
    (hs : searchEntry m a last fuel cur = some (n, found, e)) : n = m.saveHint n.hint := by
  induction fuel generalizing cur with
  | zero => simp [searchEntry] at hs
  | succ fuel ih =>
    rw [searchEntry] at hs
    split at hs
    next =>
      cases Option.some.inj hs
      rfl
    next =>
      split at hs
      next =>
        split at hs
        all_goals
          cases Option.some.inj hs
          rfl
      next => exact ih hs

theorem vmMapLookupEntry_hint {found : Bool} (hs : vmMapLookupEntry fuel m a = some (n, found, e)) :
    n = m.saveHint n.hint := by
  simp only [vmMapLookupEntry] at hs
  generalize (if m.hint = header then m.next m.hint else m.hint) = cur at hs
  split at hs
  next =>
    split at hs
    next =>
      cases Option.some.inj hs
      rfl
    next => exact searchEntry_hint hs
  next => exact searchEntry_hint hs

theorem vmMapLookupEntry_same {found : Bool} (hs : vmMapLookupEntry fuel m a = some (n, found, e)) :
    SameMap m n := by
  rw [vmMapLookupEntry_hint hs]
  rfl

theorem lookupHint_same {hit : Option EntryId} (hs : lookupHint fuel m a = some (n, hit)) :
    SameMap m n := by
  simp only [lookupHint] at hs
  split at hs
  next =>
    obtain ⟨⟨p, found, e⟩, hl, hr⟩ := Option.map_eq_some_iff.mp hs
    cases hr
    exact vmMapLookupEntry_same hl
  next =>
    cases Option.some.inj hs
    rfl

theorem vmMapReference_within (o : Option MapId) : Within A k (vmMapReference k o) := by
  cases o with
  | none => exact .refl A k
  | some i => exact SameMap.within rfl

theorem machine_within {o : Option σ} (hs : o.map k.setMachine = some k') : Within A k k' := by
  obtain ⟨s, _, rfl⟩ := Option.map_eq_some_iff.mp hs
  exact within_setMachine A k s

theorem entryReference_within {x : VmMapEntry} (hs : entryReference S k x = some k') :
    Within A k k' := by
  rw [entryReference] at hs
  split at hs
  next =>
    cases Option.some.inj hs
    exact vmMapReference_within _
  next => exact machine_within hs

theorem vmMapClipStart_within (hi : i ∈ A) (hs : vmMapClipStart S k i e a = some k') :
    Within A k k' := by
  simp only [vmMapClipStart] at hs
  split at hs
  next =>
    have h₁ : Within A k (k.setMap i (clipFront (k.map i) e a)) := within_setMap hi rfl
    exact h₁.trans (entryReference_within hs)
  next =>
    cases Option.some.inj hs
    exact .refl A k

theorem vmMapClipEnd_within (hi : i ∈ A) (hs : vmMapClipEnd S k i e a = some k') :
    Within A k k' := by
  simp only [vmMapClipEnd] at hs
  split at hs
  next =>
    have h₁ : Within A k (k.setMap i (clipBack (k.map i) e a)) := within_setMap hi rfl
    exact h₁.trans (entryReference_within hs)
  next =>
    cases Option.some.inj hs
    exact .refl A k

theorem firstInRange_within (hi : i ∈ A) (hs : firstInRange S fuel k i start = some (k', e)) :
    Within A k k' := by
  obtain ⟨⟨m, found, x⟩, hl, hs⟩ := Option.bind_eq_some_iff.mp hs
  have h₁ : Within A k (k.setMap i m) := (vmMapLookupEntry_same hl).within
  cases found with
  | true =>
    obtain ⟨k₁, hk, hs⟩ := Option.bind_eq_some_iff.mp hs
    cases Option.some.inj hs
    exact h₁.trans (vmMapClipStart_within hi hk)
  | false =>
    cases Option.some.inj hs
    exact h₁

end MachVM

namespace MachVM

variable {σ : Type} {S : Services σ} {A : Set MapId} {k k' : Kernel σ} {i i' j : MapId}
  {e : EntryId} {vaddr va endAddr : VmOffset} {faultType prot : VmProt} {fuel : Nat}

theorem lockUpgrade_cases {granted : Bool} (hs : lockUpgrade S k i = some (k', granted)) :
    ∃ s, if granted then k' = lockMap (k.setMachine s) i else k' = k.setMachine s := by
  obtain ⟨⟨s, lost⟩, _, hr⟩ := Option.map_eq_some_iff.mp hs
  refine ⟨s, ?_⟩
  cases lost <;>
  · cases hr
    rfl

theorem shadowEntry_within (hi : i ∈ A) (hs : shadowEntry S k i e = some k') : Within A k k' := by
  obtain ⟨r, _, rfl⟩ := Option.map_eq_some_iff.mp hs
  exact (within_setMachine A k r.1).trans (within_setEntry hi)

theorem allocateEntry_within (hi : i ∈ A) (hs : allocateEntry S k i e = some k') :
    Within A k k' := by
  obtain ⟨r, _, rfl⟩ := Option.map_eq_some_iff.mp hs
  exact (within_setMachine A k r.1).trans (within_setEntry hi)

theorem needsCopyPass_within {out : Option VmProt}
    (hs : needsCopyPass S k j e faultType prot = some (k', out)) : Within A k k' := by
  rw [needsCopyPass] at hs
  split at hs
  next =>
    split at hs
    next =>
      obtain ⟨⟨k₁, granted⟩, hu, hs⟩ := Option.bind_eq_some_iff.mp hs
      obtain ⟨s, hk⟩ := lockUpgrade_cases hu
      have h₁ := within_setMachine A k s
      cases granted with
      | false =>
        cases Option.some.inj hs
        cases hk
        exact h₁
      | true =>
        obtain ⟨k₂, hsh, hs⟩ := Option.bind_eq_some_iff.mp hs
        cases Option.some.inj hs
        cases hk
        have h₂ := shadowEntry_within (Set.mem_insert j A) hsh
        exact h₁.trans (Within.locked ((within_lockMap (insert j A) _ j).trans h₂))
    next =>
      cases Option.some.inj hs
      exact .refl A k
  next =>
    cases Option.some.inj hs
    exact .refl A k

theorem nullObjectPass_within {granted : Bool}
    (hs : nullObjectPass S k j e = some (k', granted)) : Within A k k' := by
  rw [nullObjectPass] at hs
  split at hs
  next =>
    obtain ⟨⟨k₁, upgraded⟩, hu, hs⟩ := Option.bind_eq_some_iff.mp hs
    obtain ⟨s, hk⟩ := lockUpgrade_cases hu
    have h₁ := within_setMachine A k s
    cases upgraded with
    | false =>
      cases Option.some.inj hs
      cases hk
      exact h₁
    | true =>
      obtain ⟨k₂, ha, hs⟩ := Option.bind_eq_some_iff.mp hs
      cases Option.some.inj hs
      cases hk
      exact h₁.trans (Within.locked (allocateEntry_within (Set.mem_insert j A) ha))
  next =>
    cases Option.some.inj hs
    exact .refl A k

theorem lookupObject_within {shareOffset : VmOffset} {wired shared : Bool} {out : LookupOutcome}
    (hs : lookupObject S k i j e shareOffset faultType prot wired shared = some (k', out)) :
    Within A k k' := by
  obtain ⟨⟨k₁, left⟩, hn, hs⟩ := Option.bind_eq_some_iff.mp hs
  have h₁ : Within A k k₁ := needsCopyPass_within hn
  cases left with
  | none =>
    cases Option.some.inj hs
    exact h₁
  | some left =>
    obtain ⟨⟨k₂, granted⟩, ho, hs⟩ := Option.bind_eq_some_iff.mp hs
    have h₂ : Within A k k₂ := h₁.trans (nullObjectPass_within ho)
    cases granted <;>
    · cases Option.some.inj hs
      exact h₂

theorem lookupPass_within {out : LookupOutcome}
    (hs : lookupPass S fuel k i vaddr faultType = some (k', out)) : Within A k k' := by
  obtain ⟨⟨m, hit⟩, hl, hs⟩ := Option.bind_eq_some_iff.mp hs
  have h₁ : Within A k (k.setMap i m) := (lookupHint_same hl).within
  cases hit with
  | none =>
    cases Option.some.inj hs
    exact h₁
  | some entry =>
    simp only at hs
    split at hs
    next =>
      obtain ⟨j, _, hs⟩ := Option.bind_eq_some_iff.mp hs
      cases Option.some.inj hs
      exact h₁
    next =>
      split at hs
      next =>
        cases Option.some.inj hs
        exact h₁
      next =>
        split at hs
        next =>
          obtain ⟨j, _, hs⟩ := Option.bind_eq_some_iff.mp hs
          obtain ⟨⟨n, found, shareEntry⟩, hn, hs⟩ := Option.bind_eq_some_iff.mp hs
          have h₂ := h₁.trans (vmMapLookupEntry_same hn).within
          cases found with
          | true => exact h₂.trans (lookupObject_within hs)
          | false =>
            cases Option.some.inj hs
            exact h₂
        next => exact h₁.trans (lookupObject_within hs)

theorem vmMapLookup_within {r : Except KernReturn LookupResult}
    (hs : vmMapLookup S fuel k i vaddr faultType = some (k', i', r)) : Within A k k' := by
  induction fuel generalizing k i faultType with
  | zero => simp [vmMapLookup] at hs
  | succ fuel ih =>
    obtain ⟨⟨k₁, out⟩, hp, hs⟩ := Option.bind_eq_some_iff.mp hs
    have h₁ : Within A k k₁ := lookupPass_within hp
    cases out with
    | again j ft => exact h₁.trans (ih hs)
    | failed why =>
      cases Option.some.inj hs
      exact h₁
    | found r =>
      cases Option.some.inj hs
      exact h₁

theorem vmFaultEnter_within {changeWiring : Bool} {r : LookupResult} {page : PageId}
    {out : FaultOutcome}
    (hs : vmFaultEnter S fuel k i vaddr faultType changeWiring r page prot = some (k', out)) :
    Within A k k' := by
  induction fuel generalizing k i r prot with
  | zero => simp [vmFaultEnter] at hs
  | succ fuel ih =>
    rw [vmFaultEnter] at hs
    split at hs
    next =>
      simp only at hs
      generalize (if S.copyObjectChanged k.machine page = true then prot &&& ~~~protWrite
        else prot) = left at hs
      split at hs
      all_goals
        obtain ⟨s, _, hs⟩ := Option.bind_eq_some_iff.mp hs
        cases Option.some.inj hs
        exact within_setMachine A k s
    next =>
      obtain ⟨⟨k₁, i₁, retry⟩, hl, hs⟩ := Option.bind_eq_some_iff.mp hs
      have h₁ : Within A k k₁ := vmMapLookup_within hl
      cases retry with
      | error why =>
        obtain ⟨s, _, hs⟩ := Option.bind_eq_some_iff.mp hs
        cases Option.some.inj hs
        exact h₁.trans (within_setMachine A k₁ s)
      | ok t =>
        simp only at hs
        split at hs
        next =>
          obtain ⟨s, _, hs⟩ := Option.bind_eq_some_iff.mp hs
          cases Option.some.inj hs
          exact h₁.trans (within_setMachine A k₁ s)
        next => exact h₁.trans (ih hs)

theorem vmFault_within {changeWiring : Bool} {kr : KernReturn}
    (hs : vmFault S fuel k i vaddr faultType changeWiring = some (k', kr)) : Within A k k' := by
  induction fuel generalizing k i faultType with
  | zero => simp [vmFault] at hs
  | succ fuel ih =>
    obtain ⟨⟨k₁, i₁, found⟩, hl, hs⟩ := Option.bind_eq_some_iff.mp hs
    have h₁ : Within A k k₁ := vmMapLookup_within hl
    cases found with
    | error why =>
      cases Option.some.inj hs
      exact h₁
    | ok r =>
      obtain ⟨⟨s, result⟩, _, hs⟩ := Option.bind_eq_some_iff.mp hs
      have h₂ := h₁.trans (within_setMachine A k₁ s)
      cases result with
      | retry => exact h₂.trans (ih hs)
      | memoryShortage => exact h₂.trans (ih hs)
      | interrupted =>
        cases Option.some.inj hs
        exact h₂
      | memoryError =>
        cases Option.some.inj hs
        exact h₂
      | success page prot =>
        obtain ⟨⟨k₃, out⟩, he, hs⟩ := Option.bind_eq_some_iff.mp hs
        have h₃ := h₂.trans (vmFaultEnter_within he)
        cases out with
        | again i ft => exact h₃.trans (ih hs)
        | done kr =>
          cases Option.some.inj hs
          exact h₃

theorem vmFaultWireFast_within {kr : KernReturn} (hs : vmFaultWireFast S k i va e = some (k', kr)) :
    Within A k k' := by
  simp only [vmFaultWireFast] at hs
  split at hs
  next =>
    cases Option.some.inj hs
    exact .refl A k
  next =>
    obtain ⟨r, _, hr⟩ := Option.map_eq_some_iff.mp hs
    cases hr
    exact within_setMachine A k r.1

theorem wirePage_within (hs : wirePage S fuel k i e va = some k') : Within A k k' := by
  obtain ⟨⟨k₁, kr⟩, hf, hs⟩ := Option.bind_eq_some_iff.mp hs
  have h₁ : Within A k k₁ := vmFaultWireFast_within hf
  simp only at hs
  split at hs
  next =>
    cases Option.some.inj hs
    exact h₁
  next =>
    obtain ⟨⟨k₂, kr⟩, hv, hr⟩ := Option.map_eq_some_iff.mp hs
    cases hr
    exact h₁.trans (vmFault_within hv)

theorem wireRange_within (hs : wireRange S fuel k i e endAddr va = some k') : Within A k k' := by
  induction fuel generalizing k va with
  | zero => simp [wireRange] at hs
  | succ fuel ih =>
    rw [wireRange] at hs
    split at hs
    next =>
      obtain ⟨k₁, hk, hs⟩ := Option.bind_eq_some_iff.mp hs
      exact (wirePage_within hk).trans (ih hs)
    next =>
      cases Option.some.inj hs
      exact .refl A k'

theorem vmFaultWire_within (hs : vmFaultWire S fuel k i e = some k') : Within A k k' := by
  obtain ⟨s, _, hs⟩ := Option.bind_eq_some_iff.mp hs
  exact (within_setMachine A k s).trans (wireRange_within hs)

theorem unwirePage_within {object : Option ObjId}
    (hs : unwirePage S fuel k i e object va = some k') : Within A k k' := by
  obtain ⟨s, _, hs⟩ := Option.bind_eq_some_iff.mp hs
  have h₁ := within_setMachine A k s
  cases object with
  | none =>
    obtain ⟨⟨k₂, kr⟩, hv, hr⟩ := Option.map_eq_some_iff.mp hs
    cases hr
    exact h₁.trans (vmFault_within hv)
  | some o => exact h₁.trans (machine_within hs)

theorem unwireRange_within {object : Option ObjId}
    (hs : unwireRange S fuel k i e object endAddr va = some k') : Within A k k' := by
  induction fuel generalizing k va with
  | zero => simp [unwireRange] at hs
  | succ fuel ih =>
    rw [unwireRange] at hs
    split at hs
    next =>
      obtain ⟨k₁, hk, hs⟩ := Option.bind_eq_some_iff.mp hs
      exact (unwirePage_within hk).trans (ih hs)
    next =>
      cases Option.some.inj hs
      exact .refl A k'

theorem vmFaultUnwire_within (hs : vmFaultUnwire S fuel k i e = some k') : Within A k k' := by
  obtain ⟨k₁, hk, hs⟩ := Option.bind_eq_some_iff.mp hs
  obtain ⟨s, _, hs⟩ := Option.bind_eq_some_iff.mp hs
  cases Option.some.inj hs
  exact (unwireRange_within hk).trans (within_setMachine A k₁ s)

end MachVM
