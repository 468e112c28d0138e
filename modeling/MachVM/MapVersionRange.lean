import MachVM.MapVersion

namespace MachVM

variable {σ : Type} {S : Services σ} {A : Set MapId} {k k' : Kernel σ} {i : MapId}
  {m : VmMap} {e : EntryId} {start endAddr : VmOffset} {fuel : Nat}

theorem unwireIfWired_within (hi : i ∈ A) (hs : unwireIfWired S fuel k i e = some k') :
    Within A k k' := by
  rw [unwireIfWired] at hs
  split at hs
  next =>
    obtain ⟨k₁, hk, rfl⟩ := Option.map_eq_some_iff.mp hs
    exact (vmFaultUnwire_within hk).trans (within_setEntry hi)
  next =>
    cases Option.some.inj hs
    exact .refl A _

section release

variable {release : Kernel σ → Option MapId → Option (Kernel σ)}
  (hrel : ∀ k k' o, release k o = some k' → Within A k k')
include hrel

theorem vmMapEntryDelete_within (hi : i ∈ A)
    (hs : vmMapEntryDelete S release fuel k i e = some k') : Within A k k' := by
  obtain ⟨k₁, hk, hs⟩ := Option.bind_eq_some_iff.mp hs
  have h₁ : Within A k k₁ := unwireIfWired_within hi hk
  have h₂ : Within A k₁ (k₁.setMap i { vmMapEntryUnlink (k₁.map i) e with
      size := (vmMapEntryUnlink (k₁.map i) e).size -
        (((k₁.map i).entry e).endAddr - ((k₁.map i).entry e).start) }) := within_setMap hi rfl
  simp only at hs
  split at hs
  next => exact (h₁.trans h₂).trans (hrel _ _ _ hs)
  next => exact (h₁.trans h₂).trans (machine_within hs)

theorem deleteRange_within (hi : i ∈ A) (hs : deleteRange S release fuel k i endAddr e = some k') :
    Within A k k' := by
  induction fuel generalizing k e with
  | zero => simp [deleteRange] at hs
  | succ fuel ih =>
    rw [deleteRange] at hs
    split at hs
    next =>
      obtain ⟨k₁, hc, hs⟩ := Option.bind_eq_some_iff.mp hs
      obtain ⟨k₂, hu, hs⟩ := Option.bind_eq_some_iff.mp hs
      obtain ⟨k₃, hr, hs⟩ := Option.bind_eq_some_iff.mp hs
      obtain ⟨k₄, hd, hs⟩ := Option.bind_eq_some_iff.mp hs
      have h₂ : Within A k k₂ := (vmMapClipEnd_within hi hc).trans (unwireIfWired_within hi hu)
      have h₄ : Within A k k₄ :=
        (h₂.trans (machine_within hr)).trans (vmMapEntryDelete_within hrel hi hd)
      exact h₄.trans (ih hs)
    next =>
      cases Option.some.inj hs
      exact .refl A _

omit hrel in
theorem deleteFirst_within (hi : i ∈ A) (hs : deleteFirst S fuel k i start = some (k', e)) :
    Within A k k' := by
  obtain ⟨⟨m, found, x⟩, hl, hs⟩ := Option.bind_eq_some_iff.mp hs
  have h₁ : Within A k (k.setMap i m) := (vmMapLookupEntry_same hl).within
  cases found with
  | true =>
    obtain ⟨k₁, hk, hs⟩ := Option.bind_eq_some_iff.mp hs
    cases Option.some.inj hs
    exact (h₁.trans (vmMapClipStart_within hi hk)).trans (within_setMap hi rfl)
  | false =>
    cases Option.some.inj hs
    exact h₁

theorem deleteWith_within (hi : i ∈ A)
    (hs : deleteWith S release fuel k i start endAddr = some k') : Within A k k' := by
  obtain ⟨⟨k₁, entry⟩, hf, hs⟩ := Option.bind_eq_some_iff.mp hs
  have h₁ : Within A k k₁ := deleteFirst_within hi hf
  have h₂ : Within A k₁ (k₁.setMap i (deleteFree (k₁.map i) start entry)) := by
    refine within_setMap hi ?_
    rw [deleteFree]
    split <;> rfl
  exact (h₁.trans h₂).trans (deleteRange_within hrel hi hs)

end release

theorem vmMapDeallocate_within {o : Option MapId} (hs : vmMapDeallocate S fuel k o = some k') :
    Within A k k' := by
  induction fuel generalizing k k' o A with
  | zero => simp [vmMapDeallocate] at hs
  | succ fuel ih =>
    cases o with
    | none =>
      cases Option.some.inj hs
      exact .refl A _
    | some i =>
      have h₁ : Within A k (k.setMap i { k.map i with refCount := (k.map i).refCount - 1 }) :=
        SameMap.within rfl
      simp only [vmMapDeallocate] at hs
      split at hs
      next =>
        cases Option.some.inj hs
        exact h₁
      next =>
        obtain ⟨k₁, hd, hs⟩ := Option.bind_eq_some_iff.mp hs
        have h₂ := deleteWith_within (fun k k' o => ih) (Set.mem_insert i A) hd
        exact (h₁.trans (Within.locked h₂)).trans (machine_within hs)

theorem vmMapDelete_within (hi : i ∈ A) (hs : vmMapDelete S fuel k i start endAddr = some k') :
    Within A k k' :=
  deleteWith_within (fun _ _ _ => vmMapDeallocate_within) hi hs

theorem vmMapRemove_within {kr : KernReturn} (hs : vmMapRemove S fuel k i start endAddr = some (k', kr)) :
    Within A k k' := by
  obtain ⟨k₁, hd, hr⟩ := Option.map_eq_some_iff.mp hs
  cases hr
  exact Within.locked (vmMapDelete_within (Set.mem_insert i A) hd)

theorem protectPhysical_within {first : EntryId} {oldProt : VmProt}
    (hs : protectPhysical S fuel k i oldProt first e = some k') : Within A k k' := by
  simp only [protectPhysical] at hs
  split at hs
  next =>
    cases Option.some.inj hs
    exact .refl A _
  next =>
    split at hs
    next =>
      obtain ⟨j, _, hs⟩ := Option.bind_eq_some_iff.mp hs
      obtain ⟨⟨n, found, x⟩, hl, hs⟩ := Option.bind_eq_some_iff.mp hs
      have h₁ := (within_lockMap A k j).trans (vmMapLookupEntry_same hl).within
      exact h₁.trans (machine_within hs)
    next => exact machine_within hs

theorem protectRange_within {newProt : VmProt} {setMax : Bool} {first : EntryId} (hi : i ∈ A)
    (hs : protectRange S newProt setMax first fuel k i endAddr e = some k') : Within A k k' := by
  induction fuel generalizing k e with
  | zero => simp [protectRange] at hs
  | succ fuel ih =>
    rw [protectRange] at hs
    split at hs
    next =>
      obtain ⟨k₁, hc, hs⟩ := Option.bind_eq_some_iff.mp hs
      obtain ⟨k₂, hp, hs⟩ := Option.bind_eq_some_iff.mp hs
      have h₁ : Within A k k₁ := vmMapClipEnd_within hi hc
      exact ((h₁.trans (within_setEntry hi)).trans (protectPhysical_within hp)).trans (ih hs)
    next =>
      cases Option.some.inj hs
      exact .refl A _

theorem vmMapProtect_within {newProt : VmProt} {setMax : Bool} {kr : KernReturn}
    (hs : vmMapProtect S fuel k i start endAddr newProt setMax = some (k', kr)) : Within A k k' := by
  obtain ⟨⟨k₁, entry⟩, hf, hs⟩ := Option.bind_eq_some_iff.mp hs
  have h₁ := firstInRange_within (Set.mem_insert i A) hf
  obtain ⟨why, _, hs⟩ := Option.bind_eq_some_iff.mp hs
  cases why with
  | some why =>
    cases Option.some.inj hs
    exact Within.locked h₁
  | none =>
    obtain ⟨k₂, hp, hs⟩ := Option.bind_eq_some_iff.mp hs
    cases Option.some.inj hs
    exact Within.locked (h₁.trans (protectRange_within (Set.mem_insert i A) hp))

theorem inheritRange_within {inh : VmInherit} (hi : i ∈ A)
    (hs : inheritRange S inh fuel k i endAddr e = some k') : Within A k k' := by
  induction fuel generalizing k e with
  | zero => simp [inheritRange] at hs
  | succ fuel ih =>
    rw [inheritRange] at hs
    split at hs
    next =>
      obtain ⟨k₁, hc, hs⟩ := Option.bind_eq_some_iff.mp hs
      exact ((vmMapClipEnd_within hi hc).trans (within_setEntry hi)).trans (ih hs)
    next =>
      cases Option.some.inj hs
      exact .refl A _

theorem vmMapInherit_within {inh : VmInherit} {kr : KernReturn}
    (hs : vmMapInherit S fuel k i start endAddr inh = some (k', kr)) : Within A k k' := by
  unfold vmMapInherit at hs
  split at hs
  next =>
    cases Option.some.inj hs
    exact .refl A _
  next =>
    obtain ⟨⟨k₁, entry⟩, hf, hs⟩ := Option.bind_eq_some_iff.mp hs
    obtain ⟨k₂, hr, hs⟩ := Option.bind_eq_some_iff.mp hs
    cases Option.some.inj hs
    have h₁ := firstInRange_within (Set.mem_insert i A) hf
    exact Within.locked (h₁.trans (inheritRange_within (Set.mem_insert i A) hr))

theorem unwireEntries_within (hi : i ∈ A) (hs : unwireEntries S fuel k i endAddr e = some k') :
    Within A k k' := by
  induction fuel generalizing k e with
  | zero => simp [unwireEntries] at hs
  | succ fuel ih =>
    rw [unwireEntries] at hs
    split at hs
    next =>
      obtain ⟨k₁, hc, hs⟩ := Option.bind_eq_some_iff.mp hs
      obtain ⟨k₂, hu, hs⟩ := Option.bind_eq_some_iff.mp hs
      have h₁ : Within A k k₁ := vmMapClipEnd_within hi hc
      refine h₁.trans (Within.trans ?_ (ih hs))
      split at hu
      next => exact (within_setEntry hi).trans (vmFaultUnwire_within hu)
      next =>
        cases Option.some.inj hu
        exact within_setEntry hi
    next =>
      cases Option.some.inj hs
      exact .refl A _

theorem wirePrepare_within (hi : i ∈ A) (hs : wirePrepare S k i e = some k') : Within A k k' := by
  simp only [wirePrepare] at hs
  split at hs
  next =>
    cases Option.some.inj hs
    exact .refl A _
  next =>
    split at hs
    next => exact shadowEntry_within hi hs
    next =>
      split at hs
      next => exact allocateEntry_within hi hs
      next =>
        cases Option.some.inj hs
        exact .refl A _

theorem wireCount_within (hi : i ∈ A) (hs : wireCount S fuel k i endAddr e = some k') :
    Within A k k' := by
  induction fuel generalizing k e with
  | zero => simp [wireCount] at hs
  | succ fuel ih =>
    rw [wireCount] at hs
    split at hs
    next =>
      obtain ⟨k₁, hc, hs⟩ := Option.bind_eq_some_iff.mp hs
      obtain ⟨k₂, hw, hs⟩ := Option.bind_eq_some_iff.mp hs
      have h₁ : Within A k k₁ := vmMapClipEnd_within hi hc
      refine h₁.trans (Within.trans ?_ (ih hs))
      split at hw
      next => exact (within_setEntry hi).trans (wirePrepare_within hi hw)
      next =>
        cases Option.some.inj hw
        exact within_setEntry hi
    next =>
      cases Option.some.inj hs
      exact .refl A _

theorem wireFaults_within (hs : wireFaults S fuel k i endAddr e = some k') : Within A k k' := by
  induction fuel generalizing k e with
  | zero => simp [wireFaults] at hs
  | succ fuel ih =>
    rw [wireFaults] at hs
    split at hs
    next =>
      obtain ⟨k₁, hw, hs⟩ := Option.bind_eq_some_iff.mp hs
      refine Within.trans ?_ (ih hs)
      split at hw
      next => exact vmFaultWire_within hw
      next =>
        cases Option.some.inj hw
        exact .refl A _
    next =>
      cases Option.some.inj hs
      exact .refl A _

theorem vmMapPageable_within {newPageable : Bool} {kr : KernReturn}
    (hs : vmMapPageable S fuel k i start endAddr newPageable = some (k', kr)) : Within A k k' := by
  obtain ⟨⟨k₁, entry⟩, hf, hs⟩ := Option.bind_eq_some_iff.mp hs
  have hi := Set.mem_insert i A
  have h₁ := firstInRange_within hi hf
  cases newPageable with
  | true =>
    obtain ⟨ok, _, hs⟩ := Option.bind_eq_some_iff.mp hs
    cases ok with
    | true =>
      obtain ⟨k₂, hu, hs⟩ := Option.bind_eq_some_iff.mp hs
      cases Option.some.inj hs
      exact Within.locked (h₁.trans (unwireEntries_within hi hu))
    | false =>
      cases Option.some.inj hs
      exact Within.locked h₁
  | false =>
    obtain ⟨k₂, hw, hs⟩ := Option.bind_eq_some_iff.mp hs
    obtain ⟨k₃, hv, hs⟩ := Option.bind_eq_some_iff.mp hs
    cases Option.some.inj hs
    exact Within.locked ((h₁.trans (wireCount_within hi hw)).trans (wireFaults_within hv))

theorem mergeEntry_timestamp (m : VmMap) (p e : EntryId) :
    (mergeEntry m p e).timestamp = m.timestamp := by
  simp only [mergeEntry]
  split <;> rfl

theorem vmMapSimplify_within (hs : vmMapSimplify S fuel k i start = some k') : Within A k k' := by
  obtain ⟨⟨m, found, x⟩, hl, hs⟩ := Option.bind_eq_some_iff.mp hs
  have hi := Set.mem_insert i A
  have ht : m.timestamp = ((lockMap k i).map i).timestamp := by
    rw [lockMap_map_self]
    exact (vmMapLookupEntry_same hl).timestamp
  have hset : ∀ n : VmMap, n.timestamp = m.timestamp → Within A k (k.setMap i n) := by
    intro n hn
    have h₁ : Within (insert i A) (lockMap k i) ((lockMap k i).setMap i n) :=
      within_setMap hi (hn.trans ht)
    have h₂ := Within.locked h₁
    rwa [lockMap, setMap_setMap] at h₂
  simp only at hs
  split at hs
  next => exact (hset _ (mergeEntry_timestamp _ _ _)).trans (machine_within hs)
  next =>
    cases Option.some.inj hs
    exact hset m rfl

end MachVM
