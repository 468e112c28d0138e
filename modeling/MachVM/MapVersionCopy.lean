import MachVM.MapVersionRange

namespace MachVM

variable {σ : Type} {S : Services σ} {A : Set MapId} {k k' : Kernel σ} {i src dst old new : MapId}
  {m n : VmMap} {e srcEntry dstEntry : EntryId} {addr start endAddr offset : VmOffset}
  {object : Option ObjId} {kr : KernReturn} {fuel : Nat}

theorem linkNewEntry_timestamp (m : VmMap) (p : EntryId) (fill : VmMapEntry → VmMapEntry) :
    (linkNewEntry m p fill).timestamp = m.timestamp := by
  simp only [linkNewEntry]
  split <;> rfl

theorem coalesceEntry_within {may extended : Bool} {x : VmMapEntry}
    (hs : coalesceEntry S k may x endAddr = some (k', extended)) :
    Within A k k' ∧ k'.map = k.map := by
  rw [coalesceEntry] at hs
  split at hs
  next =>
    obtain ⟨r, _, hr⟩ := Option.map_eq_some_iff.mp hs
    cases hr
    exact ⟨within_setMachine A k r.1, rfl⟩
  next =>
    cases Option.some.inj hs
    exact ⟨.refl A _, rfl⟩

theorem vmMapInsert_within (hi : i ∈ A)
    (hs : vmMapInsert S fuel k i object offset start endAddr = some (k', kr)) : Within A k k' := by
  rw [vmMapInsert] at hs
  split at hs
  next =>
    cases Option.some.inj hs
    exact .refl A _
  next =>
    obtain ⟨⟨m, found, p⟩, hl, hs⟩ := Option.bind_eq_some_iff.mp hs
    have h₁ : Within A k (k.setMap i m) := (vmMapLookupEntry_same hl).within
    simp only at hs
    split at hs
    next =>
      cases Option.some.inj hs
      exact h₁
    next =>
      split at hs
      next =>
        cases Option.some.inj hs
        exact h₁
      next =>
        obtain ⟨⟨k₁, extended⟩, hc, hs⟩ := Option.bind_eq_some_iff.mp hs
        obtain ⟨h₂, hm⟩ := coalesceEntry_within (A := A) hc
        have hk : k₁.map i = m := by rw [hm, setMap_map, if_pos rfl]
        refine (h₁.trans h₂).trans ?_
        cases extended with
        | true =>
          cases Option.some.inj hs
          exact within_setMap hi (by rw [hk]; rfl)
        | false =>
          cases Option.some.inj hs
          exact within_setMap hi (by rw [hk, linkNewEntry_timestamp])

theorem firstPossible_same {first : Option (EntryId × VmOffset)}
    (hs : firstPossible fuel m start = some (n, first)) : SameMap m n := by
  simp only [firstPossible] at hs
  generalize (if start < m.minOffset then m.minOffset else start) = from_ at hs
  split at hs
  next =>
    cases Option.some.inj hs
    rfl
  next =>
    split at hs
    next =>
      cases Option.some.inj hs
      rfl
    next =>
      obtain ⟨⟨p, found, e⟩, hl, hr⟩ := Option.map_eq_some_iff.mp hs
      cases hr
      exact vmMapLookupEntry_same hl

theorem vmMapFind_within {length : VmSize} {space : Bool}
    (hs : vmMapFind S fuel k i object offset addr length space = some (k', start, kr)) :
    Within A k k' := by
  have hi := Set.mem_insert i A
  have hlock := lockMap_map_self k i
  rw [vmMapFind] at hs
  split at hs
  next =>
    obtain ⟨⟨m, first⟩, hf, hs⟩ := Option.bind_eq_some_iff.mp hs
    have hsame := firstPossible_same hf
    rw [← hlock] at hsame
    have h₁ : Within (insert i A) (lockMap k i) ((lockMap k i).setMap i m) := hsame.within
    rw [lockMap, setMap_setMap] at h₁
    cases first with
    | none =>
      cases Option.some.inj hs
      exact Within.locked h₁
    | some place =>
      obtain ⟨place', _, hs⟩ := Option.bind_eq_some_iff.mp hs
      cases place' with
      | none =>
        cases Option.some.inj hs
        exact Within.locked h₁
      | some place' =>
        obtain ⟨⟨k₁, result⟩, hins, hs⟩ := Option.bind_eq_some_iff.mp hs
        cases Option.some.inj hs
        have hhint : SameMap ((lockMap k i).map i) (m.saveHint place'.1) := hsame.trans rfl
        have h₂ : Within (insert i A) (lockMap k i)
            ((lockMap k i).setMap i (m.saveHint place'.1)) := hhint.within
        rw [lockMap, setMap_setMap] at h₂
        exact Within.locked (h₂.trans (vmMapInsert_within hi hins))
  next =>
    obtain ⟨⟨k₁, result⟩, hins, hs⟩ := Option.bind_eq_some_iff.mp hs
    cases Option.some.inj hs
    exact Within.locked (vmMapInsert_within hi hins)

theorem enterPlace_same {size : VmSize} {mask : VmOffset} {anywhere : Bool}
    {place : Except KernReturn (EntryId × VmOffset)}
    (hs : enterPlace fuel m start size mask anywhere = some (n, place)) : SameMap m n := by
  rw [enterPlace] at hs
  split at hs
  next =>
    obtain ⟨⟨p, first⟩, hf, hs⟩ := Option.bind_eq_some_iff.mp hs
    have hsame := firstPossible_same hf
    cases first with
    | none =>
      cases Option.some.inj hs
      exact hsame
    | some at_ =>
      obtain ⟨space, _, hs⟩ := Option.bind_eq_some_iff.mp hs
      cases space with
      | none =>
        cases Option.some.inj hs
        exact hsame
      | some at_ =>
        cases Option.some.inj hs
        exact hsame
  next =>
    simp only at hs
    split at hs
    next =>
      cases Option.some.inj hs
      rfl
    next =>
      obtain ⟨⟨p, found, e⟩, hl, hs⟩ := Option.bind_eq_some_iff.mp hs
      have hsame := vmMapLookupEntry_same hl
      simp only at hs
      split at hs
      next =>
        cases Option.some.inj hs
        exact hsame
      next =>
        split at hs
        all_goals
          cases Option.some.inj hs
          exact hsame

theorem vmMapEnter_within {size : VmSize} {mask : VmOffset} {anywhere needsCopy : Bool}
    {curProt maxProt : VmProt} {inh : VmInherit}
    (hs : vmMapEnter S fuel k i addr size mask anywhere object offset needsCopy curProt maxProt inh =
      some (k', start, kr)) : Within A k k' := by
  have hi := Set.mem_insert i A
  rw [vmMapEnter] at hs
  split at hs
  next =>
    cases Option.some.inj hs
    exact .refl A _
  next =>
    obtain ⟨⟨m, place⟩, hp, hs⟩ := Option.bind_eq_some_iff.mp hs
    have hsame := enterPlace_same hp
    have h₁ : Within (insert i A) (lockMap k i) ((lockMap k i).setMap i m) := hsame.within
    cases place with
    | error why =>
      cases Option.some.inj hs
      exact Within.locked h₁
    | ok place =>
      obtain ⟨⟨k₁, extended⟩, hc, hs⟩ := Option.bind_eq_some_iff.mp hs
      obtain ⟨h₂, hm⟩ := coalesceEntry_within (A := insert i A) hc
      have hk : k₁.map i = m := by rw [hm, setMap_map, if_pos rfl]
      cases extended with
      | true =>
        cases Option.some.inj hs
        exact Within.locked ((h₁.trans h₂).trans (within_setMap hi (by rw [hk]; rfl)))
      | false =>
        cases Option.some.inj hs
        refine Within.locked ((h₁.trans h₂).trans (within_setMap hi ?_))
        rw [hk]
        exact linkNewEntry_timestamp _ _ _

theorem vmMapCheckProtection_same {ok : Bool} {protection : VmProt}
    (hs : vmMapCheckProtection fuel m start endAddr protection = some (n, ok)) : SameMap m n := by
  obtain ⟨⟨p, found, e⟩, hl, hs⟩ := Option.bind_eq_some_iff.mp hs
  have hsame := vmMapLookupEntry_same hl
  cases found with
  | true =>
    obtain ⟨b, _, hs⟩ := Option.bind_eq_some_iff.mp hs
    cases Option.some.inj hs
    exact hsame
  | false =>
    cases Option.some.inj hs
    exact hsame

theorem copyProtect_within {needs : Bool} (hsrc : src ∈ A)
    (hs : copyProtect S k src e needs = some k') : Within A k k' := by
  simp only [copyProtect] at hs
  split at hs
  next =>
    obtain ⟨s, _, rfl⟩ := Option.map_eq_some_iff.mp hs
    exact (within_setMachine A k s).trans (within_setEntry hsrc)
  next =>
    cases Option.some.inj hs
    exact .refl A _

theorem copyObject_within (hsrc : src ∈ A) (hdst : dst ∈ A)
    (hs : copyObject S k src dst srcEntry dstEntry = some k') : Within A k k' := by
  obtain ⟨⟨s, r⟩, _, hs⟩ := Option.bind_eq_some_iff.mp hs
  obtain ⟨k₁, hp, hs⟩ := Option.bind_eq_some_iff.mp hs
  have h₁ := within_setMachine A k s
  have h₂ : Within A k k₁ :=
    (h₁.trans (within_setEntry hdst)).trans (copyProtect_within hsrc hp)
  have h₃ : Within A k₁ (markCopyOnWrite k₁ src srcEntry) := within_setEntry hsrc
  exact (h₂.trans (h₃.trans (within_setEntry hdst))).trans (machine_within hs)

theorem vmFaultCopyEntry_within (hdst : dst ∈ A)
    (hs : vmFaultCopyEntry S k dst src dstEntry srcEntry = some k') : Within A k k' := by
  obtain ⟨⟨s, o⟩, _, hs⟩ := Option.bind_eq_some_iff.mp hs
  obtain ⟨⟨k₁, kr⟩, hw, rfl⟩ := Option.map_eq_some_iff.mp hs
  have h₁ := within_setMachine A k s
  exact (h₁.trans (within_setEntry hdst)).trans (vmFaultWireFast_within hw)

theorem vmMapCopyEntry_within (hsrc : src ∈ A) (hdst : dst ∈ A)
    (hs : vmMapCopyEntry S fuel k src dst srcEntry dstEntry = some k') : Within A k k' := by
  rw [vmMapCopyEntry] at hs
  split at hs
  next =>
    cases Option.some.inj hs
    exact .refl A _
  next =>
    obtain ⟨k₁, hu, hs⟩ := Option.bind_eq_some_iff.mp hs
    obtain ⟨k₂, hm, hs⟩ := Option.bind_eq_some_iff.mp hs
    have h₂ : Within A k k₂ := (unwireIfWired_within hdst hu).trans (machine_within hm)
    split at hs
    next => exact h₂.trans (copyObject_within hsrc hdst hs)
    next => exact h₂.trans (vmFaultCopyEntry_within hdst hs)

theorem Within.lockedMaps (h : Within (insert src (insert dst A)) (lockMaps k src dst) k') :
    Within A k k' := by
  rw [lockMaps] at h
  split at h
  next he =>
    subst he
    rw [Set.insert_eq_of_mem (Set.mem_insert src A)] at h
    exact Within.locked h
  next =>
    split at h
    next =>
      rw [Set.insert_comm] at h
      exact Within.locked (Within.locked h)
    next => exact Within.locked (Within.locked h)

theorem copyCheck_within {dstStart dstEnd srcStart srcEnd : VmOffset} {dstAlloc : Bool}
    (hdst : dst ∈ A)
    (hs : copyCheck S fuel k dst src dstStart dstEnd srcStart srcEnd dstAlloc = some (k', kr)) :
    Within A k k' := by
  rw [copyCheck] at hs
  split at hs
  next =>
    obtain ⟨⟨m, readable⟩, hm, hs⟩ := Option.bind_eq_some_iff.mp hs
    have h₁ : Within A k (k.setMap src m) := (vmMapCheckProtection_same hm).within
    simp only at hs
    split at hs
    next =>
      cases Option.some.inj hs
      exact h₁
    next =>
      split at hs
      next => exact h₁.trans (vmMapInsert_within hdst hs)
      next =>
        obtain ⟨⟨n, writable⟩, hn, hs⟩ := Option.bind_eq_some_iff.mp hs
        cases Option.some.inj hs
        exact h₁.trans (vmMapCheckProtection_same hn).within
  next =>
    cases Option.some.inj hs
    exact .refl A _

theorem lookupClip_within (hi : i ∈ A) (hs : lookupClip S fuel k i addr = some (k', e)) :
    Within A k k' := by
  obtain ⟨⟨m, found, x⟩, hl, hs⟩ := Option.bind_eq_some_iff.mp hs
  obtain ⟨k₁, hc, hs⟩ := Option.bind_eq_some_iff.mp hs
  cases Option.some.inj hs
  exact (vmMapLookupEntry_same hl).within.trans (vmMapClipStart_within hi hc)

theorem copyFirst_within {dstAddr srcAddr : VmOffset} (hsrc : src ∈ A) (hdst : dst ∈ A)
    (hs : copyFirst S fuel k dst src dstAddr srcAddr = some (k', srcEntry, dstEntry)) :
    Within A k k' := by
  obtain ⟨⟨k₁, x⟩, hx, hs⟩ := Option.bind_eq_some_iff.mp hs
  obtain ⟨⟨k₂, y⟩, hy, hs⟩ := Option.bind_eq_some_iff.mp hs
  have h₂ : Within A k k₂ := (lookupClip_within hsrc hx).trans (lookupClip_within hdst hy)
  simp only at hs
  split at hs
  next =>
    obtain ⟨⟨m, found, z⟩, hl, hs⟩ := Option.bind_eq_some_iff.mp hs
    cases Option.some.inj hs
    exact h₂.trans (vmMapLookupEntry_same hl).within
  next =>
    cases Option.some.inj hs
    exact h₂

theorem copyClip_within {srcEnd dstEnd : VmOffset} (hsrc : src ∈ A) (hdst : dst ∈ A)
    (hs : copyClip S k dst src srcEnd dstEnd srcEntry dstEntry = some k') : Within A k k' := by
  obtain ⟨k₁, h₁, hs⟩ := Option.bind_eq_some_iff.mp hs
  obtain ⟨k₂, h₂, hs⟩ := Option.bind_eq_some_iff.mp hs
  obtain ⟨k₃, h₃, hs⟩ := Option.bind_eq_some_iff.mp hs
  have h₁₂ : Within A k k₂ := (vmMapClipEnd_within hsrc h₁).trans (vmMapClipEnd_within hdst h₂)
  exact (h₁₂.trans (vmMapClipEnd_within hsrc h₃)).trans (vmMapClipEnd_within hdst hs)

theorem replaceRegion_within (hs : replaceRegion S fuel k i start endAddr = some k') :
    Within A k k' := by
  obtain ⟨k₁, hd, hs⟩ := Option.bind_eq_some_iff.mp hs
  obtain ⟨⟨k₂, kr⟩, hins, rfl⟩ := Option.map_eq_some_iff.mp hs
  have hi := Set.mem_insert i A
  exact Within.locked ((vmMapDelete_within hi hd).trans (vmMapInsert_within hi hins))

section copy

variable {copy : Kernel σ → MapId → MapId → VmOffset → VmSize → VmOffset → Option (Kernel σ)}
  (hcopy : ∀ k k' d s a l b, copy k d s a l b = some k' → Within A k k')
include hcopy

theorem copyShared_within (hs : copyShared S copy fuel k dst src dstEntry srcEntry = some k') :
    Within A k k' := by
  obtain ⟨newSrc, _, hs⟩ := Option.bind_eq_some_iff.mp hs
  simp only at hs
  split at hs
  next =>
    obtain ⟨newDst, _, hs⟩ := Option.bind_eq_some_iff.mp hs
    obtain ⟨k₁, hr, hs⟩ := Option.bind_eq_some_iff.mp hs
    refine Within.trans ?_ (hcopy _ _ _ _ _ _ _ hs)
    split at hr
    next => exact replaceRegion_within hr
    next =>
      cases Option.some.inj hr
      exact .refl A _
  next => exact hcopy _ _ _ _ _ _ _ hs

theorem copyLoop_within {srcEnd dstEnd srcStart : VmOffset} (hsrc : src ∈ A) (hdst : dst ∈ A)
    (hs : copyLoop S copy dst src srcEnd dstEnd fuel k srcStart srcEntry dstEntry = some k') :
    Within A k k' := by
  induction fuel generalizing k srcStart srcEntry dstEntry with
  | zero => simp [copyLoop] at hs
  | succ fuel ih =>
    rw [copyLoop] at hs
    split at hs
    next =>
      obtain ⟨k₁, hc, hs⟩ := Option.bind_eq_some_iff.mp hs
      obtain ⟨k₂, he, hs⟩ := Option.bind_eq_some_iff.mp hs
      have h₁ : Within A k k₁ := copyClip_within hsrc hdst hc
      refine (h₁.trans ?_).trans (ih hs)
      split at he
      next => exact vmMapCopyEntry_within hsrc hdst he
      next => exact copyShared_within hcopy he
    next =>
      cases Option.some.inj hs
      exact .refl A _

theorem copyRegion_within {dstAddr srcAddr : VmOffset} {len : VmSize} {dstAlloc : Bool}
    (hsrc : src ∈ A) (hdst : dst ∈ A)
    (hs : copyRegion S copy fuel k dst src dstAddr len srcAddr dstAlloc = some (k', kr)) :
    Within A k k' := by
  obtain ⟨⟨k₁, result⟩, hc, hs⟩ := Option.bind_eq_some_iff.mp hs
  have h₁ : Within A k k₁ := copyCheck_within hdst hc
  simp only at hs
  split at hs
  next =>
    cases Option.some.inj hs
    exact h₁
  next =>
    obtain ⟨⟨k₂, x, y⟩, hf, hs⟩ := Option.bind_eq_some_iff.mp hs
    have h₂ := h₁.trans (copyFirst_within hsrc hdst hf)
    simp only at hs
    split at hs
    next =>
      cases Option.some.inj hs
      exact h₂
    next =>
      obtain ⟨k₃, hl, hs⟩ := Option.bind_eq_some_iff.mp hs
      cases Option.some.inj hs
      exact h₂.trans (copyLoop_within hcopy hsrc hdst hl)

end copy

theorem vmMapCopy_within {dstAddr srcAddr : VmOffset} {len : VmSize} {dstAlloc srcDestroy : Bool}
    (hs : vmMapCopy S fuel k dst src dstAddr len srcAddr dstAlloc srcDestroy = some (k', kr)) :
    Within A k k' := by
  induction fuel generalizing k k' kr dst src dstAddr srcAddr len dstAlloc srcDestroy A with
  | zero => simp [vmMapCopy] at hs
  | succ fuel ih =>
    rw [vmMapCopy] at hs
    split at hs
    next =>
      cases Option.some.inj hs
      exact .refl A _
    next =>
      obtain ⟨⟨k₁, result⟩, hr, hs⟩ := Option.bind_eq_some_iff.mp hs
      obtain ⟨k₂, hd, hs⟩ := Option.bind_eq_some_iff.mp hs
      cases Option.some.inj hs
      have hsrc : src ∈ insert src (insert dst A) := Set.mem_insert _ _
      have hdst : dst ∈ insert src (insert dst A) := .inr (Set.mem_insert _ _)
      have h₁ := copyRegion_within ?_ hsrc hdst hr
      · refine Within.lockedMaps (h₁.trans ?_)
        split at hd
        next => exact vmMapDelete_within hsrc hd
        next =>
          cases Option.some.inj hd
          exact .refl _ _
      · intro k k' d s a l b hc
        obtain ⟨⟨k₃, kr⟩, hc', rfl⟩ := Option.map_eq_some_iff.mp hc
        exact ih hc'

theorem createMap_within {pmap : Option PmapId} {min max : VmOffset} {pageable main : Bool} :
    Within A k (createMap k pmap min max pageable main).1 := by
  have hm : ∀ j < k.freshMap, (createMap k pmap min max pageable main).1.map j = k.map j := by
    intro j hj
    simp only [createMap, setMap_map]
    exact if_neg (Nat.ne_of_lt hj)
  refine ⟨Nat.le_succ _, ?_, ?_⟩
  · intro j hj
    rw [hm j hj]
  · intro j hj _ _
    rw [hm j hj]
    exact SameMap.refl _

theorem appendEntry_within {x : VmMapEntry} (hi : i ∈ A) : Within A k (appendEntry k i x).1 :=
  within_setMap hi rfl

theorem shareEntry_within (hi : i ∈ A) : Within A k (shareEntry k i e) := by
  simp only [shareEntry]
  split
  next => exact .refl A _
  next =>
    have hf : k.freshMap ≤ (createMap k none ((k.map i).entry e).start ((k.map i).entry e).endAddr
        true false).2 := Nat.le_refl _
    exact (createMap_within.created (appendEntry_within (Set.mem_insert _ _)) hf).trans
      (within_setEntry hi)

theorem forkShare_within (hold : old ∈ A) (hnew : new ∈ A)
    (hs : forkShare S k old new e = some k') : Within A k k' := by
  have h₁ : Within A k (shareEntry k old e) := shareEntry_within hold
  have h₂ : Within A (shareEntry k old e)
      (appendEntry (shareEntry k old e) new (((shareEntry k old e).map old).entry e)).1 :=
    appendEntry_within hnew
  exact ((h₁.trans h₂).trans (vmMapReference_within _)).trans (machine_within hs)

theorem forkCopy_within (hold : old ∈ A) (hnew : new ∈ A)
    (hs : forkCopy S fuel k old new e = some k') : Within A k k' := by
  simp only [forkCopy] at hs
  split at hs
  next =>
    obtain ⟨share, _, hs⟩ := Option.bind_eq_some_iff.mp hs
    obtain ⟨⟨k₁, kr⟩, hc, rfl⟩ := Option.map_eq_some_iff.mp hs
    exact (appendEntry_within hnew).trans (vmMapCopy_within hc)
  next => exact (appendEntry_within hnew).trans (vmMapCopyEntry_within hold hnew hs)

theorem forkLoop_within (hold : old ∈ A) (hnew : new ∈ A)
    (hs : forkLoop S old new fuel k e = some k') : Within A k k' := by
  induction fuel generalizing k e with
  | zero => simp [forkLoop] at hs
  | succ fuel ih =>
    rw [forkLoop] at hs
    split at hs
    next =>
      cases Option.some.inj hs
      exact .refl A _
    next =>
      obtain ⟨k₁, he, hs⟩ := Option.bind_eq_some_iff.mp hs
      refine Within.trans ?_ (ih hs)
      simp only [forkEntry] at he
      split at he
      next => simp at he
      next =>
        split at he
        next => exact forkShare_within hold hnew he
        next => exact forkCopy_within hold hnew he
        next =>
          cases Option.some.inj he
          exact .refl A _

theorem vmMapFork_within (hs : vmMapFork S fuel k old = some (k', new)) : Within A k k' := by
  obtain ⟨⟨s, pmap⟩, _, hs⟩ := Option.bind_eq_some_iff.mp hs
  obtain ⟨k₁, hl, hs⟩ := Option.bind_eq_some_iff.mp hs
  cases Option.some.inj hs
  have h₁ := within_setMachine (insert old A) (lockMap k old) s
  have h₂ : Within (insert old A) (lockMap k old) (createMap ((lockMap k old).setMachine s)
      (some pmap) ((lockMap k old).map old).minOffset ((lockMap k old).map old).maxOffset
      ((lockMap k old).map old).entriesPageable true).1 := h₁.trans createMap_within
  have hnew := Set.mem_insert (lockMap k old).freshMap (insert old A)
  have h₃ := forkLoop_within (.inr (Set.mem_insert old A)) hnew hl
  exact Within.locked ((h₂.created h₃ (Nat.le_refl _)).created (within_setMap hnew rfl)
    (Nat.le_refl _))

end MachVM
