import MachVM.MapLocks

namespace MachVM
namespace MapLocks

variable {m map : MapId} {tr tr' : List LockEvent} {r r' : Option (List LockEvent)} {share : Option MapId}
  {back back' : Bool}

@[simp] theorem held_nil (m : MapId) : held m [] = 0 := rfl

@[simp] theorem held_cons (m : MapId) (e : LockEvent) (tr : List LockEvent) :
    held m (e :: tr) = e.change m + held m tr := by
  simp [held]

@[simp] theorem held_append (m : MapId) (tr tr' : List LockEvent) :
    held m (tr ++ tr') = held m tr + held m tr' := by
  simp [held]

/-- Every lock that is taken is given up. -/
def Even (tr : List LockEvent) : Prop := ∀ m, held m tr = 0

/-- No lock is given up that is not held, and none is kept exactly if `vm_fault` does not go back. -/
structure Sound (back : Bool) (tr : List LockEvent) : Prop where
  nonneg : ∀ m, 0 ≤ held m tr
  exact : Even tr ↔ back = false

theorem Even.sound (h : Even tr) : Sound false tr where
  nonneg m := Int.le_of_eq (h m).symm
  exact := iff_of_true h rfl

theorem Sound.append (h : Sound back tr) (h' : Sound back' tr') : Sound (back || back') (tr ++ tr') where
  nonneg m := by
    rw [held_append]
    exact Int.add_nonneg (h.nonneg m) (h'.nonneg m)
  exact := by
    rw [Bool.or_eq_false_iff, ← h.exact, ← h'.exact, Even, Even, Even, ← forall_and]
    refine forall_congr' fun m => ?_
    rw [held_append]
    have := h.nonneg m
    have := h'.nonneg m
    omega

theorem Even.append (h : Even tr) (h' : Even tr') : Even (tr ++ tr') := by
  intro m
  rw [held_append, h m, h' m]
  rfl

theorem held_between {pre post : List LockEvent} (hp : Even (pre ++ post)) (m : MapId) :
    held m (pre ++ (tr ++ post)) = held m tr := by
  have := hp m
  rw [held_append] at this
  rw [held_append, held_append]
  omega

theorem Even.between {pre post : List LockEvent} (h : Even tr) (hp : Even (pre ++ post)) :
    Even (pre ++ (tr ++ post)) := by
  intro m
  rw [held_between hp, h m]

theorem Sound.between {pre post : List LockEvent} (h : Sound back tr) (hp : Even (pre ++ post)) :
    Sound back (pre ++ (tr ++ post)) where
  nonneg m := by
    rw [held_between hp]
    exact h.nonneg m
  exact := by
    rw [← h.exact]
    exact forall_congr' fun m => by rw [held_between hp]

/-- Whatever a routine does to the locks is sound. -/
def SoundRun (back : Bool) (r : Option (List LockEvent)) : Prop := ∀ tr, r = some tr → Sound back tr

theorem andThen_eq_some (h : andThen r r' = some tr) :
    ∃ tr₁ tr₂, r = some tr₁ ∧ r' = some tr₂ ∧ tr = tr₁ ++ tr₂ := by
  obtain ⟨tr₁, h₁, h⟩ := Option.bind_eq_some_iff.mp h
  obtain ⟨tr₂, h₂, rfl⟩ := Option.map_eq_some_iff.mp h
  exact ⟨tr₁, tr₂, h₁, h₂, rfl⟩

theorem SoundRun.of_even (h : Even tr) : SoundRun false (some tr) := by
  rintro tr' ⟨⟩
  exact h.sound

theorem even_nil : Even [] := fun _ => rfl

theorem SoundRun.nil : SoundRun false (some []) := .of_even even_nil

theorem SoundRun.andThen (h : SoundRun back r) (h' : SoundRun back' r') :
    SoundRun (back || back') (MapLocks.andThen r r') := by
  intro tr hs
  obtain ⟨tr₁, tr₂, h₁, h₂, rfl⟩ := andThen_eq_some hs
  exact (h tr₁ h₁).append (h' tr₂ h₂)

theorem SoundRun.between {pre post : List LockEvent} (h : SoundRun back r) (hp : Even (pre ++ post)) :
    SoundRun back (MapLocks.andThen (some pre) (MapLocks.andThen r (some post))) := by
  intro tr hs
  obtain ⟨tr₁, tr₂, h₁, h₂, rfl⟩ := andThen_eq_some hs
  obtain ⟨tr₃, tr₄, h₃, h₄, rfl⟩ := andThen_eq_some h₂
  cases h₁
  cases h₄
  exact (h tr₃ h₃).between hp

theorem SoundRun.foldr {α : Type} {f : α → Option (List LockEvent)} {b : α → Bool}
    (hf : ∀ x, SoundRun (b x) (f x)) (l : List α) :
    SoundRun (l.any b) (l.foldr (fun x r => MapLocks.andThen (f x) r) (some [])) := by
  induction l with
  | nil => exact SoundRun.nil
  | cons x l ih => exact (hf x).andThen ih

theorem even_pair (map : MapId) : Even [.lock map, .unlock map] :=
  fun m => by simp [LockEvent.change]; split <;> rfl

theorem upgradePass_granted {o : Option Bool} (h : (upgradePass map share o).2 = true) :
    Even (upgradePass map share o).1 := by
  cases o with
  | none => exact even_nil
  | some b =>
    cases b with
    | true => exact fun m => by simp [upgradePass, LockEvent.change]
    | false => cases h

/-- The locks of the map and of the sharing map, in the order they are taken in. -/
def lockShare (map : MapId) (share : Option MapId) : List LockEvent :=
  .lockRead map :: (share.map LockEvent.lockRead).toList

theorem lockShare_unlock (map : MapId) (share : Option MapId) :
    Even (lockShare map share ++ vmMapVerifyDone map share) := by
  cases share with
  | none =>
    intro m
    simp only [lockShare, vmMapVerifyDone, unlockShare, LockEvent.change, Option.map_none, Option.toList_none,
      List.cons_append, List.nil_append, held_cons, held_nil]
    split <;> rfl
  | some s =>
    intro m
    simp only [lockShare, vmMapVerifyDone, unlockShare, LockEvent.change, Option.map_some, Option.toList_some,
      List.cons_append, List.nil_append, held_cons, held_nil]
    split <;> split <;> rfl

theorem upgradePass_refused {o : Option Bool} (h : (upgradePass map share o).2 = false) :
    Even (lockShare map share ++ (upgradePass map share o).1) := by
  cases o with
  | none => cases h
  | some b =>
    cases b with
    | true => cases h
    | false =>
      cases share with
      | none =>
        intro m
        simp only [lockShare, upgradePass, LockEvent.change, Option.map_none, Option.toList_none, Option.getD_none,
          Option.isSome_none, Bool.false_eq_true, if_false, List.cons_append, List.nil_append, held_cons, held_nil]
        split <;> rfl
      | some s =>
        intro m
        simp only [lockShare, upgradePass, LockEvent.change, Option.map_some, Option.toList_some, Option.getD_some,
          Option.isSome_some, if_true, List.cons_append, List.nil_append, held_cons, held_nil]
        split <;> split <;> rfl

theorem lookupObject_even (map : MapId) (x : LookupSeen) :
    Even (lockShare map x.shareMap ++ (lookupObject map x).1) := by
  unfold lookupObject
  cases hc : (upgradePass map x.shareMap x.needsCopy).2 with
  | false =>
    simp only [hc, Bool.false_eq_true, if_false]
    exact upgradePass_refused hc
  | true =>
    have hcopy := upgradePass_granted hc
    cases hn : (upgradePass map x.shareMap x.nullObject).2 with
    | false =>
      simp only [hc, hn, if_true, Bool.false_eq_true, if_false]
      exact hcopy.between (upgradePass_refused hn)
    | true =>
      simp only [hc, hn, if_true]
      rw [List.append_assoc]
      exact (hcopy.append (upgradePass_granted hn)).between (lockShare_unlock map x.shareMap)

theorem lookupPass_even (map : MapId) (x : LookupSeen) : Even (lookupPass map x).1 := by
  have hread : Even [.lockRead map, .unlock map] := lockShare_unlock map none
  unfold lookupPass
  split
  next => exact hread
  next =>
    split
    next => exact hread
    next =>
      split
      next => exact hread
      next =>
        split
        next hx =>
          have := lookupObject_even map x
          rw [hx] at this
          exact this
        next share hx =>
          split
          next => exact lockShare_unlock map (some share)
          next =>
            have := lookupObject_even map x
            rw [hx] at this
            exact this

theorem vmMapLookup_even {passes : List LookupSeen} {e : LookupEnd}
    (hs : vmMapLookup map passes = some (tr, e)) : Even tr := by
  induction passes generalizing map tr with
  | nil => cases hs
  | cons x xs ih =>
    have hpass := lookupPass_even map x
    rw [vmMapLookup] at hs
    split at hs
    next tr₁ map' hp =>
      obtain ⟨⟨tr₂, e₂⟩, h₂, hr⟩ := Option.map_eq_some_iff.mp hs
      cases hr
      rw [hp] at hpass
      exact hpass.append (ih h₂)
    next =>
      rw [Option.some.inj hs] at hpass
      exact hpass

theorem vmMapVerify_held {v : VerifySeen} (h : (vmMapVerify map share v).2 = true) :
    (vmMapVerify map share v).1 = lockShare map share := by
  unfold vmMapVerify at h ⊢
  cases share with
  | none =>
    split at h
    next hm => simp [hm, lockShare]
    next => cases h
  | some s =>
    split at h
    next hm =>
      simp only at h
      split at h
      next hsame => simp [hm, hsame, lockShare]
      next => cases h
    next => cases h

theorem vmMapVerify_even {v : VerifySeen} (h : (vmMapVerify map share v).2 = false) :
    Even (vmMapVerify map share v).1 := by
  unfold vmMapVerify at h ⊢
  cases share with
  | none =>
    split at h
    next => cases h
    next hm =>
      simp only [hm, Bool.false_eq_true, if_false]
      exact lockShare_unlock map none
  | some s =>
    split at h
    next hm =>
      simp only at h
      split at h
      next => cases h
      next hsame =>
        simp only [hm, hsame, Bool.false_eq_true, if_false, if_true]
        exact lockShare_unlock map (some s)
    next hm =>
      simp only [hm, Bool.false_eq_true, if_false]
      exact lockShare_unlock map none

/-- A verified map is held with its sharing map, and one that is not is not. -/
def VerifyEnd.Holds (tr : List LockEvent) : VerifyEnd → Prop
  | .verified map share => Even (tr ++ vmMapVerifyDone map share)
  | _ => Even tr

theorem VerifyEnd.Holds.prepend {e : VerifyEnd} (h : e.Holds tr') (ht : Even tr) : e.Holds (tr ++ tr') := by
  cases e with
  | verified map share =>
    have := ht.append h
    rw [← List.append_assoc] at this
    exact this
  | failed => exact ht.append h
  | moved map => exact ht.append h

theorem verifyLoop_holds {vs : List VerifySeen} {e : VerifyEnd} (hs : verifyLoop map share vs = some (tr, e)) :
    e.Holds tr := by
  induction vs generalizing map share tr with
  | nil => cases hs
  | cons v vs ih =>
    rw [verifyLoop] at hs
    cases hv : (vmMapVerify map share v).2 with
    | true =>
      simp only [hv, if_true] at hs
      cases Option.some.inj hs
      rw [vmMapVerify_held hv]
      exact lockShare_unlock map share
    | false =>
      simp only [hv, Bool.false_eq_true, if_false] at hs
      have hverify := vmMapVerify_even hv
      obtain ⟨⟨tr₁, l⟩, hl, hs⟩ := Option.bind_eq_some_iff.mp hs
      have hboth := hverify.append (vmMapLookup_even hl)
      cases l with
      | failed =>
        cases Option.some.inj hs
        exact hboth
      | again map' =>
        cases Option.some.inj hs
        exact hboth
      | found map' share' =>
        simp only at hs
        split at hs
        next =>
          cases Option.some.inj hs
          exact hboth
        next =>
          obtain ⟨⟨tr₂, e₂⟩, h₂, hr⟩ := Option.map_eq_some_iff.mp hs
          cases hr
          exact (ih h₂).prepend hboth

theorem sound_goBack (h : Even (tr ++ vmMapVerifyDone map share)) (h' : Sound back tr') :
    Sound true (tr ++ tr') := by
  have hone : ∀ m, held m tr = held m (lockShare map share) := by
    intro m
    have := h m
    have hl := lockShare_unlock map share m
    rw [held_append] at this hl
    omega
  have hpos : ∀ m, 0 ≤ held m (lockShare map share) ∧ 1 ≤ held map (lockShare map share) := by
    intro m
    cases share with
    | none =>
      simp only [lockShare, LockEvent.change, Option.map_none, Option.toList_none, held_cons, held_nil]
      refine ⟨?_, by simp⟩
      split <;> decide
    | some s =>
      simp only [lockShare, LockEvent.change, Option.map_some, Option.toList_some, held_cons, held_nil]
      refine ⟨?_, ?_⟩
      · split <;> split <;> decide
      · simp only [if_true]
        split <;> decide
  have hsum : ∀ m, held m (tr ++ tr') = held m (lockShare map share) + held m tr' := by
    intro m
    rw [held_append, hone]
  refine ⟨fun m => ?_, iff_of_false ?_ (by simp)⟩
  · rw [hsum]
    exact Int.add_nonneg (hpos m).1 (h'.nonneg m)
  · intro hall
    have := hall map
    have := h'.nonneg map
    have := (hpos map).2
    rw [hsum] at *
    omega

theorem vmFault_sound (map : MapId) (rounds : List FaultSeen) :
    SoundRun (faultGoesBack map rounds) (vmFault map rounds) := by
  induction rounds generalizing map with
  | nil => rintro tr ⟨⟩
  | cons x xs ih =>
    intro tr hs
    rw [vmFault] at hs
    rw [faultGoesBack]
    obtain ⟨⟨tr₁, l⟩, hl, hs⟩ := Option.bind_eq_some_iff.mp hs
    have hlookup := vmMapLookup_even hl
    rw [hl]
    cases l with
    | failed =>
      cases Option.some.inj hs
      exact hlookup.sound
    | again map' =>
      cases Option.some.inj hs
      exact hlookup.sound
    | found map' share =>
      simp only at hs
      cases hpage : x.page with
      | interrupted =>
        simp only [hpage] at hs ⊢
        cases Option.some.inj hs
        exact hlookup.sound
      | memoryError =>
        simp only [hpage] at hs ⊢
        cases Option.some.inj hs
        exact hlookup.sound
      | retry =>
        simp only [hpage] at hs ⊢
        obtain ⟨tr₂, h₂, rfl⟩ := Option.map_eq_some_iff.mp hs
        exact hlookup.sound.append (ih map' tr₂ h₂)
      | memoryShortage =>
        simp only [hpage] at hs ⊢
        obtain ⟨tr₂, h₂, rfl⟩ := Option.map_eq_some_iff.mp hs
        exact hlookup.sound.append (ih map' tr₂ h₂)
      | success =>
        simp only [hpage] at hs ⊢
        obtain ⟨⟨tr₂, e⟩, hv, hs⟩ := Option.bind_eq_some_iff.mp hs
        have hholds := (verifyLoop_holds hv).prepend hlookup
        rw [hv]
        cases e with
        | failed =>
          cases Option.some.inj hs
          exact hholds.sound
        | moved map'' =>
          obtain ⟨tr₃, h₃, rfl⟩ := Option.map_eq_some_iff.mp hs
          exact hholds.sound.append (ih map'' tr₃ h₃)
        | verified map'' share' =>
          simp only at hs ⊢
          cases hlacking : x.lacking with
          | true =>
            simp only [hlacking, if_true] at hs
            obtain ⟨tr₃, h₃, rfl⟩ := Option.map_eq_some_iff.mp hs
            exact sound_goBack hholds (ih map'' tr₃ h₃)
          | false =>
            simp only [hlacking, Bool.false_eq_true, if_false] at hs
            cases Option.some.inj hs
            exact hholds.sound

theorem vmFaultWire_sound (map : MapId) (pages : List (Option (List FaultSeen))) :
    SoundRun (pages.any fun p => p.any (faultGoesBack map)) (vmFaultWire map pages) := by
  induction pages with
  | nil => exact SoundRun.nil
  | cons p ps ih =>
    cases p with
    | none => exact ih
    | some rounds => exact (vmFault_sound map rounds).andThen ih

theorem vmFaultUnwire_sound (map : MapId) (pages : List (List FaultSeen)) :
    SoundRun (pages.any (faultGoesBack map)) (vmFaultUnwire map pages) := by
  induction pages with
  | nil => exact SoundRun.nil
  | cons rounds ps ih =>
    have hpair : Even ([.setRecursive map] ++ [.clearRecursive map]) :=
      fun m => by simp [LockEvent.change]
    exact ((vmFault_sound map rounds).between hpair).andThen ih

mutual

theorem deleteEntry_sound (map : MapId) : ∀ e : DeadEntry, SoundRun (entryGoesBack map e) (deleteEntry map e)
  | .object pages => by
    rw [deleteEntry, entryGoesBack]
    exact vmFaultUnwire_sound map pages
  | .map pages _ => by
    rw [deleteEntry, entryGoesBack]
    exact vmFaultUnwire_sound map pages
  | .lastMap pages child inside => by
    have hpair : Even ([.lock child] ++ [.destroyed child]) :=
      fun m => by simp [LockEvent.change]; split <;> rfl
    rw [deleteEntry, entryGoesBack]
    exact (vmFaultUnwire_sound map pages).andThen ((vmMapDelete_sound child inside).between hpair)

theorem vmMapDelete_sound (map : MapId) : ∀ es : List DeadEntry,
    SoundRun (deleteGoesBack map es) (vmMapDelete map es)
  | [] => by
    rw [vmMapDelete, deleteGoesBack]
    exact SoundRun.nil
  | e :: es => by
    rw [vmMapDelete, deleteGoesBack]
    exact (deleteEntry_sound map e).andThen (vmMapDelete_sound map es)

end

theorem even_locks (src dst : MapId) : Even (lockMaps src dst ++ unlockMaps src dst) := by
  intro m
  unfold lockMaps unlockMaps
  by_cases hsd : src = dst
  · subst hsd
    simp [LockEvent.change]
    split <;> rfl
  · by_cases hlt : src < dst
    · simp [hsd, hlt, LockEvent.change]
      split <;> split <;> rfl
    · simp [hsd, hlt, LockEvent.change]
      split <;> split <;> rfl

theorem replaceRegion_sound (newSrc : MapId) (dstShare : Option MapId) (replaced : List DeadEntry) :
    SoundRun (replaceGoesBack newSrc dstShare replaced) (replaceRegion newSrc dstShare replaced) := by
  cases dstShare with
  | none => exact SoundRun.nil
  | some d =>
    simp only [replaceRegion, replaceGoesBack, Option.any_some]
    split
    next h =>
      rw [decide_eq_true h, Bool.true_and]
      exact (vmMapDelete_sound d replaced).between (even_pair d)
    next h =>
      rw [decide_eq_false h, Bool.false_and]
      exact SoundRun.nil

theorem destroySource_sound (src : MapId) (destroy : Option (List DeadEntry)) :
    SoundRun (destroy.any (deleteGoesBack src)) (destroySource src destroy) := by
  cases destroy with
  | none => exact SoundRun.nil
  | some es => exact vmMapDelete_sound src es

theorem setRecursiveIf_even (map : MapId) (share : Option MapId) : Even (setRecursiveIf map share) := by
  cases share with
  | none => exact fun m => by simp [setRecursiveIf, LockEvent.change]
  | some s => exact even_nil

theorem clearRecursiveIf_even (map newMap : MapId) : Even (clearRecursiveIf map newMap) := by
  unfold clearRecursiveIf
  split
  next => exact fun m => by simp [LockEvent.change]
  next => exact even_nil

mutual

theorem vmMapCopy_sound (dst src : MapId) : ∀ c : CopySeen,
    SoundRun (copyGoesBack dst src c) (vmMapCopy dst src c)
  | .wraps => by
    rw [vmMapCopy, copyGoesBack]
    exact SoundRun.nil
  | .stopped destroy => by
    rw [vmMapCopy, copyGoesBack]
    exact (destroySource_sound src destroy).between (even_locks src dst)
  | .copied pairs destroy => by
    rw [vmMapCopy, copyGoesBack]
    exact ((copyPairs_sound dst src pairs).andThen (destroySource_sound src destroy)).between
      (even_locks src dst)

theorem copyPair_sound (dst src : MapId) : ∀ p : PairSeen,
    SoundRun (pairGoesBack dst src p) (copyPair dst src p)
  | .objects pages => by
    rw [copyPair, pairGoesBack]
    exact vmFaultUnwire_sound dst pages
  | .shared srcShare dstShare replaced inner => by
    rw [copyPair, pairGoesBack]
    have hclear := (clearRecursiveIf_even dst (dstShare.getD dst)).append
      (clearRecursiveIf_even src (srcShare.getD src))
    have hinner := (vmMapCopy_sound (dstShare.getD dst) (srcShare.getD src) inner).andThen (.of_even hclear)
    rw [Bool.or_false] at hinner
    exact (SoundRun.of_even (setRecursiveIf_even src srcShare)).andThen
      ((replaceRegion_sound _ dstShare replaced).andThen
        ((SoundRun.of_even (setRecursiveIf_even dst dstShare)).andThen hinner))

theorem copyPairs_sound (dst src : MapId) : ∀ ps : List PairSeen,
    SoundRun (pairsGoBack dst src ps) (copyPairs dst src ps)
  | [] => by
    rw [copyPairs, pairsGoBack]
    exact SoundRun.nil
  | p :: ps => by
    rw [copyPairs, pairsGoBack]
    exact (copyPair_sound dst src p).andThen (copyPairs_sound dst src ps)

end

theorem forkEntry_sound (new : MapId) (e : ForkSeen) :
    SoundRun (forkGoesBack new e) (forkEntry new e) := by
  cases e with
  | none => exact SoundRun.nil
  | share => exact SoundRun.nil
  | copyShared share copy => exact vmMapCopy_sound new share copy
  | copyObject pages => exact vmFaultUnwire_sound new pages

theorem checkProtect_subMap {newProt : VmProt} {entries : List VmMapEntry} :
    checkProtect newProt entries = .subMap ↔ ∃ l₁ x l₂, entries = l₁ ++ x :: l₂ ∧ x.isSubMap = true ∧
      ∀ y ∈ l₁, newProt &&& y.maxProtection = newProt := by
  induction entries with
  | nil => simp [checkProtect]
  | cons x xs ih =>
    rw [checkProtect]
    split
    next hx => exact iff_of_true rfl ⟨[], x, xs, rfl, hx, by simp⟩
    next hx =>
      split
      next hp =>
        refine iff_of_false (by simp) ?_
        rintro ⟨l₁, y, l₂, hl, hy, hall⟩
        cases l₁ with
        | nil =>
          cases hl
          exact hx hy
        | cons z l₁ =>
          cases hl
          exact hp (hall x List.mem_cons_self)
      next hp =>
        rw [ih]
        constructor
        · rintro ⟨l₁, y, l₂, rfl, hy, hall⟩
          refine ⟨x :: l₁, y, l₂, rfl, hy, ?_⟩
          exact List.forall_mem_cons.mpr ⟨Decidable.not_not.mp hp, hall⟩
        · rintro ⟨l₁, y, l₂, hl, hy, hall⟩
          cases l₁ with
          | nil =>
            cases hl
            exact absurd hy hx
          | cons z l₁ =>
            cases hl
            exact ⟨l₁, y, l₂, rfl, hy, (List.forall_mem_cons.mp hall).2⟩

theorem protectEntry_even (newProt : VmProt) (setMax : Bool) (x : VmMapEntry) :
    Even (protectEntry newProt setMax x) := by
  unfold protectEntry
  generalize (if setMax then newProt &&& x.protection else newProt) = protection
  simp only
  split
  next =>
    cases x.object.shareMap with
    | none => exact even_nil
    | some share => exact even_pair share
  next => exact even_nil

theorem Even.flatMap {α : Type} {f : α → List LockEvent} (hf : ∀ x, Even (f x)) (l : List α) :
    Even (l.flatMap f) := by
  induction l with
  | nil => exact even_nil
  | cons x l ih => exact (hf x).append ih

theorem vmMapProtect_even {entries : List VmMapEntry} {newProt : VmProt} {setMax : Bool} :
    (∀ m, held m (vmMapProtect map entries newProt setMax) = 0) ↔ checkProtect newProt entries ≠ .subMap := by
  unfold vmMapProtect
  cases hc : checkProtect newProt entries with
  | subMap =>
    refine iff_of_false (fun hall => ?_) (by simp)
    have := hall map
    simp [LockEvent.change] at this
  | refused => exact iff_of_true (even_pair map) (by simp)
  | allowed =>
    have heven : Even (entries.flatMap (protectEntry newProt setMax)) :=
      Even.flatMap (protectEntry_even newProt setMax) entries
    have hpair : Even ([.lock map] ++ [.unlock map]) := even_pair map
    exact iff_of_true (heven.between hpair) (by simp)

theorem run_sound {c : MapCall} (hc : ∀ map entries newProt setMax, c ≠ .protect map entries newProt setMax) :
    SoundRun c.goesBack c.run := by
  cases c with
  | find map findSpace beyondMax noRoom =>
    simp only [MapCall.run, vmMapFind, ite_self]
    exact .of_even (even_pair map)
  | enter map anywhere violatesMask =>
    simp only [MapCall.run, vmMapEnter]
    split
    next => exact .of_even (even_pair map)
    next =>
      split
      next => exact SoundRun.nil
      next => exact .of_even (even_pair map)
  | submap map => exact .of_even (even_pair map)
  | protect map entries newProt setMax => exact absurd rfl (hc map entries newProt setMax)
  | inherit map known =>
    cases known with
    | true => exact .of_even (even_pair map)
    | false => exact SoundRun.nil
  | unwire map entries =>
    cases entries with
    | none => exact .of_even (even_pair map)
    | some entries => exact (SoundRun.foldr (vmFaultUnwire_sound map) entries).between (even_pair map)
  | wire map entries =>
    have hpair : Even ([.lock map, .setRecursive map, .downgrade map] ++ [.clearRecursive map, .unlock map]) :=
      fun m => by simp [LockEvent.change]; split <;> rfl
    exact (SoundRun.foldr (vmFaultWire_sound map) entries).between hpair
  | remove map entries => exact (vmMapDelete_sound map entries).between (even_pair map)
  | copy dst src seen => exact vmMapCopy_sound dst src seen
  | fork old new entries => exact (SoundRun.foldr (forkEntry_sound new) entries).between (even_pair old)
  | lookup map passes =>
    intro tr hs
    obtain ⟨⟨tr₁, e⟩, hl, rfl⟩ := Option.map_eq_some_iff.mp hs
    exact (vmMapLookup_even hl).sound
  | region map seen =>
    cases seen with
    | noMap => exact SoundRun.nil
    | noEntry => exact .of_even (lockShare_unlock map none)
    | entry share =>
      cases share with
      | none => exact .of_even (lockShare_unlock map none)
      | some s => exact .of_even (lockShare_unlock map (some s))
  | simplify map => exact .of_even (even_pair map)

/-- A call gives up every lock it takes exactly if it is no `vm_map_protect` that comes to a
subordinate map and no `vm_fault` in it goes back from the check for a page to be wired. -/
theorem mapCall_balanced_iff (c : MapCall) (hs : c.run = some tr) :
    (∀ m, held m tr = 0) ↔ ¬c.meetsSubMap ∧ c.goesBack = false := by
  cases c with
  | protect map entries newProt setMax =>
    cases Option.some.inj hs
    have hback : (MapCall.protect map entries newProt setMax).goesBack = false := rfl
    rw [vmMapProtect_even, and_iff_left hback]
    exact not_congr checkProtect_subMap
  | _ => exact (run_sound (by simp) tr hs).exact.trans (by simp [MapCall.meetsSubMap])

/-- A copy between two maps whose second entries lead to a sharing map. The page of the destination
that is unwired is looked up twice. -/
def sharedCopy : MapCall :=
  .copy 1 2 (.copied [.objects [[{ lookup := [{}], page := .retry }, { lookup := [{}], verify := [{}] }]],
    .shared (some 3) none [] (.copied [.objects []] none)] none)

theorem sharedCopy_balanced : ∃ tr, sharedCopy.run = some tr ∧ ∀ m, held m tr = 0 := by
  have hrun : sharedCopy.run.isSome := by decide
  obtain ⟨tr, hs⟩ := Option.isSome_iff_exists.mp hrun
  exact ⟨tr, hs, (mapCall_balanced_iff sharedCopy hs).mpr ⟨id, by decide⟩⟩

/-- Protecting a range with a subordinate map in it keeps the map locked. -/
theorem protectSubMap_keepsLock : ∃ tr, (MapCall.protect 1 [{ isSubMap := true, object := .map 2 }] protRead
    false).run = some tr ∧ held 1 tr = 1 := ⟨_, rfl, by decide⟩

/-- So does a page to be wired whose permissions are lost between the fault and the verified lookup. -/
example : ∃ tr, (MapCall.wire 1 [[some [{ lookup := [{}], verify := [{}], lacking := true },
    { lookup := [{}], verify := [{}] }]]]).run = some tr ∧ held 1 tr = 1 := ⟨_, rfl, by decide⟩

end MapLocks
end MachVM
