import MachVM.IpcSetInvariant

namespace MachVM.Ipc.Members

open Mirror

variable {s s' : MState} {p : PortId} {x : SetId} {t : TaskId}

theorem setRemoveMember_effect (s : MState) (x : SetId) (p : PortId) :
    (∀ p', (setRemoveMember s x p).port p' = if p' = p then
      { s.port p with
        set := none
        refs := (s.port p).refs - 1 + if (s.set x).traversal = some p then 1 else 0
        gifts := (s.port p).gifts ++ if (s.set x).traversal = some p then [x] else [] } else s.port p') ∧
    (∀ y, (setRemoveMember s x p).set y = if y = x then
      { s.set x with
        members := (s.set x).members.erase p
        refs := (s.set x).refs - 1
        traversal := if (s.set x).traversal = some p then none else (s.set x).traversal } else s.set y) ∧
    (setRemoveMember s x p).nextPort = s.nextPort ∧ (setRemoveMember s x p).nextSet = s.nextSet := by
  set s₁ := (s.setPort p { s.port p with set := none, refs := (s.port p).refs - 1 }).setSet x
    { s.set x with members := (s.set x).members.erase p, refs := (s.set x).refs - 1 } with hs₁
  have hx : s₁.set x = { s.set x with
      members := (s.set x).members.erase p, refs := (s.set x).refs - 1 } := by
    rw [hs₁, mset_setSet, if_pos rfl]
  have hp : s₁.port p = { s.port p with set := none, refs := (s.port p).refs - 1 } := by
    show (s.setPort p _).port p = _
    rw [mport_setPort, if_pos rfl]
  have hdef : setRemoveMember s x p = if (s.set x).traversal = some p then
      (s₁.setSet x { s₁.set x with traversal := none }).setPort p
        { s₁.port p with refs := (s₁.port p).refs + 1, gifts := (s₁.port p).gifts ++ [x] }
      else s₁ := by
    unfold setRemoveMember
    dsimp only
    rw [← hs₁, hx]
  rw [hdef]
  by_cases ht : (s.set x).traversal = some p
  · rw [if_pos ht]
    refine ⟨fun p' => ?_, fun y => ?_, rfl, rfl⟩
    · rw [mport_setPort]
      split
      next => simp only [hp]
      next he =>
        show (s.setPort p _).port p' = _
        rw [mport_setPort, if_neg he]
    · show (s₁.setSet x _).set y = _
      rw [mset_setSet]
      split
      next => simp only [hx]
      next he => rw [hs₁, mset_setSet, if_neg he]; rfl
  · rw [if_neg ht]
    refine ⟨fun p' => ?_, fun y => ?_, rfl, rfl⟩
    · show (s.setPort p _).port p' = _
      rw [mport_setPort]
      simp only [if_neg ht, Int.add_zero, List.append_nil]
    · rw [hs₁, mset_setSet]
      simp only [if_neg ht]
      rfl

theorem MInv.setRemoveMember (h : MInv s) (hin : (s.port p).set = some x) : MInv (Members.setRemoveMember s x p) := by
  obtain ⟨hport, hset, hnp, hns⟩ := setRemoveMember_effect s x p
  have hmem := ((h.members x).mem_iff p).mpr hin
  have hsame : ∀ y, ((Members.setRemoveMember s x p).set y).owner = (s.set y).owner ∧
      ((Members.setRemoveMember s x p).set y).destroyer = (s.set y).destroyer ∧
      ((Members.setRemoveMember s x p).set y).inUse = (s.set y).inUse ∧
      ((Members.setRemoveMember s x p).set y).held = (s.set y).held := by
    intro y
    rw [hset]
    split
    next he =>
      rw [he]
      exact ⟨rfl, rfl, rfl, rfl⟩
    next => exact ⟨rfl, rfl, rfl, rfl⟩
  have hkeep : ∀ p', ((Members.setRemoveMember s x p).port p').receiver = (s.port p').receiver ∧
      ((Members.setRemoveMember s x p).port p').inUse = (s.port p').inUse ∧
      ((Members.setRemoveMember s x p).port p').held = (s.port p').held := by
    intro p'
    rw [hport]
    split
    next he =>
      rw [he]
      exact ⟨rfl, rfl, rfl⟩
    next => exact ⟨rfl, rfl, rfl⟩
  have hout : ∀ p' y, ((Members.setRemoveMember s x p).port p').set = some y ↔
      (s.port p').set = some y ∧ p' ≠ p := by
    intro p' y
    rw [hport]
    split
    next he => simp [he]
    next he => simp [he]
  have htrav : ∀ y, ((Members.setRemoveMember s x p).set y).traversal =
      if y = x ∧ (s.set x).traversal = some p then none else (s.set y).traversal := by
    intro y
    rw [hset]
    by_cases hy : y = x
    · rw [if_pos hy, hy]
      simp
    · rw [if_neg hy, if_neg fun hh => hy hh.1]
  refine ⟨fun y => ?_, fun p' y hp => ?_, fun p' => ?_, fun y => ?_, fun p' => ?_, fun y p' ht => ?_,
    fun y hu => ?_, fun y hd => ?_, fun p' hu => ?_, fun y hu => ?_, fun p' hf => ?_, fun y hf => ?_,
    fun p' hn => ?_, fun y hn => ?_⟩
  · rw [hset]
    split
    next he =>
      rw [he]
      exact (h.members x).erase fun p' => hout p' x
    next he =>
      refine (h.members y).congr fun p' => ?_
      rw [hout]
      refine ⟨fun hp => ⟨hp, ?_⟩, fun hp => hp.1⟩
      rintro rfl
      rw [hin] at hp
      exact he (Option.some.inj hp).symm
  · rw [hout] at hp
    rw [(hkeep p').1, (hsame y).1]
    exact h.receiver p' y hp.1
  · rw [hport]
    split
    next =>
      have := h.portRefs p
      rw [hin] at this
      simp only [reduceCtorEq, if_false] at this
      simp only [if_true]
      split
      next =>
        rw [List.length_append, List.length_singleton]
        push_cast
        omega
      next =>
        rw [List.append_nil]
        omega
    next => exact h.portRefs p'
  · rw [(hsame y).2.1, (hsame y).2.2.2, hset]
    split
    next he =>
      have hr := h.setRefs x
      have hl := (h.members x).length_erase hin
      rw [he]
      dsimp only
      omega
    next => exact h.setRefs y
  · -- a `set_destroy` of `x` that waits for `p` gets its gift
    rw [hport]
    split
    next he =>
      rw [he]
      dsimp only
      split
      next ht =>
        refine (h.gifts p).append (by simp [ht]) fun y => ?_
        rw [(hsame y).2.1, htrav]
        by_cases hy : y = x
        · simp [hy, ht, (h.traversal x p ht).1]
        · simp [hy]
      next ht =>
        rw [List.append_nil]
        refine (h.gifts p).congr fun y => ?_
        rw [(hsame y).2.1, htrav, if_neg fun hh => ht hh.2]
    next he =>
      refine (h.gifts p').congr fun y => ?_
      rw [(hsame y).2.1, htrav]
      by_cases hy : y = x ∧ (s.set x).traversal = some p
      · have hw := (h.traversal x p hy.2).1
        rw [if_pos hy, hy.1, hw]
        simp [Ne.symm he]
      · rw [if_neg hy]
  · rw [htrav] at ht
    split at ht
    next => simp at ht
    next hno =>
      obtain ⟨hw, hp⟩ := h.traversal y p' ht
      rw [(hsame y).2.1, hout]
      refine ⟨hw, hp, ?_⟩
      rintro rfl
      rw [hin] at hp
      cases Option.some.inj hp
      exact hno ⟨rfl, ht⟩
  · rw [(hsame y).2.2.1] at hu
    rw [(hsame y).2.1]
    exact h.inUse y hu
  · rw [(hsame y).2.1] at hd
    rw [hset]
    split
    next he =>
      rw [he] at hd
      rw [h.returned x hd] at hmem
      simp at hmem
    next => exact h.returned y hd
  · rw [(hkeep p').2.1] at hu
    rw [(hkeep p').2.2]
    exact h.portLive p' hu
  · rw [(hsame y).2.2.1] at hu
    rw [(hsame y).2.2.2]
    exact h.setLive y hu
  · rw [hport] at hf ⊢
    split at hf
    next he =>
      have hpos : 0 < (s.port p).refs := by
        rw [h.portRefs p, hin]
        simp only [reduceCtorEq, if_false]
        omega
      have hf' : (s.port p).freed = true := hf
      rw [h.not_freed hpos] at hf'
      simp at hf'
    next he =>
      rw [if_neg he]
      exact h.portFreed p' hf
  · rw [hset] at hf ⊢
    split at hf
    next he =>
      have hpos : 0 < (s.set x).refs := by
        have := List.length_pos_of_mem hmem
        rw [h.setRefs x]
        split <;> omega
      have hf' : (s.set x).freed = true := hf
      rw [h.set_not_freed hpos] at hf'
      simp at hf'
    next he =>
      rw [if_neg he]
      exact h.setFreed y hf
  · rw [hnp] at hn
    have hne : p' ≠ p := by
      rintro rfl
      rw [(h.newPort p' hn).1] at hin
      simp at hin
    rw [hport, if_neg hne]
    exact h.newPort p' hn
  · rw [hns] at hn
    have hne : y ≠ x := by
      rintro rfl
      rw [(h.newSet y hn).1] at hmem
      simp at hmem
    rw [hset, if_neg hne]
    exact h.newSet y hn

theorem MInv.portAlloc (h : MInv s) (t : TaskId) : MInv (Members.portAlloc s t) := by
  have hport : ∀ p, (Members.portAlloc s t).port p = if p = s.nextPort then
      ⟨true, .task t, none, 1, 1, [], false⟩ else s.port p := fun p => Function.update_apply ..
  obtain ⟨hnone, hgifts, _⟩ := h.newPort s.nextPort (Nat.le_refl _)
  have hset : ∀ p, ((Members.portAlloc s t).port p).set = (s.port p).set := by
    intro p
    rw [hport]
    split
    next he => rw [he, hnone]
    next => rfl
  refine ⟨fun y => (h.members y).congr fun p => by rw [hset], fun p y hp => ?_, fun p => ?_, h.setRefs,
    fun p => ?_, fun y p ht => ?_, h.inUse, h.returned, fun p hu => ?_, h.setLive, fun p hf => ?_, h.setFreed,
    fun p hp => ?_, h.newSet⟩
  · have hp' := hp
    rw [hset] at hp'
    rw [hport, if_neg]
    · exact h.receiver p y hp'
    · rintro rfl
      rw [hnone] at hp'
      simp at hp'
  · rw [hport]
    split
    next => simp
    next => exact h.portRefs p
  · rw [hport]
    split
    next he =>
      have := h.gifts p
      rw [he, hgifts] at this
      rw [he]
      exact this
    next => exact h.gifts p
  · rw [hset]
    exact h.traversal y p ht
  · rw [hport] at hu ⊢
    split
    next => simp
    next he =>
      rw [if_neg he] at hu
      exact h.portLive p hu
  · rw [hport] at hf ⊢
    split at hf
    next => simp at hf
    next he =>
      rw [if_neg he]
      exact h.portFreed p hf
  · have hlt : s.nextPort < p := hp
    rw [hport, if_neg (Nat.ne_of_gt hlt)]
    exact h.newPort p (Nat.le_of_lt hlt)

theorem MInv.setAlloc (h : MInv s) (t : TaskId) : MInv (Members.setAlloc s t) := by
  have hset : ∀ x, (Members.setAlloc s t).set x = if x = s.nextSet then
      ⟨true, t, [], none, 1, 1, .none, false⟩ else s.set x := fun x => Function.update_apply ..
  obtain ⟨hmembers, hdestroyer, _⟩ := h.newSet s.nextSet (Nat.le_refl _)
  have htrav : (s.set s.nextSet).traversal = none := by
    by_contra hne
    obtain ⟨p, hp⟩ := Option.ne_none_iff_exists'.mp hne
    have := (h.traversal _ p hp).1
    rw [hdestroyer] at this
    simp at this
  have hsame : ∀ x, ((Members.setAlloc s t).set x).members = (s.set x).members ∧
      ((Members.setAlloc s t).set x).traversal = (s.set x).traversal ∧
      ((Members.setAlloc s t).set x).destroyer = (s.set x).destroyer := by
    intro x
    rw [hset]
    split
    next he =>
      rw [he]
      exact ⟨hmembers.symm, htrav.symm, hdestroyer.symm⟩
    next => exact ⟨rfl, rfl, rfl⟩
  refine ⟨fun y => ?_, fun p y hp => ?_, h.portRefs, fun y => ?_, fun p => ?_, fun y p ht => ?_, fun y hu => ?_,
    fun y hd => ?_, h.portLive, fun y hu => ?_, h.portFreed, fun y hf => ?_, h.newPort, fun y hn => ?_⟩
  · rw [(hsame y).1]
    exact h.members y
  · rw [hset, if_neg]
    · exact h.receiver p y hp
    · rintro rfl
      have := ((h.members _).mem_iff p).mpr hp
      rw [hmembers] at this
      simp at this
  · rw [hset]
    split
    next => simp [Destroyer.running]
    next => exact h.setRefs y
  · refine (h.gifts p).congr fun y => ?_
    rw [(hsame y).2.1, (hsame y).2.2]
  · rw [(hsame y).2.1] at ht
    rw [(hsame y).2.2]
    exact h.traversal y p ht
  · rw [hset] at hu ⊢
    split
    next => rfl
    next he =>
      rw [if_neg he] at hu
      exact h.inUse y hu
  · rw [(hsame y).2.2] at hd
    rw [(hsame y).1]
    exact h.returned y hd
  · rw [hset] at hu ⊢
    split
    next => simp
    next he =>
      rw [if_neg he] at hu
      exact h.setLive y hu
  · rw [hset] at hf ⊢
    split at hf
    next => simp at hf
    next he =>
      rw [if_neg he]
      exact h.setFreed y hf
  · have hlt : s.nextSet < y := hn
    rw [hset, if_neg (Nat.ne_of_gt hlt)]
    exact h.newSet y (Nat.le_of_lt hlt)

/-! ## `port_set_add`, `port_set_remove`, `port_clear_receiver` -/

theorem set_ne_of_check (s : MState) (x : SetId) (p : PortId) : (s.setCheck x).port p = s.port p := by
  unfold MState.setCheck
  split <;> rfl

theorem MInv.portSetAdd (h : MInv s) : MInv (Members.portSetAdd s t x p).2 := by
  unfold Members.portSetAdd
  split
  next => exact h
  next hlive =>
    split
    next => exact h
    next hr =>
      split
      next => exact h
      next ho =>
        have hlive' : (s.port p).inUse = true := by simpa using hlive
        have hr' : (s.port p).receiver = .task (s.set x).owner := by
          rw [not_not.mp ho]
          exact not_not.mp hr
        split
        next hnone =>
          split
          next => exact h
          next hu => exact h.setAddMember hnone hlive' (by simpa using hu) hr'
        next o hsome =>
          split
          next => split <;> exact h
          next hne =>
            split
            next => exact h
            next hu =>
              obtain ⟨hport, hset, _⟩ := setRemoveMember_effect s o p
              refine (MInv.setAddMember (h.setRemoveMember hsome) ?_ ?_ ?_ ?_).setCheck o
              · rw [hport, if_pos rfl]
              · rw [hport, if_pos rfl]
                exact hlive'
              · rw [hset, if_neg (Ne.symm hne)]
                simpa using hu
              · rw [hport, if_pos rfl, hset, if_neg (Ne.symm hne)]
                exact hr'

theorem MInv.portSetRemove (h : MInv s) : MInv (Members.portSetRemove s t p).2 := by
  unfold Members.portSetRemove
  split
  next => exact h
  next =>
    split
    next => exact h
    next =>
      split
      next => exact h
      next x hsome =>
        split
        next => exact h
        next => exact ((h.setRemoveMember hsome).setCheck x).portCheck p

theorem MInv.portClearReceiver {r : Receiver} (h : MInv s) (hs : Members.portClearReceiver s p r = some s') :
    MInv s' := by
  obtain ⟨hg, hs⟩ := Option.ite_none_right_eq_some.mp hs
  cases Option.some.inj hs
  have hleft : ∀ s₁ : MState, MInv s₁ → (s₁.port p).set = none →
      MInv (s₁.setPort p { s₁.port p with receiver := r }) := fun s₁ h₁ hnone =>
    h₁.setPort rfl rfl (.inr hnone) rfl (h₁.portLive p) (h₁.portFreed p) fun hn => hn
  split
  next x hsome =>
    refine hleft _ ((h.setRemoveMember hsome).setCheck x) ?_
    rw [set_ne_of_check, (setRemoveMember_effect s x p).1, if_pos rfl]
  next hnone => exact hleft s h hnone

theorem MInv.set_none (h : MInv s) (hr : ∀ t, (s.port p).receiver ≠ .task t) : (s.port p).set = none := by
  by_contra hne
  obtain ⟨x, hx⟩ := Option.ne_none_iff_exists'.mp hne
  exact hr _ (h.receiver p x hx)

theorem MInv.takeReceiver (h : MInv s) (hs : Members.takeReceiver s p t = some s') : MInv s' := by
  obtain ⟨hg, hs⟩ := Option.ite_none_right_eq_some.mp hs
  cases Option.some.inj hs
  exact h.setPort rfl rfl (.inr (h.set_none (by simp [hg.2]))) rfl (h.portLive p) (h.portFreed p) fun hn => hn

theorem MInv.portDestroy {backup : Bool} (h : MInv s) (hs : Members.portDestroy s p backup = some s') :
    MInv s' := by
  obtain ⟨hg, hs⟩ := Option.ite_none_right_eq_some.mp hs
  cases Option.some.inj hs
  have hnone : (s.port p).set = none := h.set_none (by simp [hg.2])
  split
  next => exact h.setPort rfl rfl (.inr hnone) rfl (h.portLive p) (h.portFreed p) fun hn => hn
  next => exact h.setPort rfl rfl (.inl rfl) rfl (by simp) (h.portFreed p) fun hn => hn

end MachVM.Ipc.Members
