import MachVM.IpcSetSteps

namespace MachVM.Ipc.Members

open Mirror

variable {s s' : MState} {p : PortId} {x : SetId} {t : TaskId}

/-! ## `set_destroy` -/

theorem MInv.traversal_none (h : MInv s) (hd : (s.set x).destroyer = .looping) :
    (s.set x).traversal = none := by
  by_contra hne
  obtain ⟨p, hp⟩ := Option.ne_none_iff_exists'.mp hne
  have := (h.traversal x p hp).1
  rw [hd] at this
  simp at this

theorem MInv.running_not_freed (h : MInv s) (hd : (s.set x).destroyer.running = true) :
    (s.set x).freed = false := by
  refine h.set_not_freed ?_
  rw [h.setRefs x, hd]
  simp only [if_true]
  omega

theorem MInv.not_inUse (h : MInv s) (hd : (s.set x).destroyer ≠ .none) : (s.set x).inUse = false := by
  by_contra hu
  exact hd (h.inUse x (by simpa using hu))

theorem MInv.destroyLoop (h : MInv s) (hd : (s.set x).destroyer = .looping) : MInv (Members.destroyLoop s x) := by
  have htrav := h.traversal_none hd
  have hfreed := h.running_not_freed (x := x) (by rw [hd]; rfl)
  have hdead := h.not_inUse (x := x) (by rw [hd]; simp)
  have hold : ∀ hn : s.nextSet ≤ x, False := by
    intro hn
    have := (h.newSet x hn).2.1
    rw [hd] at this
    simp at this
  unfold Members.destroyLoop
  split
  next p rest hms =>
    have hp : (s.port p).set = some x := ((h.members x).mem_iff p).mp (by rw [hms]; exact List.mem_cons_self)
    refine h.setSet rfl rfl (by simp [hd]) (fun p' ht => ?_) (by simp [hd, Destroyer.running])
      (by simp [hdead]) (by simp) (by simp [hfreed]) (fun _ hn => (hold hn).elim)
    cases Option.some.inj ht
    exact ⟨rfl, hp⟩
  next hms =>
    refine MInv.setCheck ?_ x
    refine h.setSet rfl rfl (by simp [hd]) (by simp [htrav]) ?_ (by simp [hdead]) (fun _ => hms)
      (by simp [hfreed]) fun _ hn => (hold hn).elim
    rw [hd]
    simp only [Destroyer.running, if_true]
    simp
    omega

theorem MInv.setDestroy (h : MInv s) (hs : Members.setDestroy s t x = some s') : MInv s' := by
  obtain ⟨hg, hs⟩ := Option.ite_none_right_eq_some.mp hs
  cases Option.some.inj hs
  have hheld := h.setLive x hg.1
  have hidle := h.inUse x hg.1
  have htrav : (s.set x).traversal = none := by
    by_contra hne
    obtain ⟨p, hp⟩ := Option.ne_none_iff_exists'.mp hne
    have := (h.traversal x p hp).1
    rw [hidle] at this
    simp at this
  have hfreed : (s.set x).freed = false := h.set_not_freed (by rw [h.setRefs x]; split <;> omega)
  refine MInv.destroyLoop ?_ (by rw [mset_setSet, if_pos rfl])
  refine h.setSet rfl rfl (by simp [hidle]) (by simp [htrav]) ?_ (by simp) (by simp) (by simp [hfreed])
    fun h0 _ => by omega
  rw [hidle]
  simp only [Destroyer.running, if_true]
  simp
  omega

theorem MInv.giveBack (h : MInv s) (hd : (s.set x).destroyer = .waiting p)
    (htrav : (s.set x).traversal = none) :
    MInv ((s.setSet x { s.set x with traversal := none, destroyer := .looping }).setPort p
      { s.port p with refs := (s.port p).refs - 1, gifts := (s.port p).gifts.erase x }) := by
  set s₁ := (s.setSet x { s.set x with traversal := none, destroyer := .looping }).setPort p
    { s.port p with refs := (s.port p).refs - 1, gifts := (s.port p).gifts.erase x } with hs₁
  have hport : ∀ p', s₁.port p' = if p' = p then
      { s.port p with refs := (s.port p).refs - 1, gifts := (s.port p).gifts.erase x } else s.port p' :=
    fun p' => mport_setPort _ _ _ _
  have hset : ∀ y, s₁.set y = if y = x then
      { s.set x with traversal := none, destroyer := .looping } else s.set y := fun y => mset_setSet _ _ _ _
  have hgift : x ∈ (s.port p).gifts := ((h.gifts p).mem_iff x).mpr ⟨hd, htrav⟩
  have hlen : ((s.port p).gifts.erase x).length + 1 = (s.port p).gifts.length :=
    (h.gifts p).length_erase ⟨hd, htrav⟩
  have hdead := h.not_inUse (x := x) (by rw [hd]; simp)
  have hpos : 0 < (s.port p).refs := by
    rw [h.portRefs p]
    split <;> omega
  have hsame : ∀ y, (s₁.set y).members = (s.set y).members ∧ (s₁.set y).owner = (s.set y).owner ∧
      (s₁.set y).inUse = (s.set y).inUse ∧ (s₁.set y).held = (s.set y).held ∧
      (s₁.set y).refs = (s.set y).refs ∧ (s₁.set y).freed = (s.set y).freed ∧
      (s₁.set y).destroyer.running = (s.set y).destroyer.running := by
    intro y
    rw [hset]
    split
    next he =>
      rw [he, hd]
      exact ⟨rfl, rfl, rfl, rfl, rfl, rfl, rfl⟩
    next => exact ⟨rfl, rfl, rfl, rfl, rfl, rfl, rfl⟩
  have hkeep : ∀ p', (s₁.port p').set = (s.port p').set ∧ (s₁.port p').receiver = (s.port p').receiver ∧
      (s₁.port p').inUse = (s.port p').inUse ∧ (s₁.port p').held = (s.port p').held := by
    intro p'
    rw [hport]
    split
    next he =>
      rw [he]
      exact ⟨rfl, rfl, rfl, rfl⟩
    next => exact ⟨rfl, rfl, rfl, rfl⟩
  refine ⟨fun y => ?_, fun p' y hp => ?_, fun p' => ?_, fun y => ?_, fun p' => ?_, fun y p' ht => ?_,
    fun y hu => ?_, fun y hd' => ?_, fun p' hu => ?_, fun y hu => ?_, fun p' hf => ?_, fun y hf => ?_,
    fun p' hn => ?_, fun y hn => ?_⟩
  · rw [(hsame y).1]
    refine (h.members y).congr fun p' => ?_
    rw [(hkeep p').1]
  · rw [(hkeep p').1] at hp
    rw [(hkeep p').2.1, (hsame y).2.1]
    exact h.receiver p' y hp
  · rw [hport]
    split
    next =>
      have := h.portRefs p
      dsimp only
      omega
    next => exact h.portRefs p'
  · obtain ⟨hm, _, _, hh, hr, _, hrun⟩ := hsame y
    rw [hm, hh, hr, hrun]
    exact h.setRefs y
  · have hiff : ∀ y, ((s₁.set y).destroyer = .waiting p' ∧ (s₁.set y).traversal = none) ↔
        ((s.set y).destroyer = .waiting p' ∧ (s.set y).traversal = none) ∧ y ≠ x := by
      intro y
      rw [hset]
      split
      next he => simp [he]
      next he => simp [he]
    rw [hport]
    split
    next he =>
      subst he
      exact (h.gifts p').erase hiff
    next he =>
      refine (h.gifts p').congr fun y => ?_
      rw [hiff]
      refine ⟨fun hw => ⟨hw, ?_⟩, fun hw => hw.1⟩
      rintro rfl
      rw [hd] at hw
      cases hw.1
      exact he rfl
  · rw [hset] at ht ⊢
    split at ht
    next => simp at ht
    next he =>
      rw [if_neg he, (hkeep p').1]
      exact h.traversal y p' ht
  · rw [(hsame y).2.2.1] at hu
    rw [hset]
    split
    next he =>
      rw [he, hdead] at hu
      simp at hu
    next => exact h.inUse y hu
  · rw [(hsame y).1]
    rw [hset] at hd'
    split at hd'
    next => simp at hd'
    next => exact h.returned y hd'
  · rw [(hkeep p').2.2.1] at hu
    rw [(hkeep p').2.2.2]
    exact h.portLive p' hu
  · rw [(hsame y).2.2.1] at hu
    rw [(hsame y).2.2.2.1]
    exact h.setLive y hu
  · rw [hport] at hf ⊢
    split at hf
    next =>
      have hf' : (s.port p).freed = true := hf
      rw [h.not_freed hpos] at hf'
      simp at hf'
    next he =>
      rw [if_neg he]
      exact h.portFreed p' hf
  · rw [(hsame y).2.2.2.2.2.1] at hf
    rw [(hsame y).2.2.2.2.1]
    exact h.setFreed y hf
  · obtain ⟨h1, h2, h3⟩ := h.newPort p' hn
    have hne : p' ≠ p := by
      rintro rfl
      rw [h2] at hgift
      simp at hgift
    rw [hport, if_neg hne]
    exact ⟨h1, h2, h3⟩
  · have hne : y ≠ x := by
      rintro rfl
      have := (h.newSet y hn).2.1
      rw [hd] at this
      simp at this
    rw [hset, if_neg hne]
    exact h.newSet y hn

theorem portCheck_set (s : MState) (p : PortId) : (s.portCheck p).set = s.set := by
  unfold MState.portCheck
  split <;> rfl

theorem MInv.destroyNext (h : MInv s) (hs : Members.destroyNext s x = some s') : MInv s' := by
  unfold Members.destroyNext at hs
  split at hs
  next p hd =>
    cases Option.some.inj hs
    split
    next htrav =>
      refine ((h.giveBack hd htrav).portCheck p).destroyLoop ?_
      rw [portCheck_set]
      show ((s.setSet x _).set x).destroyer = _
      rw [mset_setSet, if_pos rfl]
    next p' htrav =>
      obtain ⟨hd', hin⟩ := h.traversal x p' htrav
      rw [hd] at hd'
      cases hd'
      have hresume : MInv (s.setSet x { s.set x with traversal := none, destroyer := .looping }) := by
        refine h.setSet rfl rfl (by simp [htrav]) (by simp) ?_ ?_ (by simp) (h.setFreed x) fun _ hn => ?_
        · rw [hd]
          rfl
        · rw [h.not_inUse (x := x) (by rw [hd]; simp)]
          simp
        · have := (h.newSet x hn).2.1
          rw [hd] at this
          simp at this
      refine ((hresume.setRemoveMember hin).portCheck p).destroyLoop ?_
      rw [portCheck_set, (setRemoveMember_effect _ x p).2.1, if_pos rfl, mset_setSet, if_pos rfl]
  next => simp at hs

/-! ## References of others -/

theorem MInv.portReference (h : MInv s) (hs : Members.portReference s p = some s') : MInv s' := by
  obtain ⟨hg, hs⟩ := Option.ite_none_right_eq_some.mp hs
  cases Option.some.inj hs
  have hpos : 0 < (s.port p).refs := by
    rw [h.portRefs p]
    split <;> omega
  refine h.setPort rfl rfl (.inl rfl) ?_ (fun _ => Nat.succ_pos _) ?_ fun h0 => by omega
  · push_cast
    omega
  · simp [h.not_freed hpos]

theorem MInv.portRelease (h : MInv s) (hs : Members.portRelease s p = some s') : MInv s' := by
  obtain ⟨hg, hs⟩ := Option.ite_none_right_eq_some.mp hs
  cases Option.some.inj hs
  have hpos : 0 < (s.port p).refs := by
    rw [h.portRefs p]
    split <;> omega
  refine MInv.portCheck ?_ p
  refine h.setPort rfl rfl (.inl rfl) ?_ (fun hu => ?_) ?_ fun h0 => by omega
  · dsimp only
    omega
  · have := hg.2 hu
    dsimp only
    omega
  · simp [h.not_freed hpos]

theorem MInv.setReference (h : MInv s) (hs : Members.setReference s x = some s') : MInv s' := by
  obtain ⟨hg, hs⟩ := Option.ite_none_right_eq_some.mp hs
  cases Option.some.inj hs
  have hpos : 0 < (s.set x).refs := by
    rw [h.setRefs x]
    split <;> omega
  refine h.setSet rfl rfl (fun _ => .rfl) (h.traversal x) ?_ (fun hu => ⟨Nat.succ_pos _, h.inUse x hu⟩)
    (h.returned x) ?_ fun h0 _ => by omega
  · dsimp only
    push_cast
    omega
  · simp [h.set_not_freed hpos]

theorem MInv.setRelease (h : MInv s) (hs : Members.setRelease s x = some s') : MInv s' := by
  obtain ⟨hg, hs⟩ := Option.ite_none_right_eq_some.mp hs
  cases Option.some.inj hs
  have hpos : 0 < (s.set x).refs := by
    rw [h.setRefs x]
    split <;> omega
  refine MInv.setCheck ?_ x
  refine h.setSet rfl rfl (fun _ => .rfl) (h.traversal x) ?_ (fun hu => ⟨?_, h.inUse x hu⟩) (h.returned x) ?_
    fun h0 _ => by omega
  · dsimp only
    omega
  · have := hg.2 hu
    dsimp only
    omega
  · simp [h.set_not_freed hpos]

theorem mStep_inv {a : MAction} (h : MInv s) (ha : mStep s a = some s') : MInv s' := by
  cases a with
  | portAlloc t =>
    cases Option.some.inj ha
    exact h.portAlloc t
  | setAlloc t =>
    cases Option.some.inj ha
    exact h.setAlloc t
  | portSetAdd t x p =>
    cases Option.some.inj ha
    exact h.portSetAdd
  | portSetRemove t p =>
    cases Option.some.inj ha
    exact h.portSetRemove
  | portClearReceiver p r => exact h.portClearReceiver ha
  | takeReceiver p t => exact h.takeReceiver ha
  | portDestroy p backup => exact h.portDestroy ha
  | setDestroy t x => exact h.setDestroy ha
  | destroyNext x => exact h.destroyNext ha
  | portReference p => exact h.portReference ha
  | portRelease p => exact h.portRelease ha
  | setReference x => exact h.setReference ha
  | setRelease x => exact h.setRelease ha

theorem MReach.inv (h : MReach s) : MInv s := by
  induction h with
  | start => exact noPorts_inv
  | step _ ha ih => exact mStep_inv ih ha

/-! ## Port-set membership -/

theorem portSetAdd_failed (hr : (Members.portSetAdd s t x p).1 ≠ .success) : (Members.portSetAdd s t x p).2 = s := by
  unfold Members.portSetAdd at hr ⊢
  split
  next => rfl
  next h1 =>
    rw [if_neg h1] at hr
    split
    next => rfl
    next h2 =>
      rw [if_neg h2] at hr
      split
      next => rfl
      next h3 =>
        rw [if_neg h3] at hr
        cases ho : (s.port p).set with
        | none =>
          rw [ho] at hr
          dsimp only at hr ⊢
          split
          next => rfl
          next h4 =>
            rw [if_neg h4] at hr
            exact absurd rfl hr
        | some o =>
          rw [ho] at hr
          dsimp only at hr ⊢
          split
          next => split <;> rfl
          next h4 =>
            rw [if_neg h4] at hr
            split
            next => rfl
            next h5 =>
              rw [if_neg h5] at hr
              exact absurd rfl hr

theorem MInv.member_not_freed (h : MInv s) (hp : p ∈ (s.set x).members) :
    (s.port p).freed = false ∧ (s.set x).freed = false := by
  have hin := ((h.members x).mem_iff p).mp hp
  constructor
  · refine h.not_freed ?_
    rw [h.portRefs p, hin]
    simp only [reduceCtorEq, if_false]
    omega
  · refine h.set_not_freed ?_
    have := List.length_pos_of_mem hp
    rw [h.setRefs x]
    split <;> omega

theorem MInv.waiting_not_freed (h : MInv s) (hd : (s.set x).destroyer = .waiting p) :
    (s.port p).freed = false ∧ (s.set x).freed = false := by
  refine ⟨?_, h.running_not_freed (by rw [hd]; rfl)⟩
  cases ht : (s.set x).traversal with
  | none =>
    have := List.length_pos_of_mem (((h.gifts p).mem_iff x).mpr ⟨hd, ht⟩)
    refine h.not_freed ?_
    rw [h.portRefs p]
    split <;> omega
  | some p' =>
    obtain ⟨hd', hin⟩ := h.traversal x p' ht
    rw [hd] at hd'
    cases hd'
    exact (h.member_not_freed (((h.members x).mem_iff p).mpr hin)).1

/-- Ports and sets agree on membership, which is one reference on each side; `port_set_add` works or
changes nothing; a set is empty when its `set_destroy` returns. -/
theorem set_membership (h : MReach s) :
    (∀ p x, (s.port p).set = some x ↔ p ∈ (s.set x).members) ∧
      (∀ x, (s.set x).members.Nodup) ∧
      (∀ p x, p ∈ (s.set x).members → (s.port p).receiver = .task (s.set x).owner) ∧
      (∀ p, (s.port p).refs = (s.port p).held + (if (s.port p).set = none then 0 else 1) +
        (s.port p).gifts.length ∧ (s.port p).gifts.Nodup ∧
        ∀ x, x ∈ (s.port p).gifts ↔ (s.set x).destroyer = .waiting p ∧ (s.set x).traversal = none) ∧
      (∀ x, (s.set x).refs = (s.set x).held + (s.set x).members.length +
        if (s.set x).destroyer.running then 1 else 0) ∧
      (∀ x p, p ∈ (s.set x).members ∨ (s.set x).destroyer = .waiting p →
        (s.port p).freed = false ∧ (s.set x).freed = false) ∧
      (∀ t x p, (portSetAdd s t x p).1 ≠ .success → (portSetAdd s t x p).2 = s) ∧
      ∀ x, (s.set x).destroyer = .returned → (s.set x).members = [] ∧ (s.set x).traversal = none := by
  have hinv := h.inv
  refine ⟨fun p x => ((hinv.members x).mem_iff p).symm, fun x => (hinv.members x).nodup,
    fun p x hp => hinv.receiver p x (((hinv.members x).mem_iff p).mp hp),
    fun p => ⟨hinv.portRefs p, (hinv.gifts p).nodup, (hinv.gifts p).mem_iff⟩, hinv.setRefs,
    fun x p hp => hp.elim hinv.member_not_freed hinv.waiting_not_freed, fun t x p => portSetAdd_failed,
    fun x hd => ⟨hinv.returned x hd, ?_⟩⟩
  by_contra hne
  obtain ⟨p, hp⟩ := Option.ne_none_iff_exists'.mp hne
  have := (hinv.traversal x p hp).1
  rw [hd] at this
  simp at this

def mRun (s : MState) : List MAction → Option MState
  | [] => some s
  | a :: as => (mStep s a).bind fun s' => mRun s' as

theorem MReach.run {as : List MAction} (h : MReach s) (hs : mRun s as = some s') : MReach s' := by
  induction as generalizing s with
  | nil =>
    cases Option.some.inj hs
    exact h
  | cons a as ih =>
    obtain ⟨s₁, ha, hs⟩ := Option.bind_eq_some_iff.mp hs
    exact ih (.step h ha) hs

/-- While the destroyed set waits for port 0, that port goes away in a message and the other member
stays to be removed. -/
theorem emptied_set_membership : ∃ s, MReach s ∧ (s.set 0).destroyer = .returned ∧
    (s.port 0).receiver = .soft ∧
    (∀ p x, (s.port p).set = some x ↔ p ∈ (s.set x).members) ∧
    ∀ x, (s.set x).destroyer = .returned → (s.set x).members = [] ∧ (s.set x).traversal = none := by
  obtain ⟨s, hs, hd, hr⟩ : ∃ s, mRun noPorts [.portAlloc 1, .portAlloc 1, .setAlloc 1, .portSetAdd 1 0 0,
      .portSetAdd 1 0 1, .setDestroy 1 0, .portClearReceiver 0 .soft, .destroyNext 0, .destroyNext 0] = some s ∧
      (s.set 0).destroyer = .returned ∧ (s.port 0).receiver = .soft := ⟨_, rfl, by decide⟩
  have hreach : MReach s := .run .start hs
  obtain ⟨hin, _, _, _, _, _, _, hempty⟩ := set_membership hreach
  exact ⟨s, hreach, hd, hr, hin, hempty⟩

end MachVM.Ipc.Members
