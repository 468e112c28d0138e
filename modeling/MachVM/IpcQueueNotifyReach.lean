import MachVM.IpcQueueNotify

namespace MachVM.Ipc

variable {s s' s'' : QState} {l : List MsgId} {p : PortId} {q : QueueId} {t : ThreadId} {m : MsgId}
  {e : EntryId}

/-! ## Translations come and go -/

theorem update_update_find (f : TaskId → PortId → Option EntryId) (u u' : TaskId) (p p' : PortId)
    (x : Option EntryId) : Function.update f u (Function.update (f u) p x) u' p' =
      if u' = u ∧ p' = p then x else f u' p' := by
  rw [Function.update_apply]
  by_cases hu : u' = u
  · rw [if_pos hu, Function.update_apply, hu]
    simp
  · rw [if_neg hu, if_neg fun hh => hu hh.1]

theorem NotifyInv.entryMake {u : TaskId} (h : NotifyInv s) (hs : Ipc.entryMake s u p = some s') :
    NotifyInv s' := by
  unfold Ipc.entryMake at hs
  split at hs
  next hg =>
    cases Option.some.inj hs
    set s₁ : QState := { (s.setEntry s.nextEntry ⟨some u, p, none⟩) with
      nextEntry := s.nextEntry + 1
      entryFind := Function.update s.entryFind u (Function.update (s.entryFind u) p (some s.nextEntry)) }
      with hs₁
    have hentry : ∀ e, s₁.entry e = if e = s.nextEntry then ⟨some u, p, none⟩ else s.entry e :=
      fun e => Function.update_apply ..
    have hfind : ∀ u' p', s₁.entryFind u' p' =
        if u' = u ∧ p' = p then some s.nextEntry else s.entryFind u' p' :=
      fun u' p' => update_update_find _ _ _ _ _ _
    have hfresh : ∀ e, (s.entry e).task ≠ none → e ≠ s.nextEntry := fun e he => Nat.ne_of_lt (h.bound e he)
    refine ⟨fun e he => ?_, fun u' p' e => ?_, h.fresh, fun e m he hk => ?_, fun e m hse hu => ?_, h.freed,
      h.will, h.willNodup, h.flags, h.notified⟩
    · rw [hentry] at he
      split at he
      next hee =>
        rw [hee]
        exact Nat.lt_succ_self _
      next => exact Nat.lt_succ_of_lt (h.bound e he)
    · rw [hfind, hentry]
      by_cases hee : e = s.nextEntry
      · rw [if_pos hee, hee]
        by_cases hup : u' = u ∧ p' = p
        · simp [hup]
        · rw [if_neg hup]
          constructor
          · intro hf
            exact absurd rfl (hfresh _ (by rw [((h.find _ _ _).mp hf).1]; simp))
          · rintro ⟨h1, h2⟩
            exact absurd ⟨(Option.some.inj h1).symm, h2.symm⟩ hup
      · rw [if_neg hee]
        by_cases hup : u' = u ∧ p' = p
        · rw [if_pos hup]
          constructor
          · intro hf
            exact absurd (Option.some.inj hf).symm hee
          · intro hf
            have := (h.find u' p' e).mpr hf
            rw [hup.1, hup.2, hg.2.2] at this
            simp at this
        · rw [if_neg hup]
          exact h.find u' p' e
    · rw [hentry] at he hk
      split at hk
      next => simp at hk
      next hee =>
        rw [if_neg hee] at he
        exact h.out e m he hk
    · obtain ⟨hl, hk, hp⟩ := h.back e m hse hu
      rw [hentry, if_neg (hfresh e hl)]
      exact ⟨hl, hk, hp⟩
  next => simp at hs

theorem entryRemove_effect (hs : Ipc.entryRemove s e = some s') : ∃ u, (s.entry e).task = some u ∧
    (∀ e', s'.entry e' = if e' = e then { s.entry e with task := none } else s.entry e') ∧
    (∀ u' p', s'.entryFind u' p' = if u' = u ∧ p' = (s.entry e).port then none else s.entryFind u' p') ∧
    (∀ m, (s'.msg m).port = (s.msg m).port ∧
      (s'.msg m).senderEntry = if (s.entry e).kmsg = some m then none else (s.msg m).senderEntry) ∧
    (∀ m, s'.cleared.count m = s.cleared.count m + if (s.entry e).kmsg = some m then 1 else 0) ∧
    s'.nextEntry = s.nextEntry ∧ s'.nextMsg = s.nextMsg ∧ s'.accepted = s.accepted ∧
    s'.finished = s.finished ∧ s'.freed = s.freed ∧ s'.left = s.left ∧ s'.willNotify = s.willNotify ∧
    s'.notified = s.notified := by
  unfold Ipc.entryRemove at hs
  dsimp only at hs
  split at hs
  next => simp at hs
  next u htask =>
    refine ⟨u, htask, ?_⟩
    split at hs
    next => simp at hs
    next =>
      cases Option.some.inj hs
      split
      next hk =>
        have hno : ∀ m, (s.entry e).kmsg ≠ some m := by simp [hk]
        refine ⟨fun e' => Function.update_apply .., fun _ _ => update_update_find _ _ _ _ _ _,
          fun m => ⟨rfl, ?_⟩, fun m => ?_, rfl, rfl, rfl, rfl, rfl, rfl, rfl, rfl⟩
        · rw [if_neg (hno m)]
          rfl
        · rw [if_neg (hno m)]
          rfl
      next k hk =>
        refine ⟨fun e' => Function.update_apply .., fun _ _ => update_update_find _ _ _ _ _ _, fun m => ?_,
          fun m => ?_, rfl, rfl, rfl, rfl, rfl, rfl, rfl, rfl⟩
        · show ((s.setMsg k { s.msg k with senderEntry := none }).msg m).port = _ ∧
            ((s.setMsg k { s.msg k with senderEntry := none }).msg m).senderEntry = _
          rw [msg_setMsg]
          by_cases hm : m = k
          · simp [hm, hk]
          · simp [hm, hk, Ne.symm hm]
        · show (s.cleared ++ [k]).count m = _
          rw [List.count_append, List.count_singleton]
          simp [hk]

theorem NotifyInv.entryRemove (h : NotifyInv s) (hs : Ipc.entryRemove s e = some s') : NotifyInv s' := by
  obtain ⟨u, htask, hentry, hf, hmsg, hcleared, hnext, hnm, hacc, hfin, hfr, hleft, hwill, hnot⟩ :=
    entryRemove_effect hs
  have hlive : (s.entry e).task ≠ none := by simp [htask]
  have hun : ∀ m, s'.Unprocessed m ↔ s.Unprocessed m := by
    intro m
    unfold QState.Unprocessed
    rw [hacc, hfin, hfr]
  refine ⟨fun e' he => ?_, fun u' p' e' => ?_, fun m hm hlt => ?_, fun e' m he hk => ?_, fun e' m hse hu => ?_,
    ?_, ?_, ?_, fun m => ?_, ?_⟩
  · rw [hnext]
    rw [hentry] at he
    split at he
    next => simp at he
    next => exact h.bound e' he
  · rw [hf, hentry]
    by_cases hee : e' = e
    · rw [if_pos hee, hee]
      by_cases hup : u' = u ∧ p' = (s.entry e).port
      · simp [hup]
      · rw [if_neg hup]
        constructor
        · intro hs
          obtain ⟨h1, h2⟩ := (h.find u' p' e).mp hs
          rw [htask] at h1
          exact absurd ⟨(Option.some.inj h1).symm, h2.symm⟩ hup
        · rintro ⟨h1, _⟩
          simp at h1
    · rw [if_neg hee]
      by_cases hup : u' = u ∧ p' = (s.entry e).port
      · rw [if_pos hup]
        constructor
        · intro hs
          simp at hs
        · intro hs
          have h1 := (h.find u' p' e').mpr hs
          have h2 := (h.find u (s.entry e).port e).mpr ⟨htask, rfl⟩
          rw [hup.1, hup.2, h2] at h1
          exact absurd (Option.some.inj h1).symm hee
      · rw [if_neg hup]
        exact h.find u' p' e'
  · rw [(hmsg m).2]
    split
    next => rfl
    next => exact h.fresh m (hacc ▸ hm) (hnm ▸ hlt)
  · rw [hentry] at he hk
    split at he
    next => simp at he
    next hee =>
      rw [if_neg hee] at hk
      obtain ⟨hse, hu⟩ := h.out e' m he hk
      rw [hun, (hmsg m).2, if_neg, hse]
      · exact ⟨rfl, hu⟩
      · intro hke
        have := (h.out e m hlive hke).1
        rw [hse] at this
        exact hee (Option.some.inj this)
  · rw [hun] at hu
    rw [(hmsg m).2] at hse
    split at hse
    next => simp at hse
    next hke =>
      obtain ⟨hl, hk, hp⟩ := h.back e' m hse hu
      have hee : e' ≠ e := by
        rintro rfl
        exact hke hk
      rw [hentry, if_neg hee]
      exact ⟨hl, hk, hp.trans (hmsg m).1.symm⟩
  · rw [hfr, hleft]
    exact h.freed
  · rw [hwill, hacc]
    exact h.will
  · rw [hwill]
    exact h.willNodup
  · rw [hwill, hnot, hcleared, h.flags m]
    by_cases hke : (s.entry e).kmsg = some m
    · obtain ⟨hse, hu⟩ := h.out e m hlive hke
      have hup : s.flag m = 1 := if_pos ⟨by simp [hse], hu⟩
      have hdown : s'.flag m = 0 := if_neg fun hf => hf.1 (by rw [(hmsg m).2, if_pos hke])
      rw [hup, hdown, if_pos hke]
      omega
    · have hsame : s'.flag m = s.flag m := flag_congr (by rw [hun, (hmsg m).2, if_neg hke])
      rw [hsame, if_neg hke, Nat.add_zero]
  · rw [hnot, hfin]
    exact h.notified

theorem unflagged_receive {size : Nat} (hs : Ipc.receive s t q size = some s') : Unflagged s s' := by
  obtain ⟨_, hs⟩ := Option.ite_none_right_eq_some.mp hs
  cases Option.some.inj hs
  exact ⟨rfl, rfl, rfl, rfl, rfl, rfl, rfl, rfl, rfl, rfl, rfl, fun _ h => h⟩

theorem unflagged_rcvWake {r : WaitResult} (hs : Ipc.rcvWake s t r = some s') : Unflagged s s' := by
  unfold Ipc.rcvWake at hs
  split at hs
  next =>
    obtain ⟨_, hs⟩ := Option.ite_none_left_eq_some.mp hs
    cases Option.some.inj hs
    exact ⟨rfl, rfl, rfl, rfl, rfl, rfl, rfl, rfl, rfl, rfl, rfl, fun _ h => h⟩
  next =>
    obtain ⟨_, hs⟩ := Option.ite_none_left_eq_some.mp hs
    cases Option.some.inj hs
    exact ⟨rfl, rfl, rfl, rfl, rfl, rfl, rfl, rfl, rfl, rfl, rfl, fun _ h => h⟩
  next =>
    obtain ⟨_, hs⟩ := Option.ite_none_left_eq_some.mp hs
    cases r <;> cases Option.some.inj hs <;>
      exact ⟨rfl, rfl, rfl, rfl, rfl, rfl, rfl, rfl, rfl, rfl, rfl, fun _ h => h⟩
  next => simp at hs

theorem unflagged_sendWake {r : WaitResult} (hs : Ipc.sendWake s t r = some s') : Unflagged s s' := by
  unfold Ipc.sendWake at hs
  split at hs
  next =>
    obtain ⟨_, hs⟩ := Option.ite_none_left_eq_some.mp hs
    cases r <;> cases Option.some.inj hs <;>
      exact ⟨rfl, rfl, rfl, rfl, rfl, rfl, rfl, rfl, rfl, rfl, rfl, fun _ h => h⟩
  next => simp at hs

theorem unflagged_place (hs : Ipc.place s t = some s') : Unflagged s s' := by
  unfold Ipc.place at hs
  split at hs
  next m q _ =>
    cases Option.some.inj hs
    have hu : Unflagged s ((s.setQueue q { s.queue q with lock := none }).setThread t .idle) :=
      ⟨rfl, rfl, rfl, rfl, rfl, rfl, rfl, rfl, rfl, rfl, rfl, fun _ h => h⟩
    exact hu.trans (unflagged_deliver _ q m)
  next => simp at hs

theorem unflagged_setAddMember {x : SetId} (hs : Ipc.setAddMember s t p x = some s') : Unflagged s s' := by
  obtain ⟨_, hs⟩ := Option.ite_none_right_eq_some.mp hs
  cases Option.some.inj hs
  set s₁ := (s.setPort p { s.port p with set := some x, locked := true }).setQueue (.port p)
    { s.queue (.port p) with messages := [] } with hs₁
  have hu : Unflagged s s₁ := ⟨rfl, rfl, rfl, rfl, rfl, rfl, rfl, rfl, rfl, rfl, rfl, fun _ h => h⟩
  have hall := hu.trans (unflagged_deliverAll (s.queue (.port p)).messages s₁ (.set x))
  exact hall.trans ⟨rfl, rfl, rfl, rfl, rfl, rfl, rfl, rfl, rfl, rfl, rfl, fun _ h => h⟩

theorem unflagged_setAddDone (hs : Ipc.setAddDone s t = some s') : Unflagged s s' := by
  unfold Ipc.setAddDone at hs
  split at hs
  next =>
    obtain ⟨_, hs⟩ := Option.ite_none_left_eq_some.mp hs
    cases Option.some.inj hs
    exact ⟨rfl, rfl, rfl, rfl, rfl, rfl, rfl, rfl, rfl, rfl, rfl, fun _ h => h⟩
  next => simp at hs

theorem unflagged_portSetRemove (hs : Ipc.portSetRemove s p = some s') : Unflagged s s' := by
  unfold Ipc.portSetRemove at hs
  split at hs
  next =>
    obtain ⟨_, hs⟩ := Option.ite_none_right_eq_some.mp hs
    cases Option.some.inj hs
    exact ⟨rfl, rfl, rfl, rfl, rfl, rfl, rfl, rfl, rfl, rfl, rfl, fun _ h => h⟩
  next => simp at hs

theorem unflagged_portClearReceiver {dead : Bool} (hs : Ipc.portClearReceiver s p dead = some s') :
    Unflagged s s' := by
  obtain ⟨_, hs⟩ := Option.ite_none_right_eq_some.mp hs
  cases Option.some.inj hs
  split <;> exact ⟨rfl, rfl, rfl, rfl, rfl, rfl, rfl, rfl, rfl, rfl, rfl, fun _ h => h⟩

theorem unflagged_destroyDequeue (hs : Ipc.destroyDequeue s p = some s') : Unflagged s s' := by
  obtain ⟨_, hs⟩ := Option.ite_none_left_eq_some.mp hs
  split at hs
  next => simp at hs
  next =>
    cases Option.some.inj hs
    exact ⟨rfl, rfl, rfl, rfl, rfl, rfl, rfl, rfl, rfl, rfl, rfl, fun _ h => List.mem_append_left _ h⟩

theorem unflagged_portSetBacklog {u : TaskId} {b : Int} (hs : Ipc.portSetBacklog s u p b = some s') :
    Unflagged s s' := by
  obtain ⟨_, hs⟩ := Option.ite_none_left_eq_some.mp hs
  obtain ⟨_, hs⟩ := Option.ite_none_left_eq_some.mp hs
  cases Option.some.inj hs
  exact ⟨rfl, rfl, rfl, rfl, rfl, rfl, rfl, rfl, rfl, rfl, rfl, fun _ h => h⟩

theorem qStep_notify {a : QAction} (h : NotifyInv s) (hq : QInv s []) (hc : CountInv (fun _ => False) s)
    (ha : qStep s a = some s') : NotifyInv s' := by
  cases a with
  | sendCall t p size o => exact h.sendCall hq ha
  | sendTry t => exact h.sendTry hq hc ha
  | sendWake t r => exact h.unflagged (unflagged_sendWake ha)
  | place t => exact h.unflagged (unflagged_place ha)
  | receive t q size => exact h.unflagged (unflagged_receive ha)
  | dequeue t poll => exact h.unflagged (unflagged_dequeue ha)
  | rcvWake t r => exact h.unflagged (unflagged_rcvWake ha)
  | finish t => exact h.finish hq hc ha
  | setAddMember t p x => exact h.unflagged (unflagged_setAddMember ha)
  | setAddDone t => exact h.unflagged (unflagged_setAddDone ha)
  | portSetRemove p => exact h.unflagged (unflagged_portSetRemove ha)
  | portClearReceiver p dead => exact h.unflagged (unflagged_portClearReceiver ha)
  | setDead x =>
    cases Option.some.inj ha
    exact h.unflagged ⟨rfl, rfl, rfl, rfl, rfl, rfl, rfl, rfl, rfl, rfl, rfl, fun _ h => h⟩
  | setChanged x =>
    obtain ⟨_, ha⟩ := Option.ite_none_left_eq_some.mp ha
    cases Option.some.inj ha
    exact h.unflagged ⟨rfl, rfl, rfl, rfl, rfl, rfl, rfl, rfl, rfl, rfl, rfl, fun _ h => h⟩
  | portSetBacklog t p b => exact h.unflagged (unflagged_portSetBacklog ha)
  | portTakeReceive p t =>
    obtain ⟨_, ha⟩ := Option.ite_none_right_eq_some.mp ha
    cases Option.some.inj ha
    exact h.unflagged ⟨rfl, rfl, rfl, rfl, rfl, rfl, rfl, rfl, rfl, rfl, rfl, fun _ h => h⟩
  | portBackup p =>
    obtain ⟨_, ha⟩ := Option.ite_none_right_eq_some.mp ha
    cases Option.some.inj ha
    exact h.unflagged ⟨rfl, rfl, rfl, rfl, rfl, rfl, rfl, rfl, rfl, rfl, rfl, fun _ h => h⟩
  | portDead p =>
    obtain ⟨_, ha⟩ := Option.ite_none_right_eq_some.mp ha
    cases Option.some.inj ha
    exact h.unflagged ⟨rfl, rfl, rfl, rfl, rfl, rfl, rfl, rfl, rfl, rfl, rfl, fun _ h => h⟩
  | destroyDequeue p => exact h.unflagged (unflagged_destroyDequeue ha)
  | destroyFlag m => exact h.destroyFlag hq hc ha
  | destroyPoke p =>
    obtain ⟨_, ha⟩ := Option.ite_none_left_eq_some.mp ha
    cases Option.some.inj ha
    exact h.unflagged ⟨rfl, rfl, rfl, rfl, rfl, rfl, rfl, rfl, rfl, rfl, rfl, fun _ h => h⟩
  | entryMake t p => exact h.entryMake ha
  | entryRemove e => exact h.entryRemove ha

theorem QState.Quiet.notifyInv (h : s.Quiet) : NotifyInv s := by
  obtain ⟨hacc, hleft, hfin, hfr, hwill, hnot, hcl⟩ := h.history
  obtain ⟨_, hfind, hent⟩ := h.entry
  refine ⟨?_, ?_, fun m _ hm => ?_, ?_, ?_, ?_, ?_, ?_, fun m => ?_, ?_⟩
  · simp [hent]
  · simp [hfind, hent]
  · rw [h.msg] at hm
    simp at hm
  · simp [hent]
  · simp [QState.Unprocessed, hacc]
  · simp [hfr]
  · simp [hwill]
  · simp [hwill]
  · simp [hwill, hnot, hcl, QState.flag, QState.Unprocessed, hacc]
  · simp [hnot]

theorem QReach.notifyInv (h : QReach s) : NotifyInv s := by
  induction h with
  | quiet h => exact h.notifyInv
  | step h ha ih => exact qStep_notify ih h.queues h.countInv ha

/-! ## Pairing -/

/-- Every translation and every message that ever were point to each other or not at all. -/
def NotifyPaired (s : QState) : Prop := ∀ e m, e < s.nextEntry → m < s.nextMsg →
  ((s.entry e).kmsg = some m ↔ (s.msg m).senderEntry = some e)

theorem NotifyInv.pair (h : NotifyInv s) (he : (s.entry e).task ≠ none) (hlt : m < s.nextMsg)
    (hfin : m ∉ s.finished) (hfreed : m ∉ s.freed) :
    (s.entry e).kmsg = some m ↔ (s.msg m).senderEntry = some e := by
  constructor
  · exact fun hk => (h.out e m he hk).1
  · intro hse
    refine (h.back e m hse ⟨?_, hfin, hfreed⟩).2.1
    by_contra hno
    rw [h.fresh m hno hlt] at hse
    simp at hse

theorem unprocessed_place (hq : QInv s []) (hc : CountInv (fun _ => False) s) (hm : s.Unprocessed m) :
    (∃ q, s.IsAt m (.onQueue q)) ∨ (∃ t, s.role t = .hand m) ∨ s.IsAt m .destroyed := by
  obtain ⟨x, hx⟩ := hq.place_exists hm.1
  cases x with
  | onQueue q => exact .inl ⟨q, hx⟩
  | inHand t => exact .inr (.inl ⟨t, hc.hand t m hx hm.2.1⟩)
  | destroyed => exact .inr (.inr hx)

/-- A translation that is still its task's and a message that was not received or thrown away point to
each other or not at all, and each SEND_WILL_NOTIFY is made good once. -/
theorem notify_pairing (h : QReach s) :
    (∀ e m, (s.entry e).task ≠ none → m < s.nextMsg → m ∉ s.finished → m ∉ s.freed →
      ((s.entry e).kmsg = some m ↔ (s.msg m).senderEntry = some e)) ∧
    (∀ e m, (s.entry e).task ≠ none → (s.entry e).kmsg = some m →
      (s.entry e).port = (s.msg m).port ∧ m ∉ s.finished ∧ m ∉ s.freed ∧
        ((∃ q, s.IsAt m (.onQueue q)) ∨ (∃ t, s.role t = .hand m) ∨ s.IsAt m .destroyed)) ∧
    (∀ e m, (s.msg m).senderEntry = some e → m < s.nextMsg → m ∉ s.finished → m ∉ s.freed →
      (s.entry e).task ≠ none) ∧
    (∀ e e' m m', (s.entry e).task ≠ none → (s.entry e').task = (s.entry e).task →
      (s.entry e').port = (s.entry e).port → (s.entry e).kmsg = some m → (s.entry e').kmsg = some m' →
      m' = m) ∧
    (∀ m ∈ s.willNotify, (m ∈ s.finished → s.notified.count m = if m ∈ s.cleared then 0 else 1) ∧
      (m ∉ s.finished → s.notified.count m = 0)) ∧
    ∀ m ∈ s.notified, m ∈ s.willNotify := by
  have hn := h.notifyInv
  have hq := h.queues
  have hc := h.countInv
  refine ⟨fun e m => hn.pair, fun e m he hk => ?_, fun e m hse hlt hfin hfreed => ?_,
    fun e e' m m' he ht hp hk hk' => ?_, fun m hm => ⟨fun hf => ?_, fun hf => ?_⟩, fun m hm => ?_⟩
  · obtain ⟨hse, hu⟩ := hn.out e m he hk
    exact ⟨(hn.back e m hse hu).2.2, hu.2.1, hu.2.2, unprocessed_place hq hc hu⟩
  · refine (hn.back e m hse ⟨?_, hfin, hfreed⟩).1
    by_contra hno
    rw [hn.fresh m hno hlt] at hse
    simp at hse
  · obtain ⟨u, hu⟩ := Option.ne_none_iff_exists'.mp he
    have h1 := (hn.find u _ e).mpr ⟨hu, rfl⟩
    have h2 := (hn.find u _ e').mpr ⟨ht.trans hu, hp⟩
    rw [h1] at h2
    cases Option.some.inj h2
    rw [hk] at hk'
    exact (Option.some.inj hk').symm
  · have hflags := hn.flags m
    have hdown : s.flag m = 0 := if_neg fun hup => hup.2.2.1 hf
    rw [List.count_eq_one_of_mem hn.willNodup hm, hdown, Nat.add_zero] at hflags
    split
    next hin =>
      have := List.count_pos_iff.mpr hin
      omega
    next hin =>
      rw [List.count_eq_zero.mpr hin] at hflags
      exact hflags.symm
  · exact List.count_eq_zero.mpr fun hin => hf (hn.notified m hin)
  · have hflags := hn.flags m
    have := List.count_pos_iff.mpr hm
    exact List.count_pos_iff.mp (by omega)

def notifying : SendOptions := ⟨false, true, false, 0⟩

/-- Task 2 has a right for port 3, whose backlog is 1; its second message is sent with SEND_NOTIFY. -/
def notifyRun : List QAction :=
  [.entryMake 2 3, .sendCall 0 3 24 plain, .sendTry 0, .place 0, .sendCall 0 3 24 notifying, .sendTry 0,
    .place 0]

/-- Once both messages were received, the second still has the pointer to the translation. -/
theorem received_not_paired : ∃ s, QReach s ∧ ¬ NotifyPaired s := by
  obtain ⟨s, hs, hdata⟩ : ∃ s, qRun (openPorts 1) (notifyRun ++ [.receive 1 (.port 3) 64, .dequeue 1 false,
      .finish 1, .receive 1 (.port 3) 64, .dequeue 1 false, .finish 1]) = some s ∧
      s.nextEntry = 1 ∧ s.nextMsg = 2 ∧ (s.entry 0).kmsg = none ∧ (s.msg 1).senderEntry = some 0 :=
    ⟨_, rfl, by decide⟩
  have hreach : QReach s := .run (.quiet (openPorts_quiet (by decide))) hs
  refine ⟨s, hreach, fun hp => ?_⟩
  have := (hp 0 1 (by rw [hdata.1]; decide) (by rw [hdata.2.1]; decide)).mpr hdata.2.2.2
  rw [hdata.2.2.1] at this
  simp at this

/-- The flag is up while the message is on the queue. -/
theorem queued_notify_pairing : ∃ s, QReach s ∧ (s.entry 0).kmsg = some 1 ∧ s.willNotify = [1] ∧
    (∀ e m, (s.entry e).task ≠ none → m < s.nextMsg → m ∉ s.finished → m ∉ s.freed →
      ((s.entry e).kmsg = some m ↔ (s.msg m).senderEntry = some e)) ∧
    (∀ m ∈ s.willNotify, (m ∈ s.finished → s.notified.count m = if m ∈ s.cleared then 0 else 1) ∧
      (m ∉ s.finished → s.notified.count m = 0)) := by
  obtain ⟨s, hs, hdata⟩ : ∃ s, qRun (openPorts 1) notifyRun = some s ∧ (s.entry 0).kmsg = some 1 ∧
      s.willNotify = [1] := ⟨_, rfl, by decide⟩
  have hreach : QReach s := .run (.quiet (openPorts_quiet (by decide))) hs
  obtain ⟨hpair, _, _, _, hwill, _⟩ := notify_pairing hreach
  exact ⟨s, hreach, hdata.1, hdata.2, hpair, hwill⟩

end MachVM.Ipc
