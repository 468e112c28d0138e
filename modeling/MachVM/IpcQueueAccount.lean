import MachVM.IpcQueueBacklog

namespace MachVM.Ipc

variable {good : PortId → Prop} {s s' s'' : QState} {l : List MsgId} {p : PortId} {q : QueueId}
  {t : ThreadId} {m : MsgId}

theorem uncounted_setQueue (s : QState) (q : QueueId) (x : MsgQueue) : Uncounted good s (s.setQueue q x) :=
  uncounted_aside rfl rfl (fun _ => rfl) rfl rfl rfl rfl

theorem Uncounted.setQueue (h : Uncounted good s s') (q : QueueId) (x : MsgQueue) :
    Uncounted good s (s'.setQueue q x) := h.trans (uncounted_setQueue s' q x) fun _ => rfl

theorem Uncounted.setPort (h : Uncounted good s s') (p : PortId) (x : QPort)
    (hx : x.count = (s'.port p).count ∧ x.backlog = (s'.port p).backlog ∧
      x.senders = (s'.port p).senders ∧ x.inUse = (s'.port p).inUse) :
    Uncounted good s (s'.setPort p x) :=
  h.trans (uncounted_setPort ⟨hx.1, hx.2.1, hx.2.2.1, fun hl => hx.2.2.2 ▸ hl⟩) fun _ => rfl

theorem hand_idle (h : s.thread t = .idle) {r : Thread} (hr : ∀ m, r.role ≠ .hand m) (m : MsgId) :
    r.role = .hand m ↔ s.role t = .hand m := by
  rw [role_idle h]
  simp [hr]

theorem uncounted_receive {size : Nat} (hs : Ipc.receive s t q size = some s') : Uncounted good s s' := by
  unfold Ipc.receive at hs
  split at hs
  next hg =>
    cases Option.some.inj hs
    exact (uncounted_setQueue ..).setThread (hand_idle hg.1 (by simp [Thread.role])) rfl
  next => simp at hs

theorem uncounted_rcvWake {r : WaitResult} (hs : Ipc.rcvWake s t r = some s') : Uncounted good s s' := by
  unfold Ipc.rcvWake at hs
  split at hs
  next q m he =>
    split at hs
    next => simp at hs
    next =>
      cases Option.some.inj hs
      refine (Uncounted.refl s).setThread (fun m' => ?_) rfl
      rw [QState.role, he]
      rfl
  next q he =>
    split at hs
    next => simp at hs
    next =>
      cases Option.some.inj hs
      refine (Uncounted.refl s).setThread (fun m' => ?_) rfl
      rw [QState.role, he]
      rfl
  next q size he =>
    split at hs
    next => simp at hs
    next =>
      have hr : ∀ r : Thread, (∀ m, r.role ≠ .hand m) → ∀ m, r.role = .hand m ↔ s.role t = .hand m := by
        intro r hr m
        rw [show s.role t = .blocked q by rw [QState.role, he]; rfl]
        simp [hr]
      cases r with
      | interrupted =>
        cases Option.some.inj hs
        exact (uncounted_setQueue ..).setThread (hr .idle (by simp [Thread.role])) rfl
      | timedOut =>
        cases Option.some.inj hs
        exact (uncounted_setQueue ..).setThread (hr .idle (by simp [Thread.role])) rfl
      | other =>
        cases Option.some.inj hs
        exact (uncounted_setQueue ..).setThread (hr (.receiving q size) (by simp [Thread.role])) rfl
  next => simp at hs

theorem uncounted_msgQueueChanged (hq : QInv s l) (q : QueueId) :
    Uncounted good s (Ipc.msgQueueChanged s q) :=
  (uncounted_tell fun t ht => (hq.blocked q t).mp ht).trans (uncounted_setQueue ..) fun _ => rfl

theorem uncounted_setRemoveMember (s : QState) (p : PortId) (x : SetId) :
    Uncounted good s (Ipc.setRemoveMember s p x) :=
  (((Uncounted.refl s).setPort p { s.port p with set := none } ⟨rfl, rfl, rfl, rfl⟩).setQueue _ _).setQueue _ _

theorem uncounted_setAddDone (hq : QInv s l) (hs : Ipc.setAddDone s t = some s') :
    Uncounted good s s' := by
  unfold Ipc.setAddDone at hs
  split at hs
  next p he =>
    split at hs
    next => simp at hs
    next =>
      cases Option.some.inj hs
      have hchanged : Uncounted good s (Ipc.msgQueueChanged s (.port p)) := uncounted_msgQueueChanged hq _
      have hopen := hchanged.setPort p { (Ipc.msgQueueChanged s (.port p)).port p with locked := false }
        ⟨rfl, rfl, rfl, rfl⟩
      refine hopen.setThread (fun m => ?_) rfl
      rw [QState.role, he]
      rfl
  next => simp at hs

theorem uncounted_portSetRemove (hs : Ipc.portSetRemove s p = some s') : Uncounted good s s' := by
  unfold Ipc.portSetRemove at hs
  split at hs
  next x _ =>
    split at hs
    next =>
      cases Option.some.inj hs
      exact uncounted_setRemoveMember s p x
    next => simp at hs
  next => simp at hs

theorem uncounted_portClearReceiver {dead : Bool} (hq : QInv s l)
    (hs : Ipc.portClearReceiver s p dead = some s') : Uncounted good s s' := by
  unfold Ipc.portClearReceiver at hs
  split at hs
  next =>
    dsimp only at hs
    cases Option.some.inj hs
    split
    next x _ => exact (uncounted_setRemoveMember s p x).setPort p _ ⟨rfl, rfl, rfl, rfl⟩
    next => exact (uncounted_msgQueueChanged hq (.port p)).setPort p _ ⟨rfl, rfl, rfl, rfl⟩
  next => simp at hs

theorem uncounted_destroyFlag (hs : Ipc.destroyFlag s m = some s') : Uncounted good s s' := by
  unfold Ipc.destroyFlag at hs
  split at hs
  next =>
    cases Option.some.inj hs
    split
    next => exact uncounted_aside rfl rfl (fun _ => rfl) rfl rfl rfl rfl
    next => exact uncounted_aside rfl rfl (fun _ => rfl) rfl rfl rfl rfl
  next => simp at hs

theorem uncounted_entryRemove {e : EntryId} (hs : Ipc.entryRemove s e = some s') : Uncounted good s s' := by
  unfold Ipc.entryRemove at hs
  dsimp only at hs
  split at hs
  next => simp at hs
  next =>
    split at hs
    next => simp at hs
    next =>
      cases Option.some.inj hs
      split
      next => exact uncounted_aside rfl rfl (fun _ => rfl) rfl rfl rfl rfl
      next m _ =>
        refine uncounted_aside rfl rfl (fun m' => ?_) rfl rfl rfl rfl
        show ((s.setMsg m { s.msg m with senderEntry := none }).msg m').port = _
        rw [msg_setMsg]
        split
        next he => rw [he]
        next => rfl

theorem CountInv.setAddMember {x : SetId} (h : CountInv good s) (hq : QInv s [])
    (hs : Ipc.setAddMember s t p x = some s') : CountInv good s' := by
  obtain ⟨s₁, rfl, hjoin, hof, hlock, hout, hidle, rfl⟩ := setAddMember_cases hq hs
  obtain ⟨hinv, hthread⟩ := hjoin.deliverAll _ hof hlock hout
  have h₁ := h.uncounted hq (((Uncounted.refl s).setPort p { s.port p with set := some x, locked := true }
    ⟨rfl, rfl, rfl, rfl⟩).setQueue (.port p) { s.queue (.port p) with messages := [] })
  exact (h₁.deliverAll _ hjoin hof hlock).uncounted hinv
    ((Uncounted.refl _).setThread (hand_idle (hthread.trans hidle) (by simp [Thread.role])) rfl)

/-- Senders to `p` use neither SEND_ALWAYS nor SEND_NOTIFY, and its backlog is not lowered. -/
def Polite (p : PortId) (s : QState) : QAction → Prop
  | .sendCall _ p' _ o => p' = p → o.always = false ∧ o.notify = false
  | .portSetBacklog _ p' b => p' = p → (s.port p).backlog ≤ b
  | _ => True

theorem qStep_count {a : QAction} (h : CountInv good s) (hq : QInv s [])
    (hgood : ∀ p, good p → Polite p s a) (ha : qStep s a = some s') : CountInv good s' := by
  have hframe : Uncounted good s s' → CountInv good s' := h.uncounted hq
  cases a with
  | sendCall t p size o => exact h.sendCall hq (fun hg => hgood p hg rfl) ha
  | sendTry t => exact h.sendTry hq ha
  | sendWake t r => exact h.sendWake ha
  | place t => exact h.place hq ha
  | receive t q size => exact hframe (uncounted_receive ha)
  | dequeue t poll => exact h.dequeue hq ha
  | rcvWake t r => exact hframe (uncounted_rcvWake ha)
  | finish t => exact h.finish hq ha
  | setAddMember t p x => exact h.setAddMember hq ha
  | setAddDone t => exact hframe (uncounted_setAddDone hq ha)
  | portSetRemove p => exact hframe (uncounted_portSetRemove ha)
  | portClearReceiver p dead => exact hframe (uncounted_portClearReceiver hq ha)
  | portTakeReceive p t =>
    obtain ⟨_, ha⟩ := Option.ite_none_right_eq_some.mp ha
    cases Option.some.inj ha
    exact hframe (uncounted_setPort ⟨rfl, rfl, rfl, fun h => h⟩)
  | setDead x =>
    cases Option.some.inj ha
    exact hframe (uncounted_aside rfl rfl (fun _ => rfl) rfl rfl rfl rfl)
  | setChanged x =>
    obtain ⟨_, ha⟩ := Option.ite_none_left_eq_some.mp ha
    cases Option.some.inj ha
    exact hframe (uncounted_msgQueueChanged hq (.set x))
  | portSetBacklog t p b => exact h.portSetBacklog (fun hg => hgood p hg rfl) ha
  | portBackup p =>
    obtain ⟨_, ha⟩ := Option.ite_none_right_eq_some.mp ha
    cases Option.some.inj ha
    exact hframe (uncounted_setPort ⟨rfl, rfl, rfl, fun h => h⟩)
  | portDead p =>
    obtain ⟨_, ha⟩ := Option.ite_none_right_eq_some.mp ha
    cases Option.some.inj ha
    exact hframe (uncounted_setPort ⟨rfl, rfl, rfl, fun h => by simp at h⟩)
  | destroyDequeue p => exact h.destroyDequeue hq ha
  | destroyFlag m => exact hframe (uncounted_destroyFlag ha)
  | destroyPoke p =>
    obtain ⟨_, ha⟩ := Option.ite_none_left_eq_some.mp ha
    cases Option.some.inj ha
    exact h.wakeSenders p
  | entryMake t p =>
    obtain ⟨_, ha⟩ := Option.ite_none_right_eq_some.mp ha
    cases Option.some.inj ha
    exact hframe (uncounted_aside rfl rfl (fun _ => rfl) rfl rfl rfl rfl)
  | entryRemove e => exact hframe (uncounted_entryRemove ha)

theorem QState.Quiet.countInv (h : s.Quiet) : CountInv good s := by
  obtain ⟨hacc, hleft, hfin, _⟩ := h.history
  have hrole : ∀ t, s.role t = .free := fun t => role_idle (h.thread t)
  refine ⟨fun p => ?_, ?_, ?_, ?_, ?_, ?_, fun p => (h.port p).2.2.1, fun p hne => ?_, ?_, ?_, fun p _ => ?_⟩
  · rw [hacc, hfin, (h.port p).2.1]
    rfl
  · rw [hfin]
    exact List.nodup_nil
  · simp [hfin]
  · simp [hleft]
  · simp [hrole]
  · simp [hleft]
  · exact absurd (h.port p).2.2.2.1 hne
  · simp [h.thread]
  · simp [h.thread, Thread.out]
  · rw [(h.port p).2.1]
    exact Int.le_of_lt (h.port p).2.2.1

/-- Runs in which every step meets a condition. -/
inductive QReachBy (ok : QState → QAction → Prop) : QState → Prop
  | quiet {s : QState} (h : s.Quiet) : QReachBy ok s
  | step {s s' : QState} {a : QAction} (h : QReachBy ok s) (hok : ok s a) (ha : qStep s a = some s') :
    QReachBy ok s'

theorem QReachBy.reach {ok : QState → QAction → Prop} (h : QReachBy ok s) : QReach s := by
  induction h with
  | quiet h => exact .quiet h
  | step _ _ ha ih => exact .step ih ha

theorem QReachBy.countInv {ok : QState → QAction → Prop} (h : QReachBy ok s)
    (hgood : ∀ p, good p → ∀ s a, ok s a → Polite p s a) : CountInv good s := by
  induction h with
  | quiet h => exact h.countInv
  | step h hok ha ih => exact qStep_count ih h.reach.queues (fun p hg => hgood p hg _ _ hok) ha

theorem QReach.countInv (h : QReach s) : CountInv (fun _ => False) s := by
  induction h with
  | quiet h => exact h.countInv
  | step h ha ih => exact qStep_count ih h.queues (fun _ hg => hg.elim) ha

/-- A message that was handed to a thread, and is not done with, is the one the thread holds. -/
theorem QReach.inHand_iff (h : QReach s) :
    s.IsAt m (.inHand t) ∧ m ∉ s.finished ↔ s.role t = .hand m := by
  constructor
  · rintro ⟨hat, hun⟩
    exact h.countInv.hand t m hat hun
  · intro hr
    exact ⟨h.queues.hand t m hr, h.countInv.unfinished t m hr⟩

/-! ## The count of a port -/

namespace QState

/-- The number of messages for `p` on its own queue and on that of its set. -/
def queuedCount (s : QState) (p : PortId) : Nat :=
  (s.mine p (s.queue (.port p)).messages).length +
    match (s.port p).set with
    | none => 0
    | some x => (s.mine p (s.queue (.set x)).messages).length

/-- One while a sender has counted its message for `p` and holds the lock of the queue to put it there. -/
def placingCount (s : QState) (p : PortId) : Nat := (s.mine p (s.placingOn (s.queueOf p))).length

def handed (s : QState) : List MsgId := (s.left.filter fun x => decide (x.2 ≠ .destroyed)).map Prod.fst

/-- The messages for `p` whose receivers have not finished `msg_dequeue`. -/
def inHands (s : QState) (p : PortId) : List MsgId :=
  (s.mine p s.handed).filter fun m => !decide (m ∈ s.finished)

end QState

theorem mem_handed : m ∈ s.handed ↔ ∃ t, (m, Fate.handed t) ∈ s.left := by
  unfold QState.handed
  constructor
  · intro hm
    obtain ⟨⟨m', f⟩, hin, he⟩ := List.mem_map.mp hm
    obtain ⟨hin, hf⟩ := List.mem_filter.mp hin
    cases he
    cases f with
    | handed t => exact ⟨t, hin⟩
    | destroyed => simp at hf
  · rintro ⟨t, hin⟩
    exact List.mem_map.mpr ⟨_, List.mem_filter.mpr ⟨hin, by simp⟩, rfl⟩

theorem QInv.handedNodup (h : QInv s []) : s.handed.Nodup :=
  h.leftNodup.sublist (List.filter_sublist.map Prod.fst)

theorem CountInv.mine_left (h : CountInv good s) (hlive : (s.port p).inUse = true) :
    s.mine p (s.left.map Prod.fst) = s.mine p s.handed := by
  unfold QState.mine QState.handed
  rw [List.filter_map, List.filter_map, List.filter_filter]
  congr 1
  refine List.filter_congr fun x hx => ?_
  obtain ⟨m, f⟩ := x
  by_cases hp : (s.msg m).port = p
  · have hf : f ≠ .destroyed := by
      rintro rfl
      have := h.destroyed m hx
      rw [hp, hlive] at this
      simp at this
    simp [hp, hf]
  · simp [hp]

theorem CountInv.handed_length (h : CountInv good s) (hq : QInv s []) (p : PortId) :
    (s.mine p s.handed).length = (s.mine p s.finished).length + (s.inHands p).length := by
  have hperm : ((s.mine p s.handed).filter fun m => decide (m ∈ s.finished)).Perm (s.mine p s.finished) := by
    have hhanded : (s.mine p s.handed).Nodup := hq.handedNodup.filter _
    have hfinished : (s.mine p s.finished).Nodup := h.finishedNodup.filter _
    refine (List.perm_ext_iff_of_nodup (hhanded.filter _) hfinished).mpr fun m => ?_
    rw [List.mem_filter, mem_mine, mem_mine, mem_handed, decide_eq_true_eq]
    constructor
    · rintro ⟨⟨_, hp⟩, hf⟩
      exact ⟨hf, hp⟩
    · rintro ⟨hf, hp⟩
      exact ⟨⟨h.finished m hf, hp⟩, hf⟩
  rw [← hperm.length_eq]
  exact List.length_eq_length_filter_add _

theorem QInv.pending_length (h : QInv s []) (p : PortId) :
    (s.pending p).length = s.queuedCount p + s.placingCount p := by
  unfold QState.pending QState.queuedCount QState.placingCount
  rw [mine_append, List.length_append]
  congr 1
  cases hset : (s.port p).set with
  | none =>
    rw [queueOf_eq_port.mpr ⟨rfl, hset⟩]
    rfl
  | some x =>
    have hnil : s.mine p (s.queue (.port p)).messages = [] := by
      refine mine_eq_nil fun m hm _ => ?_
      have := (queueOf_eq_port.mp (h.messages _ m hm).symm).2
      rw [hset] at this
      simp at this
    rw [queueOf_eq_set.mpr hset, hnil, List.length_nil, Nat.zero_add]

theorem CountInv.count_eq (h : CountInv good s) (hq : QInv s []) (hlive : (s.port p).inUse = true) :
    (s.port p).count = ((s.queuedCount p + s.placingCount p + (s.inHands p).length : Nat) : Int) := by
  rw [h.count p, hq.split p, List.length_append, h.mine_left hlive, h.handed_length hq, hq.pending_length]
  push_cast
  omega

theorem CountInv.mem_inHands (h : CountInv good s) (hq : QInv s []) :
    m ∈ s.inHands p ↔ (s.msg m).port = p ∧ ∃ t, s.role t = .hand m := by
  unfold QState.inHands
  rw [List.mem_filter, mem_mine, mem_handed]
  constructor
  · rintro ⟨⟨⟨t, hin⟩, hp⟩, hun⟩
    exact ⟨hp, t, h.hand t m hin (by simpa using hun)⟩
  · rintro ⟨hp, t, hr⟩
    exact ⟨⟨⟨t, hq.hand t m hr⟩, hp⟩, by simpa using h.unfinished t m hr⟩

/-- `port_message_count` of a live port: the messages queued for it, with the one a sender has the
queue locked for, and those in the hands of receivers. -/
theorem backlog_accounting (h : QReach s) (p : PortId) (hlive : (s.port p).inUse = true) :
    (s.port p).count = ((s.queuedCount p + s.placingCount p + (s.inHands p).length : Nat) : Int) ∧
      ((s.queue (s.queueOf p)).lock = none → s.placingCount p = 0) ∧
      ((s.inHands p).Nodup ∧ ∀ m, m ∈ s.inHands p ↔ (s.msg m).port = p ∧ ∃ t, s.role t = .hand m) ∧
      0 ≤ (s.port p).count ∧
      (QReachBy (Polite p) s → (s.port p).count ≤ (s.port p).backlog) ∧
      ∀ t m o, s.thread t = .sendBlocked m o → (s.msg m).port = p → 0 < (s.port p).count := by
  have hq := h.queues
  have hc := h.countInv
  have hcount := hc.count_eq hq hlive
  refine ⟨hcount, fun hl => ?_, ⟨?_, fun m => hc.mem_inHands hq⟩, ?_, fun hpolite => ?_, fun t m o hx hm => ?_⟩
  · rw [QState.placingCount, placingOn_none hl]
    rfl
  · exact (hq.handedNodup.filter _).filter _
  · rw [hcount]
    exact Int.natCast_nonneg _
  · have hroom : CountInv (fun p' => p' = p) s := hpolite.countInv fun p' hp s a hok => hp ▸ hok
    exact hroom.room p rfl
  · have := hc.waits t m o hx
    rw [hm] at this
    exact hc.senders p (List.ne_nil_of_mem this)

/-- Backlog 1: a message in its receiver's hand, the next sender asleep. -/
theorem fullPort_backlog_accounting : ∃ s, QReach s ∧ (s.port 3).inUse = true ∧
    s.thread 2 = .sendBlocked 1 plain ∧ s.thread 1 = .holding 0 ∧
    (s.port 3).count = ((s.queuedCount 3 + s.placingCount 3 + (s.inHands 3).length : Nat) : Int) ∧
    ((s.queue (s.queueOf 3)).lock = none → s.placingCount 3 = 0) ∧
    ((s.inHands 3).Nodup ∧ ∀ m, m ∈ s.inHands 3 ↔ (s.msg m).port = 3 ∧ ∃ t, s.role t = .hand m) ∧
    0 ≤ (s.port 3).count ∧
    (QReachBy (Polite 3) s → (s.port 3).count ≤ (s.port 3).backlog) ∧
    ∀ t m o, s.thread t = .sendBlocked m o → (s.msg m).port = 3 → 0 < (s.port 3).count := by
  obtain ⟨s, hs, hlive, hsleep, hhold⟩ : ∃ s, qRun (openPorts 1) [.sendCall 0 3 24 plain, .sendTry 0,
      .place 0, .receive 1 (.port 3) 64, .dequeue 1 false, .sendCall 2 3 24 plain, .sendTry 2] = some s ∧
      (s.port 3).inUse = true ∧ s.thread 2 = .sendBlocked 1 plain ∧ s.thread 1 = .holding 0 :=
    ⟨_, rfl, by decide⟩
  have hreach : QReach s := .run (.quiet (openPorts_quiet (by decide))) hs
  exact ⟨s, hreach, hlive, hsleep, hhold, backlog_accounting hreach 3 hlive⟩

end MachVM.Ipc
