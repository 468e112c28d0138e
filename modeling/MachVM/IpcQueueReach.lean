import MachVM.IpcQueueMembers

namespace MachVM.Ipc

variable {s s' : QState} {l : List MsgId} {p : PortId} {q : QueueId} {t : ThreadId} {m : MsgId}

theorem queuesFree_iff : queuesFree s p = true ↔
    (s.queue (.port p)).lock = none ∧ (s.queue (s.queueOf p)).lock = none := by
  simp [queuesFree]

theorem QInv.portSetRemove (h : QInv s []) (hs : Ipc.portSetRemove s p = some s') : QInv s' [] := by
  unfold Ipc.portSetRemove at hs
  split at hs
  next x hset =>
    split at hs
    next hg =>
      cases Option.some.inj hs
      obtain ⟨hport, hlock⟩ := queuesFree_iff.mp hg.2
      rw [queueOf_eq_set.mpr hset] at hlock
      exact h.setRemoveMember hset hg.1 hport hlock
    next => simp at hs
  next => simp at hs

theorem QInv.portClearReceiver {dead : Bool} (h : QInv s [])
    (hs : Ipc.portClearReceiver s p dead = some s') : QInv s' [] := by
  unfold Ipc.portClearReceiver at hs
  split at hs
  next hg =>
    obtain ⟨hport, hlock⟩ := queuesFree_iff.mp hg.2
    dsimp only at hs
    cases Option.some.inj hs
    refine QInv.setPort ?_ rfl .inl
    split
    next x hset =>
      rw [queueOf_eq_set.mpr hset] at hlock
      exact h.setRemoveMember hset hg.1 hport hlock
    next => exact h.msgQueueChanged (.port p)
  next => simp at hs

theorem QInv.setChanged {x : SetId} (h : QInv s l) (hs : Ipc.setChanged s x = some s') : QInv s' l := by
  unfold Ipc.setChanged at hs
  split at hs
  next => simp at hs
  next =>
    cases Option.some.inj hs
    exact h.msgQueueChanged (.set x)

theorem QInv.portSetBacklog {t : TaskId} {b : Int} (h : QInv s l)
    (hs : Ipc.portSetBacklog s t p b = some s') : QInv s' l := by
  unfold Ipc.portSetBacklog at hs
  split at hs
  next => simp at hs
  next =>
    split at hs
    next => simp at hs
    next =>
      cases Option.some.inj hs
      exact QInv.setPort (h.wake _) rfl .inl

theorem QInv.destroyDequeue (h : QInv s l) (hs : Ipc.destroyDequeue s p = some s') : QInv s' l := by
  unfold Ipc.destroyDequeue at hs
  split at hs
  next => simp at hs
  next =>
    split at hs
    next => simp at hs
    next m rest hms =>
      cases Option.some.inj hs
      set s₁ := { s.setQueue (.port p) { s.queue (.port p) with messages := rest } with
        left := s.left ++ [(m, Fate.destroyed)] } with hs₁
      have hqueue : s₁.queue (.port p) = { s.queue (.port p) with messages := rest } := by
        show (QState.setQueue _ (.port p) _).queue _ = _
        rw [queue_setQueue, if_pos rfl]
      have hplacing : s₁.placingOn (.port p) = s.placingOn (.port p) :=
        placingOn_congr (by rw [hqueue]) fun _ _ => rfl
      have hm := h.messages (.port p) m (by rw [hms]; exact List.mem_cons_self)
      have hturn : QueueTurn s s₁ (.port p) := by
        refine ⟨fun q' hne => ?_, fun _ => .inl rfl, fun _ => ⟨rfl, rfl⟩, fun _ => rfl, rfl, rfl⟩
        show (QState.setQueue _ (.port p) _).queue _ = _
        rw [queue_setQueue, if_neg hne]
      refine h.turn hturn
        ⟨fun p' hp => ⟨?_, rfl⟩, fun p' _ => ?_, fun t => ?_, ?_, fun t => ?_, fun t m hr => ?_, fun m' hm => ?_,
          fun _ => ?_, fun p' t hp hr => ?_, fun t m hr => .inl hr, fun _ hy => List.mem_append_left _ hy⟩
      · show s.mine p' (List.map Prod.fst (s.left ++ [(m, Fate.destroyed)])) = _
        rw [List.map_append, mine_append]
        show _ ++ s.mine p' [m] = _
        rw [mine_singleton_ne (fun he => hp (by rw [← he]; exact hm.symm)), List.append_nil]
      · show s.mine p' (List.map Prod.fst (s.left ++ [(m, Fate.destroyed)])) ++ _ ++ _ = _
        rw [hqueue, hplacing, hms, List.map_append, mine_append]
        simp [QState.mine, List.filter_cons]
        split <;> simp
      · rw [hqueue]
        exact h.blocked _ t
      · rw [hqueue]
        exact h.blockedNodup _
      · rw [hqueue]
        exact h.lock _ t
      · exact h.placing t m _ hr
      · rw [hqueue] at hm
        exact h.messages _ m' (by rw [hms]; exact List.mem_cons_of_mem m hm)
      · rw [hqueue]
        exact h.still _ (by rw [hms]; simp)
      · cases hp
        exact h.portWait p t hr

theorem QInv.destroyFlag (h : QInv s l) (hs : Ipc.destroyFlag s m = some s') : QInv s' l := by
  unfold Ipc.destroyFlag at hs
  split at hs
  next =>
    cases Option.some.inj hs
    split
    next => exact h.aside rfl rfl rfl rfl rfl rfl rfl
    next => exact h.aside rfl rfl rfl rfl rfl rfl rfl
  next => simp at hs

theorem QInv.entryRemove {e : EntryId} (h : QInv s l) (hs : Ipc.entryRemove s e = some s') :
    QInv s' l := by
  unfold Ipc.entryRemove at hs
  dsimp only at hs
  split at hs
  next => simp at hs
  next =>
    split at hs
    next => simp at hs
    next =>
      cases Option.some.inj hs
      split
      next => exact h.aside rfl rfl rfl rfl rfl rfl rfl
      next m _ =>
        exact (h.setMsg (m := m) (x := { s.msg m with senderEntry := none }) rfl).aside rfl rfl rfl rfl rfl rfl rfl

theorem qStep_queues {a : QAction} (h : QInv s []) (ha : qStep s a = some s') : QInv s' [] := by
  cases a with
  | sendCall t p size o => exact h.sendCall ha
  | sendTry t => exact h.sendTry ha
  | sendWake t r => exact h.sendWake ha
  | place t => exact h.place ha
  | receive t q size => exact h.receive ha
  | dequeue t poll => exact h.dequeue ha
  | rcvWake t r => exact h.rcvWake ha
  | finish t => exact h.finish ha
  | setAddMember t p x => exact h.setAddMember ha
  | setAddDone t => exact h.setAddDone ha
  | portSetRemove p => exact h.portSetRemove ha
  | portClearReceiver p dead => exact h.portClearReceiver ha
  | portTakeReceive p t =>
    obtain ⟨_, ha⟩ := Option.ite_none_right_eq_some.mp ha
    cases Option.some.inj ha
    exact h.setPort rfl .inl
  | setDead x =>
    cases Option.some.inj ha
    exact h.aside rfl rfl rfl rfl rfl rfl rfl
  | setChanged x => exact h.setChanged ha
  | portSetBacklog t p b => exact h.portSetBacklog ha
  | portBackup p =>
    obtain ⟨_, ha⟩ := Option.ite_none_right_eq_some.mp ha
    cases Option.some.inj ha
    exact h.setPort rfl .inl
  | portDead p =>
    obtain ⟨_, ha⟩ := Option.ite_none_right_eq_some.mp ha
    cases Option.some.inj ha
    exact h.setPort rfl .inl
  | destroyDequeue p => exact h.destroyDequeue ha
  | destroyFlag m => exact h.destroyFlag ha
  | destroyPoke p =>
    obtain ⟨_, ha⟩ := Option.ite_none_left_eq_some.mp ha
    cases Option.some.inj ha
    exact h.wakeSenders p
  | entryMake t p =>
    obtain ⟨_, ha⟩ := Option.ite_none_right_eq_some.mp ha
    cases Option.some.inj ha
    exact h.aside rfl rfl rfl rfl rfl rfl rfl
  | entryRemove e => exact h.entryRemove ha

theorem QState.Quiet.queues (h : s.Quiet) : QInv s [] := by
  have hrole : ∀ t, s.role t = .free := fun t => role_idle (h.thread t)
  obtain ⟨hacc, hleft, _⟩ := h.history
  refine ⟨?_, ?_, ?_, ?_, ?_, ?_, ?_, ?_, ?_, ?_, ?_, ?_, ?_⟩
  all_goals simp [hacc, hleft, hrole, h.queue, QState.pending, QState.placingOn, QState.mine]

theorem QReach.queues (h : QReach s) : QInv s [] := by
  induction h with
  | quiet h => exact h.queues
  | step _ ha ih => exact qStep_queues ih ha

/-- Where a message that `msg_queue` accepted can be. -/
inductive Whereabouts
  | onQueue (q : QueueId)
  | inHand (t : ThreadId)
  | destroyed
  deriving DecidableEq, Repr

/-- A message is on a queue from the moment its sender has the queue locked for it; the one that a
receiver was handed stays that receiver's. -/
def QState.IsAt (s : QState) (m : MsgId) : Whereabouts → Prop
  | .onQueue q => m ∈ (s.queue q).messages ++ s.placingOn q
  | .inHand t => (m, Fate.handed t) ∈ s.left
  | .destroyed => (m, Fate.destroyed) ∈ s.left

theorem QInv.onQueue (h : QInv s l) (hm : s.IsAt m (.onQueue q)) : q = s.queueOf (s.msg m).port := by
  rcases List.mem_append.mp hm with hm | hm
  · exact h.messages q m hm
  · obtain ⟨t, hr⟩ := (h.placingOn_eq q m).mp hm
    exact h.placing t m q hr

theorem QInv.split (h : QInv s []) (p : PortId) :
    s.mine p s.accepted = s.mine p (s.left.map Prod.fst) ++ s.pending p := by
  have horder := h.order p
  rw [show s.mine p [] = [] from rfl, List.append_nil] at horder
  exact horder

theorem mem_pending : m ∈ s.pending p ↔ s.IsAt m (.onQueue (s.queueOf p)) ∧ (s.msg m).port = p := mem_mine

theorem nodup_of_mine (h : ∀ p, (s.mine p l).Nodup) : l.Nodup := by
  refine List.nodup_iff_sublist.mpr fun m hm => ?_
  have hs : (s.mine (s.msg m).port [m, m]).Sublist (s.mine (s.msg m).port l) := hm.filter _
  have htwo : s.mine (s.msg m).port [m, m] = [m, m] := mine_eq_self fun m' hm' => by
    simp only [List.mem_cons, List.not_mem_nil, or_false, or_self] at hm'
    rw [hm']
  rw [htwo] at hs
  exact List.nodup_iff_sublist.mp (h _) m hs

theorem QInv.parts (h : QInv s []) (p : PortId) : (s.mine p (s.left.map Prod.fst)).Nodup ∧
    (s.pending p).Nodup ∧ (s.mine p (s.left.map Prod.fst)).Disjoint (s.pending p) := by
  have hnodup : (s.mine p s.accepted).Nodup := h.nodup.filter _
  rw [h.split p] at hnodup
  exact List.nodup_append'.mp hnodup

theorem QInv.leftNodup (h : QInv s []) : (s.left.map Prod.fst).Nodup :=
  nodup_of_mine fun p => (h.parts p).1

theorem QInv.queueNodup (h : QInv s []) (q : QueueId) : ((s.queue q).messages ++ s.placingOn q).Nodup := by
  refine nodup_of_mine (s := s) fun p => ?_
  by_cases hp : s.queueOf p = q
  · rw [← hp]
    exact (h.parts p).2.1
  · rw [mine_eq_nil fun m hm he => hp ?_]
    · exact List.nodup_nil
    · rw [← he]
      exact (h.onQueue hm).symm

theorem QInv.left_not_queued (h : QInv s []) (hl : m ∈ s.left.map Prod.fst) :
    ¬ s.IsAt m (.onQueue q) := by
  intro hq
  refine (h.parts (s.msg m).port).2.2 (mem_mine.mpr ⟨hl, rfl⟩) (mem_pending.mpr ⟨?_, rfl⟩)
  rw [← h.onQueue hq]
  exact hq

theorem fate_unique {k : List (MsgId × Fate)} {f f' : Fate} (h : (k.map Prod.fst).Nodup)
    (hf : (m, f) ∈ k) (hf' : (m, f') ∈ k) : f = f' := by
  have := List.inj_on_of_nodup_map h hf hf' rfl
  exact congrArg Prod.snd this

theorem QInv.place_unique (h : QInv s []) {x y : Whereabouts} (hx : s.IsAt m x) (hy : s.IsAt m y) : x = y := by
  have hleft : ∀ f, (m, f) ∈ s.left → m ∈ s.left.map Prod.fst := fun f hf => List.mem_map.mpr ⟨_, hf, rfl⟩
  have hone : ∀ f f', (m, f) ∈ s.left → (m, f') ∈ s.left → f = f' := fun f f' => fate_unique h.leftNodup
  cases x with
  | onQueue q =>
    cases y with
    | onQueue q' => rw [h.onQueue hx, h.onQueue hy]
    | inHand t => exact absurd hx (h.left_not_queued (hleft _ hy))
    | destroyed => exact absurd hx (h.left_not_queued (hleft _ hy))
  | inHand t =>
    cases y with
    | onQueue q => exact absurd hy (h.left_not_queued (hleft _ hx))
    | inHand t' =>
      cases hone _ _ hx hy
      rfl
    | destroyed => exact absurd (hone _ _ hx hy) (by simp)
  | destroyed =>
    cases y with
    | onQueue q => exact absurd hy (h.left_not_queued (hleft _ hx))
    | inHand t => exact absurd (hone _ _ hx hy) (by simp)
    | destroyed => rfl

theorem QInv.place_exists (h : QInv s []) (hm : m ∈ s.accepted) : ∃ x, s.IsAt m x := by
  have hmine : m ∈ s.mine (s.msg m).port s.accepted := mem_mine.mpr ⟨hm, rfl⟩
  rw [h.split] at hmine
  rcases List.mem_append.mp hmine with hl | hp
  · obtain ⟨⟨m', f⟩, hf, he⟩ := List.mem_map.mp (mem_mine.mp hl).1
    cases he
    cases f with
    | handed t => exact ⟨.inHand t, hf⟩
    | destroyed => exact ⟨.destroyed, hf⟩
  · exact ⟨_, (mem_pending.mp hp).1⟩

/-- Messages are neither lost nor doubled, those of one port leave in the order in which they were
accepted, and receivers wait only at empty queues. -/
theorem messages_conserved (h : QReach s) :
    (∀ m ∈ s.accepted, ∃! x, s.IsAt m x) ∧
      (∀ q, ((s.queue q).messages ++ s.placingOn q).Nodup) ∧
      (s.left.map Prod.fst).Nodup ∧
      (∀ p, s.mine p (s.left.map Prod.fst) <+: s.mine p s.accepted) ∧
      ∀ q, (s.queue q).messages ≠ [] → (s.queue q).blocked = [] := by
  have hinv := h.queues
  refine ⟨fun m hm => ?_, hinv.queueNodup, hinv.leftNodup, fun p => ?_, hinv.still⟩
  · obtain ⟨x, hx⟩ := hinv.place_exists hm
    exact ⟨x, hx, fun y hy => hinv.place_unique hy hx⟩
  · rw [hinv.split p]
    exact List.prefix_append _ _

def qRun (s : QState) : List QAction → Option QState
  | [] => some s
  | a :: as => (qStep s a).bind fun s' => qRun s' as

theorem QReach.run {as : List QAction} (h : QReach s) (hs : qRun s as = some s') : QReach s' := by
  induction as generalizing s with
  | nil =>
    cases Option.some.inj hs
    exact h
  | cons a as ih =>
    obtain ⟨s₁, ha, hs⟩ := Option.bind_eq_some_iff.mp hs
    exact ih (.step h ha) hs

/-- Every port open with task 1 as its receiver; thread 1 is of task 1, the others of task 2. -/
def openPorts (backlog : Int) : QState where
  port _ := ⟨true, .task 1, none, 0, backlog, [], false⟩
  set _ := ⟨true, 1⟩
  queue _ := ⟨[], [], none⟩
  thread _ := .idle
  task t := if t = 1 then 1 else 2
  msg _ := ⟨0, 0, none⟩
  nextMsg := 0
  entry _ := ⟨none, 0, none⟩
  nextEntry := 0
  entryFind _ _ := none
  accepted := []
  left := []
  finished := []
  freed := []
  willNotify := []
  notified := []
  cleared := []

theorem openPorts_quiet {b : Int} (hb : 0 < b) : (openPorts b).Quiet where
  queue _ := rfl
  thread _ := rfl
  port _ := ⟨rfl, rfl, hb, rfl, rfl⟩
  entry := ⟨rfl, fun _ _ => rfl, fun _ => rfl⟩
  msg := rfl
  history := ⟨rfl, rfl, rfl, rfl, rfl, rfl, rfl⟩

def plain : SendOptions := ⟨false, false, false, 0⟩

/-- Two messages for port 3, which moves into set 0 before the first of them is received. -/
theorem joinedSet_messages_conserved : ∃ s, QReach s ∧ s.accepted = [0, 1] ∧
    s.left = [(0, .handed 1)] ∧ (s.queue (.set 0)).messages = [1] ∧
    (∀ m ∈ s.accepted, ∃! x, s.IsAt m x) ∧
    (∀ q, ((s.queue q).messages ++ s.placingOn q).Nodup) ∧
    (s.left.map Prod.fst).Nodup ∧
    (∀ p, s.mine p (s.left.map Prod.fst) <+: s.mine p s.accepted) ∧
    ∀ q, (s.queue q).messages ≠ [] → (s.queue q).blocked = [] := by
  obtain ⟨s, hs, hdata⟩ : ∃ s, qRun (openPorts 5) [.sendCall 0 3 24 plain, .sendTry 0, .place 0,
      .sendCall 0 3 24 plain, .sendTry 0, .place 0, .setAddMember 1 3 0, .setAddDone 1,
      .receive 1 (.set 0) 64, .dequeue 1 false] = some s ∧
      s.accepted = [0, 1] ∧ s.left = [(0, .handed 1)] ∧ (s.queue (.set 0)).messages = [1] :=
    ⟨_, rfl, by decide⟩
  have hreach : QReach s := .run (.quiet (openPorts_quiet (by decide))) hs
  exact ⟨s, hreach, hdata.1, hdata.2.1, hdata.2.2, messages_conserved hreach⟩

end MachVM.Ipc
