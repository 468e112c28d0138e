import MachVM.IpcQueueReach

namespace MachVM.Ipc

/-- The message a thread is sending, with the options it gave. -/
def Thread.out : Thread → Option (MsgId × SendOptions)
  | .sending m o _ => some (m, o)
  | .sendBlocked m o => some (m, o)
  | _ => none

attribute [local simp] Thread.out

/-- The bookkeeping of `port_message_count`; on the ports of `good` nobody sends with SEND_ALWAYS or
SEND_NOTIFY. -/
structure CountInv (good : PortId → Prop) (s : QState) : Prop where
  count : ∀ p, (s.port p).count = (s.mine p s.accepted).length - (s.mine p s.finished).length
  finishedNodup : s.finished.Nodup
  finished : ∀ m ∈ s.finished, ∃ t, (m, Fate.handed t) ∈ s.left
  hand : ∀ t m, (m, Fate.handed t) ∈ s.left → m ∉ s.finished → s.role t = .hand m
  unfinished : ∀ t m, s.role t = .hand m → m ∉ s.finished
  destroyed : ∀ m, (m, Fate.destroyed) ∈ s.left → (s.port (s.msg m).port).inUse = false
  backlog : ∀ p, 0 < (s.port p).backlog
  senders : ∀ p, (s.port p).senders ≠ [] → 0 < (s.port p).count
  waits : ∀ t m o, s.thread t = .sendBlocked m o → t ∈ (s.port (s.msg m).port).senders
  polite : ∀ p, good p → ∀ t m o, (s.thread t).out = some (m, o) → (s.msg m).port = p →
    o.always = false ∧ o.notify = false
  room : ∀ p, good p → (s.port p).count ≤ (s.port p).backlog

/-- Stretches of code that neither accept nor hand over a message and leave the blocked senders
alone. -/
structure Uncounted (good : PortId → Prop) (s s' : QState) : Prop where
  port : ∀ p, (s'.port p).count = (s.port p).count ∧ (s'.port p).backlog = (s.port p).backlog ∧
    (s'.port p).senders = (s.port p).senders ∧ ((s'.port p).inUse = true → (s.port p).inUse = true)
  hand : ∀ t m, s'.role t = .hand m ↔ s.role t = .hand m
  out : ∀ t m o, (s'.thread t).out = some (m, o) → (s.thread t).out = some (m, o) ∨
    (good (s'.msg m).port → o.always = false ∧ o.notify = false)
  waits : ∀ t m o, s'.thread t = .sendBlocked m o → s.thread t = .sendBlocked m o
  msg : ∀ m, m < s.nextMsg → (s'.msg m).port = (s.msg m).port
  nextMsg : s.nextMsg ≤ s'.nextMsg
  accepted : s'.accepted = s.accepted
  finished : s'.finished = s.finished
  left : s'.left = s.left

variable {good : PortId → Prop} {s s' s'' : QState} {l : List MsgId} {p : PortId} {q : QueueId}
  {t : ThreadId} {m : MsgId}

theorem role_of_out {o : SendOptions} (h : (s.thread t).out = some (m, o)) : s.role t = .owns m := by
  unfold QState.role
  cases hx : s.thread t with
  | sending m' o' fresh =>
    rw [hx] at h
    cases Option.some.inj h
    rfl
  | sendBlocked m' o' =>
    rw [hx] at h
    cases Option.some.inj h
    rfl
  | idle => simp [hx, Thread.out] at h
  | placing m' q => simp [hx, Thread.out] at h
  | receiving q size => simp [hx, Thread.out] at h
  | rcvBlocked q size => simp [hx, Thread.out] at h
  | rcvHanded q m' => simp [hx, Thread.out] at h
  | rcvTold q => simp [hx, Thread.out] at h
  | holding m' => simp [hx, Thread.out] at h
  | adding p => simp [hx, Thread.out] at h

theorem QInv.left_lt (h : QInv s l) {f : Fate} (hm : (m, f) ∈ s.left) : m < s.nextMsg :=
  h.lt_nextMsg (q := .port 0) (.inl (List.mem_map.mpr ⟨_, hm, rfl⟩))

theorem CountInv.uncounted (h : CountInv good s) (hq : QInv s l) (hu : Uncounted good s s') :
    CountInv good s' := by
  have hlt : ∀ m ∈ s.finished, m < s.nextMsg := by
    intro m hm
    obtain ⟨t, ht⟩ := h.finished m hm
    exact hq.left_lt ht
  refine ⟨fun p => ?_, ?_, ?_, ?_, ?_, ?_, fun p => ?_, fun p => ?_, fun t m o hx => ?_,
    fun p hp t m o hx hm => ?_, fun p hp => ?_⟩
  · rw [(hu.port p).1, hu.accepted, hu.finished, mine_congr fun m hm => hu.msg m (hq.bound m hm),
      mine_congr fun m hm => hu.msg m (hlt m hm)]
    exact h.count p
  · rw [hu.finished]
    exact h.finishedNodup
  · rw [hu.finished, hu.left]
    exact h.finished
  · intro t m
    rw [hu.finished, hu.left, hu.hand]
    exact h.hand t m
  · intro t m
    rw [hu.finished, hu.hand]
    exact h.unfinished t m
  · intro m hm
    rw [hu.left] at hm
    rw [hu.msg m (hq.left_lt hm)]
    have hdead := h.destroyed m hm
    by_contra hne
    rw [(hu.port _).2.2.2 (by simpa using hne)] at hdead
    simp at hdead
  · rw [(hu.port p).2.1]
    exact h.backlog p
  · rw [(hu.port p).1, (hu.port p).2.2.1]
    exact h.senders p
  · have hold := hu.waits t m o hx
    have hlt := (hq.owns t m (by rw [QState.role, hold]; rfl)).1
    rw [hu.msg m hlt, (hu.port _).2.2.1]
    exact h.waits t m o hold
  · rcases hu.out t m o hx with hold | hnew
    · refine h.polite p hp t m o hold ?_
      rw [← hu.msg m (hq.owns t m (role_of_out hold)).1]
      exact hm
    · refine hnew ?_
      rw [hm]
      exact hp
  · rw [(hu.port p).1, (hu.port p).2.1]
    exact h.room p hp

theorem Uncounted.refl (s : QState) : Uncounted good s s :=
  ⟨fun _ => ⟨rfl, rfl, rfl, fun h => h⟩, fun _ _ => .rfl, fun _ _ _ h => .inl h, fun _ _ _ h => h,
    fun _ _ => rfl, Nat.le_refl _, rfl, rfl, rfl⟩

theorem Uncounted.trans (h : Uncounted good s s') (h' : Uncounted good s' s'')
    (hmsg : ∀ m, (s''.msg m).port = (s'.msg m).port) : Uncounted good s s'' := by
  refine ⟨fun p => ?_, fun t m => (h'.hand t m).trans (h.hand t m), fun t m o hx => ?_,
    fun t m o hx => h.waits t m o (h'.waits t m o hx), fun m hm => ?_, Nat.le_trans h.nextMsg h'.nextMsg,
    h'.accepted.trans h.accepted, h'.finished.trans h.finished, h'.left.trans h.left⟩
  · obtain ⟨c, b, n, u⟩ := h.port p
    obtain ⟨c', b', n', u'⟩ := h'.port p
    exact ⟨c'.trans c, b'.trans b, n'.trans n, fun hl => u (u' hl)⟩
  · rcases h'.out t m o hx with hold | hnew
    · rw [hmsg]
      exact h.out t m o hold
    · exact .inr hnew
  · rw [hmsg]
    exact h.msg m hm

theorem uncounted_aside (hport : s'.port = s.port) (hthread : s'.thread = s.thread)
    (hmsg : ∀ m, (s'.msg m).port = (s.msg m).port) (hnext : s'.nextMsg = s.nextMsg)
    (hacc : s'.accepted = s.accepted) (hfin : s'.finished = s.finished) (hleft : s'.left = s.left) :
    Uncounted good s s' := by
  refine ⟨fun p => by rw [hport]; exact ⟨rfl, rfl, rfl, fun h => h⟩, fun t m => ?_, fun t m o hx => .inl ?_,
    fun t m o hx => ?_, fun m _ => hmsg m, Nat.le_of_eq hnext.symm, hacc, hfin, hleft⟩
  · rw [QState.role, QState.role, hthread]
  · rw [← hthread]
    exact hx
  · rw [← hthread]
    exact hx

theorem uncounted_setThread {r : Thread} (hr : ∀ m, r.role = .hand m ↔ s.role t = .hand m)
    (ho : r.out = none ∨ r.out = (s.thread t).out) (hw : ∀ m o, r ≠ .sendBlocked m o) :
    Uncounted good s (s.setThread t r) := by
  have hthread : ∀ t', (s.setThread t r).thread t' = if t' = t then r else s.thread t' := fun t' =>
    Function.update_apply ..
  refine ⟨fun _ => ⟨rfl, rfl, rfl, fun h => h⟩, fun t' m => ?_, fun t' m o hx => .inl ?_, fun t' m o hx => ?_,
    fun _ _ => rfl, Nat.le_refl _, rfl, rfl, rfl⟩
  · rw [role_setThread]
    split
    next he =>
      rw [he]
      exact hr m
    next => rfl
  · rw [hthread] at hx
    split at hx
    next he =>
      rw [he]
      rcases ho with ho | ho
      · rw [ho] at hx
        simp at hx
      · rw [← ho]
        exact hx
    next => exact hx
  · rw [hthread] at hx
    split at hx
    next => exact absurd hx (hw m o)
    next => exact hx

theorem ne_sendBlocked {r : Thread} (h : r.out = none) (m : MsgId) (o : SendOptions) :
    r ≠ .sendBlocked m o := by
  rintro rfl
  simp [Thread.out] at h

theorem Uncounted.setThread {r : Thread} (h : Uncounted good s s')
    (hr : ∀ m, r.role = .hand m ↔ s.role t = .hand m) (ho : r.out = none) :
    Uncounted good s (s'.setThread t r) :=
  h.trans (uncounted_setThread (fun m => (hr m).trans (h.hand t m).symm) (.inl ho) (ne_sendBlocked ho))
    fun _ => rfl

theorem uncounted_setPort {x : QPort} (hx : x.count = (s.port p).count ∧ x.backlog = (s.port p).backlog ∧
    x.senders = (s.port p).senders ∧ (x.inUse = true → (s.port p).inUse = true)) :
    Uncounted good s (s.setPort p x) := by
  refine ⟨fun p' => ?_, fun _ _ => .rfl, fun _ _ _ h => .inl h, fun _ _ _ h => h, fun _ _ => rfl,
    Nat.le_refl _, rfl, rfl, rfl⟩
  rw [port_setPort]
  split
  next he =>
    rw [he]
    exact hx
  next => exact ⟨rfl, rfl, rfl, fun h => h⟩

theorem uncounted_tell {ts : List ThreadId} (h : ∀ t ∈ ts, s.role t = .blocked q) :
    Uncounted good s (s.wake ts (tellReceiver q)) := by
  have hthread : ∀ t', (s.wake ts (tellReceiver q)).thread t' =
      if t' ∈ ts then .rcvTold q else s.thread t' := fun _ => rfl
  refine ⟨fun _ => ⟨rfl, rfl, rfl, fun h => h⟩, fun t' m => ?_, fun t' m o hx => .inl ?_, fun t' m o hx => ?_,
    fun _ _ => rfl, Nat.le_refl _, rfl, rfl, rfl⟩
  · rw [role_wake]
    split
    next hin =>
      rw [h t' hin]
      simp [tellReceiver, Thread.role]
    next => rfl
  · rw [hthread] at hx
    split at hx
    next => simp [Thread.out] at hx
    next => exact hx
  · rw [hthread] at hx
    split at hx
    next => simp at hx
    next => exact hx

/-! ## The steps that count -/

theorem CountInv.handOver {r : Thread} (h : CountInv good s) (hm : m ∉ s.finished)
    (hold : ∀ m', s.role t ≠ .hand m') (hr : r.role = .hand m) :
    CountInv good { s.setThread t r with left := s.left ++ [(m, .handed t)] } := by
  have hrole : ∀ t', QState.role { s.setThread t r with left := s.left ++ [(m, .handed t)] } t' =
      if t' = t then .hand m else s.role t' := by
    intro t'
    rw [← hr]
    exact role_setThread _ _ _ _
  have hthread : ∀ t', (s.setThread t r).thread t' = if t' = t then r else s.thread t' := fun t' =>
    Function.update_apply ..
  have hout : r.out = none := by
    cases r <;> simp [Thread.role] at hr <;> rfl
  refine ⟨h.count, h.finishedNodup, fun m' hm' => ?_, fun t' m' hin hun => ?_, fun t' m' hx => ?_,
    fun m' hin => ?_, h.backlog, h.senders, fun t' m' o hx => ?_, fun p hp t' m' o hx => ?_, h.room⟩
  · obtain ⟨t', ht'⟩ := h.finished m' hm'
    exact ⟨t', List.mem_append_left _ ht'⟩
  · rw [hrole]
    rcases List.mem_append.mp hin with hin | hin
    · have := h.hand t' m' hin hun
      have hne : t' ≠ t := by
        rintro rfl
        exact hold m' this
      rw [if_neg hne]
      exact this
    · cases List.mem_singleton.mp hin
      exact if_pos rfl
  · rw [hrole] at hx
    split at hx
    next =>
      cases hx
      exact hm
    next => exact h.unfinished t' m' hx
  · rcases List.mem_append.mp hin with hin | hin
    · exact h.destroyed m' hin
    · simp at hin
  · rw [show QState.thread { s.setThread t r with left := s.left ++ [(m, Fate.handed t)] } t' = _ from
      hthread t'] at hx
    split at hx
    next =>
      rw [hx] at hout
      simp [Thread.out] at hout
    next => exact h.waits t' m' o hx
  · rw [show QState.thread { s.setThread t r with left := s.left ++ [(m, Fate.handed t)] } t' = _ from
      hthread t'] at hx
    split at hx
    next =>
      rw [hout] at hx
      simp at hx
    next => exact h.polite p hp t' m' o hx

theorem CountInv.not_finished (h : CountInv good s) (hm : m ∉ s.left.map Prod.fst) : m ∉ s.finished := by
  intro hf
  obtain ⟨t, ht⟩ := h.finished m hf
  exact hm (List.mem_map.mpr ⟨_, ht, rfl⟩)

theorem QInv.limbo_fresh (h : QInv s (m :: l)) : m ∉ s.left.map Prod.fst := by
  intro hm
  have hnodup : (s.mine (s.msg m).port s.accepted).Nodup := h.nodup.filter _
  rw [h.order, List.append_assoc] at hnodup
  obtain ⟨_, _, hdisj⟩ := List.nodup_append'.mp hnodup
  exact hdisj (mem_mine.mpr ⟨hm, rfl⟩) (List.mem_append_right _ (mem_mine.mpr ⟨List.mem_cons_self, rfl⟩))

theorem CountInv.deliver (h : CountInv good s) (hq : QInv s (m :: l)) :
    CountInv good (Ipc.deliver s q m) := by
  rcases deliver_cases s q m with he | ⟨small, t, rest, hsplit, he⟩
  · rw [he]
    exact h.uncounted hq ((uncounted_tell fun t ht => (hq.blocked q t).mp ht).trans
      (uncounted_aside rfl rfl (fun _ => rfl) rfl rfl rfl rfl) fun _ => rfl)
  · have hb : ∀ t' ∈ (s.queue q).blocked, s.role t' = .blocked q := fun t' ht => (hq.blocked q t').mp ht
    rw [hsplit] at hb
    have hu : Uncounted good s ((s.wake small (tellReceiver q)).setQueue q { s.queue q with blocked := rest }) :=
      (uncounted_tell fun t' ht => hb t' (List.mem_append_left _ ht)).trans
        (uncounted_aside rfl rfl (fun _ => rfl) rfl rfl rfl rfl) fun _ => rfl
    rw [he]
    refine (h.uncounted hq hu).handOver (h.not_finished hq.limbo_fresh) (fun m' hr => ?_) rfl
    rw [hu.hand, hb t (List.mem_append_right _ List.mem_cons_self)] at hr
    simp at hr

theorem CountInv.dequeue {poll : Bool} (h : CountInv good s) (hq : QInv s [])
    (hs : Ipc.dequeue s t poll = some s') : CountInv good s' := by
  unfold Ipc.dequeue at hs
  split at hs
  next q size he =>
    have hrole : s.role t = .receiving q := by rw [QState.role, he]; rfl
    have hset : ∀ x : MsgQueue, Uncounted good s (s.setQueue q x) := fun x =>
      uncounted_aside rfl rfl (fun _ => rfl) rfl rfl rfl rfl
    have hplain : ∀ (x : MsgQueue) (r : Thread), (∀ m, r.role ≠ .hand m) → r.out = none →
        CountInv good ((s.setQueue q x).setThread t r) := by
      intro x r hr ho
      refine h.uncounted hq ((hset x).setThread (fun m => ?_) ho)
      rw [hrole]
      simp [hr]
    dsimp only at hs
    split at hs
    next m rest hms =>
      split at hs
      next =>
        cases Option.some.inj hs
        exact hplain _ .idle (by simp [Thread.role]) rfl
      next =>
        cases Option.some.inj hs
        have hm : s.IsAt m (.onQueue q) := by
          refine List.mem_append_left _ ?_
          rw [hms]
          exact List.mem_cons_self
        refine (h.uncounted hq (hset _)).handOver (h.not_finished fun hl => hq.left_not_queued hl hm)
          (fun m' hr => ?_) rfl
        rw [show (s.setQueue q _).role t = .receiving q from hrole] at hr
        simp at hr
    next =>
      split at hs
      next =>
        cases Option.some.inj hs
        exact hplain _ .idle (by simp [Thread.role]) rfl
      next =>
        cases Option.some.inj hs
        exact hplain _ (.rcvBlocked q size) (by simp [Thread.role]) rfl
  next => simp at hs

theorem mine_length (s : QState) (p : PortId) (k : List MsgId) (m : MsgId) :
    (s.mine p (k ++ [m])).length = (s.mine p k).length + if (s.msg m).port = p then 1 else 0 := by
  rw [mine_append, List.length_append]
  split
  next hm => rw [mine_eq_self (l := [m]) (by simpa using hm), List.length_singleton]
  next hm => rw [mine_singleton_ne hm, List.length_nil]

theorem CountInv.accept (h : CountInv good s) (hp : (s.msg m).port = p)
    (hroom : good p → (s.port p).count < (s.port p).backlog) :
    CountInv good ({ s with accepted := s.accepted ++ [m] }.setPort p
      { s.port p with count := (s.port p).count + 1 }) := by
  set s₁ := { s with accepted := s.accepted ++ [m] }.setPort p
    { s.port p with count := (s.port p).count + 1 } with hs₁
  have hport : ∀ p', (s₁.port p').count = (s.port p').count + (if (s.msg m).port = p' then 1 else 0) ∧
      (s₁.port p').backlog = (s.port p').backlog ∧ (s₁.port p').senders = (s.port p').senders ∧
      (s₁.port p').inUse = (s.port p').inUse := by
    intro p'
    rw [hs₁, port_setPort, hp]
    by_cases he : p' = p
    · rw [if_pos he, if_pos he.symm, he]
      exact ⟨rfl, rfl, rfl, rfl⟩
    · rw [if_neg he, if_neg (Ne.symm he), Int.add_zero]
      exact ⟨rfl, rfl, rfl, rfl⟩
  refine ⟨fun p' => ?_, h.finishedNodup, h.finished, h.hand, h.unfinished, fun m' hm => ?_, fun p' => ?_,
    fun p' hne => ?_, fun t' m' o hx => ?_, h.polite, fun p' hg => ?_⟩
  · show _ = ((s.mine p' (s.accepted ++ [m])).length : Int) - (s.mine p' s.finished).length
    rw [(hport p').1, h.count p', mine_length]
    push_cast
    split <;> omega
  · show (s₁.port (s.msg m').port).inUse = false
    rw [(hport _).2.2.2]
    exact h.destroyed m' hm
  · rw [(hport p').2.1]
    exact h.backlog p'
  · rw [(hport p').2.2.1] at hne
    have := h.senders p' hne
    rw [(hport p').1]
    split <;> omega
  · show t' ∈ (s₁.port (s.msg m').port).senders
    rw [(hport _).2.2.1]
    exact h.waits t' m' o hx
  · rw [(hport p').1, (hport p').2.1]
    split
    next he =>
      rw [hp] at he
      have := hroom (he ▸ hg)
      rw [← he]
      omega
    next =>
      rw [Int.add_zero]
      exact h.room p' hg

theorem CountInv.giveUp (h : CountInv good s) (hq : QInv s l) (hown : s.role t = .owns m)
    (hs : Ipc.giveUp s t = some s') : CountInv good s' := by
  cases Option.some.inj hs
  exact h.uncounted hq (uncounted_setThread (by simp [Thread.role, hown]) (.inl rfl) (by simp))

theorem CountInv.sendAccept (h : CountInv good s) (hq : QInv s []) (hown : s.role t = .owns m)
    (hp : (s.msg m).port = p) (hroom : good p → (s.port p).count < (s.port p).backlog)
    (hs : Ipc.sendAccept s t m p = some s') : CountInv good s' := by
  unfold Ipc.sendAccept at hs
  split at hs
  next => exact h.giveUp hq hown hs
  next =>
    dsimp only at hs
    split at hs
    next => simp at hs
    next =>
      cases Option.some.inj hs
      have hu : Uncounted good s ((s.setQueue (s.queueOf p) { s.queue (s.queueOf p) with
          lock := some t }).setThread t (.placing m (s.queueOf p))) := by
        refine Uncounted.setThread (uncounted_aside rfl rfl (fun _ => rfl) rfl rfl rfl rfl) (fun m' => ?_) rfl
        rw [hown]
        simp [Thread.role]
      exact (h.uncounted hq hu).accept hp hroom

theorem CountInv.sendNotify (h : CountInv good s) (hq : QInv s []) (hown : s.role t = .owns m)
    (hp : (s.msg m).port = p) (hbad : ¬ good p) (hs : Ipc.sendNotify s t m p = some s') :
    CountInv good s' := by
  unfold Ipc.sendNotify at hs
  split at hs
  next => exact h.giveUp hq hown hs
  next e _ =>
    split at hs
    next => exact h.giveUp hq hown hs
    next =>
      have hx : QInv ({ s with willNotify := s.willNotify ++ [m] }.setEntry e
          { s.entry e with kmsg := some m }) [] := hq.aside rfl rfl rfl rfl rfl rfl rfl
      have hqm := QInv.setMsg (m := m) hx (x := { s.msg m with senderEntry := some e }) rfl
      have hport : ∀ m', (((({ s with willNotify := s.willNotify ++ [m] }.setEntry e
          { s.entry e with kmsg := some m }).setMsg m { s.msg m with senderEntry := some e })).msg m').port =
          (s.msg m').port := by
        intro m'
        rw [msg_setMsg]
        split
        next he => rw [he]
        next => rfl
      have haside : Uncounted good s (({ s with willNotify := s.willNotify ++ [m] }.setEntry e
          { s.entry e with kmsg := some m }).setMsg m { s.msg m with senderEntry := some e }) :=
        uncounted_aside rfl rfl hport rfl rfl rfl rfl
      have hc := h.uncounted hq haside
      exact hc.sendAccept hqm hown ((hport m).trans hp) (fun hg => absurd hg hbad) hs

theorem CountInv.sendBlock {o o' : SendOptions} {fresh : Bool} (h : CountInv good s)
    (ht : s.thread t = .sending m o' fresh) (ho : o.always = o'.always ∧ o.notify = o'.notify)
    (hfull : (s.port (s.msg m).port).backlog ≤ (s.port (s.msg m).port).count)
    (hs : Ipc.sendBlock s t m (s.msg m).port o = some s') : CountInv good s' := by
  cases Option.some.inj hs
  set s₁ := (s.setPort (s.msg m).port { s.port (s.msg m).port with
    senders := (s.port (s.msg m).port).senders ++ [t] }).setThread t (.sendBlocked m o) with hs₁
  have hport : ∀ p', s₁.port p' = if p' = (s.msg m).port then { s.port (s.msg m).port with
      senders := (s.port (s.msg m).port).senders ++ [t] } else s.port p' := fun p' => port_setPort _ _ _ _
  have hrole : ∀ t', s₁.role t' = s.role t' := by
    intro t'
    have hr : s₁.role t' = if t' = t then .owns m else s.role t' := role_setThread _ _ _ _
    rw [hr]
    split
    next he =>
      rw [he, QState.role, ht]
      rfl
    next => rfl
  have hthread : ∀ t', s₁.thread t' = if t' = t then .sendBlocked m o else s.thread t' := fun t' =>
    Function.update_apply ..
  have hsame : ∀ p', (s₁.port p').count = (s.port p').count ∧ (s₁.port p').backlog = (s.port p').backlog ∧
      (s₁.port p').inUse = (s.port p').inUse ∧ ∀ t' ∈ (s.port p').senders, t' ∈ (s₁.port p').senders := by
    intro p'
    rw [hport]
    split
    next he =>
      rw [he]
      exact ⟨rfl, rfl, rfl, fun _ ht' => List.mem_append_left _ ht'⟩
    next => exact ⟨rfl, rfl, rfl, fun _ ht' => ht'⟩
  refine ⟨fun p' => ?_, h.finishedNodup, h.finished, fun t' m' => ?_, fun t' m' => ?_, fun m' hm => ?_,
    fun p' => ?_, fun p' hne => ?_, fun t' m' o' hx => ?_, fun p' hg t' m' o' hx hm => ?_, fun p' hg => ?_⟩
  · rw [(hsame p').1]
    exact h.count p'
  · rw [hrole]
    exact h.hand t' m'
  · rw [hrole]
    exact h.unfinished t' m'
  · show (s₁.port (s.msg m').port).inUse = false
    rw [(hsame _).2.2.1]
    exact h.destroyed m' hm
  · rw [(hsame p').2.1]
    exact h.backlog p'
  · rw [(hsame p').1]
    rw [hport] at hne
    split at hne
    next he =>
      rw [he]
      have := h.backlog (s.msg m).port
      omega
    next => exact h.senders p' hne
  · rw [hthread] at hx
    show t' ∈ (s₁.port (s.msg m').port).senders
    split at hx
    next he =>
      cases hx
      rw [hport, if_pos rfl, he]
      exact List.mem_append_right _ (List.mem_singleton_self t)
    next => exact (hsame _).2.2.2 t' (h.waits t' m' o' hx)
  · rw [hthread] at hx
    split at hx
    next he =>
      cases hx
      rw [ho.1, ho.2]
      exact h.polite p' hg t m _ (by rw [ht]; rfl) hm
    next => exact h.polite p' hg t' m' o' hx hm
  · rw [(hsame p').1, (hsame p').2.1]
    exact h.room p' hg

theorem CountInv.sendTry (h : CountInv good s) (hq : QInv s []) (hs : Ipc.sendTry s t = some s') :
    CountInv good s' := by
  obtain ⟨m, o, fresh, he, _, hs⟩ := sendTry_cases hs
  have hown : s.role t = .owns m := by rw [QState.role, he]; rfl
  have hpolite : good (s.msg m).port → o.always = false ∧ o.notify = false := fun hg =>
    h.polite _ hg t m o (by rw [he]; rfl) rfl
  rcases hs with hs | ⟨hroom, hs⟩ | ⟨hfull, _, ⟨hn, hs⟩ | ⟨tout, hs⟩⟩
  · exact h.giveUp hq hown hs
  · refine h.sendAccept hq hown rfl (fun hg => ?_) hs
    rcases hroom with hroom | halways
    · exact hroom
    · rw [(hpolite hg).1] at halways
      simp at halways
  · refine h.sendNotify hq hown rfl (fun hg => ?_) hs
    rw [(hpolite hg).2] at hn
    simp at hn
  · exact h.sendBlock (o := { o with tout := tout }) he ⟨rfl, rfl⟩ hfull hs

end MachVM.Ipc
