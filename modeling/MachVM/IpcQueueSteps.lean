import MachVM.IpcQueueInvariant

namespace MachVM.Ipc

variable {s s' : QState} {l : List MsgId} {p : PortId} {q : QueueId} {t : ThreadId} {m : MsgId}

theorem role_setThread (s : QState) (t t' : ThreadId) (x : Thread) :
    (s.setThread t x).role t' = if t' = t then x.role else s.role t' := by
  unfold QState.role QState.setThread
  dsimp only
  rw [Function.update_apply]
  split <;> rfl

theorem queue_setQueue (s : QState) (q q' : QueueId) (x : MsgQueue) :
    (s.setQueue q x).queue q' = if q' = q then x else s.queue q' := by
  unfold QState.setQueue
  dsimp only
  rw [Function.update_apply]

theorem role_wake (s : QState) (ts : List ThreadId) (f : Thread → Thread) (t : ThreadId) :
    (s.wake ts f).role t = if t ∈ ts then (f (s.thread t)).role else s.role t := by
  unfold QState.role QState.wake
  dsimp only
  split <;> rfl

theorem queueTurn_set {r : Thread} {x : MsgQueue} {k : List (MsgId × Fate)} (ho : (s.role t).On q)
    (hn : r.role.On q) : QueueTurn s { (s.setQueue q x).setThread t r with left := k } q := by
  refine ⟨fun q' hq => ?_, fun t' => ?_, fun _ => ⟨rfl, rfl⟩, fun _ => rfl, rfl, rfl⟩
  · show (s.setQueue q x).queue q' = s.queue q'
    rw [queue_setQueue, if_neg hq]
  · have hr : QState.role { (s.setQueue q x).setThread t r with left := k } t' =
        if t' = t then r.role else s.role t' := role_setThread _ _ _ _
    rw [hr]
    split
    next he =>
      rw [he]
      exact .inr ⟨ho, hn⟩
    next => exact .inl rfl

theorem queue_turn_self {r : Thread} {x : MsgQueue} {k : List (MsgId × Fate)} :
    QState.queue { (s.setQueue q x).setThread t r with left := k } q = x := by
  show (s.setQueue q x).queue q = x
  rw [queue_setQueue, if_pos rfl]

theorem role_turn {r : Thread} {x : MsgQueue} {k : List (MsgId × Fate)} (t' : ThreadId) :
    QState.role { (s.setQueue q x).setThread t r with left := k } t' =
      if t' = t then r.role else s.role t' := role_setThread _ _ _ _

theorem placingOn_none (h : (s.queue q).lock = none) : s.placingOn q = [] := by
  unfold QState.placingOn
  rw [h]

theorem placingOn_some (h : (s.queue q).lock = some t) (hr : ∀ m q', s.role t ≠ .placing m q') :
    s.placingOn q = [] := by
  unfold QState.placingOn
  rw [h]
  dsimp only
  split
  next m q' he => exact absurd he (hr m q')
  next => rfl

theorem QInv.lock_none (h : QInv s l) (hl : (s.queue q).lock = none) (t : ThreadId) :
    (∀ m, s.role t ≠ .placing m q) ∧ s.role t ≠ .receiving q := by
  constructor
  · intro m hr
    have := (h.lock q t).mpr (.inl ⟨m, hr⟩)
    rw [hl] at this
    simp at this
  · intro hr
    have := (h.lock q t).mpr (.inr hr)
    rw [hl] at this
    simp at this

/-- Nobody but `t` has the queue locked. -/
def OnlyLock (s : QState) (q : QueueId) (t : ThreadId) : Prop :=
  (s.queue q).lock = none ∨ (s.queue q).lock = some t ∧ s.role t = .receiving q

theorem OnlyLock.placingOn (h : OnlyLock s q t) : s.placingOn q = [] := by
  rcases h with hl | ⟨hl, hr⟩
  · exact placingOn_none hl
  · exact placingOn_some hl fun m q' he => by simp [hr] at he

theorem OnlyLock.others (hl : OnlyLock s q t) (h : QInv s l) {t' : ThreadId} (hne : t' ≠ t) :
    (∀ m, s.role t' ≠ .placing m q) ∧ s.role t' ≠ .receiving q := by
  have hno : (s.queue q).lock ≠ some t' := by
    rcases hl with hl | ⟨hl, _⟩
    · rw [hl]
      simp
    · rw [hl]
      intro he
      exact hne (Option.some.inj he).symm
  exact ⟨fun m hr => hno ((h.lock q t').mpr (.inl ⟨m, hr⟩)), fun hr => hno ((h.lock q t').mpr (.inr hr))⟩

theorem QInv.set (h : QInv s l) {r : Thread} {x : MsgQueue} {k : List (MsgId × Fate)}
    (hbefore : OnlyLock s q t) (ho : (s.role t).On q)
    (hafter : (x.lock = none ∧ r.role ≠ .receiving q ∧ ∀ m, r.role ≠ .placing m q) ∨
      (x.lock = some t ∧ r.role = .receiving q))
    (hn : r.role.On q)
    (horder : ∀ p, s.queueOf p = q → s.mine p (k.map Prod.fst) ++ s.mine p x.messages =
      s.mine p (s.left.map Prod.fst) ++ s.mine p (s.queue q).messages)
    (hother : ∀ p, s.queueOf p ≠ q → s.mine p (k.map Prod.fst) = s.mine p (s.left.map Prod.fst))
    (hblocked : ∀ t', t' ∈ x.blocked ↔ if t' = t then r.role = .blocked q else t' ∈ (s.queue q).blocked)
    (hnodup : x.blocked.Nodup) (hmessages : ∀ m ∈ x.messages, m ∈ (s.queue q).messages)
    (hstill : x.messages ≠ [] → x.blocked = [])
    (hwait : ∀ p, q = .port p → r.role = .blocked q ∨ r.role = .receiving q →
      (s.port p).set = none ∨ (s.port p).locked = true)
    (hhand : ∀ m, r.role = .hand m → s.role t = .hand m ∨ (m, Fate.handed t) ∈ k)
    (hleft : ∀ y ∈ s.left, y ∈ k) :
    QInv { (s.setQueue q x).setThread t r with left := k } l := by
  have hq := @queue_turn_self s q t r x k
  have hplacing : QState.placingOn { (s.setQueue q x).setThread t r with left := k } q = [] := by
    rcases hafter with ⟨hl, _⟩ | ⟨hl, hr⟩
    · exact placingOn_none (by rw [hq]; exact hl)
    · refine placingOn_some (by rw [hq]; exact hl) fun m q' he => ?_
      rw [role_turn, if_pos rfl, hr] at he
      simp at he
  refine h.turn (queueTurn_set ho hn) ⟨fun p hp => ⟨hother p hp, rfl⟩, fun p hp => ?_, fun t' => ?_,
    by rw [hq]; exact hnodup, fun t' => ?_, fun t' m hr => ?_, fun m hm => ?_, by rw [hq]; exact hstill,
    fun p t' hp hr => ?_, fun t' m hr => ?_, hleft⟩
  · rw [hq, hplacing, hbefore.placingOn, List.append_nil, List.append_nil, horder p hp]
  · rw [hq, hblocked, role_turn]
    split
    next => rfl
    next => exact h.blocked q t'
  · rw [hq, role_turn]
    by_cases he : t' = t
    · rw [if_pos he, he]
      rcases hafter with ⟨hl, hr, hp⟩ | ⟨hl, hr⟩
      · rw [hl]
        simp [hr, hp]
      · rw [hl]
        simp [hr]
    · rw [if_neg he]
      obtain ⟨hp, hr⟩ := hbefore.others h he
      rcases hafter with ⟨hl, _⟩ | ⟨hl, _⟩
      · rw [hl]
        simp [hp, hr]
      · rw [hl]
        simp [hp, hr, Ne.symm he]
  · rw [role_turn] at hr
    by_cases he : t' = t
    · rw [if_pos he] at hr
      rcases hafter with ⟨_, _, hp⟩ | ⟨_, hp⟩
      · exact absurd hr (hp m)
      · rw [hp] at hr
        simp at hr
    · rw [if_neg he] at hr
      exact h.placing t' m q hr
  · rw [hq] at hm
    exact h.messages q m (hmessages m hm)
  · rw [role_turn] at hr
    by_cases he : t' = t
    · rw [if_pos he] at hr
      exact hwait p hp hr
    · rw [if_neg he] at hr
      rw [hp] at hr
      exact h.portWait p t' hr
  · rw [role_turn] at hr
    by_cases he : t' = t
    · rw [if_pos he] at hr
      rw [he]
      exact hhand m hr
    · rw [if_neg he] at hr
      exact .inl hr

theorem QInv.receive {size : Nat} (h : QInv s l) (hs : Ipc.receive s t q size = some s') :
    QInv s' l := by
  unfold Ipc.receive at hs
  split at hs
  next hg =>
    cases Option.some.inj hs
    obtain ⟨hidle, hmay, hlock⟩ := hg
    have hfree : s.role t = .free := by rw [QState.role, hidle]; rfl
    refine h.set (.inl hlock) (by rw [hfree]; trivial) (.inr ⟨rfl, rfl⟩) rfl (fun _ _ => rfl)
      (fun _ _ => rfl) (fun t' => ?_) (h.blockedNodup q) (fun _ hm => hm) (h.still q) (fun p hp _ => ?_)
      (fun m hr => by simp [Thread.role] at hr) (fun _ hy => hy)
    · split
      next he =>
        rw [h.blocked, he, hfree]
        simp [Thread.role]
      next => rfl
    · rw [hp] at hmay
      simp only [mayReceive, Bool.and_eq_true, decide_eq_true_eq] at hmay
      exact .inl hmay.2
  next => simp at hs

theorem QInv.dequeue {poll : Bool} (h : QInv s l) (hs : Ipc.dequeue s t poll = some s') :
    QInv s' l := by
  unfold Ipc.dequeue at hs
  split at hs
  next q size he =>
    have hrole : s.role t = .receiving q := by rw [QState.role, he]; rfl
    have hlock : OnlyLock s q t := .inr ⟨(h.lock q t).mpr (.inr hrole), hrole⟩
    have hon : (s.role t).On q := by rw [hrole]; exact rfl
    have hnot : t ∉ (s.queue q).blocked := by
      rw [h.blocked, hrole]
      simp
    have hsame : ∀ r : Thread, r.role ≠ .blocked q → ∀ t', t' ∈ (s.queue q).blocked ↔
        if t' = t then r.role = .blocked q else t' ∈ (s.queue q).blocked := by
      intro r hr t'
      split
      next heq =>
        rw [heq]
        simp [hnot, hr]
      next => rfl
    dsimp only at hs
    split at hs
    next m rest hms =>
      have hstill := h.still q (by rw [hms]; simp)
      split at hs
      next =>
        cases Option.some.inj hs
        exact h.set hlock hon (.inl ⟨rfl, by simp [Thread.role], by simp [Thread.role]⟩) trivial
          (fun _ _ => rfl) (fun _ _ => rfl) (hsame .idle (by simp [Thread.role])) (h.blockedNodup q)
          (fun _ hm => hm) (h.still q) (fun p _ hr => by simp [Thread.role] at hr)
          (fun m hr => by simp [Thread.role] at hr) (fun _ hy => hy)
      next =>
        cases Option.some.inj hs
        have hm : q = s.queueOf (s.msg m).port := h.messages q m (by rw [hms]; exact List.mem_cons_self)
        refine h.set hlock hon (.inl ⟨rfl, by simp [Thread.role], by simp [Thread.role]⟩) trivial
          (fun p _ => ?_) (fun p hp => ?_) (hsame (.holding m) (by simp [Thread.role]))
          (h.blockedNodup q) (fun _ hm => ?_) (fun _ => hstill)
          (fun p _ hr => by simp [Thread.role] at hr) (fun m' hr => .inr ?_)
          (fun y hy => List.mem_append_left _ hy)
        · rw [hms, List.map_append, mine_append, List.append_assoc]
          congr 1
          rw [← mine_append]
          rfl
        · rw [List.map_append, mine_append]
          have hno : s.mine p [m] = [] := by
            refine List.filter_eq_nil_iff.mpr fun y hy => ?_
            cases List.mem_singleton.mp hy
            intro hpm
            exact hp (by rw [hm, of_decide_eq_true hpm])
          show _ ++ s.mine p [m] = _
          rw [hno, List.append_nil]
        · rw [hms]
          exact List.mem_cons_of_mem m hm
        · cases hr
          exact List.mem_append_right _ (List.mem_singleton_self _)
    next hms =>
      split at hs
      next =>
        cases Option.some.inj hs
        exact h.set hlock hon (.inl ⟨rfl, by simp [Thread.role], by simp [Thread.role]⟩) trivial
          (fun _ _ => rfl) (fun _ _ => rfl) (hsame .idle (by simp [Thread.role])) (h.blockedNodup q)
          (fun _ hm => hm) (h.still q) (fun p _ hr => by simp [Thread.role] at hr)
          (fun m hr => by simp [Thread.role] at hr) (fun _ hy => hy)
      next =>
        cases Option.some.inj hs
        refine h.set hlock hon (.inl ⟨rfl, by simp [Thread.role], by simp [Thread.role]⟩) rfl
          (fun _ _ => rfl) (fun _ _ => rfl) (fun t' => ?_) ?_ (fun _ hm => hm)
          (fun hne => absurd hms hne) (fun p hp _ => ?_)
          (fun m hr => by simp [Thread.role] at hr) (fun _ hy => hy)
        · rw [List.mem_append, List.mem_singleton]
          split
          next heq => simp [heq, Thread.role]
          next heq => simp [heq]
        · refine List.Nodup.append (h.blockedNodup q) (List.nodup_singleton t) ?_
          intro y hy hy'
          rw [List.mem_singleton.mp hy'] at hy
          exact hnot hy
        · exact h.portWait p t (.inr (by rw [hrole, hp]))
  next => simp at hs

theorem drops_setThread {r : Thread} (h : Drops (s.role t) r.role) (t' : ThreadId) :
    Drops (s.role t') ((s.setThread t r).role t') := by
  rw [role_setThread]
  split
  next he =>
    rw [he]
    exact h
  next => exact .inl rfl

theorem QInv.setThread (h : QInv s l) {r : Thread} (hr : Drops (s.role t) r.role) :
    QInv (s.setThread t r) l :=
  h.congr (fun _ => rfl) (fun _ hl => .inl hl) rfl (drops_setThread hr) (fun _ => rfl) rfl rfl rfl

theorem QInv.rcvWake {r : WaitResult} (h : QInv s l) (hs : Ipc.rcvWake s t r = some s') :
    QInv s' l := by
  unfold Ipc.rcvWake at hs
  split at hs
  next q m he =>
    split at hs
    next => simp at hs
    next =>
      cases Option.some.inj hs
      exact h.setThread (.inl (by rw [QState.role, he]; rfl))
  next q he =>
    split at hs
    next => simp at hs
    next =>
      cases Option.some.inj hs
      exact h.setThread (.inl (by rw [QState.role, he]; rfl))
  next q size he =>
    have hrole : s.role t = .blocked q := by rw [QState.role, he]; rfl
    have hon : (s.role t).On q := by rw [hrole]; exact rfl
    have herase : ∀ r : Thread, r.role ≠ .blocked q → ∀ t', t' ∈ (s.queue q).blocked.erase t ↔
        if t' = t then r.role = .blocked q else t' ∈ (s.queue q).blocked := by
      intro r hr t'
      rw [(h.blockedNodup q).mem_erase_iff]
      split
      next heq => simp [heq, hr]
      next heq => simp [heq]
    have hnodup := (h.blockedNodup q).erase t
    have hstill : (s.queue q).messages ≠ [] → (s.queue q).blocked.erase t = [] := by
      intro hne
      rw [h.still q hne]
      rfl
    have hidle : ∀ s'', some ((s.setQueue q { s.queue q with blocked := (s.queue q).blocked.erase t }).setThread
        t .idle) = some s'' → (s.queue q).lock = none → QInv s'' l := by
      intro s'' hs'' hl
      cases Option.some.inj hs''
      exact h.set (.inl hl) hon (.inl ⟨hl, by simp [Thread.role], by simp [Thread.role]⟩) trivial
        (fun _ _ => rfl) (fun _ _ => rfl) (herase .idle (by simp [Thread.role])) hnodup (fun _ hm => hm)
        hstill (fun p _ hr => by simp [Thread.role] at hr) (fun m hr => by simp [Thread.role] at hr)
        (fun _ hy => hy)
    split at hs
    next => simp at hs
    next hl =>
      have hlock : (s.queue q).lock = none := not_not.mp hl
      cases r with
      | interrupted => exact hidle s' hs hlock
      | timedOut => exact hidle s' hs hlock
      | other =>
        cases Option.some.inj hs
        refine h.set (.inl hlock) hon (.inr ⟨rfl, rfl⟩) rfl (fun _ _ => rfl) (fun _ _ => rfl)
          (herase (.receiving q size) (by simp [Thread.role])) hnodup (fun _ hm => hm) hstill
          (fun p hp _ => ?_) (fun m hr => by simp [Thread.role] at hr) (fun _ hy => hy)
        exact h.portWait p t (.inl (by rw [hrole, hp]))
  next => simp at hs

/-! ## Stretches that wake receivers -/

theorem QInv.msgQueueChanged (h : QInv s l) (q : QueueId) : QInv (Ipc.msgQueueChanged s q) l := by
  have hq : (Ipc.msgQueueChanged s q).queue q = { s.queue q with blocked := [] } := by
    show ((s.wake _ _).setQueue q _).queue q = _
    rw [queue_setQueue, if_pos rfl]
  have hrole : ∀ t, (Ipc.msgQueueChanged s q).role t =
      if t ∈ (s.queue q).blocked then .free else s.role t := fun t => role_wake _ _ _ _
  have hkeep : ∀ t r, r ≠ .free → r ≠ .blocked q →
      ((Ipc.msgQueueChanged s q).role t = r ↔ s.role t = r) := by
    intro t r hf hb
    rw [hrole]
    split
    next hin =>
      rw [h.blocked] at hin
      rw [hin]
      exact ⟨fun he => absurd he.symm hf, fun he => absurd he.symm hb⟩
    next => rfl
  have hnone : ∀ t, (Ipc.msgQueueChanged s q).role t ≠ .blocked q := by
    intro t
    rw [hrole]
    split
    next => simp
    next hin =>
      rw [h.blocked] at hin
      exact hin
  have hplacing : (Ipc.msgQueueChanged s q).placingOn q = s.placingOn q := by
    refine placingOn_congr (by rw [hq]) fun t hl => ?_
    rcases (h.lock q t).mp hl with ⟨m, hr⟩ | hr
    · rw [hr]
      exact (hkeep t _ (by simp) (by simp)).mpr hr
    · rw [hr]
      exact (hkeep t _ (by simp) (by simp)).mpr hr
  refine h.turn (q := q) ⟨fun q' hne => ?_, fun t => ?_, fun _ => ⟨rfl, rfl⟩, fun _ => rfl, rfl, rfl⟩
    ⟨fun _ _ => ⟨rfl, rfl⟩, fun p _ => ?_, fun t => ?_, ?_, fun t => ?_, fun t m hr => ?_, fun m hm => ?_, ?_,
      fun p t hp hr => ?_, fun t m hr => ?_, fun _ hy => hy⟩
  · show ((s.wake _ _).setQueue q _).queue q' = _
    rw [queue_setQueue, if_neg hne]
    rfl
  · rw [hrole]
    split
    next hin =>
      rw [h.blocked] at hin
      rw [hin]
      exact .inr ⟨rfl, trivial⟩
    next => exact .inl rfl
  · rw [hq, hplacing]
    rfl
  · rw [hq]
    simp [hnone]
  · rw [hq]
    exact List.nodup_nil
  · have hpl : ∀ m, (Ipc.msgQueueChanged s q).role t = .placing m q ↔ s.role t = .placing m q :=
      fun m => hkeep t _ (by simp) (by simp)
    rw [hq, hkeep t (.receiving q) (by simp) (by simp)]
    simp only [hpl]
    exact h.lock q t
  · exact h.placing t m q ((hkeep t _ (by simp) (by simp)).mp hr)
  · rw [hq] at hm
    exact h.messages q m hm
  · rw [hq]
    exact fun _ => rfl
  · rcases hr with hr | hr
    · exact absurd hr (hnone t)
    · rw [hkeep t _ (by simp) (by simp), hp] at hr
      exact h.portWait p t (.inr hr)
  · exact .inl ((hkeep t _ (by simp) (by simp)).mp hr)

theorem mine_singleton_ne (h : (s.msg m).port ≠ p) : s.mine p [m] = [] := by
  simp [QState.mine, h]

theorem mine_cons (k : List MsgId) : s.mine p (m :: k) = s.mine p [m] ++ s.mine p k := by
  rw [← mine_append]
  rfl

theorem deliver_cases (s : QState) (q : QueueId) (m : MsgId) :
    (Ipc.deliver s q m = (s.wake (s.queue q).blocked (tellReceiver q)).setQueue q
        { s.queue q with messages := (s.queue q).messages ++ [m], blocked := [] }) ∨
      ∃ small t rest, (s.queue q).blocked = small ++ t :: rest ∧
        Ipc.deliver s q m =
          { ((s.wake small (tellReceiver q)).setQueue q { s.queue q with blocked := rest }).setThread t
              (.rcvHanded q m) with left := s.left ++ [(m, .handed t)] } := by
  have hsplit : ((s.queue q).blocked.takeWhile fun t => !hasRoom s (s.msg m).size t) ++
      ((s.queue q).blocked.dropWhile fun t => !hasRoom s (s.msg m).size t) = (s.queue q).blocked :=
    List.takeWhile_append_dropWhile
  unfold Ipc.deliver
  dsimp only
  split
  next hd =>
    rw [hd, List.append_nil] at hsplit
    rw [hsplit]
    exact .inl rfl
  next t rest hd =>
    rw [hd] at hsplit
    exact .inr ⟨_, t, rest, hsplit.symm, rfl⟩

theorem deliver_frame (s : QState) (q : QueueId) (m : MsgId) :
    ((Ipc.deliver s q m).queue q).lock = (s.queue q).lock ∧ (Ipc.deliver s q m).port = s.port ∧
      (Ipc.deliver s q m).msg = s.msg ∧
      ∀ q', q' ≠ q → (Ipc.deliver s q m).queue q' = s.queue q' := by
  rcases deliver_cases s q m with he | ⟨small, t, rest, _, he⟩
  · rw [he]
    refine ⟨?_, rfl, rfl, fun q' hne => ?_⟩
    · rw [queue_setQueue, if_pos rfl]
    · rw [queue_setQueue, if_neg hne]
      rfl
  · rw [he]
    refine ⟨?_, rfl, rfl, fun q' hne => ?_⟩
    · show (QState.queue (QState.setQueue _ q _) q).lock = _
      rw [queue_setQueue, if_pos rfl]
    · show QState.queue (QState.setQueue _ q _) q' = _
      rw [queue_setQueue, if_neg hne]
      rfl

theorem QInv.deliver_of (h : QInv s (m :: l)) (hq : q = s.queueOf (s.msg m).port)
    (hlock : (s.queue q).lock = none) {s' : QState} {kept : List ThreadId}
    (hframe : (s'.queue q).lock = none ∧ s'.port = s.port ∧ s'.msg = s.msg ∧
      ∀ q', q' ≠ q → s'.queue q' = s.queue q')
    (hacc : s'.accepted = s.accepted ∧ s'.nextMsg = s.nextMsg)
    (hblocked : (s'.queue q).blocked = kept) (hnodup : kept.Nodup)
    (hkept : ∀ t, t ∈ kept → s'.role t = .blocked q ∧ s.role t = .blocked q)
    (hgone : ∀ t, t ∉ kept → s'.role t ≠ .blocked q ∧ (s'.role t = s.role t ∨
      s.role t = .blocked q ∧ (s'.role t = .free ∨
        s'.role t = .hand m ∧ (m, Fate.handed t) ∈ s'.left)))
    (hmove : (s'.left = s.left ∧ (s'.queue q).messages = (s.queue q).messages ++ [m] ∧ kept = []) ∨
      (∃ t, s'.left = s.left ++ [(m, .handed t)]) ∧ (s.queue q).messages = [] ∧
        (s'.queue q).messages = []) :
    QInv s' l := by
  obtain ⟨hl, hport, hmsg, hother⟩ := hframe
  have hkeep : ∀ t r, r ≠ .free → r ≠ .blocked q → (∀ m, r ≠ .hand m) → (s'.role t = r ↔ s.role t = r) := by
    intro t r hf hb hh
    by_cases hin : t ∈ kept
    · obtain ⟨h1, h2⟩ := hkept t hin
      rw [h1, h2]
    · rcases (hgone t hin).2 with he | ⟨hold, hnew⟩
      · rw [he]
      · rw [hold]
        rcases hnew with hnew | ⟨hnew, _⟩
        · rw [hnew]
          exact ⟨fun he => absurd he.symm hf, fun he => absurd he.symm hb⟩
        · rw [hnew]
          exact ⟨fun he => absurd he.symm (hh m), fun he => absurd he.symm hb⟩
  have hpn : s'.placingOn q = [] := placingOn_none hl
  have hpo : s.placingOn q = [] := placingOn_none hlock
  refine h.turn (q := q) ⟨hother, fun t => ?_, fun p => by rw [hport]; exact ⟨rfl, rfl⟩,
    fun m => by rw [hmsg], hacc.2, hacc.1⟩
    ⟨fun p hp => ?_, fun p hp => ?_, fun t => ?_, by rw [hblocked]; exact hnodup, fun t => ?_,
      fun t m hr => ?_, fun m' hm => ?_, fun hne => ?_, fun p t hp hr => ?_, fun t m' hr => ?_, fun y hy => ?_⟩
  · by_cases hin : t ∈ kept
    · left
      rw [(hkept t hin).1, (hkept t hin).2]
    · rcases (hgone t hin).2 with he | ⟨hold, hnew⟩
      · exact .inl he
      · rw [hold]
        rcases hnew with hnew | ⟨hnew, _⟩
        · rw [hnew]
          exact .inr ⟨rfl, trivial⟩
        · rw [hnew]
          exact .inr ⟨rfl, trivial⟩
  · have hne : (s.msg m).port ≠ p := by
      rintro rfl
      exact hp hq.symm
    rw [mine_cons, mine_singleton_ne hne, List.nil_append]
    refine ⟨?_, rfl⟩
    rcases hmove with ⟨he, _⟩ | ⟨⟨t, he⟩, _⟩
    · rw [he]
    · rw [he, List.map_append, mine_append]
      show _ ++ s.mine p [m] = _
      rw [mine_singleton_ne hne, List.append_nil]
  · rw [hpn, hpo, List.append_nil, List.append_nil, mine_cons]
    rcases hmove with ⟨he, hms, _⟩ | ⟨⟨t, he⟩, hold, hnew⟩
    · rw [he, hms, mine_append]
      simp only [List.append_assoc]
    · rw [he, hold, hnew, List.map_append, mine_append]
      simp only [List.append_assoc]
      rfl
  · rw [hblocked]
    exact ⟨fun hin => (hkept t hin).1, fun hr => by
      by_contra hin
      exact (hgone t hin).1 hr⟩
  · obtain ⟨hp, hr⟩ := h.lock_none hlock t
    have hpl : ∀ m, s'.role t = .placing m q ↔ s.role t = .placing m q :=
      fun m => hkeep t _ (by simp) (by simp) (by simp)
    rw [hl, hkeep t (.receiving q) (by simp) (by simp) (by simp)]
    simp [hpl, hp, hr]
  · exact h.placing t m q ((hkeep t _ (by simp) (by simp) (by simp)).mp hr)
  · rcases hmove with ⟨_, hms, _⟩ | ⟨_, _, hms⟩
    · rw [hms] at hm
      rcases List.mem_append.mp hm with hm | hm
      · exact h.messages q m' hm
      · rw [List.mem_singleton.mp hm]
        exact hq
    · rw [hms] at hm
      simp at hm
  · rcases hmove with ⟨_, _, hk⟩ | ⟨_, _, hms⟩
    · rw [hblocked, hk]
    · exact absurd hms hne
  · rcases hr with hr | hr
    · by_cases hin : t ∈ kept
      · have hold := (hkept t hin).2
        rw [hp] at hold
        exact h.portWait p t (.inl hold)
      · exact absurd hr (hgone t hin).1
    · rw [hkeep t _ (by simp) (by simp) (by simp), hp] at hr
      exact h.portWait p t (.inr hr)
  · by_cases hin : t ∈ kept
    · rw [(hkept t hin).1] at hr
      simp at hr
    · rcases (hgone t hin).2 with he | ⟨_, hnew | ⟨hnew, hleft⟩⟩
      · exact .inl (he ▸ hr)
      · rw [hnew] at hr
        simp at hr
      · rw [hnew] at hr
        cases hr
        exact .inr hleft
  · rcases hmove with ⟨he, _⟩ | ⟨⟨_, he⟩, _⟩
    · rw [he]
      exact hy
    · rw [he]
      exact List.mem_append_left _ hy

theorem QInv.deliver (h : QInv s (m :: l)) (hq : q = s.queueOf (s.msg m).port)
    (hlock : (s.queue q).lock = none) : QInv (Ipc.deliver s q m) l := by
  have hframe := deliver_frame s q m
  rw [hlock] at hframe
  rcases deliver_cases s q m with he | ⟨small, t, rest, hsplit, he⟩
  · have hrole : ∀ t, (Ipc.deliver s q m).role t =
        if t ∈ (s.queue q).blocked then .free else s.role t := by
      rw [he]
      exact fun t => role_wake _ _ _ _
    have hqueue : (Ipc.deliver s q m).queue q =
        { s.queue q with messages := (s.queue q).messages ++ [m], blocked := [] } := by
      rw [he, queue_setQueue, if_pos rfl]
    refine h.deliver_of hq hlock hframe (by rw [he]; exact ⟨rfl, rfl⟩) (by rw [hqueue]) List.nodup_nil
      (fun t hin => by simp at hin) (fun t _ => ?_) (.inl ⟨by rw [he]; rfl, by rw [hqueue], rfl⟩)
    rw [hrole]
    split
    next hin =>
      rw [h.blocked] at hin
      exact ⟨by simp, .inr ⟨hin, .inl rfl⟩⟩
    next hin =>
      rw [h.blocked] at hin
      exact ⟨hin, .inl rfl⟩
  · have hnodup := h.blockedNodup q
    rw [hsplit] at hnodup
    obtain ⟨_, hrest, hdisj⟩ := List.nodup_append.mp hnodup
    obtain ⟨htrest, hrest⟩ := List.nodup_cons.mp hrest
    have hmessages : (s.queue q).messages = [] := by
      by_contra hne
      have := h.still q hne
      rw [hsplit] at this
      simp at this
    have hrole : ∀ t', (Ipc.deliver s q m).role t' =
        if t' = t then .hand m else if t' ∈ small then .free else s.role t' := by
      intro t'
      rw [he]
      show QState.role (QState.setThread _ t _) t' = _
      rw [role_setThread]
      split
      next => rfl
      next => exact role_wake _ _ _ _
    have hqueue : (Ipc.deliver s q m).queue q = { s.queue q with blocked := rest } := by
      rw [he]
      show QState.queue (QState.setQueue _ q _) q = _
      rw [queue_setQueue, if_pos rfl]
    have hleft : (Ipc.deliver s q m).left = s.left ++ [(m, .handed t)] := by rw [he]
    refine h.deliver_of hq hlock hframe (by rw [he]; exact ⟨rfl, rfl⟩) (by rw [hqueue]) hrest
      (fun t' hin => ?_) (fun t' hin => ?_)
      (.inr ⟨⟨t, hleft⟩, hmessages, by rw [hqueue]; exact hmessages⟩)
    · have hne : t' ≠ t := by
        rintro rfl
        exact htrest hin
      have hns : t' ∉ small := fun hs => hdisj t' hs t' (List.mem_cons_of_mem t hin) rfl
      have hb : s.role t' = .blocked q := by
        rw [← h.blocked, hsplit]
        exact List.mem_append_right _ (List.mem_cons_of_mem t hin)
      rw [hrole, if_neg hne, if_neg hns]
      exact ⟨hb, hb⟩
    · rw [hrole]
      by_cases hte : t' = t
      · have hb : s.role t' = .blocked q := by
          rw [← h.blocked, hsplit, hte]
          exact List.mem_append_right _ List.mem_cons_self
        rw [if_pos hte]
        refine ⟨by simp, .inr ⟨hb, .inr ⟨rfl, ?_⟩⟩⟩
        rw [hleft, hte]
        exact List.mem_append_right _ (List.mem_singleton_self _)
      · rw [if_neg hte]
        by_cases hts : t' ∈ small
        · have hb : s.role t' = .blocked q := by
            rw [← h.blocked, hsplit]
            exact List.mem_append_left _ hts
          rw [if_pos hts]
          exact ⟨by simp, .inr ⟨hb, .inl rfl⟩⟩
        · rw [if_neg hts]
          refine ⟨fun hb => ?_, .inl rfl⟩
          rw [← h.blocked, hsplit] at hb
          rcases List.mem_append.mp hb with hb | hb
          · exact hts hb
          · rcases List.mem_cons.mp hb with hb | hb
            · exact hte hb
            · exact hin hb

theorem QInv.unplace (h : QInv s []) (hrole : s.role t = .placing m q) :
    QInv ((s.setQueue q { s.queue q with lock := none }).setThread t .idle) [m] := by
  have hq : q = s.queueOf (s.msg m).port := h.placing t m q hrole
  have hlock : (s.queue q).lock = some t := (h.lock q t).mpr (.inl ⟨m, hrole⟩)
  have hon : s.placingOn q = [m] := by
    unfold QState.placingOn
    rw [hlock]
    dsimp only
    rw [hrole]
  have hqueue := @queue_turn_self s q t .idle { s.queue q with lock := none } s.left
  have hr : ∀ t', ((s.setQueue q { s.queue q with lock := none }).setThread t .idle).role t' =
      if t' = t then .free else s.role t' := fun t' => role_setThread _ _ _ _
  have hkeep : ∀ t' r, r ≠ .free → (∀ m, r ≠ .placing m q) →
      (((s.setQueue q { s.queue q with lock := none }).setThread t .idle).role t' = r ↔ s.role t' = r) := by
    intro t' r hf hp
    rw [hr]
    split
    next hte =>
      rw [hte, hrole]
      exact ⟨fun he => absurd he.symm hf, fun he => absurd he.symm (hp m)⟩
    next => rfl
  have hfree : ∀ t' m', ((s.setQueue q { s.queue q with lock := none }).setThread t .idle).role t' ≠
      .placing m' q := by
    intro t' m' hpl
    rw [hr] at hpl
    split at hpl
    next => simp at hpl
    next hte =>
      have := (h.lock q t').mpr (.inl ⟨m', hpl⟩)
      rw [hlock] at this
      exact hte (Option.some.inj this).symm
  refine h.turn (queueTurn_set (by rw [hrole]; exact rfl) trivial)
    ⟨fun p hp => ⟨rfl, ?_⟩, fun p _ => ?_, fun t' => ?_, ?_, fun t' => ?_, fun t' m' hpl => ?_,
      fun m' hm => ?_, ?_, fun p t' hp hw => ?_, fun t' m' hh => ?_, fun _ hy => hy⟩
  · refine mine_singleton_ne ?_
    rintro rfl
    exact hp hq.symm
  · rw [hqueue, placingOn_none (by rw [hqueue]), hon, List.append_nil, mine_append]
    simp [QState.mine]
    rfl
  · rw [hqueue, h.blocked]
    exact (hkeep t' _ (by simp) (by simp)).symm
  · rw [hqueue]
    exact h.blockedNodup q
  · have hrc : s.role t' ≠ .receiving q := by
      intro hrc
      have := (h.lock q t').mpr (.inr hrc)
      rw [hlock] at this
      cases Option.some.inj this
      rw [hrole] at hrc
      simp at hrc
    rw [hqueue, hkeep t' (.receiving q) (by simp) (by simp)]
    simp [hfree, hrc]
  · exact absurd hpl (hfree t' m')
  · rw [hqueue] at hm
    exact h.messages q m' hm
  · rw [hqueue]
    exact h.still q
  · rw [hkeep t' _ (by simp) (by simp), hkeep t' _ (by simp) (by simp), hp] at hw
    exact h.portWait p t' hw
  · exact .inl ((hkeep t' _ (by simp) (by simp)).mp hh)

theorem QInv.place (h : QInv s []) (hs : Ipc.place s t = some s') : QInv s' [] := by
  unfold Ipc.place at hs
  split at hs
  next m q he =>
    cases Option.some.inj hs
    have hrole : s.role t = .placing m q := by rw [QState.role, he]; rfl
    refine (h.unplace hrole).deliver (h.placing t m q hrole) ?_
    rw [show ((s.setQueue q { s.queue q with lock := none }).setThread t .idle).queue q =
      { s.queue q with lock := none } from @queue_turn_self s q t .idle _ s.left]
  next => simp at hs

end MachVM.Ipc
