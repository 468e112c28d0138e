import MachVM.IpcQueue

namespace MachVM.Ipc

/-- What a thread means for the queues. -/
inductive Role
  | free
  | owns (m : MsgId)
  | placing (m : MsgId) (q : QueueId)
  | receiving (q : QueueId)
  | blocked (q : QueueId)
  | hand (m : MsgId)
  deriving DecidableEq, Repr

def Thread.role : Thread → Role
  | .idle => .free
  | .sending m _ _ => .owns m
  | .sendBlocked m _ => .owns m
  | .placing m q => .placing m q
  | .receiving q _ => .receiving q
  | .rcvBlocked q _ => .blocked q
  | .rcvHanded _ m => .hand m
  | .rcvTold _ => .free
  | .holding m => .hand m
  | .adding _ => .free

namespace QState

def role (s : QState) (t : ThreadId) : Role := (s.thread t).role

/-- The messages of a list that are for `p`. -/
def mine (s : QState) (p : PortId) (l : List MsgId) : List MsgId :=
  l.filter fun m => decide ((s.msg m).port = p)

/-- The message whose sender has the queue locked to put it there. -/
def placingOn (s : QState) (q : QueueId) : List MsgId :=
  match (s.queue q).lock with
  | none => []
  | some t =>
    match s.role t with
    | .placing m _ => [m]
    | _ => []

/-- What is on the way to a receiver of `p`. -/
def pending (s : QState) (p : PortId) : List MsgId :=
  s.mine p ((s.queue (s.queueOf p)).messages ++ s.placingOn (s.queueOf p))

end QState

/-- The queues, while the messages of `limbo` are being moved from one to another. -/
structure QInv (s : QState) (limbo : List MsgId) : Prop where
  bound : ∀ m ∈ s.accepted, m < s.nextMsg
  owns : ∀ t m, s.role t = .owns m → m < s.nextMsg ∧ m ∉ s.accepted
  ownsOne : ∀ t t' m, s.role t = .owns m → s.role t' = .owns m → t = t'
  nodup : s.accepted.Nodup
  order : ∀ p, s.mine p s.accepted =
    s.mine p (s.left.map Prod.fst) ++ s.pending p ++ s.mine p limbo
  blocked : ∀ q t, t ∈ (s.queue q).blocked ↔ s.role t = .blocked q
  blockedNodup : ∀ q, (s.queue q).blocked.Nodup
  lock : ∀ q t, (s.queue q).lock = some t ↔ (∃ m, s.role t = .placing m q) ∨ s.role t = .receiving q
  placing : ∀ t m q, s.role t = .placing m q → q = s.queueOf (s.msg m).port
  messages : ∀ q, ∀ m ∈ (s.queue q).messages, q = s.queueOf (s.msg m).port
  still : ∀ q, (s.queue q).messages ≠ [] → (s.queue q).blocked = []
  portWait : ∀ p t, s.role t = .blocked (.port p) ∨ s.role t = .receiving (.port p) →
    (s.port p).set = none ∨ (s.port p).locked = true
  hand : ∀ t m, s.role t = .hand m → (m, Fate.handed t) ∈ s.left

variable {s s' : QState} {l : List MsgId} {p : PortId} {q : QueueId} {t : ThreadId} {m : MsgId}

theorem mem_mine : m ∈ s.mine p l ↔ m ∈ l ∧ (s.msg m).port = p := by
  simp [QState.mine]

theorem mine_append (k : List MsgId) : s.mine p (l ++ k) = s.mine p l ++ s.mine p k :=
  List.filter_append ..

theorem mine_congr (h : ∀ m ∈ l, (s'.msg m).port = (s.msg m).port) : s'.mine p l = s.mine p l := by
  unfold QState.mine
  refine List.filter_congr fun m hm => ?_
  rw [h m hm]

theorem queueOf_congr (h : (s'.port p).set = (s.port p).set) : s'.queueOf p = s.queueOf p := by
  unfold QState.queueOf
  rw [h]

theorem placingOn_congr (hq : (s'.queue q).lock = (s.queue q).lock)
    (hr : ∀ t, (s.queue q).lock = some t → s'.role t = s.role t) : s'.placingOn q = s.placingOn q := by
  unfold QState.placingOn
  rw [hq]
  cases hl : (s.queue q).lock with
  | none => rfl
  | some t =>
    dsimp only
    rw [hr t hl]

theorem QInv.mem_accepted (h : QInv s l)
    (hm : m ∈ s.left.map Prod.fst ∨ m ∈ (s.queue q).messages ∨ m ∈ s.placingOn q ∨ m ∈ l) :
    m ∈ s.accepted := by
  suffices hin : m ∈ s.mine (s.msg m).port (s.left.map Prod.fst) ++ s.pending (s.msg m).port ++
      s.mine (s.msg m).port l by
    rw [← h.order] at hin
    exact (mem_mine.mp hin).1
  rcases hm with hm | hm | hm | hm
  · exact List.mem_append_left _ (List.mem_append_left _ (mem_mine.mpr ⟨hm, rfl⟩))
  · refine List.mem_append_left _ (List.mem_append_right _ (mem_mine.mpr ⟨?_, rfl⟩))
    rw [← h.messages q m hm]
    exact List.mem_append_left _ hm
  · refine List.mem_append_left _ (List.mem_append_right _ (mem_mine.mpr ⟨?_, rfl⟩))
    have hq : q = s.queueOf (s.msg m).port := by
      unfold QState.placingOn at hm
      cases hl : (s.queue q).lock with
      | none => simp [hl] at hm
      | some t =>
        rw [hl] at hm
        dsimp only at hm
        rcases (h.lock q t).mp hl with ⟨m', hr⟩ | hr
        · rw [hr] at hm
          rw [List.mem_singleton.mp hm]
          exact h.placing t m' q hr
        · rw [hr] at hm
          simp at hm
    rw [← hq]
    exact List.mem_append_right _ hm
  · exact List.mem_append_right _ (mem_mine.mpr ⟨hm, rfl⟩)

theorem QInv.placingOn_eq (h : QInv s l) (q : QueueId) (m : MsgId) :
    m ∈ s.placingOn q ↔ ∃ t, s.role t = .placing m q := by
  unfold QState.placingOn
  constructor
  · intro hm
    cases hl : (s.queue q).lock with
    | none => simp [hl] at hm
    | some t =>
      rw [hl] at hm
      dsimp only at hm
      rcases (h.lock q t).mp hl with ⟨m', hr⟩ | hr
      · rw [hr] at hm
        rw [List.mem_singleton.mp hm]
        exact ⟨t, hr⟩
      · rw [hr] at hm
        simp at hm
  · rintro ⟨t, hr⟩
    rw [(h.lock q t).mpr (.inl ⟨m, hr⟩)]
    dsimp only
    rw [hr]
    exact List.mem_singleton_self m

/-- A thread keeps its role, or it is done with a message of its own. -/
def Drops (r r' : Role) : Prop := r' = r ∨ (r' = .free ∧ ∃ m, r = .owns m ∨ r = .hand m)

theorem QInv.congr (h : QInv s l) (hset : ∀ p, (s'.port p).set = (s.port p).set)
    (hlocked : ∀ p, (s.port p).locked = true → (s'.port p).locked = true ∨
      ∀ t, s.role t ≠ .blocked (.port p) ∧ s.role t ≠ .receiving (.port p)) (hq : s'.queue = s.queue)
    (hrole : ∀ t, Drops (s.role t) (s'.role t)) (hmsg : ∀ m, (s'.msg m).port = (s.msg m).port)
    (hnext : s'.nextMsg = s.nextMsg) (hacc : s'.accepted = s.accepted) (hleft : s'.left = s.left) :
    QInv s' l := by
  have hof : ∀ p, s'.queueOf p = s.queueOf p := fun p => queueOf_congr (hset p)
  have hmine : ∀ p k, s'.mine p k = s.mine p k := fun p k => mine_congr fun m _ => hmsg m
  have hback : ∀ t r, s'.role t = r → r ≠ .free → s.role t = r := by
    intro t r hr hne
    rcases hrole t with he | ⟨hf, _⟩
    · rw [← he]
      exact hr
    · exact absurd (hr.symm.trans hf) hne
  have hforth : ∀ t r, s.role t = r → (∀ m, r ≠ .owns m ∧ r ≠ .hand m) → s'.role t = r := by
    intro t r hr hne
    rcases hrole t with he | ⟨_, m, hm⟩
    · rw [he]
      exact hr
    · rw [hr] at hm
      exact absurd hm (not_or.mpr (hne m))
  have hplacing : ∀ q, s'.placingOn q = s.placingOn q := by
    intro q
    refine placingOn_congr (by rw [hq]) fun t hl => ?_
    rcases (h.lock q t).mp hl with ⟨m, hr⟩ | hr
    · rw [hr]
      exact hforth t _ hr fun _ => ⟨by simp, by simp⟩
    · rw [hr]
      exact hforth t _ hr fun _ => ⟨by simp, by simp⟩
  have hpending : ∀ p, s'.pending p = s.pending p := by
    intro p
    rw [QState.pending, QState.pending, hmine, hof, hplacing, hq]
  refine ⟨?_, ?_, ?_, ?_, ?_, ?_, ?_, ?_, ?_, ?_, ?_, ?_, ?_⟩
  · rw [hacc, hnext]
    exact h.bound
  · intro t m hr
    rw [hacc, hnext]
    exact h.owns t m (hback t _ hr (by simp))
  · intro t t' m hr hr'
    exact h.ownsOne t t' m (hback t _ hr (by simp)) (hback t' _ hr' (by simp))
  · rw [hacc]
    exact h.nodup
  · intro p
    rw [hacc, hleft, hmine, hmine, hmine, hpending]
    exact h.order p
  · intro q t
    rw [hq, h.blocked]
    exact ⟨fun hr => hforth t _ hr fun _ => ⟨by simp, by simp⟩, fun hr => hback t _ hr (by simp)⟩
  · rw [hq]
    exact h.blockedNodup
  · intro q t
    rw [hq, h.lock]
    constructor
    · rintro (⟨m, hr⟩ | hr)
      · exact .inl ⟨m, hforth t _ hr fun _ => ⟨by simp, by simp⟩⟩
      · exact .inr (hforth t _ hr fun _ => ⟨by simp, by simp⟩)
    · rintro (⟨m, hr⟩ | hr)
      · exact .inl ⟨m, hback t _ hr (by simp)⟩
      · exact .inr (hback t _ hr (by simp))
  · intro t m q hr
    rw [hmsg, hof]
    exact h.placing t m q (hback t _ hr (by simp))
  · intro q m hm
    rw [hq] at hm
    rw [hmsg, hof]
    exact h.messages q m hm
  · rw [hq]
    exact h.still
  · intro p t hr
    have hold : s.role t = .blocked (.port p) ∨ s.role t = .receiving (.port p) :=
      hr.imp (fun hb => hback t _ hb (by simp)) (fun hb => hback t _ hb (by simp))
    rw [hset]
    rcases h.portWait p t hold with hw | hw
    · exact .inl hw
    · refine .inr ((hlocked p hw).resolve_right fun hno => ?_)
      exact hold.elim (hno t).1 (hno t).2
  · intro t m hr
    rw [hleft]
    exact h.hand t m (hback t _ hr (by simp))

/-! ## Turns at one queue -/

/-- The role has nothing to do with any queue but `q`. -/
def Role.On (q : QueueId) : Role → Prop
  | .free => True
  | .owns _ => False
  | .placing _ q' => q' = q
  | .receiving q' => q' = q
  | .blocked q' => q' = q
  | .hand _ => True

/-- A stretch of code that holds the lock of one queue. -/
structure QueueTurn (s s' : QState) (q : QueueId) : Prop where
  queue : ∀ q', q' ≠ q → s'.queue q' = s.queue q'
  role : ∀ t, s'.role t = s.role t ∨ ((s.role t).On q ∧ (s'.role t).On q)
  port : ∀ p, (s'.port p).set = (s.port p).set ∧ (s'.port p).locked = (s.port p).locked
  msg : ∀ m, (s'.msg m).port = (s.msg m).port
  nextMsg : s'.nextMsg = s.nextMsg
  accepted : s'.accepted = s.accepted

theorem QueueTurn.role_iff (ht : QueueTurn s s' q) {r : Role} (hr : ¬ r.On q) :
    s'.role t = r ↔ s.role t = r := by
  rcases ht.role t with he | ⟨ho, hn⟩
  · rw [he]
  · constructor
    · intro h
      exact absurd (h ▸ hn) hr
    · intro h
      exact absurd (h ▸ ho) hr

theorem QueueTurn.queueOf (ht : QueueTurn s s' q) (p : PortId) : s'.queueOf p = s.queueOf p :=
  queueOf_congr (ht.port p).1

theorem QueueTurn.mine (ht : QueueTurn s s' q) (p : PortId) (k : List MsgId) :
    s'.mine p k = s.mine p k := mine_congr fun m _ => ht.msg m

theorem QueueTurn.pending_ne (ht : QueueTurn s s' q) (h : QInv s l) (hp : s.queueOf p ≠ q) :
    s'.pending p = s.pending p := by
  have hplacing : s'.placingOn (s.queueOf p) = s.placingOn (s.queueOf p) := by
    refine placingOn_congr (by rw [ht.queue _ hp]) fun t hl => ?_
    rcases (h.lock _ t).mp hl with ⟨m, hr⟩ | hr
    · rw [hr]
      exact (ht.role_iff (by simpa [Role.On] using hp)).mpr hr
    · rw [hr]
      exact (ht.role_iff (by simpa [Role.On] using hp)).mpr hr
  rw [QState.pending, QState.pending, ht.mine, ht.queueOf, ht.queue _ hp, hplacing]

/-- What has to be shown of such a stretch, about its own queue only. -/
structure TurnGood (s s' : QState) (q : QueueId) (l l' : List MsgId) : Prop where
  other : ∀ p, s.queueOf p ≠ q → s.mine p (s'.left.map Prod.fst) = s.mine p (s.left.map Prod.fst) ∧
    s.mine p l' = s.mine p l
  order : ∀ p, s.queueOf p = q →
    s.mine p (s'.left.map Prod.fst) ++ s.mine p ((s'.queue q).messages ++ s'.placingOn q) ++ s.mine p l' =
      s.mine p (s.left.map Prod.fst) ++ s.mine p ((s.queue q).messages ++ s.placingOn q) ++ s.mine p l
  blocked : ∀ t, t ∈ (s'.queue q).blocked ↔ s'.role t = .blocked q
  blockedNodup : (s'.queue q).blocked.Nodup
  lock : ∀ t, (s'.queue q).lock = some t ↔ (∃ m, s'.role t = .placing m q) ∨ s'.role t = .receiving q
  placing : ∀ t m, s'.role t = .placing m q → q = s.queueOf (s.msg m).port
  messages : ∀ m ∈ (s'.queue q).messages, q = s.queueOf (s.msg m).port
  still : (s'.queue q).messages ≠ [] → (s'.queue q).blocked = []
  portWait : ∀ p t, q = .port p → s'.role t = .blocked q ∨ s'.role t = .receiving q →
    (s.port p).set = none ∨ (s.port p).locked = true
  hand : ∀ t m, s'.role t = .hand m → s.role t = .hand m ∨ (m, Fate.handed t) ∈ s'.left
  left : ∀ x ∈ s.left, x ∈ s'.left

theorem QInv.turn {l' : List MsgId} (h : QInv s l) (ht : QueueTurn s s' q) (hg : TurnGood s s' q l l') :
    QInv s' l' := by
  refine ⟨?_, ?_, ?_, ?_, ?_, ?_, ?_, ?_, ?_, ?_, ?_, ?_, ?_⟩
  · rw [ht.accepted, ht.nextMsg]
    exact h.bound
  · intro t m hr
    rw [ht.accepted, ht.nextMsg]
    exact h.owns t m ((ht.role_iff (by simp [Role.On])).mp hr)
  · intro t t' m hr hr'
    exact h.ownsOne t t' m ((ht.role_iff (by simp [Role.On])).mp hr)
      ((ht.role_iff (by simp [Role.On])).mp hr')
  · rw [ht.accepted]
    exact h.nodup
  · intro p
    rw [ht.mine, ht.mine, ht.mine, ht.accepted, h.order]
    by_cases hp : s.queueOf p = q
    · rw [QState.pending, QState.pending, ht.mine, ht.queueOf, hp]
      exact (hg.order p hp).symm
    · rw [ht.pending_ne h hp, (hg.other p hp).1, (hg.other p hp).2]
  · intro q' t
    by_cases hq : q' = q
    · rw [hq]
      exact hg.blocked t
    · rw [ht.queue q' hq, ht.role_iff (by simpa [Role.On] using hq)]
      exact h.blocked q' t
  · intro q'
    by_cases hq : q' = q
    · rw [hq]
      exact hg.blockedNodup
    · rw [ht.queue q' hq]
      exact h.blockedNodup q'
  · intro q' t
    by_cases hq : q' = q
    · rw [hq]
      exact hg.lock t
    · have hpl : ∀ m, s'.role t = .placing m q' ↔ s.role t = .placing m q' := fun m =>
        ht.role_iff (by simpa [Role.On] using hq)
      rw [ht.queue q' hq, ht.role_iff (by simpa [Role.On] using hq)]
      simp only [hpl]
      exact h.lock q' t
  · intro t m q' hr
    rw [ht.msg, ht.queueOf]
    by_cases hq : q' = q
    · rw [hq] at hr ⊢
      exact hg.placing t m hr
    · exact h.placing t m q' ((ht.role_iff (by simpa [Role.On] using hq)).mp hr)
  · intro q' m hm
    rw [ht.msg, ht.queueOf]
    by_cases hq : q' = q
    · rw [hq] at hm ⊢
      exact hg.messages m hm
    · rw [ht.queue q' hq] at hm
      exact h.messages q' m hm
  · intro q'
    by_cases hq : q' = q
    · rw [hq]
      exact hg.still
    · rw [ht.queue q' hq]
      exact h.still q'
  · intro p t hr
    rw [(ht.port p).1, (ht.port p).2]
    by_cases hq : QueueId.port p = q
    · rw [hq] at hr
      exact hg.portWait p t hq.symm hr
    · refine h.portWait p t (hr.imp (fun hb => ?_) fun hb => ?_)
      · exact (ht.role_iff (by simpa [Role.On] using hq)).mp hb
      · exact (ht.role_iff (by simpa [Role.On] using hq)).mp hb
  · intro t m hr
    rcases hg.hand t m hr with ho | hn
    · exact hg.left _ (h.hand t m ho)
    · exact hn

end MachVM.Ipc
