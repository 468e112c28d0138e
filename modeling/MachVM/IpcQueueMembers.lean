import MachVM.IpcQueueSends

namespace MachVM.Ipc

variable {s s' : QState} {l : List MsgId} {p : PortId} {q : QueueId} {t : ThreadId} {m : MsgId}

theorem queueOf_eq_port {p' : PortId} : s.queueOf p' = .port p ↔ p' = p ∧ (s.port p).set = none := by
  unfold QState.queueOf
  constructor
  · intro h
    split at h
    next hn =>
      cases h
      exact ⟨rfl, hn⟩
    next => simp at h
  · rintro ⟨rfl, hn⟩
    rw [hn]

theorem queueOf_eq_set {x : SetId} : s.queueOf p = .set x ↔ (s.port p).set = some x := by
  unfold QState.queueOf
  cases (s.port p).set with
  | none => simp
  | some y => simp

theorem mine_eq_self (h : ∀ m ∈ l, (s.msg m).port = p) : s.mine p l = l := by
  refine List.filter_eq_self.mpr fun m hm => ?_
  rw [h m hm]
  exact decide_eq_true rfl

theorem mine_eq_nil (h : ∀ m ∈ l, (s.msg m).port ≠ p) : s.mine p l = [] := by
  refine List.filter_eq_nil_iff.mpr fun m hm hd => ?_
  exact h m hm (of_decide_eq_true hd)

theorem QInv.joinSet {x : SetId} (h : QInv s []) (hset : (s.port p).set = none)
    (hport : (s.queue (.port p)).lock = none) (hlock : (s.queue (.set x)).lock = none) :
    QInv ((s.setPort p { s.port p with set := some x, locked := true }).setQueue (.port p)
      { s.queue (.port p) with messages := [] }) (s.queue (.port p)).messages := by
  set s₁ := (s.setPort p { s.port p with set := some x, locked := true }).setQueue (.port p)
    { s.queue (.port p) with messages := [] } with hs₁
  have hp : ∀ p', s₁.port p' = if p' = p then { s.port p with set := some x, locked := true }
      else s.port p' := fun p' => port_setPort _ _ _ _
  have hqueue : ∀ q', s₁.queue q' = if q' = .port p then { s.queue (.port p) with messages := [] }
      else s.queue q' := fun q' => queue_setQueue _ _ _ _
  have hof : ∀ p', p' ≠ p → s₁.queueOf p' = s.queueOf p' := by
    intro p' hne
    refine queueOf_congr ?_
    rw [hp, if_neg hne]
  have hofp : s₁.queueOf p = .set x := by
    refine queueOf_eq_set.mpr ?_
    rw [hp, if_pos rfl]
  have hne : ∀ p', p' ≠ p → s.queueOf p' ≠ .port p := fun p' hne he => hne (queueOf_eq_port.mp he).1
  have hsp : s.queueOf p = .port p := queueOf_eq_port.mpr ⟨rfl, hset⟩
  have hlocks : ∀ q', (s₁.queue q').lock = (s.queue q').lock := by
    intro q'
    rw [hqueue]
    split
    next he => rw [he]
    next => rfl
  have hblocked : ∀ q', (s₁.queue q').blocked = (s.queue q').blocked := by
    intro q'
    rw [hqueue]
    split
    next he => rw [he]
    next => rfl
  have hplacing : ∀ q', s₁.placingOn q' = s.placingOn q' := fun q' =>
    placingOn_congr (hlocks q') fun _ _ => rfl
  have hmem : ∀ m ∈ (s.queue (.port p)).messages, (s.msg m).port = p := fun m hm =>
    (queueOf_eq_port.mp (h.messages _ m hm).symm).1
  have hother : ∀ q' m, m ∈ (s.queue q').messages → q' ≠ .port p → (s.msg m).port ≠ p := by
    intro q' m hm hq he
    have := h.messages q' m hm
    rw [he, hsp] at this
    exact hq this
  refine ⟨h.bound, h.owns, h.ownsOne, h.nodup, fun p' => ?_, fun q' t => ?_, fun q' => ?_, fun q' t => ?_,
    fun t m q' hr => ?_, fun q' m hm => ?_, fun q' hm => ?_, fun p' t hr => ?_, h.hand⟩
  · show s.mine p' s.accepted = s.mine p' (s.left.map Prod.fst) ++
      s.mine p' ((s₁.queue (s₁.queueOf p')).messages ++ s₁.placingOn (s₁.queueOf p')) ++ s.mine p' _
    rw [h.order p', hplacing, QState.pending]
    by_cases he : p' = p
    · have hnil : s.mine p (s.queue (.set x)).messages = [] :=
        mine_eq_nil fun m hm => hother _ m hm (by simp)
      rw [he, hofp, hsp, placingOn_none hlock, placingOn_none hport, hqueue, if_neg (by simp),
        List.append_nil, List.append_nil, hnil]
      simp [QState.mine]
    · have hnil : s.mine p' (s.queue (.port p)).messages = [] :=
        mine_eq_nil fun m hm => (hmem m hm).trans_ne (Ne.symm he)
      rw [hof p' he, hqueue, if_neg (hne p' he), hnil]
      rfl
  · rw [hblocked]
    exact h.blocked q' t
  · rw [hblocked]
    exact h.blockedNodup q'
  · rw [hlocks]
    exact h.lock q' t
  · have hq := h.placing t m q' hr
    have hmp : (s.msg m).port ≠ p := by
      intro he
      rw [he, hsp] at hq
      rw [hq] at hr
      exact (h.lock_none hport t).1 m hr
    exact hq.trans (hof _ hmp).symm
  · rw [hqueue] at hm
    split at hm
    next => simp at hm
    next hq => exact (h.messages q' m hm).trans (hof _ (hother q' m hm hq)).symm
  · rw [hblocked]
    refine h.still q' fun hn => hm ?_
    rw [hqueue]
    split
    next => rfl
    next => exact hn
  · rw [hp]
    split
    next => exact .inr rfl
    next => exact h.portWait p' t hr

theorem deliver_blocked {t' : ThreadId} (h : t' ∉ (s.queue q).blocked) :
    (Ipc.deliver s q m).thread t' = s.thread t' ∧ t' ∉ ((Ipc.deliver s q m).queue q).blocked := by
  rcases deliver_cases s q m with he | ⟨small, t, rest, hsplit, he⟩
  · rw [he, queue_setQueue, if_pos rfl]
    exact ⟨if_neg h, by simp⟩
  · rw [hsplit, List.mem_append, List.mem_cons, not_or, not_or] at h
    obtain ⟨hsmall, ht, hrest⟩ := h
    rw [he]
    constructor
    · show Function.update _ t _ t' = _
      rw [Function.update_of_ne ht]
      exact if_neg hsmall
    · show t' ∉ (QState.queue (QState.setQueue _ q _) q).blocked
      rw [queue_setQueue, if_pos rfl]
      exact hrest

theorem QInv.deliverAll (ms : List MsgId) (h : QInv s (ms ++ l))
    (hq : ∀ m ∈ ms, q = s.queueOf (s.msg m).port) (hlock : (s.queue q).lock = none)
    (ht : t ∉ (s.queue q).blocked) :
    QInv (ms.foldl (fun s m => Ipc.deliver s q m) s) l ∧
      (ms.foldl (fun s m => Ipc.deliver s q m) s).thread t = s.thread t := by
  induction ms generalizing s with
  | nil => exact ⟨h, rfl⟩
  | cons m ms ih =>
    obtain ⟨hl, hport, hmsg, _⟩ := deliver_frame s q m
    obtain ⟨hthread, hout⟩ := deliver_blocked (m := m) ht
    have hnext := QInv.deliver h (hq m List.mem_cons_self) hlock
    obtain ⟨hinv, hsame⟩ := ih hnext (fun m' hm => by
        rw [hmsg, queueOf_congr (s := s) (by rw [hport])]
        exact hq m' (List.mem_cons_of_mem m hm)) (hl.trans hlock) hout
    exact ⟨hinv, hsame.trans hthread⟩

theorem setAddMember_cases {x : SetId} (h : QInv s []) (hs : Ipc.setAddMember s t p x = some s') :
    ∃ s₁, s₁ = (s.setPort p { s.port p with set := some x, locked := true }).setQueue (.port p)
        { s.queue (.port p) with messages := [] } ∧
      QInv s₁ ((s.queue (.port p)).messages ++ []) ∧
      (∀ m ∈ (s.queue (.port p)).messages, .set x = s₁.queueOf (s₁.msg m).port) ∧
      (s₁.queue (.set x)).lock = none ∧ t ∉ (s₁.queue (.set x)).blocked ∧ s.thread t = .idle ∧
      s' = ((s.queue (.port p)).messages.foldl (fun s m => Ipc.deliver s (.set x) m) s₁).setThread t
        (.adding p) := by
  unfold Ipc.setAddMember at hs
  split at hs
  next hg =>
    obtain ⟨hidle, _, _, _, hset, _, hport, hlock⟩ := hg
    cases Option.some.inj hs
    refine ⟨_, rfl, ?_, fun m hm => ?_, ?_, ?_, hidle, rfl⟩
    · rw [List.append_nil]
      exact h.joinSet hset hport hlock
    · refine (queueOf_eq_set.mpr ?_).symm
      show (QState.port (s.setPort p _) (s.msg m).port).set = _
      rw [(queueOf_eq_port.mp (h.messages _ m hm).symm).1, port_setPort, if_pos rfl]
    · rw [queue_setQueue, if_neg (by simp)]
      exact hlock
    · rw [queue_setQueue, if_neg (by simp)]
      show t ∉ (s.queue (.set x)).blocked
      rw [h.blocked, role_idle hidle]
      simp
  next => simp at hs

theorem QInv.setAddMember {x : SetId} (h : QInv s []) (hs : Ipc.setAddMember s t p x = some s') :
    QInv s' [] := by
  obtain ⟨s₁, rfl, hjoin, hof, hlock, hout, hidle, rfl⟩ := setAddMember_cases h hs
  obtain ⟨hinv, hthread⟩ := hjoin.deliverAll _ hof hlock hout
  refine hinv.setThread (.inl ?_)
  rw [QState.role, hthread]
  exact (role_idle hidle).symm

theorem msgQueueChanged_role (h : QInv s l) (q : QueueId) (t : ThreadId) :
    (Ipc.msgQueueChanged s q).role t ≠ .blocked q := by
  have hrole : (Ipc.msgQueueChanged s q).role t = if t ∈ (s.queue q).blocked then .free else s.role t :=
    role_wake _ _ _ _
  rw [hrole]
  split
  next => simp
  next hin =>
    rw [h.blocked] at hin
    exact hin

theorem msgQueueChanged_lock (s : QState) (q : QueueId) (hl : (s.queue q).lock = none) :
    ((Ipc.msgQueueChanged s q).queue q).lock = none := by
  show ((QState.setQueue _ q _).queue q).lock = none
  rw [queue_setQueue, if_pos rfl]
  exact hl

theorem QInv.setAddDone (h : QInv s l) (hs : Ipc.setAddDone s t = some s') : QInv s' l := by
  unfold Ipc.setAddDone at hs
  split at hs
  next p he =>
    split at hs
    next => simp at hs
    next hl =>
      cases Option.some.inj hs
      have hc := h.msgQueueChanged (.port p)
      have hlock := msgQueueChanged_lock s (.port p) (not_not.mp hl)
      have hfree : s.role t = .free := by rw [QState.role, he]; rfl
      have hopen := hc.setPort (p := p) (x := { (Ipc.msgQueueChanged s (.port p)).port p with locked := false })
        rfl fun _ => .inr fun t' => ⟨msgQueueChanged_role h _ t', (hc.lock_none hlock t').2⟩
      refine hopen.setThread (.inl ?_)
      have hrole : (Ipc.msgQueueChanged s (.port p)).role t =
          if t ∈ (s.queue (.port p)).blocked then .free else s.role t := role_wake _ _ _ _
      show _ = (Ipc.msgQueueChanged s (.port p)).role t
      rw [hrole, hfree]
      split <;> rfl
  next => simp at hs

theorem QInv.setRemoveMember {x : SetId} (h : QInv s []) (hset : (s.port p).set = some x)
    (hopen : (s.port p).locked = false) (hport : (s.queue (.port p)).lock = none)
    (hlock : (s.queue (.set x)).lock = none) : QInv (Ipc.setRemoveMember s p x) [] := by
  set s₁ := Ipc.setRemoveMember s p x with hs₁
  have hsp : s.queueOf p = .set x := queueOf_eq_set.mpr hset
  have hempty : (s.queue (.port p)).messages = [] := by
    refine List.eq_nil_iff_forall_not_mem.mpr fun m hm => ?_
    obtain ⟨_, hno⟩ := queueOf_eq_port.mp (h.messages _ m hm).symm
    rw [hset] at hno
    simp at hno
  have hnobody : (s.queue (.port p)).blocked = [] := by
    refine List.eq_nil_iff_forall_not_mem.mpr fun t ht => ?_
    rw [h.blocked] at ht
    rcases h.portWait p t (.inl ht) with hno | hno
    · rw [hset] at hno
      simp at hno
    · rw [hopen] at hno
      simp at hno
  have hp : ∀ p', s₁.port p' = if p' = p then { s.port p with set := none } else s.port p' :=
    fun p' => port_setPort _ _ _ _
  have hqp : s₁.queue (.port p) = { s.queue (.port p) with messages := s.mine p (s.queue (.set x)).messages } := by
    rw [hs₁, Ipc.setRemoveMember]
    dsimp only
    rw [queue_setQueue, if_pos rfl]
    show MsgQueue.mk ((QState.queue (QState.setQueue _ (.set x) _) (.port p)).messages ++ _) _ _ = _
    rw [queue_setQueue, if_neg (by simp)]
    show MsgQueue.mk ((s.queue (.port p)).messages ++ _) _ _ = _
    rw [hempty]
    rfl
  have hqs : s₁.queue (.set x) = { s.queue (.set x) with
      messages := (s.queue (.set x)).messages.filter fun m => !decide ((s.msg m).port = p) } := by
    rw [hs₁, Ipc.setRemoveMember]
    dsimp only
    rw [queue_setQueue, if_neg (by simp), queue_setQueue, if_pos rfl]
    rfl
  have hqo : ∀ q', q' ≠ .port p → q' ≠ .set x → s₁.queue q' = s.queue q' := by
    intro q' h1 h2
    rw [hs₁, Ipc.setRemoveMember]
    dsimp only
    rw [queue_setQueue, if_neg h1, queue_setQueue, if_neg h2]
    rfl
  have hframe : ∀ q', (s₁.queue q').lock = (s.queue q').lock ∧ (s₁.queue q').blocked = (s.queue q').blocked := by
    intro q'
    by_cases h1 : q' = .port p
    · rw [h1, hqp]
      exact ⟨rfl, rfl⟩
    · by_cases h2 : q' = .set x
      · rw [h2, hqs]
        exact ⟨rfl, rfl⟩
      · rw [hqo q' h1 h2]
        exact ⟨rfl, rfl⟩
  have hof : ∀ p', p' ≠ p → s₁.queueOf p' = s.queueOf p' := by
    intro p' hne
    refine queueOf_congr ?_
    rw [hp, if_neg hne]
  have hofp : s₁.queueOf p = .port p := by
    refine queueOf_eq_port.mpr ⟨rfl, ?_⟩
    rw [hp, if_pos rfl]
  have hplacing : ∀ q', s₁.placingOn q' = s.placingOn q' := fun q' =>
    placingOn_congr (hframe q').1 fun _ _ => rfl
  refine ⟨h.bound, h.owns, h.ownsOne, h.nodup, fun p' => ?_, fun q' t => ?_, fun q' => ?_, fun q' t => ?_,
    fun t m q' hr => ?_, fun q' m hm => ?_, fun q' hm => ?_, fun p' t hr => ?_, h.hand⟩
  · show s.mine p' s.accepted = s.mine p' (s.left.map Prod.fst) ++
      s.mine p' ((s₁.queue (s₁.queueOf p')).messages ++ s₁.placingOn (s₁.queueOf p')) ++ s.mine p' []
    rw [h.order p', hplacing, QState.pending]
    by_cases he : p' = p
    · rw [he, hofp, hsp, placingOn_none hlock, placingOn_none hport, hqp, List.append_nil, List.append_nil]
      congr 2
      exact (mine_eq_self fun m hm => (mem_mine.mp hm).2).symm
    · rw [hof p' he]
      by_cases hpx : s.queueOf p' = .set x
      · rw [hpx, hqs, mine_append, mine_append]
        congr 3
        unfold QState.mine
        rw [List.filter_filter]
        refine List.filter_congr fun m _ => ?_
        by_cases hm : (s.msg m).port = p'
        · simp [hm, he]
        · simp [hm]
      · rw [hqo _ (fun hn => he (queueOf_eq_port.mp hn).1) hpx]
  · rw [(hframe q').2]
    exact h.blocked q' t
  · rw [(hframe q').2]
    exact h.blockedNodup q'
  · rw [(hframe q').1]
    exact h.lock q' t
  · have hq := h.placing t m q' hr
    have hmp : (s.msg m).port ≠ p := by
      intro he
      rw [he, hsp] at hq
      rw [hq] at hr
      exact (h.lock_none hlock t).1 m hr
    exact hq.trans (hof _ hmp).symm
  · show q' = s₁.queueOf (s.msg m).port
    by_cases h1 : q' = .port p
    · rw [h1, hqp] at hm
      rw [(mem_mine.mp hm).2, hofp, h1]
    · have hold : m ∈ (s.queue q').messages ∧ (s.msg m).port ≠ p := by
        by_cases h2 : q' = .set x
        · rw [h2, hqs] at hm
          obtain ⟨hin, hne⟩ := List.mem_filter.mp hm
          rw [h2]
          exact ⟨hin, by simpa using hne⟩
        · rw [hqo q' h1 h2] at hm
          refine ⟨hm, fun he => h2 ?_⟩
          rw [h.messages q' m hm, he, hsp]
      rw [hof _ hold.2]
      exact h.messages q' m hold.1
  · rw [(hframe q').2]
    by_cases h1 : q' = .port p
    · rw [h1]
      exact hnobody
    · refine h.still q' fun hn => hm ?_
      by_cases h2 : q' = .set x
      · rw [h2] at hn
        rw [h2, hqs, hn]
        rfl
      · rw [hqo q' h1 h2]
        exact hn
  · rw [hp]
    split
    next => exact .inl rfl
    next => exact h.portWait p' t hr

end MachVM.Ipc
