import MachVM.IpcQueueSteps

namespace MachVM.Ipc

variable {s s' : QState} {l : List MsgId} {p : PortId} {q : QueueId} {t : ThreadId} {m : MsgId}

theorem role_idle (h : s.thread t = .idle) : s.role t = .free := by
  rw [QState.role, h]
  rfl

theorem QInv.lt_nextMsg (h : QInv s l)
    (hm : m ∈ s.left.map Prod.fst ∨ m ∈ (s.queue q).messages ∨ m ∈ s.placingOn q ∨ m ∈ l) :
    m < s.nextMsg := h.bound m (h.mem_accepted hm)

theorem QInv.sendCall {size : Nat} {o : SendOptions} (h : QInv s l)
    (hs : Ipc.sendCall s t p size o = some s') : QInv s' l := by
  unfold Ipc.sendCall at hs
  split at hs
  next hidle =>
    cases Option.some.inj hs
    have hfree := role_idle hidle
    set s₁ := ({ s with nextMsg := s.nextMsg + 1 }.setMsg s.nextMsg ⟨p, size, none⟩).setThread t
      (.sending s.nextMsg o true) with hs₁
    have hrole : ∀ t', s₁.role t' = if t' = t then .owns s.nextMsg else s.role t' :=
      fun t' => role_setThread _ _ _ _
    have hkeep : ∀ t' r, r ≠ .free → (∀ m, r ≠ .owns m) → (s₁.role t' = r ↔ s.role t' = r) := by
      intro t' r hf ho
      rw [hrole]
      split
      next he =>
        rw [he, hfree]
        exact ⟨fun he => absurd he.symm (ho _), fun he => absurd he.symm hf⟩
      next => rfl
    have hmsg : ∀ m, m < s.nextMsg → s₁.msg m = s.msg m := by
      intro m hm
      show Function.update s.msg s.nextMsg _ m = _
      rw [Function.update_of_ne (Nat.ne_of_lt hm)]
    have hmine : ∀ p k, (∀ m ∈ k, m < s.nextMsg) → s₁.mine p k = s.mine p k := by
      intro p k hk
      refine mine_congr fun m hm => ?_
      rw [hmsg m (hk m hm)]
    have hplacing : ∀ q, s₁.placingOn q = s.placingOn q := by
      intro q
      refine placingOn_congr rfl fun t' hl => ?_
      rcases (h.lock q t').mp hl with ⟨m, hr⟩ | hr
      · rw [hr]
        exact (hkeep t' _ (by simp) (by simp)).mpr hr
      · rw [hr]
        exact (hkeep t' _ (by simp) (by simp)).mpr hr
    have hpending : ∀ p, s₁.pending p = s.pending p := by
      intro p
      rw [QState.pending, QState.pending, hplacing]
      refine hmine p _ fun m hm => ?_
      rcases List.mem_append.mp hm with hm | hm
      · exact h.lt_nextMsg (.inr (.inl hm))
      · exact h.lt_nextMsg (.inr (.inr (.inl hm)))
    have hown : ∀ t' m, s₁.role t' = .owns m → (t' = t ∧ m = s.nextMsg) ∨ s.role t' = .owns m := by
      intro t' m hr
      rw [hrole] at hr
      split at hr
      next he =>
        cases hr
        exact .inl ⟨he, rfl⟩
      next => exact .inr hr
    refine ⟨?_, ?_, ?_, h.nodup, ?_, ?_, h.blockedNodup, ?_, ?_, ?_, h.still, ?_, ?_⟩
    · exact fun m hm => Nat.lt_succ_of_lt (h.bound m hm)
    · intro t' m hr
      rcases hown t' m hr with ⟨_, rfl⟩ | hr
      · exact ⟨Nat.lt_succ_self _, fun hm => Nat.lt_irrefl _ (h.bound _ hm)⟩
      · exact ⟨Nat.lt_succ_of_lt (h.owns t' m hr).1, (h.owns t' m hr).2⟩
    · intro t₁ t₂ m hr₁ hr₂
      rcases hown t₁ m hr₁ with ⟨h₁, hm⟩ | hr₁
      · rcases hown t₂ m hr₂ with ⟨h₂, _⟩ | hr₂
        · rw [h₁, h₂]
        · exact absurd (h.owns t₂ m hr₂).1 (hm ▸ Nat.lt_irrefl _)
      · rcases hown t₂ m hr₂ with ⟨_, hm⟩ | hr₂
        · exact absurd (h.owns t₁ m hr₁).1 (hm ▸ Nat.lt_irrefl _)
        · exact h.ownsOne t₁ t₂ m hr₁ hr₂
    · intro p
      rw [hpending]
      show s₁.mine p s.accepted = s₁.mine p (s.left.map Prod.fst) ++ _ ++ _
      rw [hmine p _ h.bound, hmine p l fun m hm => h.lt_nextMsg (q := .port p) (.inr (.inr (.inr hm))),
        hmine p (s.left.map Prod.fst) fun m hm => h.lt_nextMsg (q := .port p) (.inl hm)]
      exact h.order p
    · intro q t'
      rw [hkeep t' _ (by simp) (by simp)]
      exact h.blocked q t'
    · intro q t'
      have hpl : ∀ m, s₁.role t' = .placing m q ↔ s.role t' = .placing m q := fun m =>
        hkeep t' _ (by simp) (by simp)
      rw [hkeep t' (.receiving q) (by simp) (by simp)]
      simp only [hpl]
      exact h.lock q t'
    · intro t' m q hr
      rw [hkeep t' _ (by simp) (by simp)] at hr
      have hin : m ∈ s.placingOn q := (h.placingOn_eq q m).mpr ⟨t', hr⟩
      rw [hmsg m (h.lt_nextMsg (.inr (.inr (.inl hin))))]
      exact h.placing t' m q hr
    · intro q m hm
      rw [hmsg m (h.lt_nextMsg (.inr (.inl hm)))]
      exact h.messages q m hm
    · intro p t' hr
      rw [hkeep t' _ (by simp) (by simp), hkeep t' _ (by simp) (by simp)] at hr
      exact h.portWait p t' hr
    · intro t' m hr
      exact h.hand t' m ((hkeep t' _ (by simp) (by simp)).mp hr)
  next => simp at hs

theorem QInv.accept (h : QInv s []) {x : QPort} (hown : s.role t = .owns m) (hp : (s.msg m).port = p)
    (hq : q = s.queueOf p) (hlock : (s.queue q).lock = none) (hx : x.set = (s.port p).set ∧
      x.locked = (s.port p).locked) :
    QInv ((({ s with accepted := s.accepted ++ [m] }.setPort p x).setQueue q
      { s.queue q with lock := some t }).setThread t (.placing m q)) [] := by
  set s₁ := (({ s with accepted := s.accepted ++ [m] }.setPort p x).setQueue q
      { s.queue q with lock := some t }).setThread t (.placing m q) with hs₁
  obtain ⟨hlt, hnew⟩ := h.owns t m hown
  have hport : ∀ p', (s₁.port p').set = (s.port p').set ∧ (s₁.port p').locked = (s.port p').locked := by
    intro p'
    show (Function.update s.port p x p').set = _ ∧ (Function.update s.port p x p').locked = _
    rw [Function.update_apply]
    split
    next he =>
      rw [he]
      exact hx
    next => exact ⟨rfl, rfl⟩
  have hof : ∀ p', s₁.queueOf p' = s.queueOf p' := fun p' => queueOf_congr (hport p').1
  have hrole : ∀ t', s₁.role t' = if t' = t then .placing m q else s.role t' :=
    fun t' => role_setThread _ _ _ _
  have hkeep : ∀ t' r, (∀ m, r ≠ .owns m) → (∀ m, r ≠ .placing m q) → (s₁.role t' = r ↔ s.role t' = r) := by
    intro t' r ho hpl
    rw [hrole]
    split
    next he =>
      rw [he, hown]
      exact ⟨fun he => absurd he.symm (hpl _), fun he => absurd he.symm (ho _)⟩
    next => rfl
  have hqueue : ∀ q', s₁.queue q' = if q' = q then { s.queue q with lock := some t } else s.queue q' :=
    fun q' => queue_setQueue _ _ _ _
  have hmessages : ∀ q', (s₁.queue q').messages = (s.queue q').messages := by
    intro q'
    rw [hqueue]
    split
    next he => rw [he]
    next => rfl
  have hblocked : ∀ q', (s₁.queue q').blocked = (s.queue q').blocked := by
    intro q'
    rw [hqueue]
    split
    next he => rw [he]
    next => rfl
  have hself : s₁.placingOn q = [m] := by
    unfold QState.placingOn
    rw [hqueue, if_pos rfl]
    dsimp only
    rw [hrole, if_pos rfl]
  have hother : ∀ q', q' ≠ q → s₁.placingOn q' = s.placingOn q' := by
    intro q' hne
    refine placingOn_congr (by rw [hqueue, if_neg hne]) fun t' hl => ?_
    rcases (h.lock q' t').mp hl with ⟨m', hr⟩ | hr
    · rw [hr]
      exact (hkeep t' _ (by simp) (by simp [hne])).mpr hr
    · rw [hr]
      exact (hkeep t' _ (by simp) (by simp)).mpr hr
  have hback : ∀ t' m', s₁.role t' = .owns m' → t' ≠ t ∧ s.role t' = .owns m' := by
    intro t' m' hr
    rw [hrole] at hr
    split at hr
    next => simp at hr
    next he => exact ⟨he, hr⟩
  refine ⟨?_, ?_, ?_, ?_, ?_, ?_, ?_, ?_, ?_, ?_, ?_, ?_, ?_⟩
  · intro m' hm
    rcases List.mem_append.mp hm with hm | hm
    · exact h.bound m' hm
    · rw [List.mem_singleton.mp hm]
      exact hlt
  · intro t' m' hr
    obtain ⟨hne, hr⟩ := hback t' m' hr
    refine ⟨(h.owns t' m' hr).1, fun hm => ?_⟩
    rcases List.mem_append.mp hm with hm | hm
    · exact (h.owns t' m' hr).2 hm
    · rw [List.mem_singleton.mp hm] at hr
      exact hne (h.ownsOne t' t m hr hown)
  · intro t₁ t₂ m' hr₁ hr₂
    exact h.ownsOne t₁ t₂ m' (hback t₁ m' hr₁).2 (hback t₂ m' hr₂).2
  · refine List.Nodup.append h.nodup (List.nodup_singleton m) ?_
    intro y hy hy'
    rw [List.mem_singleton.mp hy'] at hy
    exact hnew hy
  · intro p'
    have hord := h.order p'
    show s.mine p' (s.accepted ++ [m]) = s.mine p' (s.left.map Prod.fst) ++ _ ++ s.mine p' []
    rw [mine_append, hord]
    show _ = _ ++ s.mine p' ((s₁.queue (s₁.queueOf p')).messages ++ s₁.placingOn (s₁.queueOf p')) ++ _
    rw [hof, hmessages, QState.pending]
    by_cases hp' : s.queueOf p' = q
    · rw [hp', hself, placingOn_none hlock, List.append_nil, mine_append]
      simp [QState.mine]
    · have hne : (s.msg m).port ≠ p' := by
        rintro rfl
        rw [hp] at hp'
        exact hp' hq.symm
      rw [hother _ hp', mine_singleton_ne hne, List.append_nil]
  · intro q' t'
    rw [hblocked, hkeep t' _ (by simp) (by simp)]
    exact h.blocked q' t'
  · intro q'
    rw [hblocked]
    exact h.blockedNodup q'
  · intro q' t'
    rw [hkeep t' (.receiving q') (by simp) (by simp), hqueue]
    by_cases hq' : q' = q
    · rw [if_pos hq', hq']
      obtain ⟨hpl, hrc⟩ := h.lock_none hlock t'
      rw [hrole]
      split
      next he => simp [he]
      next he =>
        simp only [hpl, hrc, exists_const, or_self, iff_false]
        exact fun hl => he (Option.some.inj hl).symm
    · have hpl : ∀ m, s₁.role t' = .placing m q' ↔ s.role t' = .placing m q' := fun m =>
        hkeep t' _ (by simp) (by simp [hq'])
      rw [if_neg hq']
      simp only [hpl]
      exact h.lock q' t'
  · intro t' m' q' hr
    rw [hof]
    rw [hrole] at hr
    split at hr
    next =>
      cases hr
      show _ = s.queueOf (s.msg m).port
      rw [hp]
      exact hq
    next => exact h.placing t' m' q' hr
  · intro q' m' hm
    rw [hmessages] at hm
    rw [hof]
    exact h.messages q' m' hm
  · intro q'
    rw [hmessages, hblocked]
    exact h.still q'
  · intro p' t' hr
    rw [hkeep t' _ (by simp) (by simp), hkeep t' _ (by simp) (by simp)] at hr
    rw [(hport p').1, (hport p').2]
    exact h.portWait p' t' hr
  · intro t' m' hr
    exact h.hand t' m' ((hkeep t' _ (by simp) (by simp)).mp hr)

/-! ## Stretches that leave the queues alone -/

theorem drops_owns (h : s.role t = .owns m) : Drops (s.role t) Role.free := .inr ⟨rfl, m, .inl h⟩

theorem QInv.giveUp (h : QInv s l) (hown : s.role t = .owns m) (hs : Ipc.giveUp s t = some s') :
    QInv s' l := by
  cases Option.some.inj hs
  exact h.setThread (drops_owns hown)

theorem QInv.sendAccept (h : QInv s []) (hown : s.role t = .owns m) (hp : (s.msg m).port = p)
    (hs : Ipc.sendAccept s t m p = some s') : QInv s' [] := by
  unfold Ipc.sendAccept at hs
  split at hs
  next => exact h.giveUp hown hs
  next =>
    dsimp only at hs
    split at hs
    next => simp at hs
    next hl =>
      cases Option.some.inj hs
      exact h.accept hown hp rfl hl ⟨rfl, rfl⟩

theorem port_setPort (s : QState) (p p' : PortId) (x : QPort) :
    (s.setPort p x).port p' = if p' = p then x else s.port p' := by
  unfold QState.setPort
  dsimp only
  rw [Function.update_apply]

theorem QInv.setPort (h : QInv s l) {x : QPort} (hset : x.set = (s.port p).set)
    (hlocked : (s.port p).locked = true → x.locked = true ∨
      ∀ t, s.role t ≠ .blocked (.port p) ∧ s.role t ≠ .receiving (.port p)) : QInv (s.setPort p x) l := by
  refine h.congr (fun p' => ?_) (fun p' hl => ?_) rfl (fun _ => .inl rfl) (fun _ => rfl) rfl rfl rfl
  · rw [port_setPort]
    split
    next he =>
      rw [he]
      exact hset
    next => rfl
  · rw [port_setPort]
    split
    next he =>
      rw [he] at hl ⊢
      exact hlocked hl
    next => exact .inl hl

theorem msg_setMsg (s : QState) (m m' : MsgId) (x : Kmsg) :
    (s.setMsg m x).msg m' = if m' = m then x else s.msg m' := by
  unfold QState.setMsg
  dsimp only
  rw [Function.update_apply]

theorem QInv.setMsg (h : QInv s l) {x : Kmsg} (hx : x.port = (s.msg m).port) : QInv (s.setMsg m x) l := by
  refine h.congr (fun _ => rfl) (fun _ hl => .inl hl) rfl (fun _ => .inl rfl) (fun m' => ?_) rfl rfl rfl
  rw [msg_setMsg]
  split
  next he =>
    rw [he]
    exact hx
  next => rfl

theorem QInv.aside (h : QInv s l) (hport : s'.port = s.port) (hq : s'.queue = s.queue)
    (hthread : s'.thread = s.thread) (hmsg : s'.msg = s.msg) (hnext : s'.nextMsg = s.nextMsg)
    (hacc : s'.accepted = s.accepted) (hleft : s'.left = s.left) : QInv s' l := by
  refine h.congr (fun p => by rw [hport]) (fun p hl => .inl (by rw [hport]; exact hl)) hq (fun t => .inl ?_)
    (fun m => by rw [hmsg]) hnext hacc hleft
  rw [QState.role, QState.role, hthread]

theorem QInv.sendNotify (h : QInv s []) (hown : s.role t = .owns m) (hp : (s.msg m).port = p)
    (hs : Ipc.sendNotify s t m p = some s') : QInv s' [] := by
  unfold Ipc.sendNotify at hs
  split at hs
  next => exact h.giveUp hown hs
  next e _ =>
    split at hs
    next => exact h.giveUp hown hs
    next =>
      have hx : QInv ({ s with willNotify := s.willNotify ++ [m] }.setEntry e
          { s.entry e with kmsg := some m }) [] := h.aside rfl rfl rfl rfl rfl rfl rfl
      have hm := QInv.setMsg (m := m) hx (x := { s.msg m with senderEntry := some e }) rfl
      refine hm.sendAccept hown ?_ hs
      rw [msg_setMsg, if_pos rfl]
      exact hp

theorem QInv.sendBlock {o o' : SendOptions} {fresh : Bool} (h : QInv s l)
    (ht : s.thread t = .sending m o' fresh) (hs : Ipc.sendBlock s t m p o = some s') : QInv s' l := by
  cases Option.some.inj hs
  refine (h.setPort (p := p) (x := { s.port p with senders := (s.port p).senders ++ [t] }) rfl
    .inl).setThread (.inl ?_)
  show _ = (s.thread t).role
  rw [ht]
  rfl

theorem sendTry_cases (hs : Ipc.sendTry s t = some s') : ∃ m o fresh, s.thread t = .sending m o fresh ∧
    (s.port (s.msg m).port).locked = false ∧
    (Ipc.giveUp s t = some s' ∨
      (((s.port (s.msg m).port).count < (s.port (s.msg m).port).backlog ∨ o.always = true) ∧
        Ipc.sendAccept s t m (s.msg m).port = some s') ∨
      ((s.port (s.msg m).port).backlog ≤ (s.port (s.msg m).port).count ∧
        (s.port (s.msg m).port).inUse = true ∧
        ((o.notify = true ∧ Ipc.sendNotify s t m (s.msg m).port = some s') ∨
          ∃ tout, Ipc.sendBlock s t m (s.msg m).port { o with tout := tout } = some s'))) := by
  unfold Ipc.sendTry at hs
  split at hs
  next m o fresh he =>
    dsimp only at hs
    generalize (if o.timeout = true then o.tout else 0) = tout at hs
    split at hs
    next => simp at hs
    next hlocked =>
      refine ⟨m, o, fresh, he, by simpa using hlocked, ?_⟩
      split at hs
      next => exact .inl hs
      next =>
        split at hs
        next hroom =>
          rw [Bool.or_eq_true, decide_eq_true_eq] at hroom
          exact .inr (.inl ⟨hroom, hs⟩)
        next hroom =>
          rw [Bool.or_eq_true, decide_eq_true_eq, not_or, Int.not_lt] at hroom
          split at hs
          next => exact .inl hs
          next hin =>
            have hlive : (s.port (s.msg m).port).inUse = true := by simpa using hin
            split at hs
            next =>
              split at hs
              next hn => exact .inr (.inr ⟨hroom.1, hlive, .inl ⟨hn, hs⟩⟩)
              next =>
                split at hs
                next => exact .inl hs
                next => exact .inr (.inr ⟨hroom.1, hlive, .inr ⟨tout, hs⟩⟩)
            next => exact .inr (.inr ⟨hroom.1, hlive, .inr ⟨tout, hs⟩⟩)
  next => simp at hs

theorem QInv.sendTry (h : QInv s []) (hs : Ipc.sendTry s t = some s') : QInv s' [] := by
  obtain ⟨m, o, fresh, he, _, hs⟩ := sendTry_cases hs
  have hown : s.role t = .owns m := by rw [QState.role, he]; rfl
  rcases hs with hs | ⟨_, hs⟩ | ⟨_, _, ⟨_, hs⟩ | ⟨tout, hs⟩⟩
  · exact h.giveUp hown hs
  · exact h.sendAccept hown rfl hs
  · exact h.sendNotify hown rfl hs
  · exact h.sendBlock he hs

theorem QInv.sendWake {r : WaitResult} (h : QInv s l) (hs : Ipc.sendWake s t r = some s') :
    QInv s' l := by
  unfold Ipc.sendWake at hs
  split at hs
  next m o he =>
    have hown : s.role t = .owns m := by rw [QState.role, he]; rfl
    dsimp only at hs
    split at hs
    next => simp at hs
    next =>
      have hport := h.setPort (p := (s.msg m).port) (x := { s.port (s.msg m).port with
        senders := (s.port (s.msg m).port).senders.erase t }) rfl .inl
      cases r with
      | interrupted =>
        cases Option.some.inj hs
        exact hport.setThread (.inr ⟨rfl, m, .inl hown⟩)
      | timedOut =>
        cases Option.some.inj hs
        exact hport.setThread (.inl hown.symm)
      | other =>
        cases Option.some.inj hs
        exact hport.setThread (.inl hown.symm)
  next => simp at hs

theorem role_wakeSender (x : Thread) : (wakeSender x).role = x.role := by
  cases x <;> rfl

theorem QInv.wake (h : QInv s l) (ts : List ThreadId) : QInv (s.wake ts wakeSender) l := by
  refine h.congr (fun _ => rfl) (fun _ hl => .inl hl) rfl (fun t => .inl ?_) (fun _ => rfl) rfl rfl rfl
  rw [role_wake]
  split
  next => exact role_wakeSender _
  next => rfl

theorem QInv.wakeSenders (h : QInv s l) (p : PortId) : QInv (Ipc.wakeSenders s p) l :=
  QInv.setPort (h.wake _) rfl .inl

theorem QInv.acceptNotify (h : QInv s l) (m : MsgId) : QInv (Ipc.acceptNotify s m) l := by
  unfold Ipc.acceptNotify
  split
  next => exact h
  next => exact h.aside rfl rfl rfl rfl rfl rfl rfl

theorem thread_acceptNotify (s : QState) (m : MsgId) : (Ipc.acceptNotify s m).thread = s.thread := by
  unfold Ipc.acceptNotify
  split <;> rfl

theorem QInv.finish (h : QInv s l) (hs : Ipc.finish s t = some s') : QInv s' l := by
  unfold Ipc.finish at hs
  split at hs
  next m he =>
    dsimp only at hs
    split at hs
    next => simp at hs
    next =>
      set s₁ := s.setPort (s.msg m).port { s.port (s.msg m).port with
        count := (s.port (s.msg m).port).count - 1 } with hs₁
      set s₂ := if (s₁.port (s.msg m).port).count = 0 then Ipc.wakeSenders s₁ (s.msg m).port else s₁ with hs₂
      have h₁ : QInv s₁ l := h.setPort rfl .inl
      have h₂ : QInv s₂ l ∧ s₂.role t = s.role t := by
        rw [hs₂]
        split
        next =>
          refine ⟨h₁.wakeSenders _, ?_⟩
          show (s₁.wake _ wakeSender).role t = _
          rw [role_wake]
          split
          next => exact role_wakeSender _
          next => rfl
        next => exact ⟨h₁, rfl⟩
      have h₃ : QInv { Ipc.acceptNotify s₂ m with finished := (Ipc.acceptNotify s₂ m).finished ++ [m] } l :=
        (h₂.1.acceptNotify m).aside rfl rfl rfl rfl rfl rfl rfl
      cases Option.some.inj hs
      refine h₃.setThread (.inr ⟨rfl, m, .inr ?_⟩)
      show ((Ipc.acceptNotify s₂ m).thread t).role = _
      rw [thread_acceptNotify]
      refine h₂.2.trans ?_
      rw [QState.role, he]
      rfl
  next => simp at hs

end MachVM.Ipc
