import MachVM.IpcQueueCount

namespace MachVM.Ipc

variable {good : PortId → Prop} {s s' s'' : QState} {l : List MsgId} {p : PortId} {q : QueueId}
  {t : ThreadId} {m : MsgId}

theorem CountInv.sendCall {size : Nat} {o : SendOptions} (h : CountInv good s) (hq : QInv s l)
    (hgood : good p → o.always = false ∧ o.notify = false)
    (hs : Ipc.sendCall s t p size o = some s') : CountInv good s' := by
  unfold Ipc.sendCall at hs
  split at hs
  next hidle =>
    cases Option.some.inj hs
    set s₁ := ({ s with nextMsg := s.nextMsg + 1 }.setMsg s.nextMsg ⟨p, size, none⟩).setThread t
      (.sending s.nextMsg o true) with hs₁
    have hthread : ∀ t', s₁.thread t' = if t' = t then .sending s.nextMsg o true else s.thread t' :=
      fun t' => Function.update_apply ..
    have hrole : ∀ t', s₁.role t' = if t' = t then .owns s.nextMsg else s.role t' :=
      fun t' => role_setThread _ _ _ _
    have hmsg : ∀ m, s₁.msg m = if m = s.nextMsg then ⟨p, size, none⟩ else s.msg m :=
      fun m => msg_setMsg _ _ _ _
    refine h.uncounted hq ⟨fun _ => ⟨rfl, rfl, rfl, fun h => h⟩, fun t' m => ?_, fun t' m o' hx => ?_,
      fun t' m o' hx => ?_, fun m hm => ?_, Nat.le_succ _, rfl, rfl, rfl⟩
    · rw [hrole]
      split
      next he =>
        rw [he, role_idle hidle]
        simp
      next => rfl
    · rw [hthread] at hx
      split at hx
      next =>
        cases Option.some.inj hx
        refine .inr fun hg => ?_
        rw [hmsg, if_pos rfl] at hg
        exact hgood hg
      next => exact .inl hx
    · rw [hthread] at hx
      split at hx
      next => simp at hx
      next => exact hx
    · rw [hmsg, if_neg (Nat.ne_of_lt hm)]
  next => simp at hs

theorem CountInv.sendWake {r : WaitResult} (h : CountInv good s) (hs : Ipc.sendWake s t r = some s') :
    CountInv good s' := by
  unfold Ipc.sendWake at hs
  split at hs
  next m o he =>
    dsimp only at hs
    split at hs
    next => simp at hs
    next =>
      have hrole : s.role t = .owns m := by rw [QState.role, he]; rfl
      have hto : ∀ x : Thread, (∀ m', x.role ≠ .hand m') → (∀ m' o', x ≠ .sendBlocked m' o') →
          (∀ m' o', x.out = some (m', o') → m' = m ∧ o'.always = o.always ∧ o'.notify = o.notify) →
          CountInv good ((s.setPort (s.msg m).port { s.port (s.msg m).port with
            senders := (s.port (s.msg m).port).senders.erase t }).setThread t x) := by
        intro x hhand hwait hout
        set s₁ := (s.setPort (s.msg m).port { s.port (s.msg m).port with
          senders := (s.port (s.msg m).port).senders.erase t }).setThread t x with hs₁
        have hport : ∀ p', (s₁.port p').count = (s.port p').count ∧
            (s₁.port p').backlog = (s.port p').backlog ∧ (s₁.port p').inUse = (s.port p').inUse ∧
            (∀ t' ∈ (s₁.port p').senders, t' ∈ (s.port p').senders) ∧
            ∀ t' ∈ (s.port p').senders, t' ≠ t → t' ∈ (s₁.port p').senders := by
          intro p'
          have hp : s₁.port p' = if p' = (s.msg m).port then { s.port (s.msg m).port with
              senders := (s.port (s.msg m).port).senders.erase t } else s.port p' := port_setPort _ _ _ _
          rw [hp]
          split
          next he =>
            rw [he]
            exact ⟨rfl, rfl, rfl, fun _ ht => List.mem_of_mem_erase ht,
              fun _ ht hne => (List.mem_erase_of_ne hne).mpr ht⟩
          next => exact ⟨rfl, rfl, rfl, fun _ ht => ht, fun _ ht _ => ht⟩
        have hthread : ∀ t', s₁.thread t' = if t' = t then x else s.thread t' := fun t' =>
          Function.update_apply ..
        have hr : ∀ t' m', s₁.role t' = .hand m' ↔ s.role t' = .hand m' := by
          intro t' m'
          have : s₁.role t' = if t' = t then x.role else s.role t' := role_setThread _ _ _ _
          rw [this]
          split
          next he => simp [he, hrole, hhand]
          next => rfl
        refine ⟨fun p' => ?_, h.finishedNodup, h.finished, fun t' m' => ?_, fun t' m' => ?_, fun m' hm => ?_,
          fun p' => ?_, fun p' hne => ?_, fun t' m' o' hx => ?_, fun p' hg t' m' o' hx hm => ?_, fun p' hg => ?_⟩
        · rw [(hport p').1]
          exact h.count p'
        · rw [hr]
          exact h.hand t' m'
        · rw [hr]
          exact h.unfinished t' m'
        · show (s₁.port (s.msg m').port).inUse = false
          rw [(hport _).2.2.1]
          exact h.destroyed m' hm
        · rw [(hport p').2.1]
          exact h.backlog p'
        · rw [(hport p').1]
          obtain ⟨t', ht'⟩ := List.exists_mem_of_ne_nil _ hne
          exact h.senders p' (List.ne_nil_of_mem ((hport p').2.2.2.1 t' ht'))
        · rw [hthread] at hx
          split at hx
          next => exact absurd hx (hwait m' o')
          next hne => exact (hport _).2.2.2.2 t' (h.waits t' m' o' hx) hne
        · rw [hthread] at hx
          split at hx
          next =>
            obtain ⟨rfl, ha, hn⟩ := hout m' o' hx
            rw [ha, hn]
            exact h.polite p' hg t m' o (by rw [he]; rfl) hm
          next => exact h.polite p' hg t' m' o' hx hm
        · rw [(hport p').1, (hport p').2.1]
          exact h.room p' hg
      cases r with
      | interrupted =>
        cases Option.some.inj hs
        exact hto .idle (by simp [Thread.role]) (by simp) (by simp [Thread.out])
      | timedOut =>
        cases Option.some.inj hs
        refine hto _ (by simp [Thread.role]) (by simp) fun m' o' hx => ?_
        cases Option.some.inj hx
        exact ⟨rfl, rfl, rfl⟩
      | other =>
        cases Option.some.inj hs
        refine hto _ (by simp [Thread.role]) (by simp) fun m' o' hx => ?_
        cases Option.some.inj hx
        exact ⟨rfl, rfl, rfl⟩
  next => simp at hs

theorem out_wakeSender (x : Thread) : (wakeSender x).out = x.out := by
  cases x <;> rfl

theorem wakeSender_ne (x : Thread) (m : MsgId) (o : SendOptions) : wakeSender x ≠ .sendBlocked m o := by
  cases x <;> simp [wakeSender]

theorem CountInv.wakeSome {ts rest : List ThreadId} {x : QPort} (h : CountInv good s)
    (hsplit : ∀ t ∈ (s.port p).senders, t ∈ ts ∨ t ∈ rest) (hrest : ∀ t ∈ rest, t ∈ (s.port p).senders)
    (hx : x.count = (s.port p).count ∧ x.inUse = (s.port p).inUse ∧ x.senders = rest ∧ 0 < x.backlog)
    (hroom : good p → (s.port p).backlog ≤ x.backlog) :
    CountInv good ((s.wake ts wakeSender).setPort p x) := by
  set s₁ := (s.wake ts wakeSender).setPort p x with hs₁
  have hport : ∀ p', s₁.port p' = if p' = p then x else s.port p' := fun p' => port_setPort _ _ _ _
  have hthread : ∀ t', s₁.thread t' = if t' ∈ ts then wakeSender (s.thread t') else s.thread t' := fun _ => rfl
  have hcount : ∀ p', (s₁.port p').count = (s.port p').count ∧ (s₁.port p').inUse = (s.port p').inUse := by
    intro p'
    rw [hport]
    split
    next he =>
      rw [he]
      exact ⟨hx.1, hx.2.1⟩
    next => exact ⟨rfl, rfl⟩
  have hrole : ∀ t', s₁.role t' = s.role t' := by
    intro t'
    rw [QState.role, hthread]
    split
    next => exact role_wakeSender _
    next => rfl
  have hout : ∀ t', (s₁.thread t').out = (s.thread t').out := by
    intro t'
    rw [hthread]
    split
    next => exact out_wakeSender _
    next => rfl
  refine ⟨fun p' => ?_, h.finishedNodup, h.finished, fun t' m' => ?_, fun t' m' => ?_, fun m' hm => ?_,
    fun p' => ?_, fun p' hne => ?_, fun t' m' o' hxt => ?_, fun p' hg t' m' o' => ?_, fun p' hg => ?_⟩
  · rw [(hcount p').1]
    exact h.count p'
  · rw [hrole]
    exact h.hand t' m'
  · rw [hrole]
    exact h.unfinished t' m'
  · show (s₁.port (s.msg m').port).inUse = false
    rw [(hcount _).2]
    exact h.destroyed m' hm
  · rw [hport]
    split
    next => exact hx.2.2.2
    next => exact h.backlog p'
  · rw [(hcount p').1]
    rw [hport] at hne
    split at hne
    next he =>
      rw [he]
      rw [hx.2.2.1] at hne
      obtain ⟨t', ht'⟩ := List.exists_mem_of_ne_nil _ hne
      exact h.senders p (List.ne_nil_of_mem (hrest t' ht'))
    next => exact h.senders p' hne
  · rw [hthread] at hxt
    split at hxt
    next => exact absurd hxt (wakeSender_ne _ m' o')
    next hts =>
      have hin := h.waits t' m' o' hxt
      show t' ∈ (s₁.port (s.msg m').port).senders
      rw [hport]
      split
      next he =>
        rw [he] at hin
        rw [hx.2.2.1]
        exact (hsplit t' hin).resolve_left hts
      next => exact hin
  · rw [hout]
    exact h.polite p' hg t' m' o'
  · rw [(hcount p').1, hport]
    split
    next he =>
      rw [he] at hg ⊢
      have := h.room p hg
      have := hroom hg
      omega
    next => exact h.room p' hg

theorem CountInv.portSetBacklog {t : TaskId} {b : Int} (h : CountInv good s)
    (hgood : good p → (s.port p).backlog ≤ b) (hs : Ipc.portSetBacklog s t p b = some s') :
    CountInv good s' := by
  unfold Ipc.portSetBacklog at hs
  split at hs
  next => simp at hs
  next =>
    split at hs
    next => simp at hs
    next hb =>
      cases Option.some.inj hs
      refine h.wakeSome (fun t' ht => ?_) (fun t' ht => List.mem_of_mem_drop ht) ⟨rfl, rfl, rfl, ?_⟩ hgood
      · rw [← List.take_append_drop (b - (s.port p).backlog).toNat (s.port p).senders] at ht
        exact List.mem_append.mp ht
      · show 0 < b
        omega

theorem CountInv.wakeSenders (h : CountInv good s) (p : PortId) : CountInv good (Ipc.wakeSenders s p) :=
  h.wakeSome (fun _ ht => .inl ht) (fun _ ht => by simp at ht) ⟨rfl, rfl, rfl, h.backlog p⟩ fun _ => Int.le_refl _

theorem finish_effect (hs : Ipc.finish s t = some s') : ∃ m, s.thread t = .holding m ∧
    (∀ p', s'.port p' = if p' = (s.msg m).port then
      { s.port p' with
        count := (s.port p').count - 1
        senders := if (s.port p').count - 1 = 0 then [] else (s.port p').senders } else s.port p') ∧
    (∀ t', s'.thread t' = if t' = t then .idle else
      if (s.port (s.msg m).port).count - 1 = 0 ∧ t' ∈ (s.port (s.msg m).port).senders then
        wakeSender (s.thread t') else s.thread t') ∧
    s'.msg = s.msg ∧ s'.nextMsg = s.nextMsg ∧ s'.accepted = s.accepted ∧
    s'.finished = s.finished ++ [m] ∧ s'.left = s.left := by
  have hnotify : ∀ (u : QState) (m : MsgId), (Ipc.acceptNotify u m).port = u.port ∧
      (Ipc.acceptNotify u m).msg = u.msg ∧ (Ipc.acceptNotify u m).nextMsg = u.nextMsg ∧
      (Ipc.acceptNotify u m).accepted = u.accepted ∧ (Ipc.acceptNotify u m).finished = u.finished ∧
      (Ipc.acceptNotify u m).left = u.left := by
    intro u m
    unfold Ipc.acceptNotify
    split <;> exact ⟨rfl, rfl, rfl, rfl, rfl, rfl⟩
  unfold Ipc.finish at hs
  split at hs
  next m he =>
    refine ⟨m, he, ?_⟩
    dsimp only at hs
    split at hs
    next => simp at hs
    next =>
      set s₁ := s.setPort (s.msg m).port { s.port (s.msg m).port with
        count := (s.port (s.msg m).port).count - 1 } with hs₁
      have hp₁ : s₁.port (s.msg m).port = { s.port (s.msg m).port with
          count := (s.port (s.msg m).port).count - 1 } := by
        rw [hs₁, port_setPort, if_pos rfl]
      rw [hp₁] at hs
      cases Option.some.inj hs
      set s₂ := if (s.port (s.msg m).port).count - 1 = 0 then Ipc.wakeSenders s₁ (s.msg m).port else s₁ with hs₂
      obtain ⟨hport, hmsg, hnext, hacc, hfin, hleft⟩ := hnotify s₂ m
      refine ⟨fun p' => ?_, fun t' => ?_, ?_, ?_, ?_, ?_, ?_⟩
      · show (Ipc.acceptNotify s₂ m).port p' = _
        rw [hport, hs₂]
        by_cases hz : (s.port (s.msg m).port).count - 1 = 0
        · rw [if_pos hz]
          show (QState.setPort _ _ _).port p' = _
          rw [port_setPort]
          split
          next hp =>
            rw [hp, hp₁, if_pos hz]
          next hp =>
            show s₁.port p' = _
            rw [hs₁, port_setPort, if_neg hp]
        · rw [if_neg hz, hs₁, port_setPort]
          split
          next hp => rw [hp, if_neg hz]
          next => rfl
      · show Function.update (Ipc.acceptNotify s₂ m).thread t .idle t' = _
        rw [Function.update_apply, thread_acceptNotify, hs₂]
        split
        next => rfl
        next =>
          by_cases hz : (s.port (s.msg m).port).count - 1 = 0
          · rw [if_pos hz]
            show (if t' ∈ (s₁.port (s.msg m).port).senders then wakeSender (s₁.thread t') else s₁.thread t') = _
            rw [hp₁]
            simp only [hz, true_and]
            rfl
          · rw [if_neg hz]
            simp only [hz, false_and, if_false]
            rfl
      · show (Ipc.acceptNotify s₂ m).msg = _
        rw [hmsg, hs₂]
        split <;> rfl
      · show (Ipc.acceptNotify s₂ m).nextMsg = _
        rw [hnext, hs₂]
        split <;> rfl
      · show (Ipc.acceptNotify s₂ m).accepted = _
        rw [hacc, hs₂]
        split <;> rfl
      · show (Ipc.acceptNotify s₂ m).finished ++ [m] = _
        rw [hfin, hs₂]
        split <;> rfl
      · show (Ipc.acceptNotify s₂ m).left = _
        rw [hleft, hs₂]
        split <;> rfl
  next => simp at hs

theorem CountInv.finish (h : CountInv good s) (hq : QInv s []) (hs : Ipc.finish s t = some s') :
    CountInv good s' := by
  obtain ⟨m, he, hport, hthread, hmsg, _, hacc, hfin, hleft⟩ := finish_effect hs
  have hrole : s.role t = .hand m := by rw [QState.role, he]; rfl
  have hleftm := hq.hand t m hrole
  have hnew := h.unfinished t m hrole
  have hmine : ∀ p k, s'.mine p k = s.mine p k := fun p k => mine_congr fun m' _ => by rw [hmsg]
  have hcount : ∀ p, (s'.port p).count = (s.port p).count - (if (s.msg m).port = p then 1 else 0) := by
    intro p
    rw [hport]
    by_cases hp : p = (s.msg m).port
    · rw [if_pos hp, if_pos hp.symm]
    · rw [if_neg hp, if_neg (Ne.symm hp), Int.sub_zero]
  have hrest : ∀ p, (s'.port p).backlog = (s.port p).backlog ∧ (s'.port p).inUse = (s.port p).inUse := by
    intro p
    rw [hport]
    split <;> exact ⟨rfl, rfl⟩
  have hroles : ∀ t' m', s'.role t' = .hand m' ↔ t' ≠ t ∧ s.role t' = .hand m' := by
    intro t' m'
    rw [QState.role, hthread]
    by_cases ht : t' = t
    · rw [if_pos ht]
      simp [Thread.role, ht]
    · rw [if_neg ht]
      split
      next =>
        rw [role_wakeSender]
        exact ⟨fun hr => ⟨ht, hr⟩, fun hr => hr.2⟩
      next => exact ⟨fun hr => ⟨ht, hr⟩, fun hr => hr.2⟩
  have hout : ∀ t' m' o, (s'.thread t').out = some (m', o) → (s.thread t').out = some (m', o) := by
    intro t' m' o hx
    rw [hthread] at hx
    split at hx
    next => simp [Thread.out] at hx
    next =>
      split at hx
      next =>
        rw [out_wakeSender] at hx
        exact hx
      next => exact hx
  refine ⟨fun p => ?_, ?_, ?_, ?_, ?_, ?_, fun p => ?_, fun p hne => ?_, fun t' m' o hx => ?_,
    fun p hg t' m' o hx hm => ?_, fun p hg => ?_⟩
  · rw [hcount, h.count p, hacc, hfin, hmine, hmine, mine_length]
    push_cast
    split <;> omega
  · rw [hfin]
    refine List.Nodup.append h.finishedNodup (List.nodup_singleton m) fun y hy hy' => ?_
    rw [List.mem_singleton.mp hy'] at hy
    exact hnew hy
  · intro m' hm
    rw [hfin] at hm
    rw [hleft]
    rcases List.mem_append.mp hm with hm | hm
    · exact h.finished m' hm
    · rw [List.mem_singleton.mp hm]
      exact ⟨t, hleftm⟩
  · intro t' m' hin hun
    rw [hleft] at hin
    rw [hfin, List.mem_append, not_or, List.mem_singleton] at hun
    have hr := h.hand t' m' hin hun.1
    refine (hroles t' m').mpr ⟨?_, hr⟩
    rintro rfl
    rw [hrole] at hr
    cases hr
    exact hun.2 rfl
  · intro t' m' hr
    obtain ⟨hne, hr⟩ := (hroles t' m').mp hr
    rw [hfin, List.mem_append, not_or, List.mem_singleton]
    refine ⟨h.unfinished t' m' hr, ?_⟩
    rintro rfl
    have := fate_unique hq.leftNodup (hq.hand t' m' hr) hleftm
    cases this
    exact hne rfl
  · intro m' hm
    rw [hleft] at hm
    rw [hmsg, (hrest _).2]
    exact h.destroyed m' hm
  · rw [(hrest p).1]
    exact h.backlog p
  · rw [hport] at hne ⊢
    split at hne
    next hp =>
      rw [if_pos hp]
      dsimp only at hne ⊢
      split at hne
      next => exact absurd rfl hne
      next hz =>
        have := h.senders p hne
        omega
    next hp =>
      rw [if_neg hp]
      exact h.senders p hne
  · rw [hthread] at hx
    split at hx
    next => simp at hx
    next =>
      split at hx
      next => exact absurd hx (wakeSender_ne _ m' o)
      next hno =>
        have hin := h.waits t' m' o hx
        rw [hmsg, hport]
        split
        next hp =>
          rw [hp] at hin ⊢
          dsimp only
          split
          next hz => exact absurd ⟨hz, hin⟩ hno
          next => exact hin
        next => exact hin
  · rw [hmsg] at hm
    exact h.polite p hg t' m' o (hout t' m' o hx) hm
  · have := h.room p hg
    rw [hcount, (hrest p).1]
    split <;> omega

theorem CountInv.destroyDequeue (h : CountInv good s) (hq : QInv s l)
    (hs : Ipc.destroyDequeue s p = some s') : CountInv good s' := by
  unfold Ipc.destroyDequeue at hs
  split at hs
  next => simp at hs
  next hdead =>
    split at hs
    next => simp at hs
    next m rest hms =>
      cases Option.some.inj hs
      have hm := hq.messages (.port p) m (by rw [hms]; exact List.mem_cons_self)
      refine ⟨h.count, h.finishedNodup, fun m' hm' => ?_, fun t m' hin hun => ?_, h.unfinished, fun m' hin => ?_,
        h.backlog, h.senders, h.waits, h.polite, h.room⟩
      · obtain ⟨t', ht'⟩ := h.finished m' hm'
        exact ⟨t', List.mem_append_left _ ht'⟩
      · rcases List.mem_append.mp hin with hin | hin
        · exact h.hand t m' hin hun
        · simp at hin
      · rcases List.mem_append.mp hin with hin | hin
        · exact h.destroyed m' hin
        · cases List.mem_singleton.mp hin
          show (s.port (s.msg m).port).inUse = false
          rw [(queueOf_eq_port.mp hm.symm).1]
          simpa using hdead

theorem CountInv.place (h : CountInv good s) (hq : QInv s []) (hs : Ipc.place s t = some s') :
    CountInv good s' := by
  unfold Ipc.place at hs
  split at hs
  next m q he =>
    cases Option.some.inj hs
    have hrole : s.role t = .placing m q := by rw [QState.role, he]; rfl
    have hu : Uncounted good s ((s.setQueue q { s.queue q with lock := none }).setThread t .idle) := by
      refine Uncounted.setThread (uncounted_aside rfl rfl (fun _ => rfl) rfl rfl rfl rfl) (fun m' => ?_) rfl
      rw [hrole]
      simp [Thread.role]
    exact (h.uncounted hq hu).deliver (hq.unplace hrole)
  next => simp at hs

theorem CountInv.deliverAll (ms : List MsgId) (h : CountInv good s) (hq : QInv s (ms ++ l))
    (hof : ∀ m ∈ ms, q = s.queueOf (s.msg m).port) (hlock : (s.queue q).lock = none) :
    CountInv good (ms.foldl (fun s m => Ipc.deliver s q m) s) := by
  induction ms generalizing s with
  | nil => exact h
  | cons m ms ih =>
    obtain ⟨hl, hport, hmsg, _⟩ := deliver_frame s q m
    refine ih (h.deliver hq) (QInv.deliver hq (hof m List.mem_cons_self) hlock) (fun m' hm => ?_)
      (hl.trans hlock)
    rw [hmsg, queueOf_congr (s := s) (by rw [hport])]
    exact hof m' (List.mem_cons_of_mem m hm)

end MachVM.Ipc
