import MachVM.IpcQueueAccount

namespace MachVM.Ipc

namespace QState

/-- The message was neither received to the end nor thrown away. -/
def Unprocessed (s : QState) (m : MsgId) : Prop := m ∈ s.accepted ∧ m ∉ s.finished ∧ m ∉ s.freed

instance (s : QState) (m : MsgId) : Decidable (s.Unprocessed m) := by
  unfold Unprocessed
  infer_instance

/-- The flag of SEND_NOTIFY: one while a notification for the message can still be sent. -/
def flag (s : QState) (m : MsgId) : Nat :=
  if (s.msg m).senderEntry ≠ none ∧ s.Unprocessed m then 1 else 0

end QState

/-- The translations and messages that point to each other. -/
structure NotifyInv (s : QState) : Prop where
  bound : ∀ e, (s.entry e).task ≠ none → e < s.nextEntry
  find : ∀ t p e, s.entryFind t p = some e ↔ (s.entry e).task = some t ∧ (s.entry e).port = p
  fresh : ∀ m, m ∉ s.accepted → m < s.nextMsg → (s.msg m).senderEntry = none
  out : ∀ e m, (s.entry e).task ≠ none → (s.entry e).kmsg = some m →
    (s.msg m).senderEntry = some e ∧ s.Unprocessed m
  back : ∀ e m, (s.msg m).senderEntry = some e → s.Unprocessed m →
    (s.entry e).task ≠ none ∧ (s.entry e).kmsg = some m ∧ (s.entry e).port = (s.msg m).port
  freed : ∀ m ∈ s.freed, (m, Fate.destroyed) ∈ s.left
  will : ∀ m ∈ s.willNotify, m ∈ s.accepted
  willNodup : s.willNotify.Nodup
  flags : ∀ m, s.willNotify.count m = s.notified.count m + s.cleared.count m + s.flag m
  notified : ∀ m ∈ s.notified, m ∈ s.finished

/-- Stretches of code that have nothing to do with flags. -/
structure Unflagged (s s' : QState) : Prop where
  entry : s'.entry = s.entry
  nextEntry : s'.nextEntry = s.nextEntry
  entryFind : s'.entryFind = s.entryFind
  msg : s'.msg = s.msg
  nextMsg : s'.nextMsg = s.nextMsg
  accepted : s'.accepted = s.accepted
  finished : s'.finished = s.finished
  freed : s'.freed = s.freed
  willNotify : s'.willNotify = s.willNotify
  notified : s'.notified = s.notified
  cleared : s'.cleared = s.cleared
  left : ∀ x ∈ s.left, x ∈ s'.left

variable {s s' s'' : QState} {l : List MsgId} {p : PortId} {q : QueueId} {t : ThreadId} {m : MsgId}
  {e : EntryId}

theorem Unflagged.refl (s : QState) : Unflagged s s :=
  ⟨rfl, rfl, rfl, rfl, rfl, rfl, rfl, rfl, rfl, rfl, rfl, fun _ h => h⟩

theorem Unflagged.trans (h : Unflagged s s') (h' : Unflagged s' s'') : Unflagged s s'' :=
  ⟨h'.entry.trans h.entry, h'.nextEntry.trans h.nextEntry, h'.entryFind.trans h.entryFind,
    h'.msg.trans h.msg, h'.nextMsg.trans h.nextMsg, h'.accepted.trans h.accepted,
    h'.finished.trans h.finished, h'.freed.trans h.freed, h'.willNotify.trans h.willNotify,
    h'.notified.trans h.notified, h'.cleared.trans h.cleared, fun x hx => h'.left x (h.left x hx)⟩

theorem flag_congr (h : (s'.msg m).senderEntry ≠ none ∧ s'.Unprocessed m ↔
    (s.msg m).senderEntry ≠ none ∧ s.Unprocessed m) : s'.flag m = s.flag m := if_congr h rfl rfl

theorem Unflagged.unprocessed (h : Unflagged s s') (m : MsgId) : s'.Unprocessed m ↔ s.Unprocessed m := by
  unfold QState.Unprocessed
  rw [h.accepted, h.finished, h.freed]

theorem NotifyInv.unflagged (h : NotifyInv s) (hu : Unflagged s s') : NotifyInv s' := by
  have hun := hu.unprocessed
  refine ⟨?_, ?_, ?_, fun e m => ?_, fun e m => ?_, fun m hm => ?_, ?_, ?_, fun m => ?_, ?_⟩
  · rw [hu.entry, hu.nextEntry]
    exact h.bound
  · rw [hu.entry, hu.entryFind]
    exact h.find
  · rw [hu.accepted, hu.nextMsg, hu.msg]
    exact h.fresh
  · rw [hu.entry, hu.msg, hun]
    exact h.out e m
  · rw [hu.entry, hu.msg, hun]
    exact h.back e m
  · rw [hu.freed] at hm
    exact hu.left _ (h.freed m hm)
  · rw [hu.willNotify, hu.accepted]
    exact h.will
  · rw [hu.willNotify]
    exact h.willNodup
  · rw [hu.willNotify, hu.notified, hu.cleared, flag_congr (s := s) (by rw [hu.msg, hun])]
    exact h.flags m
  · rw [hu.notified, hu.finished]
    exact h.notified

theorem unflagged_deliver (s : QState) (q : QueueId) (m : MsgId) : Unflagged s (Ipc.deliver s q m) := by
  rcases deliver_cases s q m with he | ⟨small, t, rest, _, he⟩
  · rw [he]
    exact ⟨rfl, rfl, rfl, rfl, rfl, rfl, rfl, rfl, rfl, rfl, rfl, fun _ h => h⟩
  · rw [he]
    exact ⟨rfl, rfl, rfl, rfl, rfl, rfl, rfl, rfl, rfl, rfl, rfl, fun _ h => List.mem_append_left _ h⟩

theorem unflagged_deliverAll (ms : List MsgId) (s : QState) (q : QueueId) :
    Unflagged s (ms.foldl (fun s m => Ipc.deliver s q m) s) := by
  induction ms generalizing s with
  | nil => exact .refl s
  | cons m ms ih => exact (unflagged_deliver s q m).trans (ih _)

theorem unflagged_dequeue {poll : Bool} (hs : Ipc.dequeue s t poll = some s') : Unflagged s s' := by
  unfold Ipc.dequeue at hs
  split at hs
  next q size _ =>
    dsimp only at hs
    split at hs
    next m rest _ =>
      split at hs
      next =>
        cases Option.some.inj hs
        exact ⟨rfl, rfl, rfl, rfl, rfl, rfl, rfl, rfl, rfl, rfl, rfl, fun _ h => h⟩
      next =>
        cases Option.some.inj hs
        exact ⟨rfl, rfl, rfl, rfl, rfl, rfl, rfl, rfl, rfl, rfl, rfl, fun _ h => List.mem_append_left _ h⟩
    next =>
      split at hs
      next =>
        cases Option.some.inj hs
        exact ⟨rfl, rfl, rfl, rfl, rfl, rfl, rfl, rfl, rfl, rfl, rfl, fun _ h => h⟩
      next =>
        cases Option.some.inj hs
        exact ⟨rfl, rfl, rfl, rfl, rfl, rfl, rfl, rfl, rfl, rfl, rfl, fun _ h => h⟩
  next => simp at hs

/-! ## Accepting a message -/

theorem NotifyInv.accept (h : NotifyInv s) (hq : QInv s []) (hown : s.role t = .owns m) :
    NotifyInv { s with accepted := s.accepted ++ [m] } := by
  obtain ⟨hlt, hnew⟩ := hq.owns t m hown
  have hnone := h.fresh m hnew hlt
  have hun : ∀ m', (s.msg m').senderEntry ≠ none →
      (QState.Unprocessed { s with accepted := s.accepted ++ [m] } m' ↔ s.Unprocessed m') := by
    intro m' hne
    have hmm : m' ≠ m := by
      rintro rfl
      exact hne hnone
    unfold QState.Unprocessed
    simp [hmm]
  refine ⟨h.bound, h.find, fun m' hm' => h.fresh m' fun hin => hm' (List.mem_append_left _ hin),
    fun e m' he hk => ?_, fun e m' hse hu => ?_, h.freed, fun m' hm' => List.mem_append_left _ (h.will m' hm'),
    h.willNodup, fun m' => ?_, h.notified⟩
  · obtain ⟨hse, hu⟩ := h.out e m' he hk
    exact ⟨hse, (hun m' (by rw [hse]; simp)).mpr hu⟩
  · have hse' : (s.msg m').senderEntry = some e := hse
    exact h.back e m' hse' ((hun m' (by rw [hse']; simp)).mp hu)
  · have hflag : QState.flag { s with accepted := s.accepted ++ [m] } m' = s.flag m' :=
      flag_congr (and_congr_right fun hse => hun m' hse)
    rw [hflag]
    exact h.flags m'

theorem NotifyInv.flagUp {u : TaskId} (h : NotifyInv s) (hm : s.Unprocessed m) (hnone : (s.msg m).senderEntry = none)
    (hwill : m ∉ s.willNotify) (hfind : s.entryFind u (s.msg m).port = some e)
    (hfree : (s.entry e).kmsg = none) :
    NotifyInv (({ s with willNotify := s.willNotify ++ [m] }.setEntry e
      { s.entry e with kmsg := some m }).setMsg m { s.msg m with senderEntry := some e }) := by
  set s₁ := ({ s with willNotify := s.willNotify ++ [m] }.setEntry e
    { s.entry e with kmsg := some m }).setMsg m { s.msg m with senderEntry := some e } with hs₁
  obtain ⟨htask, hport⟩ := (h.find u _ e).mp hfind
  have hentry : ∀ e', s₁.entry e' = if e' = e then { s.entry e with kmsg := some m } else s.entry e' :=
    fun e' => Function.update_apply ..
  have hmsg : ∀ m', s₁.msg m' = if m' = m then { s.msg m with senderEntry := some e } else s.msg m' :=
    fun m' => msg_setMsg _ _ _ _
  have hlive : ∀ e', (s₁.entry e').task = (s.entry e').task ∧ (s₁.entry e').port = (s.entry e').port := by
    intro e'
    rw [hentry]
    split
    next he =>
      rw [he]
      exact ⟨rfl, rfl⟩
    next => exact ⟨rfl, rfl⟩
  have hun : ∀ m', s₁.Unprocessed m' ↔ s.Unprocessed m' := fun _ => .rfl
  refine ⟨fun e' => ?_, fun u p e' => ?_, fun m' hm' hlt => ?_, fun e' m' he hk => ?_, fun e' m' hse hu => ?_,
    h.freed, fun m' hm' => ?_, ?_, fun m' => ?_, h.notified⟩
  · rw [(hlive e').1]
    exact h.bound e'
  · rw [(hlive e').1, (hlive e').2]
    exact h.find u p e'
  · rw [hmsg]
    split
    next he =>
      rw [he] at hm'
      exact absurd hm.1 hm'
    next => exact h.fresh m' hm' hlt
  · rw [(hlive e').1] at he
    rw [hentry] at hk
    rw [hmsg, hun]
    split at hk
    next hee =>
      cases Option.some.inj hk
      rw [if_pos rfl]
      exact ⟨by rw [hee], hm⟩
    next hee =>
      obtain ⟨hse, hu⟩ := h.out e' m' he hk
      have hne : m' ≠ m := by
        rintro rfl
        rw [hnone] at hse
        simp at hse
      rw [if_neg hne]
      exact ⟨hse, hu⟩
  · rw [(hlive e').1, (hlive e').2]
    rw [hmsg] at hse ⊢
    split at hse
    next hmm =>
      cases Option.some.inj hse
      rw [if_pos hmm, hentry, if_pos rfl, htask, hport, hmm]
      simp
    next hmm =>
      obtain ⟨hl, hk, hp⟩ := h.back e' m' hse hu
      have hne : e' ≠ e := by
        rintro rfl
        rw [hfree] at hk
        simp at hk
      rw [if_neg hmm, hentry, if_neg hne]
      exact ⟨hl, hk, hp⟩
  · rcases List.mem_append.mp hm' with hm' | hm'
    · exact h.will m' hm'
    · rw [List.mem_singleton.mp hm']
      exact hm.1
  · refine List.Nodup.append h.willNodup (List.nodup_singleton m) fun y hy hy' => ?_
    rw [List.mem_singleton.mp hy'] at hy
    exact hwill hy
  · have hflag : s₁.flag m' = s.flag m' + if m' = m then 1 else 0 := by
      by_cases hmm : m' = m
      · have hup : s₁.flag m = 1 := if_pos ⟨by rw [hmsg, if_pos rfl]; simp, hm⟩
        have hdown : s.flag m = 0 := if_neg fun hf => hf.1 hnone
        rw [if_pos hmm, hmm, hup, hdown]
      · rw [if_neg hmm, flag_congr (s := s) (by rw [hmsg, if_neg hmm, hun]), Nat.add_zero]
    show (s.willNotify ++ [m]).count m' = s.notified.count m' + s.cleared.count m' + s₁.flag m'
    rw [hflag, List.count_append, h.flags m']
    by_cases hmm : m' = m
    · rw [if_pos hmm, hmm, List.count_singleton_self]
      omega
    · rw [if_neg hmm, List.count_singleton]
      simp [Ne.symm hmm]

theorem NotifyInv.sendAccept (h : NotifyInv s) (hq : QInv s []) (hown : s.role t = .owns m)
    (hs : Ipc.sendAccept s t m p = some s') : NotifyInv s' := by
  unfold Ipc.sendAccept at hs
  split at hs
  next =>
    cases Option.some.inj hs
    exact h.unflagged ⟨rfl, rfl, rfl, rfl, rfl, rfl, rfl, rfl, rfl, rfl, rfl, fun _ h => h⟩
  next =>
    dsimp only at hs
    split at hs
    next => simp at hs
    next =>
      cases Option.some.inj hs
      exact (h.accept hq hown).unflagged
        ⟨rfl, rfl, rfl, rfl, rfl, rfl, rfl, rfl, rfl, rfl, rfl, fun _ h => h⟩

theorem not_accepted_unprocessed (hq : QInv s []) (hc : CountInv (fun _ => False) s) (h : NotifyInv s)
    (hm : m ∉ s.accepted) : m ∉ s.finished ∧ m ∉ s.freed ∧ m ∉ s.willNotify := by
  have hleft : ∀ f, (m, f) ∈ s.left → m ∈ s.accepted := fun f hf =>
    hq.mem_accepted (q := .port 0) (.inl (List.mem_map.mpr ⟨_, hf, rfl⟩))
  refine ⟨fun hf => ?_, fun hf => hm (hleft _ (h.freed m hf)), fun hw => hm (h.will m hw)⟩
  obtain ⟨u, hu⟩ := hc.finished m hf
  exact hm (hleft _ hu)

theorem NotifyInv.sendNotify (h : NotifyInv s) (hq : QInv s []) (hc : CountInv (fun _ => False) s)
    (hown : s.role t = .owns m) (hp : (s.msg m).port = p) (hlive : (s.port p).inUse = true)
    (hs : Ipc.sendNotify s t m p = some s') : NotifyInv s' := by
  have hidle : Unflagged s (s.setThread t .idle) :=
    ⟨rfl, rfl, rfl, rfl, rfl, rfl, rfl, rfl, rfl, rfl, rfl, fun _ h => h⟩
  unfold Ipc.sendNotify at hs
  split at hs
  next =>
    cases Option.some.inj hs
    exact h.unflagged hidle
  next e hfind =>
    split at hs
    next =>
      cases Option.some.inj hs
      exact h.unflagged hidle
    next hk =>
      unfold Ipc.sendAccept at hs
      split at hs
      next hdead =>
        have hopen : (!(s.port p).inUse) = true := hdead
        simp [hlive] at hopen
      next =>
        dsimp only at hs
        split at hs
        next => simp at hs
        next =>
          cases Option.some.inj hs
          obtain ⟨hlt, hnew⟩ := hq.owns t m hown
          obtain ⟨hfin, hfreed, hwill⟩ := not_accepted_unprocessed hq hc h hnew
          have hup : QState.Unprocessed { s with accepted := s.accepted ++ [m] } m :=
            ⟨List.mem_append_right _ (List.mem_singleton_self m), hfin, hfreed⟩
          have hflag := (h.accept hq hown).flagUp hup (h.fresh m hnew hlt) hwill (hp ▸ hfind) (not_not.mp hk)
          exact hflag.unflagged ⟨rfl, rfl, rfl, rfl, rfl, rfl, rfl, rfl, rfl, rfl, rfl, fun _ h => h⟩

theorem NotifyInv.sendTry (h : NotifyInv s) (hq : QInv s []) (hc : CountInv (fun _ => False) s)
    (hs : Ipc.sendTry s t = some s') : NotifyInv s' := by
  obtain ⟨m, o, fresh, he, _, hs⟩ := sendTry_cases hs
  have hown : s.role t = .owns m := by rw [QState.role, he]; rfl
  rcases hs with hs | ⟨_, hs⟩ | ⟨_, hlive, ⟨_, hs⟩ | ⟨tout, hs⟩⟩
  · cases Option.some.inj hs
    exact h.unflagged ⟨rfl, rfl, rfl, rfl, rfl, rfl, rfl, rfl, rfl, rfl, rfl, fun _ h => h⟩
  · exact h.sendAccept hq hown hs
  · exact h.sendNotify hq hc hown rfl hlive hs
  · cases Option.some.inj hs
    exact h.unflagged ⟨rfl, rfl, rfl, rfl, rfl, rfl, rfl, rfl, rfl, rfl, rfl, fun _ h => h⟩

theorem NotifyInv.sendCall {size : Nat} {o : SendOptions} (h : NotifyInv s) (hq : QInv s [])
    (hs : Ipc.sendCall s t p size o = some s') : NotifyInv s' := by
  unfold Ipc.sendCall at hs
  split at hs
  next =>
    cases Option.some.inj hs
    set s₁ := ({ s with nextMsg := s.nextMsg + 1 }.setMsg s.nextMsg ⟨p, size, none⟩).setThread t
      (.sending s.nextMsg o true) with hs₁
    have hmsg : ∀ m, s₁.msg m = if m = s.nextMsg then ⟨p, size, none⟩ else s.msg m :=
      fun m => msg_setMsg _ _ _ _
    have hold : ∀ m, m ∈ s.accepted → s₁.msg m = s.msg m := by
      intro m hm
      rw [hmsg, if_neg (Nat.ne_of_lt (hq.bound m hm))]
    have hun : ∀ m, s₁.Unprocessed m ↔ s.Unprocessed m := fun _ => .rfl
    refine ⟨h.bound, h.find, fun m hm hlt => ?_, fun e m he hk => ?_, fun e m hse hu => ?_, h.freed, h.will,
      h.willNodup, fun m => ?_, h.notified⟩
    · rw [hmsg]
      split
      next => rfl
      next hne => exact h.fresh m hm (Nat.lt_of_le_of_ne (Nat.le_of_lt_succ hlt) hne)
    · obtain ⟨hse, hu⟩ := h.out e m he hk
      rw [hold m hu.1]
      exact ⟨hse, hu⟩
    · rw [hold m hu.1] at hse ⊢
      exact h.back e m hse hu
    · have hflag : s₁.flag m = s.flag m := by
        refine flag_congr ?_
        rw [hun]
        refine and_congr_left fun hu => ?_
        rw [hold m hu.1]
      rw [hflag]
      exact h.flags m
  next => simp at hs

/-! ## The flag is taken down -/

theorem NotifyInv.process (h : NotifyInv s) (hm : s.Unprocessed m)
    (hentry : (∀ e, (s.msg m).senderEntry ≠ some e) ∧ s'.entry = s.entry ∨
      ∃ e, (s.msg m).senderEntry = some e ∧
        s'.entry = Function.update s.entry e { s.entry e with kmsg := none })
    (hframe : s'.nextEntry = s.nextEntry ∧ s'.entryFind = s.entryFind ∧ s'.nextMsg = s.nextMsg ∧
      s'.accepted = s.accepted ∧ s'.willNotify = s.willNotify ∧ s'.msg = s.msg)
    (hun : ∀ m', s'.Unprocessed m' ↔ s.Unprocessed m' ∧ m' ≠ m)
    (hfreed : ∀ m' ∈ s'.freed, (m', Fate.destroyed) ∈ s'.left)
    (hnotified : ∀ m' ∈ s'.notified, m' ∈ s'.finished)
    (hcount : ∀ m', s'.notified.count m' + s'.cleared.count m' = s.notified.count m' + s.cleared.count m' +
      if m' = m ∧ (s.msg m).senderEntry ≠ none then 1 else 0) :
    NotifyInv s' := by
  obtain ⟨hne, hef, hnm, hacc, hwill, hmsg⟩ := hframe
  have hlive : ∀ e, (s'.entry e).task = (s.entry e).task ∧ (s'.entry e).port = (s.entry e).port := by
    intro e
    rcases hentry with ⟨_, he⟩ | ⟨e', _, he⟩
    · rw [he]
      exact ⟨rfl, rfl⟩
    · rw [he, Function.update_apply]
      split
      next hee =>
        rw [hee]
        exact ⟨rfl, rfl⟩
      next => exact ⟨rfl, rfl⟩
  -- a live translation points to what it pointed to before, unless that was `m`
  have hkmsg : ∀ e m', (s.entry e).task ≠ none → ((s'.entry e).kmsg = some m' ↔
      (s.entry e).kmsg = some m' ∧ m' ≠ m) := by
    intro e m' hl
    rcases hentry with ⟨hno, he⟩ | ⟨e', hse, he⟩
    · rw [he]
      refine ⟨fun hk => ⟨hk, ?_⟩, fun hk => hk.1⟩
      rintro rfl
      exact hno e (h.out e m' hl hk).1
    · rw [he, Function.update_apply]
      split
      next hee =>
        have hk := (h.back e' m hse hm).2.1
        rw [hee, hk]
        simp [eq_comm]
      next hee =>
        refine ⟨fun hk => ⟨hk, ?_⟩, fun hk => hk.1⟩
        rintro rfl
        have hk' := (h.out e m' hl hk).1
        rw [hse] at hk'
        exact hee (Option.some.inj hk').symm
  refine ⟨fun e => ?_, fun t p e => ?_, ?_, fun e m' hl hk => ?_, fun e m' hse hu => ?_, hfreed, ?_, ?_,
    fun m' => ?_, hnotified⟩
  · rw [(hlive e).1, hne]
    exact h.bound e
  · rw [hef, (hlive e).1, (hlive e).2]
    exact h.find t p e
  · rw [hacc, hnm, hmsg]
    exact h.fresh
  · rw [(hlive e).1] at hl
    obtain ⟨hk, hmm⟩ := (hkmsg e m' hl).mp hk
    obtain ⟨hse, hu⟩ := h.out e m' hl hk
    rw [hmsg, hun]
    exact ⟨hse, hu, hmm⟩
  · rw [hmsg] at hse ⊢
    obtain ⟨hu, hmm⟩ := (hun m').mp hu
    obtain ⟨hl, hk, hp⟩ := h.back e m' hse hu
    rw [(hlive e).1, (hlive e).2, hkmsg e m' hl]
    exact ⟨hl, ⟨hk, hmm⟩, hp⟩
  · rw [hwill, hacc]
    exact h.will
  · rw [hwill]
    exact h.willNodup
  · rw [hwill, h.flags m', hcount]
    by_cases hmm : m' = m
    · have hdown : s'.flag m' = 0 := if_neg fun hf => ((hun m').mp hf.2).2 hmm
      have hup : s.flag m' = if (s.msg m).senderEntry ≠ none then 1 else 0 := by
        rw [hmm]
        exact if_congr (and_iff_left hm) rfl rfl
      rw [hdown, hup]
      simp [hmm]
    · have hsame : s'.flag m' = s.flag m' := flag_congr (by rw [hmsg, hun]; simp [hmm])
      rw [hsame]
      simp [hmm]

theorem NotifyInv.finish (h : NotifyInv s) (hq : QInv s []) (hc : CountInv (fun _ => False) s)
    (hs : Ipc.finish s t = some s') : NotifyInv s' := by
  unfold Ipc.finish at hs
  split at hs
  next m he =>
    have hrole : s.role t = .hand m := by rw [QState.role, he]; rfl
    have hin := hq.hand t m hrole
    have hun : s.Unprocessed m := by
      refine ⟨hq.mem_accepted (q := .port 0) (.inl (List.mem_map.mpr ⟨_, hin, rfl⟩)), hc.unfinished t m hrole,
        fun hf => ?_⟩
      have := fate_unique hq.leftNodup hin (h.freed m hf)
      simp at this
    dsimp only at hs
    split at hs
    next => simp at hs
    next =>
      set s₁ := s.setPort (s.msg m).port { s.port (s.msg m).port with
        count := (s.port (s.msg m).port).count - 1 } with hs₁
      set s₂ := if (s₁.port (s.msg m).port).count = 0 then Ipc.wakeSenders s₁ (s.msg m).port else s₁ with hs₂
      have hu : Unflagged s s₂ := by
        rw [hs₂]
        split <;> exact ⟨rfl, rfl, rfl, rfl, rfl, rfl, rfl, rfl, rfl, rfl, rfl, fun _ h => h⟩
      have h₂ := h.unflagged hu
      have hun₂ : s₂.Unprocessed m := (hu.unprocessed m).mpr hun
      cases Option.some.inj hs
      unfold Ipc.acceptNotify
      have hmore : ∀ m', (m' ∈ s₂.accepted ∧ m' ∉ s₂.finished ++ [m] ∧ m' ∉ s₂.freed) ↔
          s₂.Unprocessed m' ∧ m' ≠ m := by
        intro m'
        unfold QState.Unprocessed
        rw [List.mem_append, List.mem_singleton]
        tauto
      split
      next hse =>
        refine h₂.process hun₂ (.inl ⟨by simp [hse], rfl⟩) ⟨rfl, rfl, rfl, rfl, rfl, rfl⟩ hmore h₂.freed
          (fun m' hm' => List.mem_append_left _ (h₂.notified m' hm')) fun m' => ?_
        simp [hse]
        rfl
      next e hse =>
        refine h₂.process hun₂ (.inr ⟨e, hse, rfl⟩) ⟨rfl, rfl, rfl, rfl, rfl, rfl⟩ hmore h₂.freed
          (fun m' hm' => ?_) fun m' => ?_
        · rcases List.mem_append.mp hm' with hm' | hm'
          · exact List.mem_append_left _ (h₂.notified m' hm')
          · exact List.mem_append_right _ hm'
        · show (s₂.notified ++ [m]).count m' + s₂.cleared.count m' = _
          rw [List.count_append, List.count_singleton]
          by_cases hmm : m' = m
          · simp [hmm, hse]
            omega
          · simp [hmm, Ne.symm hmm]
  next => simp at hs

theorem NotifyInv.destroyFlag (h : NotifyInv s) (hq : QInv s []) (hc : CountInv (fun _ => False) s)
    (hs : Ipc.destroyFlag s m = some s') : NotifyInv s' := by
  unfold Ipc.destroyFlag at hs
  split at hs
  next hg =>
    obtain ⟨_, hin, hnew⟩ := hg
    have hun : s.Unprocessed m := by
      refine ⟨hq.mem_accepted (q := .port 0) (.inl (List.mem_map.mpr ⟨_, hin, rfl⟩)), fun hf => ?_, hnew⟩
      obtain ⟨u, hu⟩ := hc.finished m hf
      have := fate_unique hq.leftNodup hin hu
      simp at this
    have hmore : ∀ m', (m' ∈ s.accepted ∧ m' ∉ s.finished ∧ m' ∉ s.freed ++ [m]) ↔
        s.Unprocessed m' ∧ m' ≠ m := by
      intro m'
      unfold QState.Unprocessed
      rw [List.mem_append, List.mem_singleton]
      tauto
    have hfreed : ∀ m' ∈ s.freed ++ [m], (m', Fate.destroyed) ∈ s.left := by
      intro m' hm'
      rcases List.mem_append.mp hm' with hm' | hm'
      · exact h.freed m' hm'
      · rw [List.mem_singleton.mp hm']
        exact hin
    cases Option.some.inj hs
    split
    next hse =>
      refine h.process hun (.inl ⟨by simp [hse], rfl⟩) ⟨rfl, rfl, rfl, rfl, rfl, rfl⟩ hmore hfreed h.notified
        fun m' => ?_
      simp [hse]
    next e hse =>
      refine h.process hun (.inr ⟨e, hse, rfl⟩) ⟨rfl, rfl, rfl, rfl, rfl, rfl⟩ hmore hfreed h.notified
        fun m' => ?_
      show s.notified.count m' + (s.cleared ++ [m]).count m' = _
      rw [List.count_append, List.count_singleton]
      by_cases hmm : m' = m
      · simp [hmm, hse]
        omega
      · simp [hmm, Ne.symm hmm]
  next => simp at hs

end MachVM.Ipc
