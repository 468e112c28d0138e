import MachVM.SchedMoves

namespace MachVM.Kern.Sched

open Machine Levels

variable {s r : State} {t u : ThreadId} {c : CpuId} {q : RunqId} {th : Thread} {col : Column} {a : Prop}

/-- What an operation does: it keeps the invariant, and the states of the threads go on by a column. -/
structure Does (col : Column) (s r : State) : Prop where
  inv : Inv none r
  goes : Valid s → AllGo col s r

theorem does_self (h : Inv none s) : Does col s s := ⟨h, fun _ _ => .refl col _⟩

theorem Changes.does (h : Changes t th s r) (hr : Inv none r)
    (hg : (s.thread t).code.valid = true → Goes col (s.thread t).code th.code) : Does col s r :=
  ⟨hr, fun hv => h.allGo (hg (hv t))⟩

theorem SameView.does (h : SameView s r) (hr : Inv none r) : Does col s r := ⟨hr, fun _ => h.allGo⟩

theorem Does.after {q : State} (h : Does col r q) (hv : ∀ u, (r.thread u).code = (s.thread u).code) : Does col s q := by
  refine ⟨h.inv, fun hs u => ?_⟩
  rw [← hv u]
  exact h.goes (fun w => by rw [hv w]; exact hs w) u

theorem Inv.not_active (h : Inv none s) (hr : ¬(s.thread t).Runs) : ¬∃ c, s.phase c = .running t :=
  fun ⟨c, hc⟩ => hr (h.runs_of_at (p := .active c) hc)

theorem Inv.ok_of_not_runs (h : Inv none s) (hr : ¬(s.thread t).Runs) : (s.thread t).Ok False :=
  (h.ok t (by simp)).congr rfl rfl rfl rfl rfl rfl (iff_of_false (h.not_active hr) id)

theorem setThread_setrun_gives (h : Inv none s) (hn : ¬(s.thread t).Runs) (hq : th.runq = (s.thread t).runq)
    (he : th.waitEvent = (s.thread t).waitEvent) (hr : th.Runs) (ho : th.Ok False) :
    Gives (threadSetrun (s.setThread t th) t) (fun _ => False) fun r => Inv none r ∧ Changes t th s r := by
  have ht := h.take hn
  have hi := ht.setHand (hq.trans ht.hand_runq) he
  refine (threadSetrun_gives hi (by rw [setThread_self]; exact hr) (by rw [setThread_self]; exact ho)).mono ?_
  rintro r ⟨hr, hv⟩
  exact ⟨hr, (changes_setThread s t th).view hv⟩

theorem setThread_stopped_inv (h : Inv none s) (hn : ¬(s.thread t).Runs) (hq : th.runq = (s.thread t).runq)
    (he : th.waitEvent = (s.thread t).waitEvent) (hr : ¬th.Runs) (ho : th.Ok False) : Inv none (s.setThread t th) := by
  have ht := h.take hn
  have hi := ht.setHand (hq.trans ht.hand_runq) he
  refine hi.drop (by rw [setThread_self]; exact hr) ?_
  rw [setThread_self]
  exact ho.inactive (h.not_active hn)

theorem Inv.aside {l : List ThreadId} {ops : OpId → Option Op} {hand : Option ThreadId} (h : Inv hand s) :
    Inv hand { s with swapinQueue := l, ops } :=
  ⟨h.waits, h.lists, h.leveled, ⟨h.cpus.idle, h.cpus.count, h.cpus.loop, h.cpus.slot, h.cpus.looked⟩, h.unique,
    h.placed, h.ok, h.nowhere⟩

theorem threadSwapin_gives (h : Inv (some t) s) (ho : { s.thread t with swapState := .comingIn }.Ok False)
    (ha : (s.thread t).swapState.away = true) :
    Gives (threadSwapin s t) (fun _ => False) fun r => Inv none r ∧ SameView s r := by
  have hs : (s.thread t).state.swapped = true := ho.away
  have hw : (s.thread t).state.wait = false := ho.coming (.inr rfl)
  have hset : ∀ x, x = .wantIn ∨ x = .comingIn → Inv none (s.setThread t { s.thread t with swapState := x }) := by
    intro x hx
    have hi : Inv (some t) (s.setThread t { s.thread t with swapState := x }) := h.setHand h.hand_runq rfl
    refine hi.drop (by simp [hs]) ?_
    rw [setThread_self]
    refine ⟨ho.bits, ho.event, fun hr hw => (ho.waiting hr hw).elim, ?_, fun _ _ => hx, fun _ => hw, ?_, ho.suspended⟩
    · rcases hx with rfl | rfl <;> exact hs
    · exact fun ha => absurd ha h.hand_inactive
  have hview : ∀ x, SameView s (s.setThread t { s.thread t with swapState := x }) :=
    fun x => sameView_update rfl rfl rfl rfl
  have hself : ∀ x, (s.thread t).swapState = x → s.setThread t { s.thread t with swapState := x } = s := by
    rintro x rfl
    exact congrArg (fun f => { s with thread := f }) (Function.update_eq_self t s.thread)
  unfold threadSwapin
  split
  next => exact ⟨(hset _ (.inr rfl)).aside, (hview .comingIn).trans (sameView_of_thread rfl)⟩
  next => exact ⟨hset _ (.inl rfl), hview .wantIn⟩
  next hx =>
    rw [gives_ok, ← hself _ hx]
    exact ⟨hset _ (.inl rfl), .refl _⟩
  next hx =>
    rw [gives_ok, ← hself _ hx]
    exact ⟨hset _ (.inr rfl), .refl _⟩
  next hx => simp [hx, SwapState.away] at ha
  next hx => simp [hx, SwapState.away] at ha

theorem setThread_swapin_gives (h : Inv none s) (hn : ¬(s.thread t).Runs) (hq : th.runq = (s.thread t).runq)
    (he : th.waitEvent = (s.thread t).waitEvent) (ha : th.swapState.away = true)
    (ho : { th with swapState := .comingIn }.Ok False) :
    Gives (threadSwapin (s.setThread t th) t) (fun _ => False) fun r => Inv none r ∧ Changes t th s r := by
  have ht := h.take hn
  have hi := ht.setHand (hq.trans ht.hand_runq) he
  refine (threadSwapin_gives hi (by rw [setThread_self]; exact ho) (by rw [setThread_self]; exact ha)).mono ?_
  rintro r ⟨hr, hv⟩
  exact ⟨hr, (changes_setThread s t th).view hv⟩

/-- A thread is waiting for no event, as a row of the table for `clear_wait` has it, and the others are as they
were. -/
structure Frees (t : ThreadId) (s r : State) : Prop where
  does : Does .clearWait s r
  event : (r.thread t).waitEvent = 0
  codes : ∀ u, u ≠ t → (r.thread u).code = (s.thread u).code
  events : ∀ u, u ≠ t → (r.thread u).waitEvent = (s.thread u).waitEvent

theorem Changes.frees (h : Changes t th s r) (hr : Inv none r) (he : th.waitEvent = 0)
    (hg : (s.thread t).code.valid = true → Goes .clearWait (s.thread t).code th.code) : Frees t s r :=
  ⟨h.does hr hg, h.waitEvent.trans he, h.codes, h.waitEvents⟩

theorem goes_clearWait : ∀ a c d e : Bool, (⟨a, true, c, d, e⟩ : Code).valid = true → a = true ∨ c = true ∧ d = true →
    Goes .clearWait ⟨a, true, c, d, e⟩ ⟨a, false, c, d, e⟩ := by decide

theorem endWait_gives (h : Inv none s) (hw : (s.thread t).state.wait = true) (he : (s.thread t).waitEvent = 0) :
    Gives (endWait s t) (fun _ => False) (Frees t s) := by
  have hok := h.ok t (by simp)
  unfold endWait State.setState State.modThread
  dsimp only
  split
  next hst =>
    obtain ⟨hst, hi⟩ := hst
    have hn : ¬(s.thread t).Runs := by simp [Thread.Runs, hst]
    have ho := h.ok_of_not_runs hn
    refine (changes_setThread s t _).frees (setThread_stopped_inv h hn rfl rfl (by simp [Thread.Runs]) ?_) he fun _ => ?_
    · refine ⟨.inr (.inr rfl), fun hh => absurd he hh, ?_, ?_, ?_, fun _ => rfl, False.elim, fun _ => rfl⟩
      · simp
      · rw [← ho.away, hst]
      · simp
    · simp only [Thread.code, hst, hi]
      decide
  next hst =>
    split
    next hst' =>
      have hn : ¬(s.thread t).Runs := by rcases hst' with hst' | hst' <;> simp [Thread.Runs, hst']
      have ho := h.ok_of_not_runs hn
      have hsw : (s.thread t).state.swapped = false := by rcases hst' with hst' | hst' <;> simp [hst']
      refine Gives.mono (setThread_setrun_gives h hn rfl rfl ⟨rfl, hsw⟩ ?_) fun r hr => hr.2.frees hr.1 he fun _ => ?_
      · refine ⟨.inl rfl, fun hh => absurd he hh, fun _ hh => by simp at hh, ho.away, ?_, fun _ => rfl, False.elim,
          ho.suspended⟩
        exact fun _ hh => by simp [hsw] at hh
      · rcases hst' with hst' | hst'
        · have hi : (s.thread t).interruptible = false := by
            cases hi : (s.thread t).interruptible with
            | false => rfl
            | true => exact absurd ⟨hst', hi⟩ hst
          simp only [Thread.code, hst', hi]
          decide
        · simp only [Thread.code, hst']
          cases (s.thread t).interruptible <;> decide
    next hst' =>
      split
      next hst'' =>
        have hn : ¬(s.thread t).Runs := by simp [Thread.Runs, hst'']
        have ho := h.ok_of_not_runs hn
        refine Gives.mono (setThread_swapin_gives h hn rfl rfl (by rw [← ho.away, hst'']) ?_)
          fun r hr => hr.2.frees hr.1 he fun hv => ?_
        · refine ⟨.inl rfl, fun hh => absurd he hh, fun _ hh => by simp at hh, rfl, fun _ _ => .inr rfl, fun _ => rfl,
            False.elim, fun hc => ?_⟩
          simpa [hst''] using ho.suspended hc
        · simp only [Thread.code, hst''] at hv ⊢
          revert hv
          cases (s.thread t).interruptible <;> decide
      next hst'' =>
        have hb : (s.thread t).state.run = true ∨ (s.thread t).state.susp = true ∧ (s.thread t).state.swapped = true := by
          revert hst' hst'' hw
          obtain ⟨a, b, c, d⟩ := (s.thread t).state
          cases a <;> cases b <;> cases c <;> cases d <;> simp
        refine (changes_setThread s t _).frees (h.setThread rfl rfl rfl (fun _ => .rfl) fun _ => ?_) he fun hv => ?_
        · exact ⟨hb.imp_right fun hs => .inr hs.1, fun hh => absurd he hh, fun _ hh => by simp at hh, hok.away, hok.bound,
            fun _ => rfl, fun ha _ => hok.asserted ha (.inl hw), hok.suspended⟩
        · simp only [Thread.code, hw] at hv ⊢
          exact goes_clearWait _ _ _ _ hv hb

theorem Frees.after {q : State} (h : Frees t r q) (hv : ∀ u, (r.thread u).code = (s.thread u).code)
    (he : ∀ u, u ≠ t → (r.thread u).waitEvent = (s.thread u).waitEvent) : Frees t s q :=
  ⟨h.does.after hv, h.event, fun u hu => (h.codes u hu).trans (hv u), fun u hu => (h.events u hu).trans (he u hu)⟩

theorem clearTimer_inv (h : Inv none s) : Inv none (clearTimer s t) :=
  h.setThread rfl rfl rfl (fun _ => .rfl) fun _ => (h.ok t (by simp)).congr rfl rfl rfl rfl rfl rfl .rfl

theorem clearTimer_sameView (s : State) (t : ThreadId) : SameView s (clearTimer s t) := sameView_update rfl rfl rfl rfl

theorem clearWaitSwitch_gives (h : Inv none s) (he : (s.thread t).waitEvent = 0) :
    Gives (clearWaitSwitch s t) (fun _ => False) (Frees t s) := by
  have hv := clearTimer_sameView s t
  have he' : ((clearTimer s t).thread t).waitEvent = 0 := (hv.waitEvent t).trans he
  unfold clearWaitSwitch
  split
  next hw =>
    rw [← hv.state t] at hw
    exact (endWait_gives (clearTimer_inv h) hw he').mono fun r hr => hr.after hv.code fun u _ => hv.waitEvent u
  next => exact ⟨hv.does (clearTimer_inv h), he', fun u _ => hv.code u, fun u _ => hv.waitEvent u⟩

theorem remWaitQueue_code (u : ThreadId) : ((remWaitQueue s t).thread u).code = (s.thread u).code := by
  by_cases hu : u = t
  · subst u
    rw [remWaitQueue, modThread_self]
    rfl
  · exact congrArg Thread.code (Function.update_of_ne hu _ _)

theorem remWaitQueue_event : ((remWaitQueue s t).thread t).waitEvent = 0 := by
  rw [remWaitQueue, modThread_self]

theorem remWaitQueue_events (hu : u ≠ t) : ((remWaitQueue s t).thread u).waitEvent = (s.thread u).waitEvent :=
  congrArg Thread.waitEvent (Function.update_of_ne hu _ _)

theorem wakeThread_gives (h : Inv none s) (he : (s.thread t).waitEvent ≠ 0) :
    Gives (wakeThread s t) (fun _ => False) (Frees t s) := by
  have hv := clearTimer_sameView (remWaitQueue s t) t
  have hi := clearTimer_inv (t := t) (remWaitQueue_inv (t := t) h)
  have hc : ∀ u, ((clearTimer (remWaitQueue s t) t).thread u).code = (s.thread u).code :=
    fun u => (hv.code u).trans (remWaitQueue_code u)
  have hw : ((clearTimer (remWaitQueue s t) t).thread t).state.wait = true := by
    have := congrArg Code.wait (hc t)
    exact this.trans ((h.ok t (by simp)).event he)
  unfold wakeThread
  dsimp only
  rw [if_pos hw]
  refine (endWait_gives hi hw ((hv.waitEvent t).trans remWaitQueue_event)).mono fun r hr => hr.after hc fun u hu => ?_
  exact (hv.waitEvent u).trans (remWaitQueue_events hu)

theorem clearWait_gives {interruptOnly : Bool} (h : Inv none s) :
    Gives (clearWait s t interruptOnly) (fun _ => False) fun r => Does .clearWait s r.1 := by
  unfold clearWait
  split
  next => exact does_self h
  next =>
    split
    next => exact does_self h
    next he =>
      have he : (s.thread t).waitEvent = 0 := by simpa using he
      exact (clearWaitSwitch_gives h he).bind fun r hr => hr.does

theorem clearWaitEvent_gives {event : Int} (h : Inv none s) :
    Gives (clearWaitEvent s t event) (fun _ => False) (Does .clearWait s) := by
  unfold clearWaitEvent
  split
  next =>
    exact (clearWaitSwitch_gives (remWaitQueue_inv h) remWaitQueue_event).mono
      fun r hr => hr.does.after remWaitQueue_code
  next => exact does_self h

theorem wakeupScan_gives (event : Int) {ts : List ThreadId} (h : Inv none s) (hn : ts.Nodup)
    (hne : ∀ u ∈ ts, (s.thread u).waitEvent ≠ 0) :
    Gives (wakeupScan event s ts) (fun _ => False) fun r => Does .clearWait s r.1 ∧
      (∀ u, u ∉ ts → (r.1.thread u).code = (s.thread u).code ∧ (r.1.thread u).waitEvent = (s.thread u).waitEvent) ∧
      (r.2 = true → ∀ u ∈ ts, (r.1.thread u).waitEvent ≠ event) := by
  induction ts generalizing s with
  | nil => exact ⟨does_self h, fun _ _ => ⟨rfl, rfl⟩, by simp⟩
  | cons t ts ih =>
    obtain ⟨ht, hn⟩ := List.nodup_cons.mp hn
    obtain ⟨hte, hne⟩ := List.forall_mem_cons.mp hne
    rw [wakeupScan]
    split
    next he =>
      refine (wakeThread_gives h hte).bind fun r hr => ?_
      split
      next =>
        refine ⟨hr.does, fun u hu => ?_, by simp⟩
        have hut : u ≠ t := fun hh => hu (by simp [hh])
        exact ⟨hr.codes u hut, hr.events u hut⟩
      next =>
        have hmem : ∀ u ∈ ts, u ≠ t := by
          rintro u hu rfl
          exact ht hu
        refine (ih hr.does.inv hn fun u hu => ?_).mono ?_
        · rw [hr.events u (hmem u hu)]
          exact hne u hu
        · rintro ⟨q, b⟩ ⟨hd, hout, hend⟩
          refine ⟨⟨hd.inv, fun hs u => ?_⟩, fun u hu => ?_, fun hb u hu => ?_⟩
          · by_cases hu : u ∈ ts
            · rw [← hr.codes u (hmem u hu)]
              exact hd.goes ((hr.does.goes hs).valid hs) u
            · rw [(hout u hu).1]
              exact hr.does.goes hs u
          · have hut : u ≠ t := fun hh => hu (by simp [hh])
            obtain ⟨hc, hv⟩ := hout u fun hh => hu (List.mem_cons_of_mem t hh)
            exact ⟨hc.trans (hr.codes u hut), hv.trans (hr.events u hut)⟩
          · rcases List.mem_cons.mp hu with rfl | hu
            · rw [(hout u ht).2, hr.event, ← he]
              exact hte.symm
            · exact hend hb u hu
    next he =>
      refine (ih h hn hne).mono ?_
      rintro r ⟨hd, hout, hend⟩
      refine ⟨hd, fun u hu => hout u fun hh => hu (List.mem_cons_of_mem t hh), fun hb u hu => ?_⟩
      rcases List.mem_cons.mp hu with rfl | hu
      · rw [(hout u ht).2]
        exact he
      · exact hend hb u hu

end MachVM.Kern.Sched
