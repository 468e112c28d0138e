import MachVM.SchedSteps

namespace MachVM.Kern.Sched

open Machine Levels

variable {s r : State} {t u : ThreadId} {c : CpuId} {q : RunqId} {th : Thread} {col : Column} {event : Int}

theorem wakeupOne_gives (h : Inv none s) : Gives (wakeupOne s event) (fun _ => False) (Does .clearWait s) := by
  unfold wakeupOne
  split
  next => exact does_self h
  next t ht =>
    have hm := List.mem_of_find?_eq_some ht
    have he : (s.thread t).waitEvent ≠ 0 := by
      intro he
      have := (h.waits.mem_iff _ t).mp hm
      simp [Thread.bucket, he] at this
    exact (wakeThread_gives h he).mono fun r hr => hr.does

theorem Inv.active (h : Inv none s) (hp : s.phase c = .running t) : (s.thread t).Runs :=
  h.runs_of_at (p := .active c) hp

theorem goes_assertWait : ∀ c e : Bool, Goes .assertWait ⟨true, false, c, false, false⟩ ⟨true, true, c, false, e⟩ := by
  decide

theorem assertWait_gives {i : Bool} (h : Inv none s) (hp : s.phase c = .running t) :
    Gives (assertWait s t event i) (fun e => e = .assertWait ∧ (s.thread t).asserted = true) fun r =>
      Inv none r ∧ ((s.thread t).asserted = false → AllGo .assertWait s r) := by
  have hok := h.ok t (by simp)
  obtain ⟨hrun, hsw⟩ := h.active hp
  have hact : ∃ c, s.phase c = .running t := ⟨c, hp⟩
  unfold assertWait
  split
  next he => exact ⟨rfl, hok.asserted hact (.inl (hok.event he))⟩
  next he =>
    have he : (s.thread t).waitEvent = 0 := by simpa using he
    have hin : ¬((s.thread t).swapState = .wantIn ∨ (s.thread t).swapState = .comingIn) := by
      intro hh
      have := hok.away
      rcases hh with hh | hh <;> simp [hh, hsw, SwapState.away] at this
    have hnew : { s.thread t with
        waitEvent := event, state := { (s.thread t).state with wait := true }, interruptible := i,
        asserted := true }.Ok (∃ c, s.phase c = Phase.running t) :=
      ⟨.inl hrun, fun _ => rfl, fun _ _ => hact, hok.away, fun _ hh => by simp [hsw] at hh, fun hh => absurd hh hin,
        fun _ _ => rfl, hok.suspended⟩
    have hb : (s.thread t).bucket = none := if_pos he
    have hgo : (s.thread t).asserted = false → Goes .assertWait (s.thread t).code
        ⟨(s.thread t).state.run, true, (s.thread t).state.susp, (s.thread t).state.swapped, !i⟩ := by
      intro ha
      have hw : (s.thread t).state.wait = false := by
        by_contra hw
        simp [hok.asserted hact (.inl (by simpa using hw))] at ha
      have hi : (s.thread t).interruptible = true := by
        by_contra hi
        simp [hok.asserted hact (.inr (by simpa using hi))] at ha
      simp only [Thread.code, hrun, hw, hsw, hi, Bool.not_true]
      exact goes_assertWait _ _
    dsimp only
    split
    next hev =>
      exact ⟨h.setWait (h.waits.enter hb (if_neg hev)) rfl rfl (fun _ => .rfl) fun _ => hnew,
        fun ha => (changes_of_thread rfl).allGo (hgo ha)⟩
    next hev =>
      have hev : event = 0 := by simpa using hev
      exact ⟨h.setThread rfl rfl (hev.trans he.symm) (fun _ => .rfl) fun _ => hnew,
        fun ha => (changes_of_thread rfl).allGo (hgo ha)⟩

theorem Thread.Ok.letGo {a : Prop} (h : th.Ok a) (hw : th.state.wait = false) : th.Ok False :=
  ⟨h.bits, h.event, fun _ hh => by simp [hw] at hh, h.away, h.bound, h.coming, False.elim, h.suspended⟩

theorem switching_stop_inv {st : ThState} (h : Inv none s) (hp : s.phase c = .running t) (hr : st.run = false)
    (hs : st.swapped = false) (hw : st.wait = (s.thread t).state.wait) (hsu : st.susp = (s.thread t).state.susp)
    (hb : st.wait = true ∨ st.susp = true) : Inv none ((s.setPhase c .switching).setState t st) := by
  have hok := h.ok t (by simp)
  have hsw := (h.active hp).2
  have hi : Inv (some t) ((s.setPhase c .switching).setState t st) :=
    (switching_inv h hp).setHand (switching_inv h hp).hand_runq rfl
  refine hi.drop (by simp [State.setState, hr]) ?_
  rw [State.setState, modThread_self]
  refine Thread.Ok.inactive ⟨.inr hb, fun he => hw.trans (hok.event he), fun hh => ?_, ?_, fun hh => ?_, fun hc => ?_,
    False.elim, fun hc => hsu.trans (hok.suspended hc)⟩ hi.hand_inactive
  · simp [hr] at hh
  · exact hs.trans (hsw.symm.trans hok.away)
  · simp [hr] at hh
  · exact hw.trans (hok.coming hc)

theorem goes_threadBlock_stop : ∀ w s n : Bool, (w = true ∨ s = true ∧ n = false) →
    Goes .threadBlock ⟨true, w, s, false, n⟩ ⟨false, w, s, false, n⟩ := by decide

theorem threadBlock_gives (h : Inv none s) (hp : s.phase c = .running t) :
    Gives (threadBlock s c t) (fun _ => False) (Does .threadBlock s) := by
  have hok := h.ok t (by simp)
  obtain ⟨hrun, hsw⟩ := h.active hp
  have hstop : ∀ w su, (s.thread t).state = ⟨true, w, su, false⟩ →
      (w = true ∨ su = true ∧ (s.thread t).interruptible = true) →
      Does .threadBlock s ((s.setPhase c .switching).setState t ⟨false, w, su, false⟩) := by
    intro w su hst hb
    refine (changes_of_thread rfl).does (switching_stop_inv h hp rfl rfl ?_ ?_ (hb.imp_right And.left)) fun _ => ?_
    · rw [hst]
    · rw [hst]
    · simp only [Thread.code, hst, State.setPhase]
      exact goes_threadBlock_stop _ _ _ (by simpa using hb)
  unfold threadBlock
  dsimp only
  split
  next hst => exact hstop false true hst.1 (.inr ⟨rfl, hst.2⟩)
  next =>
    split
    next hst =>
      have hw : (s.thread t).state.wait = false := by rcases hst with hst | hst <;> rw [hst]
      have hv : SameView s (s.setPhase c .switching) := sameView_of_thread rfl
      exact (threadSetrun_gives (switching_inv h hp) ⟨hrun, hsw⟩ (hok.letGo hw)).mono
        fun r hr => (hv.trans hr.2).does hr.1
    next =>
      split
      next hst => exact hstop true true hst (.inl rfl)
      next =>
        split
        next hst => exact hstop true false hst (.inl rfl)
        next h1 h2 h3 h4 =>
          exfalso
          revert hrun hsw h2 h3 h4
          obtain ⟨a, b, c, d⟩ := (s.thread t).state
          cases a <;> cases b <;> cases c <;> cases d <;> simp

theorem Inv.goPhase {p : Phase} {hand : Option ThreadId} (h : Inv hand s) (hp : ∀ u, s.phase c ≠ .running u)
    (hp' : ∀ u, p ≠ .running u) (hi : s.cpuState c = .idle → p = .idle)
    (hl : p.looked = true → s.nextThread c = none) :
    Inv hand (s.setPhase c p) := by
  have hph : (s.setPhase c p).phase = Function.update s.phase c p := rfl
  have hrun : ∀ d u, (s.setPhase c p).phase d = .running u ↔ s.phase d = .running u := by
    intro d u
    rw [hph]
    by_cases hd : d = c
    · subst d
      rw [Function.update_self]
      exact iff_of_false (hp' u) (hp u)
    · rw [Function.update_of_ne hd]
  have hat : ∀ u p', At (s.setPhase c p) u p' ↔ At s u p' := by
    intro u p'
    cases p' with
    | active d => exact hrun d u
    | slot d => exact .rfl
    | queued q => exact .rfl
  refine ⟨h.waits, h.lists, h.leveled, ⟨h.cpus.idle, h.cpus.count, ?_, h.cpus.slot, ?_⟩, ?_, ?_, ?_, ?_⟩
  · intro d hd
    rw [hph]
    by_cases hdc : d = c
    · subst d
      rw [Function.update_self, hi hd]
    · rw [Function.update_of_ne hdc]
      exact h.cpus.loop d hd
  · intro d hd
    rw [hph] at hd
    by_cases hdc : d = c
    · subst d
      rw [Function.update_self] at hd
      exact hl hd
    · rw [Function.update_of_ne hdc] at hd
      exact h.cpus.looked d hd
  · exact fun u p p' hu hu' => h.unique u p p' ((hat u p).mp hu) ((hat u p').mp hu')
  · intro u hu
    simp only [hat]
    exact h.placed u hu
  · intro u hu
    exact (h.ok u hu).congr rfl rfl rfl rfl rfl rfl (exists_congr fun d => (hrun d u).symm)
  · exact fun u hu p' hp' => h.nowhere u hu p' ((hat u p').mp hp')

theorem loadContext_does (hs : SameView s r) (h : Inv (some t) r) (hr : (r.thread t).Runs)
    (ho : (r.thread t).Ok False) (hp : ∀ u, r.phase c ≠ .running u) (hi : r.cpuState c ≠ .idle) :
    Does .threadBlock s (loadContext r c t) := by
  have hc : Changes t { r.thread t with interruptible := true, asserted := false } r (loadContext r c t) :=
    changes_of_thread rfl
  refine Changes.does (hc.after hs) (loadContext_inv h hr ho hp hi) fun _ => ?_
  have hw := ho.not_wait hr.1
  rw [← hs.code t]
  simp only [Thread.code, hr.1, hr.2, hw]
  cases (r.thread t).state.susp <;> cases (r.thread t).interruptible <;> decide

theorem takeHead_does {k low : Nat} (h : Inv none s) (hp : ∀ u, s.phase c ≠ .running u) (hi : s.cpuState c ≠ .idle)
    (hlow : ∀ i, i < low → (s.queue q).runq i = []) : Does .threadBlock s (takeHead s c q k low) := by
  unfold takeHead
  dsimp only
  split
  next => exact does_self h
  next t ts hl =>
    obtain ⟨hq, hk⟩ := (h.mem_runq (k := k)).mp (by rw [hl]; exact List.mem_cons_self)
    have hr := h.runs_of_at (p := .queued q) hq
    have ho := h.ok_of_at (p := .queued q) hq (by simp)
    have hleave := leaveRunq_inv h hq hlow
    rw [hk, hl, List.erase_cons_head] at hleave
    refine loadContext_does (sameView_update rfl rfl rfl rfl) hleave ?_ ?_ hp hi
    · rw [modThread_self]
      exact hr
    · rw [modThread_self]
      exact ho.congr rfl rfl rfl rfl rfl rfl .rfl

theorem dequeueThread_gives (h : Inv none s) (hp : ∀ u, s.phase c ≠ .running u) (hi : s.cpuState c ≠ .idle)
    (hc : 0 < (s.queue q).count) : Gives (dequeueThread s c q) (fun _ => False) (Does .threadBlock s) := by
  obtain ⟨m, hm, hmn, hne, hlow⟩ := (h.leveled q).firstFrom hc
  unfold dequeueThread
  dsimp only
  rw [hm]
  exact takeHead_does h hp hi hlow

theorem goIdle_inv {l : List CpuId} (h : Inv none s) (hp : ∀ u, s.phase c ≠ .running u) (hi : s.cpuState c ≠ .idle)
    (hn : s.nextThread c = none) (hl : l.Perm (s.idleQueue ++ [c])) :
    Inv none ({ s.setCpuState c .idle with idleQueue := l, idleCount := s.idleCount + 1 }.setPhase c .idle) := by
  have hg : Inv none (s.setPhase c .idle) := h.goPhase hp (by simp) (fun _ => rfl) (by simp [Phase.looked])
  have hcpu : ({ s.setCpuState c .idle with idleQueue := l, idleCount := s.idleCount + 1 }.setPhase c .idle).cpuState =
      Function.update s.cpuState c .idle := rfl
  have hph : (s.setPhase c .idle).phase = Function.update s.phase c .idle := rfl
  refine ⟨hg.waits, hg.lists, hg.leveled, ⟨?_, ?_, ?_, ?_, hg.cpus.looked⟩, hg.unique, hg.placed, hg.ok, hg.nowhere⟩
  · refine (h.cpus.idle.append hi fun d => ?_).perm hl.symm
    rw [hcpu]
    by_cases hdc : d = c
    · subst d
      simp
    · simp [hdc]
  · change s.idleCount + 1 = l.length
    rw [hl.length_eq, List.length_append, h.cpus.count, List.length_singleton]
  · intro d hd
    change (s.setPhase c .idle).phase d = .idle
    rw [hcpu] at hd
    by_cases hdc : d = c
    · subst d
      rw [hph, Function.update_self]
    · rw [Function.update_of_ne hdc] at hd
      exact hg.cpus.loop d hd
  · intro d hd
    have hdc : d ≠ c := by
      rintro rfl
      exact hd hn
    rw [hcpu, Function.update_of_ne hdc]
    exact h.cpus.slot d hd

theorem idleTurn_inv (h : Inv none s) (hp : s.phase c = .idle) : Inv none (idleTurn s c) := by
  unfold idleTurn
  dsimp only
  split
  next hi =>
    have hmem := (h.cpus.idle.mem_iff c).mpr hi
    have hn : s.nextThread c = none := by
      by_contra hn
      have := h.cpus.slot c hn
      simp [hi] at this
    have hr : Inv none ({ s with
        idleQueue := s.idleQueue.erase c, idleCount := s.idleCount - 1 }.setCpuState c .running) := by
      have hcpu : ({ s with
          idleQueue := s.idleQueue.erase c, idleCount := s.idleCount - 1 }.setCpuState c .running).cpuState =
          Function.update s.cpuState c .running := rfl
      refine ⟨h.waits, h.lists, h.leveled, ⟨h.cpus.idle.erase fun d => ?_, ?_, ?_, ?_, h.cpus.looked⟩, h.unique,
        h.placed, h.ok, h.nowhere⟩
      · rw [hcpu]
        by_cases hdc : d = c
        · subst d
          simp
        · simp [hdc]
      · change s.idleCount - 1 = (s.idleQueue.erase c).length
        rw [List.length_erase_of_mem hmem, h.cpus.count]
      · intro d hd
        have hdc : d ≠ c := by
          rintro rfl
          simp [hcpu] at hd
        rw [hcpu, Function.update_of_ne hdc] at hd
        exact h.cpus.loop d hd
      · intro d hd
        have hdc : d ≠ c := by
          rintro rfl
          exact hd hn
        rw [hcpu, Function.update_of_ne hdc]
        exact h.cpus.slot d hd
    refine hr.goPhase (by simp [State.setCpuState, hp]) (by simp) (fun hc => ?_) (by simp [Phase.looked])
    simp [State.setCpuState] at hc
  next hi => exact h.goPhase (by simp [hp]) (by simp) (fun hc => absurd hc hi) (by simp [Phase.looked])

theorem offLine_inv (h : Inv none s) (hi : s.cpuState c ≠ .idle) (hn : s.nextThread c = none) :
    Inv none (s.setCpuState c .offLine) := by
  have hcpu : (s.setCpuState c .offLine).cpuState = Function.update s.cpuState c .offLine := rfl
  refine ⟨h.waits, h.lists, h.leveled, ⟨h.cpus.idle.congr fun d => ?_, h.cpus.count, ?_, ?_, h.cpus.looked⟩, h.unique,
    h.placed, h.ok, h.nowhere⟩
  · rw [hcpu]
    by_cases hdc : d = c
    · subst d
      simp [hi]
    · simp [hdc]
  · intro d hd
    have hdc : d ≠ c := by
      rintro rfl
      simp [hcpu] at hd
    rw [hcpu, Function.update_of_ne hdc] at hd
    exact h.cpus.loop d hd
  · intro d hd
    have hdc : d ≠ c := by
      rintro rfl
      exact hd hn
    rw [hcpu, Function.update_of_ne hdc]
    exact h.cpus.slot d hd

theorem dispatch_gives (h : Inv none s) : Gives (dispatch s c) (fun _ => False) (Does .threadBlock s) := by
  have hsame : ∀ p, SameView s (s.setPhase c p) := fun p => sameView_of_thread rfl
  have hidle : s.phase c ≠ .idle → s.cpuState c ≠ .idle := fun hp hi => hp (h.cpus.loop c hi)
  unfold dispatch
  split
  next hp =>
    have hi := hidle (by simp [hp])
    rw [if_neg hi]
    split
    next => exact (hsame _).does (h.goPhase (by simp [hp]) (by simp) (fun hc => absurd hc hi) (by simp [Phase.looked]))
    next =>
      split
      next t ht =>
        have hr := h.runs_of_at (p := .slot c) ht
        have ho := h.ok_of_at (p := .slot c) ht (by simp)
        refine loadContext_does (sameView_of_thread rfl) (takeSlot_inv h ht (by simp)) hr ho ?_ ?_
        · simp [State.setCpuState, State.setNext, hp]
        · simp [State.setCpuState]
      next ht =>
        refine (hsame _).does (h.goPhase (by simp [hp]) ?_ (fun hc => absurd hc hi) fun _ => ht)
        split <;> simp
  next hp =>
    have hi := hidle (by simp [hp])
    dsimp only
    split
    next =>
      exact (hsame _).does (h.goPhase (by simp [hp]) (by simp) (fun hc => absurd hc hi)
        fun _ => h.cpus.looked c (by rw [hp]; rfl))
    next => exact takeHead_does h (by simp [hp]) hi (h.leveled .global).below
  next hp =>
    have hi := hidle (by simp [hp])
    split
    next hc => exact dequeueThread_gives h (by simp [hp]) hi hc
    next =>
      exact (hsame _).does (h.goPhase (by simp [hp]) (by simp) (fun hc => absurd hc hi)
        fun _ => h.cpus.looked c (by rw [hp]; rfl))
  next hp =>
    have hi := hidle (by simp [hp])
    split
    next hc => exact dequeueThread_gives h (by simp [hp]) hi hc
    next =>
      exact (hsame _).does (h.goPhase (by simp [hp]) (by simp) (fun hc => absurd hc hi)
        fun _ => h.cpus.looked c (by rw [hp]; rfl))
  next hp =>
    refine SameView.does (sameView_of_thread rfl) (goIdle_inv h (by simp [hp]) (hidle (by simp [hp]))
      (h.cpus.looked c (by rw [hp]; rfl)) ?_)
    split
    next => exact .refl _
    next => exact (List.perm_append_singleton c s.idleQueue).symm
  next hp =>
    have hi := hidle (by simp [hp])
    split
    next hn => exact (hsame _).does (h.goPhase (by simp [hp]) (by simp) (fun hc => absurd hc hi) fun _ => hn)
    next t ht =>
      have hr := h.runs_of_at (p := .slot c) ht
      have ho := h.ok_of_at (p := .slot c) ht (by simp)
      have hsame : (s.setNext c none).setCpuState c (s.cpuState c) = s.setNext c none := by
        simp only [State.setCpuState, State.setNext, Function.update_eq_self]
      have hin := takeSlot_inv h ht hi
      rw [hsame] at hin
      have hdown : Inv (some t) ((s.setNext c none).setPhase c .down) :=
        hin.goPhase (by simp [State.setNext, hp]) (by simp) (fun hc => absurd hc hi) fun _ => by simp [State.setNext]
      have hv : SameView s ((s.setNext c none).setPhase c .down) := sameView_of_thread rfl
      exact (threadSetrun_gives hdown hr ho).mono fun r hr => (hv.trans hr.2).does hr.1
  next hp =>
    have hi := hidle (by simp [hp])
    have hn := h.cpus.looked c (by rw [hp]; rfl)
    refine SameView.does (sameView_of_thread rfl) ((offLine_inv h hi hn).goPhase (by simp [State.setCpuState, hp])
      (by simp) (fun hc => ?_) fun _ => hn)
    simp [State.setCpuState] at hc
  next => exact does_self h
  next => exact does_self h
  next => exact does_self h

end MachVM.Kern.Sched
