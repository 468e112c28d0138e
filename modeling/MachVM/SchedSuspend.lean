import MachVM.SchedActions

namespace MachVM.Kern.Sched

open Machine Levels

variable {s r : State} {t u : ThreadId} {c : CpuId} {q : RunqId} {th : Thread} {col : Column}

theorem setPri_gives {pri : Int} (h : Inv none s) :
    Gives (setPri s t pri) (fun _ => False) fun r => Inv none r ∧ SameView s r := by
  have hok := h.ok t (by simp)
  unfold setPri
  dsimp only
  cases hq : (s.thread t).runq with
  | none =>
    rw [remRunq_none hq, if_pos rfl]
    refine ⟨h.setThread rfl ?_ rfl (fun _ => .rfl) fun _ => hok.congr rfl rfl rfl rfl rfl rfl .rfl,
      sameView_update rfl rfl rfl rfl⟩
    simp only [Thread.list, hq, Option.map_none]
  | some q =>
    obtain ⟨hsome, hi⟩ := remRunq_eq h hq
    have hr := h.runs_of_at (p := .queued q) hq
    have ho := h.ok_of_at (p := .queued q) hq (by simp)
    rw [if_neg (by simp [hsome])]
    have hth : ((remRunq s t).1.modThread t fun th => { th with schedPri := pri }).thread t =
        { s.thread t with schedPri := pri, runq := none } := by
      rw [modThread_self, remRunq_thread, Function.update_self]
    have hv : SameView s ((remRunq s t).1.modThread t fun th => { th with schedPri := pri }) := by
      refine SameView.trans (r := (remRunq s t).1) (sameView_update remRunq_thread rfl rfl rfl) ?_
      exact sameView_update rfl rfl rfl rfl
    have hin : Inv (some t) ((remRunq s t).1.modThread t fun th => { th with schedPri := pri }) :=
      hi.setHand hi.hand_runq rfl
    refine (threadSetrun_gives hin ?_ ?_).mono fun r hr => ⟨hr.1, hv.trans hr.2⟩
    · rw [hth]
      exact hr
    · rw [hth]
      exact ho.congr rfl rfl rfl rfl rfl rfl .rfl

theorem goes_suspend : ∀ x : Code, x.valid = true → Goes .suspend x { x with susp := true } := by
  rintro ⟨a, b, c, d, e⟩
  revert a b c d e
  decide

theorem setSusp_inv {n : Int} (h : Inv none s) :
    Inv none (s.modThread t fun th => { th with suspendCount := n, state := { th.state with susp := true } }) := by
  have hok := h.ok t (by simp)
  refine h.setThread rfl rfl rfl (fun _ => .rfl) fun _ => ?_
  exact ⟨.inr (.inr rfl), hok.event, hok.waiting, hok.away, hok.bound, hok.coming, hok.asserted, fun _ => rfl⟩

theorem threadHold_does (h : Inv none s) : Does .suspend s (threadHold s t) :=
  Changes.does (changes_of_thread rfl) (setSusp_inv h) (goes_suspend _)

theorem threadHaltSuspend_inv (h : Inv none s) : Inv none (threadHaltSuspend s t) := setSusp_inv h

theorem threadDowait_does (h : Inv none s) : Does .suspend s (threadDowait s t) := by
  have hok := h.ok t (by simp)
  unfold threadDowait
  dsimp only
  split
  next hst =>
    refine Changes.does (changes_of_thread rfl) ?_ fun hv => ?_
    · refine h.setThread rfl rfl rfl (fun _ => ?_) fun _ => ?_
      · simp [hst]
      · refine ⟨.inr (.inr rfl), fun he => ?_, fun hh => by simp at hh, ?_, fun hh => by simp at hh, fun _ => rfl,
          fun ha hh => ?_, fun _ => rfl⟩
        · simpa [hst] using hok.event he
        · rw [← hok.away, hst]
        · exact absurd ha (h.not_active (by simp [Thread.Runs, hst]))
    · simp only [Thread.code, hst] at hv ⊢
      revert hv
      cases (s.thread t).interruptible <;> decide
  next =>
    split
    next hst =>
      obtain ⟨hst, hint, hrem⟩ := hst
      cases hq : (s.thread t).runq with
      | none =>
        rw [remRunq_none hq] at hrem
        exact absurd rfl hrem
      | some q =>
        have hi := (remRunq_eq h hq).2
        have hout : Inv (some t) ((remRunq s t).1.setState t { susp := true }) := hi.setHand hi.hand_runq rfl
        have hth : (remRunq s t).1.thread t = { s.thread t with runq := none } := by
          rw [remRunq_thread, Function.update_self]
        refine Changes.does (Changes.after (sameView_update remRunq_thread rfl rfl rfl) (changes_of_thread rfl)) ?_
          fun _ => ?_
        · refine hout.drop (by simp [State.setState]) ?_
          rw [State.setState, modThread_self, hth]
          refine Thread.Ok.inactive ⟨.inr (.inr rfl), fun he => ?_, fun hh => by simp at hh, ?_, fun hh => by simp at hh,
            fun _ => rfl, False.elim, fun _ => rfl⟩ hout.hand_inactive
          · simpa [hst] using hok.event he
          · rw [← hok.away, hst]
        · simp only [Thread.code, hth, hst, hint]
          decide
    next => exact does_self h

theorem goes_resume : ∀ a b d e : Bool, (⟨a, b, true, d, e⟩ : Code).valid = true → a = true ∨ b = true →
    Goes .resume ⟨a, b, true, d, e⟩ ⟨a, b, false, d, e⟩ := by
  decide

theorem setState_modThread {f : Thread → Thread} {st : ThState} :
    (s.modThread t f).setState t st = s.setThread t { f (s.thread t) with state := st } := by
  rw [State.setState, State.modThread, modThread_self]
  simp only [State.modThread, State.setThread, Function.update_idem]

theorem threadRelease_gives (h : Inv none s) : Gives (threadRelease s t) (fun _ => False) (Does .resume s) := by
  have hok := h.ok t (by simp)
  unfold threadRelease
  dsimp only
  split
  next hn =>
    have hs := hok.suspended (by omega)
    have hc : ∀ su : Bool, 0 < (s.thread t).suspendCount - 1 → su = true := fun _ hc => by omega
    simp only [setState_modThread]
    split
    next hst =>
      obtain ⟨hrun, hwait, -, hswap⟩ := ThState.mk.inj hst
      have he : (s.thread t).waitEvent = 0 := by
        by_contra he
        simp [hok.event he] at hwait
      refine Gives.mono (setThread_swapin_gives h (by simp [Thread.Runs, hrun]) rfl rfl ?_ ?_)
        fun r hr => hr.2.does hr.1 fun hv => ?_
      · exact hok.away.symm.trans hswap
      · exact ⟨.inl rfl, fun hh => absurd he hh, fun _ hh => by simp at hh, rfl, fun _ _ => .inr rfl, fun _ => rfl,
          False.elim, hc _⟩
      · simp only [Thread.code, hrun, hwait, hs, hswap] at hv ⊢
        revert hv
        cases (s.thread t).interruptible <;> decide
    next hst1 =>
      split
      next hst =>
        obtain ⟨hrun, hwait, -, hswap⟩ := ThState.mk.inj hst
        have he : (s.thread t).waitEvent = 0 := by
          by_contra he
          simp [hok.event he] at hwait
        refine Gives.mono (setThread_setrun_gives h (by simp [Thread.Runs, hrun]) rfl rfl ⟨rfl, rfl⟩ ?_)
          fun r hr => hr.2.does hr.1 fun hv => ?_
        · exact ⟨.inl rfl, fun hh => absurd he hh, fun _ hh => by simp at hh, hswap.symm.trans hok.away,
            fun _ hh => by simp at hh, fun _ => rfl, False.elim, hc _⟩
        · simp only [Thread.code, hrun, hwait, hs, hswap] at hv ⊢
          revert hv
          cases (s.thread t).interruptible <;> decide
      next hst2 =>
        have hb : (s.thread t).state.run = true ∨ (s.thread t).state.wait = true := by
          revert hst1 hst2
          obtain ⟨a, b, c, d⟩ := (s.thread t).state
          cases a <;> cases b <;> cases d <;> simp
        refine Changes.does (changes_of_thread rfl) (h.setThread rfl rfl rfl (fun _ => .rfl) fun _ => ?_) fun hv => ?_
        · exact ⟨hb.imp_right .inl, hok.event, hok.waiting, hok.away, hok.bound, hok.coming, hok.asserted, hc _⟩
        · simp only [Thread.code, hs] at hv ⊢
          exact goes_resume _ _ _ _ hv hb
  next hn =>
    refine Changes.does (changes_of_thread rfl) (h.setThread rfl rfl rfl (fun _ => .rfl) fun _ => ?_) fun _ => .refl _ _
    refine ⟨hok.bits, hok.event, hok.waiting, hok.away, hok.bound, hok.coming, hok.asserted, fun hc => ?_⟩
    dsimp only at hc
    exact hok.suspended (by omega)

theorem threadHaltRun_gives (h : Inv none s) :
    Gives (threadHaltRun s t) (fun e => e = .threadHalt) (Inv none) := by
  have hok := h.ok t (by simp)
  have he : (s.thread t).state.wait = false → (s.thread t).waitEvent = 0 := by
    intro hw
    by_contra he
    simp [hok.event he] at hw
  unfold threadHaltRun
  dsimp only
  split
  next hst =>
    have he := he (by rw [hst])
    refine Gives.mono (Gives.weaken (setThread_swapin_gives h (by simp [Thread.Runs, hst]) rfl rfl ?_ ?_) (by simp))
      fun r hr => hr.1
    · rw [← hok.away, hst]
    · refine ⟨.inl rfl, fun hh => absurd he hh, fun _ hh => ?_, ?_, fun _ _ => .inr rfl, fun _ => ?_, False.elim,
        fun _ => ?_⟩ <;> simp_all [SwapState.away]
  next =>
    split
    next hst =>
      have he := he (by rw [hst])
      refine Gives.mono (Gives.weaken (setThread_setrun_gives h (by simp [Thread.Runs, hst]) rfl rfl ⟨rfl, by simp [hst]⟩ ?_)
        (by simp)) fun r hr => hr.1
      refine ⟨.inl rfl, fun hh => absurd he hh, fun _ hh => ?_, hok.away, fun _ hh => ?_, hok.coming, False.elim,
        fun _ => ?_⟩ <;> simp_all
    next => rfl

theorem goes_swapout : ∀ w su : Bool, w = true ∨ su = true →
    Goes .swapout ⟨false, w, su, false, false⟩ ⟨false, w, su, true, false⟩ := by decide

theorem swapoutScan_does {k : OpId} (h : Inv none s) : Does .swapout s (swapoutScan s k t) := by
  have hok := h.ok t (by simp)
  unfold swapoutScan
  dsimp only
  split
  next hc =>
    obtain ⟨hrun, hswap, hin, hint⟩ := hc
    have hn : ¬(s.thread t).Runs := by simp [Thread.Runs, hrun]
    have hb : (s.thread t).state.wait = true ∨ (s.thread t).state.susp = true := by simpa [hrun] using hok.bits
    have hout : Inv none (s.modThread t fun th =>
        { th with state := { th.state with swapped := true }, swapState := .goingOut }) := by
      refine h.setThread rfl rfl rfl (fun _ => ?_) fun _ => ?_
      · simp [hrun]
      · refine ⟨hok.bits, hok.event, hok.waiting, rfl, fun hh => ?_, fun hh => by simp at hh,
          fun ha => absurd ha (h.not_active hn), hok.suspended⟩
        simp [hrun] at hh
    refine Changes.does (changes_of_thread rfl) hout.aside fun _ => ?_
    simp only [Thread.code, hrun, hswap, hint]
    exact goes_swapout _ _ hb
  next => exact does_self h

theorem threadSwapout_gives (h : Inv none s) (hs : (s.thread t).swapState = .goingOut ∨ (s.thread t).swapState = .wantIn) :
    Gives (threadSwapout s t) (fun _ => False) (Does col s) := by
  have hok := h.ok t (by simp)
  have hswap : (s.thread t).state.swapped = true := by
    rw [hok.away]
    rcases hs with hs | hs <;> rw [hs] <;> rfl
  have hn : ¬(s.thread t).Runs := by simp [Thread.Runs, hswap]
  unfold threadSwapout
  split
  next hs =>
    refine Changes.does (changes_of_thread rfl) (h.setThread rfl rfl rfl (fun _ => .rfl) fun _ => ?_) fun _ => .refl _ _
    refine ⟨hok.bits, hok.event, hok.waiting, hswap, fun hr hh => ?_, fun hh => by simp at hh, hok.asserted, hok.suspended⟩
    simpa [hs] using hok.bound hr hh
  next hs =>
    have hw := hok.coming (.inl hs)
    refine Gives.mono (setThread_swapin_gives h hn rfl rfl rfl ?_) fun r hr => hr.2.does hr.1 fun _ => .refl _ _
    exact ⟨hok.bits, hok.event, fun _ hh => by simp [hw] at hh, hswap, fun _ _ => .inr rfl, fun _ => hw, False.elim,
      hok.suspended⟩
  next h1 h2 => exact (hs.elim h1 h2).elim

theorem goes_swapin : ∀ a c e : Bool, (⟨a, false, c, true, e⟩ : Code).valid = true →
    Goes .swapin ⟨a, false, c, true, e⟩ ⟨a, false, c, false, e⟩ := by decide

theorem threadDoswapin_gives (h : Inv none s) (hs : (s.thread t).swapState = .comingIn) :
    Gives (threadDoswapin s t) (fun _ => False) fun r => Inv none r ∧ Changes t
      { s.thread t with state := { (s.thread t).state with swapped := false }, swapState := .inCore } s r := by
  have hok := h.ok t (by simp)
  have hswap : (s.thread t).state.swapped = true := by rw [hok.away, hs]; rfl
  have hn : ¬(s.thread t).Runs := by simp [Thread.Runs, hswap]
  have hw := hok.coming (.inr hs)
  have hin : { s.thread t with
      state := { (s.thread t).state with swapped := false }, swapState := .inCore }.Ok False :=
    ⟨hok.bits, hok.event, fun _ hh => by simp [hw] at hh, rfl, fun _ hh => by simp at hh, fun hh => by simp at hh,
      False.elim, hok.suspended⟩
  unfold threadDoswapin
  dsimp only
  split
  next hr => exact setThread_setrun_gives h hn rfl rfl ⟨hr, rfl⟩ hin
  next hr => exact ⟨setThread_stopped_inv h hn rfl rfl (fun hh => hr hh.1) hin, changes_of_thread rfl⟩

theorem threadDoswapin_does (h : Inv none s) (hs : (s.thread t).swapState = .comingIn) :
    Gives (threadDoswapin s t) (fun _ => False) (Does .swapin s) := by
  have hok := h.ok t (by simp)
  have hswap : (s.thread t).state.swapped = true := by rw [hok.away, hs]; rfl
  have hw := hok.coming (.inr hs)
  refine (threadDoswapin_gives h hs).mono fun r hr => hr.2.does hr.1 fun hv => ?_
  simp only [Thread.code, hw, hswap] at hv ⊢
  exact goes_swapin _ _ _ hv

end MachVM.Kern.Sched
