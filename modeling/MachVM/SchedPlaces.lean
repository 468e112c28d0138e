import MachVM.SchedReach

namespace MachVM.Kern.Sched

open Machine Levels

variable {s r : State} {t u : ThreadId} {c : CpuId} {q : RunqId} {a : Action}

@[simp] theorem setPhase_phase (s : State) (c : CpuId) (p : Phase) : (s.setPhase c p).phase c = p :=
  Function.update_self ..

@[simp] theorem loadContext_phase (s : State) (c : CpuId) (t : ThreadId) :
    (loadContext s c t).phase c = .running t := Function.update_self ..

/-- The actions that swap no thread out. -/
def okHome (s : State) (a : Action) : Prop := ok s a ∧ a.swapsOut = false

abbrev ReachableHome : State → Prop := Reach Start (fun s a => (step s a).toOption) okHome

theorem ReachableHome.home (h : ReachableHome s) : s.Home := by
  refine (Reach.invariant (p := fun s => SwapInv s.swapinQueue s.swap s.ops ∧ s.Home)
    (fun s hs => ⟨hs.swap, fun t => (hs.thread t).2.2.2⟩) (fun s a r hp ha hs => ?_) h).2
  have hsw := (step_swap hp.1 ha.1).of_ok (toOption_eq_some hs)
  exact ⟨hsw.inv, hsw.home ha.2 hp.2⟩

/-- The places of a thread that is to run, down to the list of its run queue. -/
inductive Spot
  | active (c : CpuId)
  | slot (c : CpuId)
  | list (q : RunqId) (k : Nat)

def On (s : State) (t : ThreadId) : Spot → Prop
  | .active c => s.phase c = .running t
  | .slot c => s.nextThread c = some t
  | .list q k => t ∈ (s.queue q).runq k

def Spot.place : Spot → Place
  | .active c => .active c
  | .slot c => .slot c
  | .list q _ => .queued q

theorem Inv.at_of_on {p : Spot} (h : Inv none s) (hp : On s t p) : At s t p.place := by
  cases p with
  | active c => exact hp
  | slot c => exact hp
  | list q k => exact (h.mem_runq.mp hp).1

theorem Inv.on_unique {p p' : Spot} (h : Inv none s) (hp : On s t p) (hp' : On s t p') : p = p' := by
  have he := h.unique t _ _ (h.at_of_on hp) (h.at_of_on hp')
  cases p <;> cases p' <;> simp only [Spot.place] at he
  case active.active => rw [Place.active.inj he]
  case slot.slot => rw [Place.slot.inj he]
  case list.list q k q' k' =>
    cases Place.queued.inj he
    rw [← (h.mem_runq.mp hp).2, ← (h.mem_runq.mp hp').2]
  all_goals simp at he

theorem Inv.exists_on {p : Place} (h : Inv none s) (hp : At s t p) : ∃ p, On s t p := by
  cases p with
  | active c => exact ⟨.active c, hp⟩
  | slot c => exact ⟨.slot c, hp⟩
  | queued q => exact ⟨.list q (level (s.thread t).schedPri), h.mem_runq.mpr ⟨hp, rfl⟩⟩

theorem takeHead_best {q' : RunqId} {k low : Nat} (h : Inv none s) (hlow : ∀ i, i < k → (s.queue q').runq i = [])
    (hp : s.phase c ≠ .running t) (hq : (s.thread t).runq = some q)
    (ht : (takeHead s c q' k low).phase c = .running t) {j : Nat} (hu : u ∈ (s.queue q).runq j) :
    level (s.thread t).schedPri ≤ j := by
  unfold takeHead at ht
  dsimp only at ht
  split at ht
  next => exact absurd ht hp
  next x xs hl =>
    have hx : Phase.running x = .running t := (loadContext_phase ..).symm.trans ht
    cases Phase.running.inj hx
    obtain ⟨hq', hk⟩ := (h.mem_runq (k := k)).mp (by rw [hl]; exact List.mem_cons_self)
    cases Option.some.inj (hq.symm.trans hq')
    rw [hk]
    by_contra hj
    rw [hlow j (by omega)] at hu
    simp at hu

theorem dispatch_best (h : Inv none s) (hr : dispatch s c = .ok r) (hq : (s.thread t).runq = some q)
    (ht : r.phase c = .running t) {j : Nat} (hu : u ∈ (s.queue q).runq j) : level (s.thread t).schedPri ≤ j := by
  have hp : s.phase c ≠ .running t := by
    intro hp
    exact absurd (h.unique t (.active c) (.queued q) hp hq) (by simp)
  have hdeq : ∀ q', 0 < (s.queue q').count → dequeueThread s c q' = .ok r → level (s.thread t).schedPri ≤ j := by
    intro q' hc hr
    obtain ⟨m, hm, hmn, hne, hlow⟩ := (h.leveled q').firstFrom hc
    unfold dequeueThread at hr
    dsimp only at hr
    rw [hm] at hr
    cases Except.ok.inj hr
    exact takeHead_best h hlow hp hq ht hu
  unfold dispatch at hr
  split at hr
  next hph =>
    split at hr
    next =>
      cases Except.ok.inj hr
      simp at ht
    next =>
      split at hr
      next x hx =>
        cases Except.ok.inj hr
        have hxt : Phase.running x = .running t := (loadContext_phase ..).symm.trans ht
        cases Phase.running.inj hxt
        exact absurd (h.unique t (.slot c) (.queued q) hx hq) (by simp)
      next =>
        cases Except.ok.inj hr
        rw [setPhase_phase] at ht
        split at ht <;> simp at ht
  next =>
    dsimp only at hr
    split at hr
    next =>
      cases Except.ok.inj hr
      simp at ht
    next =>
      cases Except.ok.inj hr
      exact takeHead_best h (h.leveled .global).below hp hq ht hu
  next =>
    split at hr
    next hc => exact hdeq _ hc hr
    next =>
      cases Except.ok.inj hr
      simp at ht
  next =>
    split at hr
    next hc => exact hdeq _ hc hr
    next =>
      cases Except.ok.inj hr
      simp at ht
  next =>
    cases Except.ok.inj hr
    simp at ht
  next =>
    split at hr
    next =>
      cases Except.ok.inj hr
      simp at ht
    next x _ =>
      have hs := threadSetrun_spares (s := (s.setNext c none).setPhase c .down) (t := x)
      rw [(hs.of_ok hr).phase] at ht
      simp at ht
  next =>
    cases Except.ok.inj hr
    simp at ht
  next =>
    cases Except.ok.inj hr
    exact absurd ht hp
  next =>
    cases Except.ok.inj hr
    exact absurd ht hp
  next =>
    cases Except.ok.inj hr
    exact absurd ht hp

/-- Threads that are to run are neither lost nor duplicated, the run queues keep their counts and hints, and a
processor takes one of the best threads of a run queue. -/
theorem runnable_threads_placed (h : ReachableHome s) :
    (∀ t, (s.thread t).state.run = true → ∃! p, On s t p) ∧
    (∀ t q, (s.thread t).runq = some q ↔ ∃ k, t ∈ (s.queue q).runq k) ∧
    (∀ t q k, t ∈ (s.queue q).runq k → (s.thread t).state.run = true) ∧
    (∀ q, (∀ k, ((s.queue q).runq k).Nodup) ∧
      (s.queue q).count = ∑ k ∈ Finset.range nrqs, ((s.queue q).runq k).length ∧
      ∀ k, k < (s.queue q).low → (s.queue q).runq k = []) ∧
    (∀ a, okHome s a → step s a ≠ .error .emptyRunq) ∧
    ∀ c r t q, step s (.dispatch c) = .ok r → (s.thread t).runq = some q → r.phase c = .running t →
      ∀ u j, u ∈ (s.queue q).runq j → level (s.thread t).schedPri ≤ j := by
  obtain ⟨hi, hs⟩ := reachable_inv (h.mono fun _ _ ha => ha.1)
  have hh := h.home
  refine ⟨fun t hr => ?_, fun t q => ?_, fun t q k hk => ?_, fun q => ?_, fun a ha he => ?_, ?_⟩
  · have hs : (s.thread t).state.swapped = false := (hi.ok t (by simp)).away.trans (hh t)
    obtain ⟨p, hp⟩ := (hi.placed t (by simp)).mpr ⟨hr, hs⟩
    obtain ⟨p', hp'⟩ := hi.exists_on hp
    exact ⟨p', hp', fun p'' hp'' => hi.on_unique hp'' hp'⟩
  · exact ⟨fun hq => ⟨_, hi.mem_runq.mpr ⟨hq, rfl⟩⟩, fun ⟨k, hk⟩ => (hi.mem_runq.mp hk).1⟩
  · exact (hi.runs_of_at (p := .queued q) (hi.mem_runq.mp hk).1).1
  · exact ⟨fun k => hi.lists.nodup (q, k), (hi.leveled q).total, (hi.leveled q).below⟩
  · have hp := (step_gives hi hs ha.1).of_error he
    cases a <;> simp [Action.Panics] at hp
  · intro c r t q hr hq ht u j hu
    exact dispatch_best hi hr hq ht hu

/-- Thread 1 is resumed. -/
def resumedState : State := ((step bootState (.release 1)).toOption).getD bootState

theorem resumedState_placed : ∃! p, On resumedState 1 p := by
  have h : ReachableHome bootState := .start bootState_start
  have h : ReachableHome resumedState := h.next (a := Action.release 1) ⟨trivial, rfl⟩ rfl
  exact (runnable_threads_placed h).1 1 rfl

end MachVM.Kern.Sched

namespace MachVM.Kern.Sched

open Machine Levels

variable {s r : State} {t u : ThreadId} {c : CpuId} {q : RunqId} {a : Action} {k : OpId}

theorem away_iff {x : SwapState} :
    x.away = true ↔ x = .goingOut ∨ x = .wantIn ∨ x = .out ∨ x = .comingIn := by
  cases x <;> simp [SwapState.away]

theorem swapinQueue_alone (h : Inv none s) (hs : SwapInv s.swapinQueue s.swap s.ops) (ht : t ∈ s.swapinQueue) :
    (s.thread t).swapState = .comingIn ∧ (s.thread t).runq = none ∧ (∀ q k, t ∉ (s.queue q).runq k) ∧
      ∀ b, t ∉ s.waitQueue b := by
  have hc : (s.thread t).swapState = .comingIn := hs.fits t .queued ht
  have hok := h.ok t (by simp)
  have hsw : (s.thread t).state.swapped = true := by rw [hok.away, hc]; rfl
  have hq : (s.thread t).runq = none := by
    cases hq : (s.thread t).runq with
    | none => rfl
    | some q =>
      have := (h.runs_of_at (p := .queued q) hq).2
      simp [hsw] at this
  refine ⟨hc, hq, fun q k hk => ?_, fun b hb => ?_⟩
  · have := (h.mem_runq.mp hk).1
    simp [hq] at this
  · have hw := hok.event (h.mem_waitQueue.mp hb).1
    simp [hok.coming (.inr hc)] at hw

theorem threadSwapin_out (hs : (s.thread t).swapState = .out) :
    threadSwapin s t = .ok ({ s with swapinQueue := s.swapinQueue ++ [t] }.modThread t
      fun th => { th with swapState := .comingIn }) := by
  unfold threadSwapin
  rw [hs]

theorem proceed_swapout (hs : SwapInv s.swapinQueue s.swap s.ops) (hk : s.ops k = some (.swapout t)) :
    ∃ r, step s (.proceed k) = .ok r ∧ r.ops k = none ∧
      ((s.thread t).swapState = .wantIn → r.swapinQueue = s.swapinQueue ++ [t]) := by
  have hf : (s.thread t).swapState = .goingOut ∨ (s.thread t).swapState = .wantIn := hs.fits t (.going k) hk
  simp only [step, hk, proceed, threadSwapout]
  rcases hf with hf | hf
  · rw [hf]
    exact ⟨_, rfl, by simp [State.setOp], by simp⟩
  · rw [hf]
    dsimp only
    rw [threadSwapin_out (by rw [modThread_self])]
    exact ⟨_, rfl, by simp [State.setOp], fun _ => rfl⟩

theorem proceed_doswapin (h : Inv none s) (hs : SwapInv s.swapinQueue s.swap s.ops)
    (hk : s.ops k = some (.doswapin t)) :
    ∃ r, step s (.proceed k) = .ok r ∧ r.ops k = none ∧
      (r.thread t).state = { (s.thread t).state with swapped := false } ∧
      ((s.thread t).state.run = true → ∃! p, On r t p) := by
  obtain ⟨r, hr, hi, hc⟩ := (threadDoswapin_gives h (hs.fits t (.coming k) hk)).exists_ok (by simp)
  have hi : Inv none (r.setOp k none) := hi.aside
  have hst : (r.thread t).state = { (s.thread t).state with swapped := false } := by
    obtain ⟨h1, h2, h3, h4, -⟩ := Code.mk.inj hc.code
    change ThState.mk _ _ _ _ = _
    rw [h1, h2, h3, h4]
  refine ⟨r.setOp k none, ?_, by simp [State.setOp], hst, fun hrun => ?_⟩
  · simp only [step, hk, proceed, hr]
    rfl
  · obtain ⟨p, hp⟩ := (hi.placed t (by simp)).mpr (by
      change (r.thread t).state.run = true ∧ (r.thread t).state.swapped = false
      rw [hst]
      exact ⟨hrun, rfl⟩)
    obtain ⟨p', hp'⟩ := hi.exists_on hp
    exact ⟨p', hp', fun p'' hp'' => hi.on_unique hp'' hp'⟩

/-- The state machine of thread swapping: `TH_SWAPPED` goes with the swap states on the way out and in, the queue of
the swapper shares its links with no other queue, a thread that is to run is on its way in and gets its place when it
is in, and `thread_swapin` and `thread_swapout` do not panic. -/
theorem swap_state_machine (h : Reachable s) :
    (∀ t, (s.thread t).state.swapped = true ↔ (s.thread t).swapState = .goingOut ∨ (s.thread t).swapState = .wantIn ∨
      (s.thread t).swapState = .out ∨ (s.thread t).swapState = .comingIn) ∧
    s.swapinQueue.Nodup ∧
    (∀ t, t ∈ s.swapinQueue → (s.thread t).swapState = .comingIn ∧ (s.thread t).runq = none ∧
      (∀ q k, t ∉ (s.queue q).runq k) ∧ ∀ b, t ∉ s.waitQueue b) ∧
    (∀ t, (s.thread t).state.run = true → (s.thread t).state.swapped = true →
      (s.thread t).swapState = .wantIn ∨ (s.thread t).swapState = .comingIn) ∧
    (∀ t, (s.thread t).swapState = .wantIn → ∃! k, s.ops k = some (.swapout t)) ∧
    (∀ t, (s.thread t).swapState = .comingIn →
      t ∈ s.swapinQueue ∧ (∀ k, s.ops k ≠ some (.doswapin t)) ∨
      t ∉ s.swapinQueue ∧ ∃! k, s.ops k = some (.doswapin t)) ∧
    (∀ k t, s.ops k = some (.swapout t) → ∃ r, step s (.proceed k) = .ok r ∧ r.ops k = none ∧
      ((s.thread t).swapState = .wantIn → r.swapinQueue = s.swapinQueue ++ [t])) ∧
    (∀ k t, s.ops k = some (.doswapin t) → ∃ r, step s (.proceed k) = .ok r ∧ r.ops k = none ∧
      (r.thread t).state = { (s.thread t).state with swapped := false } ∧
      ((s.thread t).state.run = true → ∃! p, On r t p)) ∧
    ∀ a, ok s a → step s a ≠ .error .threadSwapin ∧ step s a ≠ .error .threadSwapout := by
  obtain ⟨hi, hs⟩ := reachable_inv h
  refine ⟨fun t => ?_, hs.nodup, fun t => swapinQueue_alone hi hs, fun t => (hi.ok t (by simp)).bound, fun t ht => ?_,
    fun t ht => ?_, fun k t => proceed_swapout hs, fun k t => proceed_doswapin hi hs, fun a ha => ?_⟩
  · rw [(hi.ok t (by simp)).away, away_iff]
  · obtain ⟨p, hp⟩ := hs.held t (.inr (.inr ht))
    have hf := hs.fits t p hp
    cases p with
    | queued => exact absurd (ht.symm.trans hf) (by simp)
    | coming k => exact absurd (ht.symm.trans hf) (by simp)
    | going k => exact ⟨k, hp, fun j hj => SwapPlace.going.inj (hs.unique t (.going j) (.going k) hj hp)⟩
  · obtain ⟨p, hp⟩ := hs.held t (.inl ht)
    have hf := hs.fits t p hp
    cases p with
    | queued => exact .inl ⟨hp, fun k hk => absurd (hs.unique t .queued (.coming k) hp hk) (by simp)⟩
    | coming k =>
      refine .inr ⟨fun hq => absurd (hs.unique t .queued (.coming k) hq hp) (by simp), k, hp, fun j hj => ?_⟩
      exact SwapPlace.coming.inj (hs.unique t (.coming j) (.coming k) hj hp)
    | going k => rcases hf with hf | hf <;> exact absurd (ht.symm.trans hf) (by simp)
  · constructor <;> intro he <;> have hp := (step_gives hi hs ha).of_error he <;>
      cases a <;> simp [Action.Panics] at hp

/-- Thread 1, which is suspended, goes out and is resumed before it is out. -/
def swappedCalls : List Action := [.swapoutScan 0 1, .release 1, .proceed 0]

def swappedState : State := ((swappedCalls.foldlM step bootState).toOption).getD bootState

theorem swappedState_queued : Reachable swappedState ∧ swappedState.swapinQueue = [1] ∧
    (swappedState.thread 1).swapState = .comingIn := by
  have h : Reachable bootState := .start bootState_start
  have h := h.next (a := Action.swapoutScan 0 1) rfl rfl
  have h := h.next (a := Action.release 1) trivial rfl
  have h : Reachable swappedState := h.next (a := Action.proceed 0) trivial rfl
  exact ⟨h, rfl, ((swap_state_machine h).2.2.1 1 List.mem_cons_self).1⟩

end MachVM.Kern.Sched
