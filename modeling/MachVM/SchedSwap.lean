import MachVM.SchedSwitch

namespace MachVM.Kern.Sched

open Machine

/-- Where the swapper has a thread: on its queue, in the hands of a `thread_doswapin`, or in those of a
`thread_swapout`. -/
inductive SwapPlace
  | queued
  | coming (k : OpId)
  | going (k : OpId)

def SwapAt (queue : List ThreadId) (ops : OpId → Option Op) (t : ThreadId) : SwapPlace → Prop
  | .queued => t ∈ queue
  | .coming k => ops k = some (.doswapin t)
  | .going k => ops k = some (.swapout t)

/-- The swap states of the threads that the swapper has at a place. -/
def SwapPlace.Fits : SwapPlace → SwapState → Prop
  | .queued, x | .coming _, x => x = .comingIn
  | .going _, x => x = .goingOut ∨ x = .wantIn

/-- The swapper has exactly the threads that are on their way, each of them once. -/
structure SwapInv (queue : List ThreadId) (swap : ThreadId → SwapState) (ops : OpId → Option Op) : Prop where
  nodup : queue.Nodup
  unique : ∀ t p p', SwapAt queue ops t p → SwapAt queue ops t p' → p = p'
  fits : ∀ t p, SwapAt queue ops t p → p.Fits (swap t)
  held : ∀ t, swap t = .comingIn ∨ swap t = .goingOut ∨ swap t = .wantIn → ∃ p, SwapAt queue ops t p

section Moves

variable {queue queue' : List ThreadId} {swap swap' : ThreadId → SwapState} {ops ops' : OpId → Option Op}
  {t : ThreadId} {k : OpId} {x : SwapState}

theorem SwapInv.move (h : SwapInv queue swap ops) (hn : queue'.Nodup) (hs : ∀ u, u ≠ t → swap' u = swap u)
    (hat : ∀ u, u ≠ t → ∀ p, SwapAt queue' ops' u p ↔ SwapAt queue ops u p)
    (hu : ∀ p p', SwapAt queue' ops' t p → SwapAt queue' ops' t p' → p = p')
    (hf : ∀ p, SwapAt queue' ops' t p → p.Fits (swap' t))
    (hh : swap' t = .comingIn ∨ swap' t = .goingOut ∨ swap' t = .wantIn → ∃ p, SwapAt queue' ops' t p) :
    SwapInv queue' swap' ops' := by
  refine ⟨hn, fun u p p' => ?_, fun u p => ?_, fun u => ?_⟩ <;> by_cases hut : u = t
  · subst u
    exact hu p p'
  · rw [hat u hut, hat u hut]
    exact h.unique u p p'
  · subst u
    exact hf p
  · rw [hat u hut, hs u hut]
    exact h.fits u p
  · subst u
    exact hh
  · rw [hs u hut]
    intro hx
    obtain ⟨p, hp⟩ := h.held u hx
    exact ⟨p, (hat u hut p).mpr hp⟩

theorem SwapInv.nowhere (h : SwapInv queue swap ops) (hs : ∀ p : SwapPlace, ¬p.Fits (swap t)) (p : SwapPlace) :
    ¬SwapAt queue ops t p := fun hp => hs p (h.fits t p hp)

theorem not_fits_out (p : SwapPlace) : ¬p.Fits .out := by cases p <;> simp [SwapPlace.Fits]

theorem not_fits_inCore (p : SwapPlace) : ¬p.Fits .inCore := by cases p <;> simp [SwapPlace.Fits]

theorem SwapInv.comeIn (h : SwapInv queue swap ops) (hs : swap t = .out) :
    SwapInv (queue ++ [t]) (Function.update swap t .comingIn) ops := by
  have hno := h.nowhere (t := t) fun p => hs ▸ not_fits_out p
  have hp : ∀ p, SwapAt (queue ++ [t]) ops t p → p = .queued := by
    intro p hp
    cases p with
    | queued => rfl
    | coming k => exact absurd hp (hno (.coming k))
    | going k => exact absurd hp (hno (.going k))
  refine h.move (t := t) ?_ (fun u hu => Function.update_of_ne hu ..) (fun u hu p => ?_) (fun p p' h1 h2 => ?_)
    (fun p h1 => ?_) fun _ => ⟨.queued, by simp [SwapAt]⟩
  · have hnt : t ∉ queue := hno .queued
    exact List.Nodup.append h.nodup (List.nodup_singleton t) (by simpa using hnt)
  · cases p <;> simp [SwapAt, hu]
  · rw [hp p h1, hp p' h2]
  · rw [hp p h1, Function.update_self]
    rfl

theorem SwapInv.want (h : SwapInv queue swap ops) (hs : swap t = .goingOut) :
    SwapInv queue (Function.update swap t .wantIn) ops := by
  refine h.move (t := t) h.nodup (fun u hu => Function.update_of_ne hu ..) (fun _ _ _ => .rfl) (h.unique t)
    (fun p hp => ?_) fun _ => h.held t (by simp [hs])
  have := h.fits t p hp
  rw [Function.update_self]
  cases p <;> simp_all [SwapPlace.Fits]

theorem swapAt_update {op : Option Op} {u : ThreadId} (hu : op ≠ some (.swapout u) ∧ op ≠ some (.doswapin u))
    (hk : ops k ≠ some (.swapout u) ∧ ops k ≠ some (.doswapin u)) (p : SwapPlace) :
    SwapAt queue (Function.update ops k op) u p ↔ SwapAt queue ops u p := by
  cases p with
  | queued => exact .rfl
  | coming j =>
    by_cases hj : j = k
    · subst j
      simp only [SwapAt, Function.update_self, hu.2, hk.2]
    · simp only [SwapAt, Function.update_of_ne hj]
  | going j =>
    by_cases hj : j = k
    · subst j
      simp only [SwapAt, Function.update_self, hu.1, hk.1]
    · simp only [SwapAt, Function.update_of_ne hj]

theorem SwapInv.goOut (h : SwapInv queue swap ops) (hs : swap t = .inCore) (hk : ops k = none) :
    SwapInv queue (Function.update swap t .goingOut) (Function.update ops k (some (.swapout t))) := by
  have hno := h.nowhere (t := t) fun p => hs ▸ not_fits_inCore p
  have hp : ∀ p, SwapAt queue (Function.update ops k (some (.swapout t))) t p → p = .going k := by
    intro p hp
    cases p with
    | queued => exact absurd hp (hno .queued)
    | coming j =>
      by_cases hj : j = k
      · simp [SwapAt, hj] at hp
      · simp only [SwapAt, Function.update_of_ne hj] at hp
        exact absurd hp (hno (.coming j))
    | going j =>
      by_cases hj : j = k
      · rw [hj]
      · simp only [SwapAt, Function.update_of_ne hj] at hp
        exact absurd hp (hno (.going j))
  refine h.move (t := t) h.nodup (fun u hu => Function.update_of_ne hu ..)
    (fun u hu => swapAt_update (by simp [hu.symm]) (by simp [hk])) (fun p p' h1 h2 => ?_) (fun p h1 => ?_)
    fun _ => ⟨.going k, by simp [SwapAt]⟩
  · rw [hp p h1, hp p' h2]
  · rw [hp p h1, Function.update_self]
    exact .inl rfl

theorem SwapInv.take (h : SwapInv (t :: queue) swap ops) (hk : ops k = none) :
    SwapInv queue swap (Function.update ops k (some (.doswapin t))) := by
  obtain ⟨hnt, hn⟩ := List.nodup_cons.mp h.nodup
  have hq : SwapAt (t :: queue) ops t .queued := List.mem_cons_self
  have hp : ∀ p, SwapAt queue (Function.update ops k (some (.doswapin t))) t p → p = .coming k := by
    intro p hp
    cases p with
    | queued => exact absurd hp hnt
    | coming j =>
      by_cases hj : j = k
      · rw [hj]
      · simp only [SwapAt, Function.update_of_ne hj] at hp
        exact absurd (h.unique t _ (.coming j) hq hp) (by simp)
    | going j =>
      by_cases hj : j = k
      · simp [SwapAt, hj] at hp
      · simp only [SwapAt, Function.update_of_ne hj] at hp
        exact absurd (h.unique t _ (.going j) hq hp) (by simp)
  refine h.move (t := t) hn (fun _ _ => rfl) (fun u hu p => ?_) (fun p p' h1 h2 => ?_) (fun p h1 => ?_)
    fun _ => ⟨.coming k, by simp [SwapAt]⟩
  · rw [swapAt_update (by simp [hu.symm]) (by simp [hk])]
    cases p <;> simp [SwapAt, hu]
  · rw [hp p h1, hp p' h2]
  · rw [hp p h1]
    exact h.fits t .queued hq

theorem SwapInv.done (h : SwapInv queue swap ops) (hk : ops k = some (.swapout t) ∨ ops k = some (.doswapin t))
    (hx : x = .out ∨ x = .inCore) : SwapInv queue (Function.update swap t x) (Function.update ops k none) := by
  have hp : ∀ p, ¬SwapAt queue (Function.update ops k none) t p := by
    have hat : ∃ p, SwapAt queue ops t p ∧ (p = .going k ∨ p = .coming k) := by
      rcases hk with hk | hk
      · exact ⟨.going k, hk, .inl rfl⟩
      · exact ⟨.coming k, hk, .inr rfl⟩
    obtain ⟨p₀, h₀, hp₀⟩ := hat
    intro p hp
    cases p with
    | queued =>
      have := h.unique t p₀ .queued h₀ hp
      simp [this] at hp₀
    | coming j =>
      by_cases hj : j = k
      · simp [SwapAt, hj] at hp
      · simp only [SwapAt, Function.update_of_ne hj] at hp
        have := h.unique t p₀ (.coming j) h₀ hp
        simp [this, hj] at hp₀
    | going j =>
      by_cases hj : j = k
      · simp [SwapAt, hj] at hp
      · simp only [SwapAt, Function.update_of_ne hj] at hp
        have := h.unique t p₀ (.going j) h₀ hp
        simp [this, hj] at hp₀
  refine h.move (t := t) h.nodup (fun u hu => Function.update_of_ne hu ..) (fun u hu => swapAt_update (by simp) ?_)
    (fun p _ h1 => absurd h1 (hp p)) (fun p h1 => absurd h1 (hp p)) fun hh => ?_
  · rcases hk with hk | hk <;> simp [hk, hu.symm]
  · rcases hx with rfl | rfl <;> simp at hh

theorem SwapInv.other {op : Option Op} (h : SwapInv queue swap ops)
    (hk : ∀ t, ops k ≠ some (.swapout t) ∧ ops k ≠ some (.doswapin t))
    (ho : ∀ t, op ≠ some (.swapout t) ∧ op ≠ some (.doswapin t)) : SwapInv queue swap (Function.update ops k op) := by
  have hat : ∀ u p, SwapAt queue (Function.update ops k op) u p ↔ SwapAt queue ops u p :=
    fun u => swapAt_update (ho u) (hk u)
  refine ⟨h.nodup, fun t p p' => ?_, fun t p => ?_, fun t ht => ?_⟩
  · rw [hat, hat]
    exact h.unique t p p'
  · rw [hat]
    exact h.fits t p
  · simp only [hat]
    exact h.held t ht

end Moves

variable {s r : State} {t u n : ThreadId} {c : CpuId} {q : RunqId} {th : Thread}

def State.swap (s : State) (t : ThreadId) : SwapState := (s.thread t).swapState

/-- No thread is swapped out. -/
def State.Home (s : State) : Prop := ∀ t, (s.swap t).away = false

/-- What no step of an operation changes, whatever operations are under way. -/
structure Keeps (s r : State) : Prop where
  ops : r.ops = s.ops
  inv : ∀ ops, SwapInv s.swapinQueue s.swap ops → SwapInv r.swapinQueue r.swap ops
  home : s.Home → r.Home

theorem Keeps.refl (s : State) : Keeps s s := ⟨rfl, fun _ => id, id⟩

theorem Keeps.trans {q : State} (h : Keeps s r) (h' : Keeps r q) : Keeps s q :=
  ⟨h'.ops.trans h.ops, fun ops hi => h'.inv ops (h.inv ops hi), fun hh => h'.home (h.home hh)⟩

theorem keeps_of_swap (ho : r.ops = s.ops) (hq : r.swapinQueue = s.swapinQueue) (hs : r.swap = s.swap) : Keeps s r :=
  ⟨ho, fun ops hi => by rw [hq, hs]; exact hi, fun hh t => by rw [hs]; exact hh t⟩

theorem setThread_swap : (s.setThread t th).swap = Function.update s.swap t th.swapState := by
  funext u
  by_cases hu : u = t
  · subst u
    rw [State.swap, setThread_self, Function.update_self]
  · rw [State.swap, setThread_of_ne hu, Function.update_of_ne hu]
    rfl

theorem keeps_of_thread (ho : r.ops = s.ops) (hq : r.swapinQueue = s.swapinQueue)
    (ht : r.thread = Function.update s.thread t th) (hs : th.swapState = s.swap t) : Keeps s r := by
  refine keeps_of_swap ho hq ?_
  have : r.swap = (s.setThread t th).swap := by
    funext u
    simp only [State.swap, ht, State.setThread]
  rw [this, setThread_swap, hs, Function.update_eq_self]

theorem updatePriority_keeps : Keeps s (updatePriority s t) := by
  unfold updatePriority
  split
  next => exact .refl s
  next => exact keeps_of_thread rfl rfl rfl rfl

theorem threadSetrun_keeps : Gives (threadSetrun s t) (fun _ => True) (Keeps s) := by
  have hu := updatePriority_keeps (s := s) (t := t)
  have hd : ∀ c l, Keeps s (dispatchTo (updatePriority s t) t c l) :=
    fun c l => hu.trans (keeps_of_swap rfl rfl rfl)
  have hq : ∀ q, Keeps s (enqueueRunq (updatePriority s t) t q) := fun q => hu.trans (keeps_of_thread rfl rfl rfl rfl)
  unfold threadSetrun
  dsimp only
  split
  next => trivial
  next =>
    split
    next =>
      split
      next =>
        split
        next => trivial
        next => exact hd _ _
      next => exact hq _
    next =>
      split
      next => exact hd _ _
      next => exact hq _

theorem threadSwapin_keeps : Gives (threadSwapin s t) (fun _ => True) (Keeps s) := by
  unfold threadSwapin
  split
  next hs =>
    refine ⟨rfl, fun ops hi => ?_, fun hh => ?_⟩
    · exact (setThread_swap (s := s)).symm ▸ hi.comeIn hs
    · have := hh t
      simp [State.swap, hs, SwapState.away] at this
  next hs =>
    refine ⟨rfl, fun ops hi => ?_, fun hh => ?_⟩
    · exact (setThread_swap (s := s)).symm ▸ hi.want hs
    · have := hh t
      simp [State.swap, hs, SwapState.away] at this
  next => exact .refl s
  next => exact .refl s
  next => trivial
  next => trivial

theorem Keeps.after {x : Except Panic State} (hs : Keeps s r) (h : Gives x (fun _ => True) (Keeps r)) :
    Gives x (fun _ => True) (Keeps s) := h.mono fun _ hq => hs.trans hq

theorem setState_keeps {st : ThState} : Keeps s (s.setState t st) := keeps_of_thread rfl rfl rfl rfl

theorem endWait_keeps : Gives (endWait s t) (fun _ => True) (Keeps s) := by
  unfold endWait
  dsimp only
  split
  next => exact setState_keeps
  next =>
    split
    next => exact Keeps.after setState_keeps threadSetrun_keeps
    next =>
      split
      next => exact Keeps.after setState_keeps threadSwapin_keeps
      next => exact setState_keeps

theorem clearTimer_keeps : Keeps s (clearTimer s t) := keeps_of_thread rfl rfl rfl rfl

theorem remWaitQueue_keeps : Keeps s (remWaitQueue s t) := keeps_of_thread rfl rfl rfl rfl

theorem clearWaitSwitch_keeps : Gives (clearWaitSwitch s t) (fun _ => True) (Keeps s) := by
  unfold clearWaitSwitch
  split
  next => exact Keeps.after clearTimer_keeps endWait_keeps
  next => exact clearTimer_keeps

theorem wakeThread_keeps : Gives (wakeThread s t) (fun _ => True) (Keeps s) := by
  have hk : Keeps s (clearTimer (remWaitQueue s t) t) := remWaitQueue_keeps.trans clearTimer_keeps
  unfold wakeThread
  dsimp only
  split
  next => exact Keeps.after hk endWait_keeps
  next => trivial

theorem clearWait_keeps {interruptOnly : Bool} :
    Gives (clearWait s t interruptOnly) (fun _ => True) fun r => Keeps s r.1 := by
  unfold clearWait
  split
  next => exact .refl s
  next =>
    split
    next => exact .refl s
    next => exact clearWaitSwitch_keeps.bind fun r hr => hr

theorem clearWaitEvent_keeps {event : Int} : Gives (clearWaitEvent s t event) (fun _ => True) (Keeps s) := by
  unfold clearWaitEvent
  split
  next => exact Keeps.after remWaitQueue_keeps clearWaitSwitch_keeps
  next => exact .refl s

theorem wakeupScan_keeps {event : Int} {ts : List ThreadId} :
    Gives (wakeupScan event s ts) (fun _ => True) fun r => Keeps s r.1 := by
  induction ts generalizing s with
  | nil => exact .refl s
  | cons t ts ih =>
    rw [wakeupScan]
    split
    next =>
      refine wakeThread_keeps.bind fun r hr => ?_
      split
      next => exact hr
      next => exact ih.mono fun q hq => hr.trans hq
    next => exact ih

theorem wakeupOne_keeps {event : Int} : Gives (wakeupOne s event) (fun _ => True) (Keeps s) := by
  unfold wakeupOne
  split
  next => exact .refl s
  next => exact wakeThread_keeps

theorem assertWait_keeps {event : Int} {i : Bool} : Gives (assertWait s t event i) (fun _ => True) (Keeps s) := by
  unfold assertWait
  split
  next => trivial
  next =>
    dsimp only
    split
    next => exact keeps_of_thread rfl rfl rfl rfl
    next => exact keeps_of_thread rfl rfl rfl rfl

theorem threadSetTimeout_keeps : Keeps s (threadSetTimeout s t) := by
  unfold threadSetTimeout
  split
  next => exact keeps_of_thread rfl rfl rfl rfl
  next => exact .refl s

theorem Keeps.loadContext (h : Keeps s r) : Keeps s (loadContext r c t) :=
  h.trans (keeps_of_thread rfl rfl rfl rfl)

theorem threadBlock_keeps : Gives (threadBlock s c t) (fun _ => True) (Keeps s) := by
  have hp : Keeps s (s.setPhase c .switching) := keeps_of_swap rfl rfl rfl
  unfold threadBlock
  dsimp only
  split
  next => exact hp.trans setState_keeps
  next =>
    split
    next => exact Keeps.after hp threadSetrun_keeps
    next =>
      split
      next => exact hp.trans setState_keeps
      next =>
        split
        next => exact hp.trans setState_keeps
        next => trivial

theorem takeHead_keeps {k low : Nat} : Keeps s (takeHead s c q k low) := by
  unfold takeHead
  dsimp only
  split
  next => exact .refl s
  next => exact Keeps.loadContext (keeps_of_thread rfl rfl rfl rfl)

theorem dequeueThread_keeps : Gives (dequeueThread s c q) (fun _ => True) (Keeps s) := by
  unfold dequeueThread
  dsimp only
  split
  next => trivial
  next => exact takeHead_keeps

theorem dispatch_keeps : Gives (dispatch s c) (fun _ => True) (Keeps s) := by
  unfold dispatch
  split
  next =>
    split
    next =>
      dsimp only
      split
      next => exact keeps_of_swap rfl rfl rfl
      next => exact keeps_of_swap rfl rfl rfl
    next =>
      split
      next => exact Keeps.loadContext (keeps_of_swap rfl rfl rfl)
      next => exact keeps_of_swap rfl rfl rfl
  next =>
    dsimp only
    split
    next => exact keeps_of_swap rfl rfl rfl
    next => exact takeHead_keeps
  next =>
    split
    next => exact dequeueThread_keeps
    next => exact keeps_of_swap rfl rfl rfl
  next =>
    split
    next => exact dequeueThread_keeps
    next => exact keeps_of_swap rfl rfl rfl
  next => exact keeps_of_swap rfl rfl rfl
  next =>
    split
    next => exact keeps_of_swap rfl rfl rfl
    next =>
      have hk : Keeps s ((s.setNext c none).setPhase c .down) := keeps_of_swap rfl rfl rfl
      exact hk.after threadSetrun_keeps
  next => exact keeps_of_swap rfl rfl rfl
  next => exact .refl s
  next => exact .refl s
  next => exact .refl s

theorem idleTurn_keeps : Keeps s (idleTurn s c) := by
  unfold idleTurn
  dsimp only
  split
  next => exact keeps_of_swap rfl rfl rfl
  next => exact keeps_of_swap rfl rfl rfl

theorem leaveThread_keeps : Gives (leaveThread s c t) (fun _ => True) (Keeps s) := by
  have hp : Keeps s (s.setPhase c .switching) := keeps_of_swap rfl rfl rfl
  unfold leaveThread
  dsimp only
  split
  next => exact hp.trans setState_keeps
  next =>
    split
    next => exact Keeps.after hp threadSetrun_keeps
    next => trivial

theorem threadGoAndSwitch_keeps : Gives (threadGoAndSwitch s c t n) (fun _ => True) (Keeps s) := by
  unfold threadGoAndSwitch
  dsimp only
  split
  next =>
    rw [threadSwitch_eq]
    refine leaveThread_keeps.bind fun r hr => ?_
    exact (clearTimer_keeps.trans (setState_keeps.trans hr)).loadContext
  next =>
    split
    next => exact Keeps.after clearTimer_keeps endWait_keeps
    next => exact clearTimer_keeps

theorem remRunq_keeps : Keeps s (remRunq s t).1 := by
  refine keeps_of_thread ?_ ?_ remRunq_thread rfl
  · unfold remRunq
    split <;> rfl
  · unfold remRunq
    split <;> rfl

theorem setPri_keeps {pri : Int} : Gives (setPri s t pri) (fun _ => True) (Keeps s) := by
  have hk : Keeps s ((remRunq s t).1.modThread t fun th => { th with schedPri := pri }) :=
    remRunq_keeps.trans (keeps_of_thread rfl rfl rfl rfl)
  unfold setPri
  dsimp only
  split
  next => exact hk
  next => exact Keeps.after hk threadSetrun_keeps

theorem threadDowait_keeps : Keeps s (threadDowait s t) := by
  unfold threadDowait
  dsimp only
  split
  next => exact setState_keeps
  next =>
    split
    next => exact remRunq_keeps.trans setState_keeps
    next => exact .refl s

theorem threadRelease_keeps : Gives (threadRelease s t) (fun _ => True) (Keeps s) := by
  have hk : ∀ n, Keeps s (s.modThread t fun th => { th with suspendCount := n }) :=
    fun n => keeps_of_thread rfl rfl rfl rfl
  unfold threadRelease
  dsimp only
  split
  next =>
    split
    next => exact Keeps.after ((hk _).trans setState_keeps) threadSwapin_keeps
    next =>
      split
      next => exact Keeps.after ((hk _).trans setState_keeps) threadSetrun_keeps
      next => exact (hk _).trans setState_keeps
  next => exact hk _

theorem threadHaltRun_keeps : Gives (threadHaltRun s t) (fun _ => True) (Keeps s) := by
  have hk : Keeps s (s.modThread t fun th =>
      { th with state := { th.state with run := true }, interruptible := false }) := keeps_of_thread rfl rfl rfl rfl
  unfold threadHaltRun
  dsimp only
  split
  next => exact Keeps.after hk threadSwapin_keeps
  next =>
    split
    next => exact Keeps.after hk threadSetrun_keeps
    next => trivial

end MachVM.Kern.Sched
