import MachVM.SuspendReach

namespace MachVM.Kern.TaskTerminate

open Machine Sched
open Suspend (stopped comesToLoop threadTemplate)

/-- Where `task_terminate` is: `deactivated` is before its `task_hold`, `dowait` is `task_dowait` at the end of
`thread_list` or after one of its threads, and `terminating` is the loop that terminates the threads. -/
inductive Stage
  | before
  | failed
  | deactivated
  | dowait (last : Option ThreadId)
  | waiting (t : ThreadId) (sleeping : Bool)
  | terminating
  deriving DecidableEq, Repr

/-- A task and the `task_terminate` of it. `sched` has the threads of all tasks, and `halting` those that have to halt
on their way out of the kernel: their `exit_code` is `THREAD_HALT` or `THREAD_HALTED`. -/
structure State where
  sched : Sched.State
  halting : ThreadId → Bool
  active : Bool
  suspendCount : Int
  threadList : List ThreadId
  stage : Stage

section Functions

variable (s : State) (who : ThreadId)

/-- `task_terminate`, called by the thread `who`, up to its `task_hold`. -/
def taskTerminate : State :=
  if s.active then { s with active := false, threadList := s.threadList.erase who, stage := .deactivated }
  else { s with stage := .failed }

def taskHold : State :=
  if s.active then
    { s with
      suspendCount := s.suspendCount + 1
      sched := s.threadList.foldl (fun r t => if t ≠ who then threadHold r t else r) s.sched }
  else s

def taskRelease : Except Panic State :=
  if s.active then
    (visit threadRelease s.sched s.threadList).map fun sched => { s with suspendCount := s.suspendCount - 1, sched }
  else .ok s

/-- The section of `thread_create` with the lock of the task. -/
def threadCreate (t : ThreadId) : State :=
  { s with
    sched := s.sched.setThread t { threadTemplate with suspendCount := s.suspendCount + 1 }
    halting := Function.update s.halting t false
    threadList := s.threadList ++ [t] }

/-- The threads after the last one that `task_dowait` has waited for. -/
def threadsAfter (list : List ThreadId) : Option ThreadId → List ThreadId
  | none => list
  | some t => (list.dropWhile (· ≠ t)).tail

/-- `task_dowait`, with `must_wait`, up to its next `thread_dowait` or to the end. -/
def taskDowait (last : Option ThreadId) : State :=
  match (threadsAfter s.threadList last).find? (· ≠ who) with
  | some t => { s with stage := .waiting t false }
  | none => { s with stage := .terminating }

/-- `thread_dowait` of another thread up to where it sleeps or returns. -/
def dowait (t : ThreadId) (sleeping : Bool) : State :=
  let sched := if sleeping then s.sched else threadDowait s.sched t
  let th := sched.thread t
  { s with
    sched
    stage := if (sleeping || comesToLoop th.state) && !stopped th then .waiting t true else .dowait (some t) }

/-- The next section of `task_terminate`, up to its loop. -/
def proceed : Option State :=
  match s.stage with
  | .deactivated => some { taskHold s who with stage := .dowait none }
  | .dowait last => some (taskDowait s who last)
  | .waiting t sleeping => some (dowait s t sleeping)
  | .before | .failed | .terminating => none

end Functions

/-- `clearExitCode` is the end of `thread_abort`, less its `thread_release`. -/
inductive Action
  | sched (a : Sched.Action)
  | clearExitCode (t : ThreadId)
  | taskHold (c : CpuId)
  | taskRelease (c : CpuId)
  | threadCreate (t : ThreadId)
  | threadDeallocate (t : ThreadId)
  | terminate (c : CpuId)
  | proceed (c : CpuId)

/-- `thread_halt` sets the exit code of a thread when it sets it running. -/
def noteHalt (halting : ThreadId → Bool) (a : Sched.Action) : ThreadId → Bool :=
  match a.halts with
  | some t => Function.update halting t true
  | none => halting

/-- The thread that runs on a processor. -/
def current (s : State) (c : CpuId) : Option ThreadId :=
  match s.sched.phase c with
  | .running t => some t
  | _ => none

def step (who : ThreadId) (s : State) : Action → Option State
  | .sched a => (Sched.step s.sched a).toOption.map fun sched => { s with sched, halting := noteHalt s.halting a }
  | .clearExitCode t => some { s with halting := Function.update s.halting t false }
  | .taskHold c => (current s c).map fun u => taskHold s u
  | .taskRelease c => (current s c).bind fun _ => (taskRelease s).toOption
  | .threadCreate t => some (threadCreate s t)
  | .threadDeallocate t => some { s with threadList := s.threadList.erase t }
  | .terminate c => if current s c = some who ∧ s.stage = .before then some (taskTerminate s who) else none
  | .proceed c => if current s c = some who then proceed s who else none

/-- The task is inactive, and its threads have not been terminated yet. -/
def Stage.begun : Stage → Bool
  | .before | .failed => false
  | .deactivated | .dowait _ | .waiting _ _ | .terminating => true

/-- The thread that `task_dowait` has a reference to. -/
def Stage.referenced : Stage → Option ThreadId
  | .dowait last => last
  | .waiting t _ => some t
  | _ => none

/-- A structure that `thread_create` may use for a thread. -/
structure Unused (th : Thread) : Prop where
  state : th.state = { susp := true }
  waitEvent : th.waitEvent = 0
  timerSet : th.timerSet = false
  runq : th.runq = none
  swapState : th.swapState.away = false

instance (th : Thread) : Decidable (Unused th) :=
  decidable_of_iff (th.state = { susp := true } ∧ th.waitEvent = 0 ∧ th.timerSet = false ∧ th.runq = none ∧
      th.swapState.away = false)
    ⟨fun ⟨h1, h2, h3, h4, h5⟩ => ⟨h1, h2, h3, h4, h5⟩, fun ⟨h1, h2, h3, h4, h5⟩ => ⟨h1, h2, h3, h4, h5⟩⟩

def ok (s : State) : Action → Prop
  | .sched a => Sched.ok s.sched a
  | .threadCreate t => t ∉ s.threadList ∧ Unused (s.sched.thread t)
  | .threadDeallocate t => s.stage.referenced ≠ some t
  | _ => True

/-- At any time of a machine with this task, before somebody calls `task_terminate`. -/
structure Start (s : State) : Prop where
  sched : Sched.Start s.sched
  stage : s.stage = .before

abbrev Reachable (who : ThreadId) : State → Prop := Reach Start (step who) ok

/-- Every other thread is suspended before `task_terminate` begins, and from then on no release resumes one of the
task and no `thread_abort` calls one off that has not stopped. -/
def Undisturbed (who : ThreadId) (s : State) : Action → Prop
  | .sched a => s.stage.begun = true → ∀ t ∈ s.threadList, a.frees s.sched ≠ some t
  | .clearExitCode t => s.stage.begun = true → t ∈ s.threadList → (s.sched.thread t).Halted
  | .terminate _ => ∀ t ∈ s.threadList, t ≠ who → (s.sched.thread t).state.susp = true
  | _ => True

/-- A thread that is stopped, or runs only to halt. -/
def Held (s : State) (t : ThreadId) : Prop :=
  (s.sched.thread t).state.susp = true ∧ ((s.sched.thread t).state.run = false ∨ s.halting t = true)

variable {s r : State} {q : Sched.State} {t u who : ThreadId} {a : Action} {c : CpuId} {ts : List ThreadId}

/-- What the scheduler has in every run. -/
structure Sound (q : Sched.State) : Prop where
  inv : Inv none q
  swap : SwapInv q.swapinQueue q.swap q.ops
  away : ∀ t, (q.thread t).Away

theorem Start.sound (h : Start s) : Sound s.sched := by
  refine ⟨h.sched.inv, h.sched.swap, fun t => ?_⟩
  have hst : (s.sched.thread t).state.wait = false := by
    by_cases hr : ∃ c, s.sched.phase c = .running t
    · obtain ⟨c, hc⟩ := hr
      rw [(h.sched.active c t hc).1]
    · rw [h.sched.suspended t fun c hc => hr ⟨c, hc⟩]
  exact fun _ hw => absurd (hst.symm.trans hw) (by simp)

theorem Sound.step {a : Sched.Action} {q' : Sched.State} (h : Sound q) (ha : Sched.ok q a)
    (hs : Sched.step q a = .ok q') :
    Sound q' ∧ ∀ t, Thread.Stays (a.frees q = some t) (a.halts = some t) (q.thread t) (q'.thread t) := by
  have hst := (step_stays h.inv).of_ok hs
  exact ⟨⟨((step_gives h.inv h.swap ha).of_ok hs).inv, ((step_swap h.swap ha).of_ok hs).inv,
    fun t => (hst t).away (h.away t)⟩, hst⟩

theorem Sound.hold (h : Sound q) : Sound (threadHold q t) := (h.step (a := .hold t) trivial rfl).1

theorem Sound.holdOthers (h : Sound q) :
    Sound (ts.foldl (fun r t => if t ≠ who then threadHold r t else r) q) := by
  induction ts generalizing q with
  | nil => exact h
  | cons t ts ih =>
    rw [List.foldl_cons]
    refine ih ?_
    split
    next => exact h.hold
    next => exact h

theorem Sound.releaseAll (h : Sound q) : Gives (visit threadRelease q ts) (fun _ => True) Sound := by
  induction ts generalizing q with
  | nil => exact h
  | cons t ts ih =>
    have hr : Gives (threadRelease q t) (fun _ => True) Sound := by
      cases hx : threadRelease q t with
      | error e => trivial
      | ok q' => exact (h.step (a := .release t) trivial hx).1
    exact hr.bind fun q' hq => ih hq

theorem Sound.dowait (h : Sound q) : Sound (threadDowait q t) := (h.step (a := .dowait t) trivial rfl).1

theorem SwapInv.settled {queue : List ThreadId} {swap swap' : ThreadId → SwapState} {ops : OpId → Option Op}
    (h : SwapInv queue swap ops) (hs : ∀ u, swap' u = swap u ∨ (swap u).away = false ∧ (swap' u).away = false) :
    SwapInv queue swap' ops := by
  refine ⟨h.nodup, h.unique, fun u p hp => ?_, fun u hu => ?_⟩
  · rcases hs u with he | ⟨ha, -⟩
    · rw [he]
      exact h.fits u p hp
    · have hf := h.fits u p hp
      cases p <;> rcases hw : swap u with _ | _ | _ | _ | _ | _ <;> simp_all [SwapPlace.Fits, SwapState.away]
  · rcases hs u with he | ⟨-, ha⟩
    · exact h.held u (he ▸ hu)
    · rcases hu with hu | hu | hu <;> simp [hu, SwapState.away] at ha

theorem Sound.create {n : Int} (h : Sound q) (ht : Unused (q.thread t)) :
    Sound (q.setThread t { threadTemplate with suspendCount := n }) := by
  have hrun : (q.thread t).state.run = false := by rw [ht.state]
  have hact : ¬∃ c, q.phase c = .running t := by
    rintro ⟨c, hc⟩
    simp [(h.inv.onCpu c t hc).1] at hrun
  refine ⟨?_, ?_, fun u => ?_⟩
  · refine h.inv.setThread ht.runq.symm ?_ ht.waitEvent.symm (fun _ => ?_) fun _ => ?_
    · rw [Thread.list, Thread.list, ht.runq]
      rfl
    · rw [ht.state]
      exact iff_of_false (by simp [threadTemplate]) (by simp)
    · exact ⟨.inr (.inr rfl), fun hh => absurd rfl hh, by simp [threadTemplate], rfl, by simp [threadTemplate],
        fun _ => rfl, fun hh => absurd hh hact, fun _ => rfl⟩
  · refine SwapInv.settled h.swap fun u => ?_
    rw [setThread_swap]
    by_cases hu : u = t
    · subst u
      rw [Function.update_self]
      exact .inr ⟨ht.swapState, rfl⟩
    · rw [Function.update_of_ne hu]
      exact .inl rfl
  · by_cases hu : u = t
    · subst u
      rw [setThread_self]
      exact fun _ hw => by cases hw
    · rw [setThread_of_ne hu]
      exact h.away u

theorem Sound.dowait_halted (h : Sound q) (hs : (q.thread t).state.susp = true)
    (hd : (comesToLoop ((threadDowait q t).thread t).state && !stopped ((threadDowait q t).thread t)) = false) :
    ((threadDowait q t).thread t).Halted := by
  have hon : (q.thread t).state.run = true → (q.thread t).state.wait = true → (q.thread t).state.swapped = false := by
    intro hr hw
    obtain ⟨c, hc⟩ := (h.inv.ok t (by simp)).waiting hr hw
    exact (h.inv.onCpu c t hc).2
  have haway := h.away t
  unfold threadDowait at hd ⊢
  dsimp only at hd ⊢
  split
  next =>
    rw [State.setState, modThread_self]
    exact ⟨rfl, rfl, fun hw => by cases hw⟩
  next hn =>
    split
    next =>
      rw [State.setState, modThread_self]
      exact ⟨rfl, rfl, fun hw => by cases hw⟩
    next hn' =>
      rw [if_neg hn, if_neg hn'] at hd
      rw [Thread.Away] at haway
      generalize q.thread t = th at *
      obtain ⟨⟨run, wait, susp, swapped⟩, interruptible⟩ := th
      cases run <;> cases wait <;> cases susp <;> cases swapped <;> cases interruptible <;>
        simp_all [comesToLoop, stopped]
      all_goals constructor <;> simp

theorem halted_of_stopped {th : Thread} (h : stopped th = true) : th.Halted := by
  simp only [stopped, Bool.and_eq_true, Bool.not_eq_true'] at h
  exact ⟨h.1.2, h.1.1, fun _ => h.2⟩

section Lists

variable {l l' : List ThreadId}

theorem takeWhile_append_of_mem (h : t ∈ l) : (l ++ l').takeWhile (· ≠ t) = l.takeWhile (· ≠ t) := by
  induction l with
  | nil => simp at h
  | cons u l ih =>
    by_cases hu : u = t
    · simp [hu]
    · have hm : t ∈ l := (List.mem_cons.mp h).resolve_left (Ne.symm hu)
      simp only [List.cons_append, List.takeWhile_cons, ih hm]

theorem takeWhile_erase_subset (h : u ∈ (l.erase who).takeWhile (· ≠ t)) (hne : who ≠ t) :
    u ∈ l.takeWhile (· ≠ t) := by
  induction l with
  | nil => simp at h
  | cons w l ih =>
    by_cases hw : w = who
    · subst w
      rw [List.erase_cons_head] at h
      rw [List.takeWhile_cons_of_pos (by simpa using hne)]
      exact List.mem_cons_of_mem _ h
    · rw [List.erase_cons_tail (by simpa using hw)] at h
      by_cases ht : w = t
      · simp [ht] at h
      · rw [List.takeWhile_cons_of_pos (by simpa using ht)] at h ⊢
        exact (List.mem_cons.mp h).elim (fun he => he ▸ List.mem_cons_self) fun hm => List.mem_cons_of_mem _ (ih hm)

theorem mem_of_takeWhile (h : u ∈ (l ++ t :: l').takeWhile (· ≠ t)) : u ∈ l := by
  induction l with
  | nil => simp at h
  | cons w l ih =>
    by_cases hw : w = t
    · simp [hw] at h
    · rw [List.cons_append, List.takeWhile_cons_of_pos (by simpa using hw)] at h
      exact (List.mem_cons.mp h).elim (fun he => he ▸ List.mem_cons_self) fun hm => List.mem_cons_of_mem _ (ih hm)

theorem threadsAfter_split (h : t ∈ l) : l = l.takeWhile (· ≠ t) ++ t :: threadsAfter l (some t) := by
  induction l with
  | nil => simp at h
  | cons u l ih =>
    by_cases hu : u = t
    · simp [hu, threadsAfter]
    · have hm : t ∈ l := (List.mem_cons.mp h).resolve_left (Ne.symm hu)
      have hi := ih hm
      simp only [threadsAfter] at hi ⊢
      rw [List.takeWhile_cons_of_pos (by simpa using hu), List.dropWhile_cons_of_pos (by simpa using hu),
        List.cons_append, ← hi]

end Lists

/-- The threads that `task_dowait` is done with. -/
def passed (s : State) : List ThreadId :=
  match s.stage with
  | .dowait (some t) => s.threadList.takeWhile (· ≠ t) ++ [t]
  | .waiting t _ => s.threadList.takeWhile (· ≠ t)
  | .terminating => s.threadList
  | .before | .failed | .deactivated | .dowait none => []

def Done (who : ThreadId) (s : State) (t : ThreadId) : Prop :=
  t = who ∨ (s.sched.thread t).Halted ∨ s.halting t = true

/-- What holds in a run in which nobody disturbs the threads. -/
structure Good (who : ThreadId) (s : State) : Prop where
  sound : Sound s.sched
  inactive : s.stage.begun = true → s.active = false
  susp : s.stage.begun = true → ∀ t ∈ s.threadList, t ≠ who → (s.sched.thread t).state.susp = true
  pointed : ∀ t, s.stage.referenced = some t → t ∈ s.threadList
  done : ∀ t ∈ passed s, Done who s t

theorem passed_begun (h : s.stage.begun = false) : passed s = [] := by
  unfold passed
  cases hs : s.stage with
  | before => rfl
  | failed => rfl
  | _ => simp [hs, Stage.begun] at h

theorem Good.passed_subset (h : Good who s) (ht : t ∈ passed s) : t ∈ s.threadList := by
  unfold passed at ht
  split at ht
  next u hu =>
    rcases List.mem_append.mp ht with hm | hm
    · exact (List.takeWhile_sublist _).subset hm
    · rw [List.mem_singleton.mp hm]
      exact h.pointed u (by rw [hu]; rfl)
  next => exact (List.takeWhile_sublist _).subset ht
  next => exact ht
  all_goals simp at ht

theorem passed_nonempty (ht : t ∈ passed s) : s.stage.begun = true := by
  cases hb : s.stage.begun with
  | true => rfl
  | false => simp [passed_begun hb] at ht

theorem Good.before (hs : Sound s.sched) (hb : s.stage.begun = false) (hr : s.stage.referenced = none) : Good who s :=
  ⟨hs, by simp [hb], by simp [hb], by simp [hr], by simp [passed_begun hb]⟩

theorem Good.threads {halting : ThreadId → Bool} (h : Good who s) (hq : Sound q)
    (hsusp : s.stage.begun = true → ∀ t ∈ s.threadList, (s.sched.thread t).state.susp = true →
      (q.thread t).state.susp = true)
    (hdone : s.stage.begun = true → ∀ t ∈ s.threadList, (s.sched.thread t).Halted ∨ s.halting t = true →
      (q.thread t).Halted ∨ halting t = true) :
    Good who { s with sched := q, halting } :=
  ⟨hq, h.inactive, fun hb t ht hne => hsusp hb t ht (h.susp hb t ht hne), h.pointed,
    fun t ht => (h.done t ht).imp_right (hdone (passed_nonempty ht) t (h.passed_subset ht))⟩

theorem noteHalt_of_halts {halting : ThreadId → Bool} {b : Sched.Action} (h : b.halts = some t) :
    noteHalt halting b t = true := by
  rw [noteHalt, h]
  exact Function.update_self ..

theorem noteHalt_mono {halting : ThreadId → Bool} {b : Sched.Action} (h : halting t = true) :
    noteHalt halting b t = true := by
  rw [noteHalt]
  cases b.halts with
  | none => exact h
  | some u =>
    by_cases hu : t = u
    · subst u
      exact Function.update_self ..
    · exact (Function.update_of_ne hu ..).trans h

theorem Good.schedStep {b : Sched.Action} (h : Good who s) (ha : Sched.ok s.sched b)
    (hc : Undisturbed who s (.sched b)) (hs : Sched.step s.sched b = .ok q) :
    Good who { s with sched := q, halting := noteHalt s.halting b } := by
  obtain ⟨hq, hst⟩ := h.sound.step ha hs
  refine h.threads hq (fun hb t ht => (hst t).susp (hc hb t ht)) fun hb t ht hd => ?_
  rcases hd with hd | hd
  · by_cases hh : b.halts = some t
    · exact .inr (noteHalt_of_halts hh)
    · exact .inl ((hst t).halted (hc hb t ht) hh hd)
  · exact .inr (noteHalt_mono hd)

theorem Good.clearExitCode (h : Good who s) (hc : Undisturbed who s (.clearExitCode t)) :
    Good who { s with halting := Function.update s.halting t false } := by
  refine h.threads h.sound (fun _ _ _ => id) fun hb u hu hd => ?_
  by_cases hut : u = t
  · subst u
    exact .inl (hc hb hu)
  · rwa [Function.update_of_ne hut]

theorem taskHold_inactive (h : s.active = false) : taskHold s u = s := by
  unfold taskHold
  rw [if_neg (by simp [h])]

theorem Good.not_begun (h : Good who s) (ha : s.active = true) :
    s.stage.begun = false ∧ s.stage.referenced = none := by
  have hi := h.inactive
  cases hs : s.stage with
  | before => exact ⟨rfl, rfl⟩
  | failed => exact ⟨rfl, rfl⟩
  | _ => exact absurd ha (by simp [hi (by rw [hs]; rfl)])

theorem Good.taskHold (h : Good who s) : Good who (taskHold s u) := by
  cases ha : s.active with
  | false => rwa [taskHold_inactive ha]
  | true =>
    obtain ⟨hb, hr⟩ := h.not_begun ha
    unfold TaskTerminate.taskHold
    rw [if_pos ha]
    exact .before h.sound.holdOthers hb hr

theorem Good.taskRelease (h : Good who s) : Gives (taskRelease s) (fun _ => True) (Good who) := by
  unfold TaskTerminate.taskRelease
  split
  next ha =>
    obtain ⟨hb, hr⟩ := h.not_begun ha
    exact h.sound.releaseAll.map fun q hq => .before hq hb hr
  next => exact h

theorem Good.passed_create (h : Good who s) (hu : u ∈ passed (threadCreate s t)) : u ∈ passed s ∨ u = t := by
  have hp := h.pointed
  unfold passed at hu ⊢
  simp only [threadCreate] at hu
  split at hu
  next x hx =>
    rw [takeWhile_append_of_mem (hp x (by rw [hx]; rfl))] at hu
    exact .inl hu
  next x b hx =>
    rw [takeWhile_append_of_mem (hp x (by rw [hx]; rfl))] at hu
    exact .inl hu
  next => exact (List.mem_append.mp hu).imp_right fun hm => List.mem_singleton.mp hm
  all_goals simp at hu

theorem Good.threadCreate (h : Good who s) (ht : ok s (.threadCreate t)) : Good who (threadCreate s t) := by
  have hself : ((TaskTerminate.threadCreate s t).sched.thread t).Halted := by
    rw [TaskTerminate.threadCreate, setThread_self]
    exact ⟨rfl, rfl, fun hw => by cases hw⟩
  have hne : ∀ u ∈ s.threadList, u ≠ t := by
    rintro u hu rfl
    exact ht.1 hu
  have hother : ∀ u ∈ s.threadList, (TaskTerminate.threadCreate s t).sched.thread u = s.sched.thread u :=
    fun u hu => setThread_of_ne (hne u hu)
  have hhalt : ∀ u ∈ s.threadList, (TaskTerminate.threadCreate s t).halting u = s.halting u :=
    fun u hu => Function.update_of_ne (hne u hu) ..
  refine ⟨h.sound.create ht.2, h.inactive, fun hb u hu hw => ?_, fun u hu => ?_, fun u hu => ?_⟩
  · rcases List.mem_append.mp hu with hm | hm
    · rw [hother u hm]
      exact h.susp hb u hm hw
    · rw [List.mem_singleton.mp hm]
      exact hself.susp
  · exact List.mem_append_left _ (h.pointed u hu)
  · rcases h.passed_create hu with hm | rfl
    · have hl := h.passed_subset hm
      rw [Done, hother u hl, hhalt u hl]
      exact h.done u hm
    · exact .inr (.inl hself)

theorem passed_deallocate (ht : s.stage.referenced ≠ some t)
    (hu : u ∈ passed { s with threadList := s.threadList.erase t }) : u ∈ passed s := by
  unfold passed at hu ⊢
  simp only at hu
  split at hu
  next x hx =>
    rw [hx] at ht
    have hne : t ≠ x := fun he => ht (he ▸ rfl)
    exact List.mem_append.mpr ((List.mem_append.mp hu).imp_left fun hm => takeWhile_erase_subset hm hne)
  next x b hx =>
    rw [hx] at ht
    exact takeWhile_erase_subset hu fun he => ht (he ▸ rfl)
  next => exact List.mem_of_mem_erase hu
  all_goals simp at hu

theorem Good.threadDeallocate (h : Good who s) (ht : ok s (.threadDeallocate t)) :
    Good who { s with threadList := s.threadList.erase t } := by
  refine ⟨h.sound, h.inactive, fun hb u hu => h.susp hb u (List.mem_of_mem_erase hu), fun u hu => ?_,
    fun u hu => h.done u (passed_deallocate ht hu)⟩
  have hne : u ≠ t := by
    rintro rfl
    exact ht hu
  exact (List.mem_erase_of_ne hne).mpr (h.pointed u hu)

theorem Good.taskTerminate (h : Good who s) (hc : Undisturbed who s (.terminate c)) :
    Good who (taskTerminate s who) := by
  unfold TaskTerminate.taskTerminate
  split
  next =>
    exact ⟨h.sound, fun _ => rfl, fun _ t ht => hc t (List.mem_of_mem_erase ht), by simp [Stage.referenced],
      by simp [passed]⟩
  next => exact .before h.sound rfl rfl

theorem Good.taskDowait {last : Option ThreadId} (h : Good who s) (hs : s.stage = .dowait last) :
    Good who (taskDowait s who last) := by
  have hb : s.stage.begun = true := by rw [hs]; rfl
  have hsplit : ∃ l, s.threadList = l ++ threadsAfter s.threadList last ∧ ∀ u ∈ l, Done who s u := by
    cases last with
    | none => exact ⟨[], rfl, by simp⟩
    | some t =>
      refine ⟨s.threadList.takeWhile (· ≠ t) ++ [t], ?_, fun u hu => h.done u (by rw [passed, hs]; exact hu)⟩
      rw [List.append_assoc]
      exact threadsAfter_split (h.pointed t (by rw [hs]; rfl))
  obtain ⟨l, hl, hdone⟩ := hsplit
  unfold TaskTerminate.taskDowait
  split
  next t ht =>
    obtain ⟨htw, l₁, l₂, hrest, hskip⟩ := List.find?_eq_some_iff_append.mp ht
    refine ⟨h.sound, fun _ => h.inactive hb, fun _ => h.susp hb, fun u hu => ?_, fun u hu => ?_⟩
    · cases Option.some.inj hu
      rw [hl, hrest]
      simp
    · have hu' : u ∈ (l ++ l₁ ++ t :: l₂).takeWhile (· ≠ t) := by
        rw [List.append_assoc, ← hrest, ← hl]
        exact hu
      rcases List.mem_append.mp (mem_of_takeWhile hu') with hm | hm
      · exact hdone u hm
      · exact .inl (by simpa using hskip u hm)
  next hnone =>
    refine ⟨h.sound, fun _ => h.inactive hb, fun _ => h.susp hb, fun u hu => by simp [Stage.referenced] at hu,
      fun u hu => ?_⟩
    have hu' : u ∈ l ++ threadsAfter s.threadList last := hl ▸ hu
    rcases List.mem_append.mp hu' with hm | hm
    · exact hdone u hm
    · exact .inl (by simpa using List.find?_eq_none.mp hnone u hm)

theorem Good.dowait {b : Bool} (h : Good who s) (hs : s.stage = .waiting t b) : Good who (dowait s t b) := by
  have hb : s.stage.begun = true := by rw [hs]; rfl
  have ht : t ∈ s.threadList := h.pointed t (by rw [hs]; rfl)
  have hpassed : ∀ u ∈ s.threadList.takeWhile (· ≠ t), u ∈ passed s := fun u hu => by rw [passed, hs]; exact hu
  obtain ⟨q, hq, hg, hend⟩ : ∃ q, q = (if b then s.sched else threadDowait s.sched t) ∧
      Good who { s with sched := q } ∧ (t ≠ who →
        ((b || comesToLoop (q.thread t).state) && !stopped (q.thread t)) = false → (q.thread t).Halted) := by
    cases b with
    | true => exact ⟨s.sched, rfl, h, fun _ hd => halted_of_stopped (by simpa using hd)⟩
    | false =>
      obtain ⟨hsound, hst⟩ := h.sound.step (a := .dowait t) trivial rfl
      have hg : Good who { s with sched := threadDowait s.sched t, halting := s.halting } := by
        refine h.threads hsound (fun _ u _ => (hst u).susp (by simp [Action.frees])) fun _ u _ hd => ?_
        exact hd.imp_left ((hst u).halted (by simp [Action.frees]) (by simp [Action.halts]))
      exact ⟨threadDowait s.sched t, rfl, hg, fun hw hd => h.sound.dowait_halted (h.susp hb t ht hw) hd⟩
  unfold TaskTerminate.dowait
  rw [← hq]
  dsimp only
  split
  next =>
    refine ⟨hg.sound, fun _ => h.inactive hb, fun _ => hg.susp hb, fun u hu => ?_, fun u hu => hg.done u (hpassed u hu)⟩
    cases Option.some.inj hu
    exact ht
  next hd =>
    refine ⟨hg.sound, fun _ => h.inactive hb, fun _ => hg.susp hb, fun u hu => ?_, fun u hu => ?_⟩
    · cases Option.some.inj hu
      exact ht
    · rcases List.mem_append.mp hu with hm | hm
      · exact hg.done u (hpassed u hm)
      · rw [List.mem_singleton.mp hm]
        by_cases hw : t = who
        · exact .inl hw
        · exact .inr (.inl (hend hw (by simpa using hd)))

theorem Good.proceed (h : Good who s) (hr : proceed s who = some r) : Good who r := by
  unfold TaskTerminate.proceed at hr
  split at hr
  next hs =>
    cases Option.some.inj hr
    rw [taskHold_inactive (h.inactive (by rw [hs]; rfl))]
    have hb : s.stage.begun = true := by rw [hs]; rfl
    exact ⟨h.sound, fun _ => h.inactive hb, fun _ => h.susp hb, by simp [Stage.referenced],
      by simp [passed]⟩
  next last hs =>
    cases Option.some.inj hr
    exact h.taskDowait hs
  next t b hs =>
    cases Option.some.inj hr
    exact h.dowait hs
  all_goals simp at hr

theorem step_good (h : Good who s) (ha : ok s a) (hc : Undisturbed who s a) (hs : step who s a = some r) :
    Good who r := by
  cases a with
  | sched b =>
    obtain ⟨q, hq, rfl⟩ := Option.map_eq_some_iff.mp hs
    exact h.schedStep ha hc (toOption_eq_some hq)
  | clearExitCode t =>
    cases Option.some.inj hs
    exact h.clearExitCode hc
  | taskHold c =>
    obtain ⟨u, -, rfl⟩ := Option.map_eq_some_iff.mp hs
    exact h.taskHold
  | taskRelease c =>
    obtain ⟨u, -, hr⟩ := Option.bind_eq_some_iff.mp hs
    exact h.taskRelease.of_ok (toOption_eq_some hr)
  | threadCreate t =>
    cases Option.some.inj hs
    exact h.threadCreate ha
  | threadDeallocate t =>
    cases Option.some.inj hs
    exact h.threadDeallocate ha
  | terminate c =>
    rw [step] at hs
    split at hs
    next hb =>
      cases Option.some.inj hs
      exact h.taskTerminate hc
    next => simp at hs
  | proceed c =>
    rw [step] at hs
    split at hs
    next => exact h.proceed hs
    next => simp at hs

theorem Good.own_step (h : Good who s) (ha : a = .terminate c ∨ a = .proceed c) (hs : step who s a = some r) :
    SameStops s.sched r.sched := by
  rcases ha with rfl | rfl
  · rw [step] at hs
    split at hs
    next =>
      cases Option.some.inj hs
      unfold TaskTerminate.taskTerminate
      split <;> exact .refl _
    next => simp at hs
  · rw [step] at hs
    split at hs
    next =>
      unfold TaskTerminate.proceed at hs
      split at hs
      next hd =>
        cases Option.some.inj hs
        rw [taskHold_inactive (h.inactive (by rw [hd]; rfl))]
        exact .refl _
      next =>
        cases Option.some.inj hs
        unfold TaskTerminate.taskDowait
        split <;> exact .refl _
      next t b _ =>
        cases Option.some.inj hs
        cases b with
        | true => exact .refl _
        | false => exact (threadDowait_moves (p := fun _ => True)).stops
      all_goals simp at hs
    next => simp at hs

abbrev UndisturbedReachable (who : ThreadId) : State → Prop :=
  Reach Start (step who) fun s a => ok s a ∧ Undisturbed who s a

theorem Start.good (h : Start s) : Good who s :=
  .before h.sound (by rw [h.stage]; rfl) (by rw [h.stage]; rfl)

theorem reachable_good (h : UndisturbedReachable who s) : Good who s :=
  h.invariant (fun _ hs => hs.good) fun _ _ _ hp ha hs => step_good hp ha.1 ha.2 hs

/-- `task_terminate` comes to its loop with all other threads stopped if they were suspended before and nobody resumes
them: it waits for them, but its own steps suspend none. -/
theorem taskTerminate_stops (h : UndisturbedReachable who s) :
    (s.stage = .terminating → ∀ t ∈ s.threadList, t ≠ who → Held s t) ∧
      ∀ a c r, a = .terminate c ∨ a = .proceed c → step who s a = some r →
        ∀ t, (r.sched.thread t).state.susp = (s.sched.thread t).state.susp := by
  have hg := reachable_good h
  refine ⟨fun hs t ht hw => ?_, fun a c r ha hs t => congrArg Prod.snd (hg.own_step ha hs t)⟩
  have hsusp := hg.susp (by rw [hs]; rfl) t ht hw
  rcases hg.done t (by rw [passed, hs]; exact ht) with he | hh | hh
  · exact absurd he hw
  · exact ⟨hsusp, .inl hh.run⟩
  · exact ⟨hsusp, .inr hh⟩

/-- Thread 0 runs and belongs to another task, and thread 1 is that of the task. -/
def bootState : State where
  sched := Suspend.bootSched
  halting _ := false
  active := true
  suspendCount := 0
  threadList := [1]
  stage := .before

theorem bootState_start : Start bootState := ⟨Suspend.bootSched_start, rfl⟩

/-- The task is suspended, and thread 1 blocks, before thread 0 terminates the task. -/
theorem suspendedTask_stops : ∃ s, UndisturbedReachable 0 s ∧ s.stage = .terminating ∧
    (∀ t ∈ s.threadList, t ≠ 0 → Held s t) ∧ s.threadList = [1] := by
  have h : UndisturbedReachable 0 bootState := .start bootState_start
  have h : UndisturbedReachable 0 _ := h.next (a := .taskHold 0) ⟨trivial, trivial⟩ rfl
  have h : UndisturbedReachable 0 _ := h.next (a := .sched (.block 1)) ⟨trivial, fun hb => nomatch hb⟩ rfl
  have h : UndisturbedReachable 0 _ := h.next (a := .terminate 0) ⟨trivial, by unfold Undisturbed; decide⟩ rfl
  have h : UndisturbedReachable 0 _ := h.next (a := .proceed 0) ⟨trivial, trivial⟩ rfl
  have h : UndisturbedReachable 0 _ := h.next (a := .proceed 0) ⟨trivial, trivial⟩ rfl
  have h : UndisturbedReachable 0 _ := h.next (a := .proceed 0) ⟨trivial, trivial⟩ rfl
  have h : UndisturbedReachable 0 _ := h.next (a := .proceed 0) ⟨trivial, trivial⟩ rfl
  exact ⟨_, h, rfl, (taskTerminate_stops h).1 rfl, rfl⟩

/-- Thread 1 runs when thread 0 terminates the task, and goes on running. -/
theorem runningThread_notHeld : ¬∀ s, Reachable 0 s → s.stage = .terminating →
    ∀ t ∈ s.threadList, t ≠ 0 → Held s t := by
  intro hall
  have h : Reachable 0 bootState := .start bootState_start
  have h : Reachable 0 _ := h.next (a := .terminate 0) trivial rfl
  have h : Reachable 0 _ := h.next (a := .proceed 0) trivial rfl
  have h : Reachable 0 _ := h.next (a := .proceed 0) trivial rfl
  have h : Reachable 0 _ := h.next (a := .proceed 0) trivial rfl
  have h : Reachable 0 _ := h.next (a := .proceed 0) trivial rfl
  have hh := hall _ h rfl 1 (by decide) (by decide)
  exact absurd hh.1 (by decide)

end MachVM.Kern.TaskTerminate
