import MachVM.SchedReach
import MachVM.SchedStops
import Mathlib.Algebra.BigOperators.Group.List.Basic
import Mathlib.Algebra.Ring.Int.Defs

namespace MachVM.Kern.Suspend

open Machine Sched

/-- What is left of a call when its `thread_dowait` returns. -/
inductive After
  | returns
  | getStatus
  | nextThread
  deriving DecidableEq, Repr

/-- What a call is about to do. `hold`, `release`, `taskHold` and `taskRelease` are the calls that have decided to
do so, `taskDowait` is at the end of `thread_list` or after one of its threads, and `holdSelf` is the end of
`task_suspend` in a thread of the task. -/
inductive Stage
  | hold (t : ThreadId)
  | dowait (t : ThreadId) (sleeping : Bool) (after : After)
  | release (t : ThreadId)
  | taskHold
  | taskDowait (last : Option ThreadId)
  | holdSelf
  | taskRelease
  deriving DecidableEq, Repr

structure Call where
  who : ThreadId
  stage : Stage
  deriving DecidableEq, Repr

inductive KernReturn
  | success
  | failure
  | invalidArgument
  deriving DecidableEq, Repr

/-- A task, its threads, and the calls in progress. `sched` has the threads of all tasks. -/
structure State where
  sched : Sched.State
  userStopCount : ThreadId → Nat
  taskUserStopCount : Nat
  taskSuspendCount : Int
  threadList : List ThreadId
  calls : List Call

/-- `BASEPRI_USER`. -/
def basepriUser : Int := 50

def threadTemplate : Thread where
  state := { susp := true }
  interruptible := true
  waitEvent := 0
  timerSet := false
  suspendCount := 0
  swapState := .inCore
  whichq := .global
  runq := none
  schedPri := basepriUser
  update := none
  asserted := false

section Calls

variable (s : State) (who : ThreadId)

def goOn (stage : Stage) : State := { s with calls := ⟨who, stage⟩ :: s.calls }

/-- `thread_suspend` up to where it lets the thread's lock go. -/
def threadSuspend (t : ThreadId) : State :=
  let r := { s with userStopCount := Function.update s.userStopCount t (s.userStopCount t + 1) }
  if s.userStopCount t = 0 then goOn r who (.hold t) else r

/-- `thread_resume` up to where it lets the thread's lock go. -/
def threadResume (t : ThreadId) : State × KernReturn :=
  if 0 < s.userStopCount t then
    let r := { s with userStopCount := Function.update s.userStopCount t (s.userStopCount t - 1) }
    (if s.userStopCount t - 1 = 0 then goOn r who (.release t) else r, .success)
  else (s, .failure)

/-- `thread_get_state` and `thread_set_state` up to their `thread_dowait`. -/
def threadGetState (t : ThreadId) : State × KernReturn :=
  if t = who then (s, .invalidArgument)
  else (goOn { s with sched := threadHold s.sched t } who (.dowait t false .getStatus), .success)

/-- `task_suspend` up to where it lets the task's lock go. -/
def taskSuspend : State :=
  let r := { s with taskUserStopCount := s.taskUserStopCount + 1 }
  if s.taskUserStopCount = 0 then goOn r who .taskHold else r

/-- `task_resume` up to where it lets the task's lock go. -/
def taskResume : State × KernReturn :=
  if 0 < s.taskUserStopCount then
    let r := { s with taskUserStopCount := s.taskUserStopCount - 1 }
    (if s.taskUserStopCount - 1 = 0 then goOn r who .taskRelease else r, .success)
  else (s, .failure)

/-- The section of `thread_create` with the lock of the task. -/
def threadCreate (t : ThreadId) : State :=
  { s with
    sched := s.sched.setThread t { threadTemplate with suspendCount := s.taskSuspendCount + 1 }
    userStopCount := Function.update s.userStopCount t 1
    threadList := s.threadList ++ [t] }

/-- `(state & (TH_RUN | TH_SUSP)) == TH_SUSP`, and interruptible. -/
def stopped (th : Thread) : Bool := !th.state.run && th.state.susp && th.interruptible

/-- The states in which `thread_dowait` comes to its loop. -/
def comesToLoop (st : ThState) : Bool :=
  st = { run := true, susp := true } || st = { run := true, wait := true, susp := true } ||
    st = { wait := true, susp := true }

def afterDowait (t : ThreadId) : After → State
  | .returns => s
  | .getStatus => goOn s who (.release t)
  | .nextThread => goOn s who (.taskDowait (some t))

/-- `thread_dowait` up to where it sleeps or returns. -/
def dowait (c : CpuId) (t : ThreadId) (sleeping : Bool) (after : After) : Option State :=
  if t = who then
    (threadBlock s.sched c who).toOption.map fun sched => afterDowait { s with sched } who t after
  else
    let r := if sleeping then s else { s with sched := threadDowait s.sched t }
    let th := r.sched.thread t
    some (if (sleeping || comesToLoop th.state) && !stopped th then goOn r who (.dowait t true after)
      else afterDowait r who t after)

/-- `task_hold` of a task that is active. -/
def taskHold : State :=
  { s with
    taskSuspendCount := s.taskSuspendCount + 1
    sched := s.threadList.foldl (fun r t => if t ≠ who then threadHold r t else r) s.sched }

/-- The threads of the list after the last one that `task_dowait` has waited for. -/
def threadsAfter : Option ThreadId → List ThreadId
  | none => s.threadList
  | some t => (s.threadList.dropWhile (· ≠ t)).tail

/-- `task_dowait` up to its next `thread_dowait`, or to the end. -/
def taskDowait (last : Option ThreadId) : State :=
  match (threadsAfter s last).find? (· ≠ who) with
  | some t => goOn s who (.dowait t false .nextThread)
  | none => if who ∈ s.threadList then goOn s who .holdSelf else s

/-- `task_release` of a task that is active. -/
def taskRelease : Except Panic State :=
  (visit threadRelease s.sched s.threadList).map fun sched =>
    { s with taskSuspendCount := s.taskSuspendCount - 1, sched }

/-- The next section of a call, which is in `calls` no more. -/
def callSection (c : CpuId) : Stage → Option State
  | .hold t => some (goOn { s with sched := threadHold s.sched t } who (.dowait t false .returns))
  | .dowait t sleeping after => dowait s who c t sleeping after
  | .release t => (threadRelease s.sched t).toOption.map fun sched => { s with sched }
  | .taskHold => some (goOn (taskHold s who) who (.taskDowait none))
  | .taskDowait last => some (taskDowait s who last)
  | .holdSelf => some (goOn { s with sched := threadHold s.sched who } who (.dowait who false .returns))
  | .taskRelease => (taskRelease s).toOption

end Calls

/-- A call is made by the thread that runs on a processor. -/
inductive Action
  | sched (a : Sched.Action)
  | threadSuspend (c : CpuId) (t : ThreadId)
  | threadResume (c : CpuId) (t : ThreadId)
  | threadGetState (c : CpuId) (t : ThreadId)
  | taskSuspend (c : CpuId)
  | taskResume (c : CpuId)
  | threadCreate (c : CpuId) (t : ThreadId)
  | proceed (c : CpuId) (i : Nat)

/-- The thread on a processor, when it is not in a call already. -/
def caller (s : State) (c : CpuId) : Option ThreadId :=
  match s.sched.phase c with
  | .running who => if ∀ d ∈ s.calls, d.who ≠ who then some who else none
  | _ => none

def step (s : State) : Action → Option State
  | .sched a => (Sched.step s.sched a).toOption.map fun sched => { s with sched }
  | .threadSuspend c t => (caller s c).map fun who => threadSuspend s who t
  | .threadResume c t => (caller s c).map fun who => (threadResume s who t).1
  | .threadGetState c t => (caller s c).map fun who => (threadGetState s who t).1
  | .taskSuspend c => (caller s c).map fun who => taskSuspend s who
  | .taskResume c => (caller s c).map fun who => (taskResume s who).1
  | .threadCreate c t => (caller s c).map fun _ => threadCreate s t
  | .proceed c i =>
    match s.calls[i]? with
    | none => none
    | some d =>
      if s.sched.phase c = .running d.who then callSection { s with calls := s.calls.eraseIdx i } d.who c d.stage
      else none

end MachVM.Kern.Suspend

namespace MachVM.Kern.Suspend

open Machine Sched

variable {s r : State} {t u who : ThreadId} {c : CpuId} {d : Call} {k new : List Call}

def asked (n : Nat) : Int := if 0 < n then 1 else 0

/-- What a call has still to take from the suspend count of a thread. It is negative for what the call has still to
add. -/
def Call.due (d : Call) (t : ThreadId) : Int :=
  match d.stage with
  | .hold u => if u = t then -1 else 0
  | .release u | .dowait u _ .getStatus => if u = t then 1 else 0
  | .taskDowait _ | .dowait _ _ .nextThread | .holdSelf => if d.who = t then -1 else 0
  | .dowait _ _ .returns | .taskHold | .taskRelease => 0

def Call.taskDue (d : Call) : Int :=
  match d.stage with
  | .taskHold => -1
  | .taskRelease => 1
  | _ => 0

/-- The threads that a call is about are those of the task. -/
def Call.Within (threads : List ThreadId) (d : Call) : Prop :=
  match d.stage with
  | .hold t | .release t | .dowait t _ _ => t ∈ threads
  | .holdSelf => d.who ∈ threads
  | .taskHold | .taskDowait _ | .taskRelease => True

attribute [local simp] Call.Within

theorem Call.Within.mono {ts ts' : List ThreadId} (h : d.Within ts) (hs : ∀ t ∈ ts, t ∈ ts') : d.Within ts' := by
  obtain ⟨w, st⟩ := d
  cases st with
  | hold t => exact hs t h
  | release t => exact hs t h
  | dowait t sleeping after => exact hs t h
  | holdSelf => exact hs w h
  | taskHold => trivial
  | taskDowait last => trivial
  | taskRelease => trivial

def State.stop (s : State) (t : ThreadId) : Int × Bool := (s.sched.thread t).stop

/-- The suspend counts are what the user stop counts make them, but for what the calls in progress have still to
do. -/
structure Balanced (s : State) : Prop where
  nodup : s.threadList.Nodup
  within : ∀ d ∈ s.calls, d.Within s.threadList
  task : s.taskSuspendCount = asked s.taskUserStopCount + (s.calls.map Call.taskDue).sum
  thread : ∀ t ∈ s.threadList, (s.stop t).1 =
    asked (s.userStopCount t) + s.taskSuspendCount + (s.calls.map fun d => d.due t).sum

/-- A count that is not negative, and `TH_SUSP`. -/
def Settled (x : Int × Bool) : Prop := 0 ≤ x.1 ∧ (x.2 = true ↔ 0 < x.1)

structure Sound (s : State) : Prop where
  task : 0 ≤ s.taskSuspendCount
  thread : ∀ t ∈ s.threadList, Settled (s.stop t)

theorem Settled.hold {x : Int × Bool} (h : Settled x) : Settled (x.1 + 1, true) :=
  ⟨Int.add_nonneg h.1 (by decide), iff_of_true rfl (Int.lt_add_one_of_le h.1)⟩

theorem Settled.release {x : Int × Bool} (h : Settled x) (hx : 0 < x.1) :
    Settled (x.1 - 1, if x.1 - 1 = 0 then false else x.2) := by
  refine ⟨by simp only; omega, ?_⟩
  dsimp only
  split
  next h0 => exact iff_of_false (by simp) (by omega)
  next h0 => exact iff_of_true (h.2.mpr hx) (by omega)

theorem Balanced.move (h : Balanced { s with calls := k ++ s.calls }) (hl : r.threadList = s.threadList)
    (hc : r.calls = l ++ s.calls) (hw : ∀ d ∈ l, d.Within s.threadList)
    (ht : r.taskSuspendCount - asked r.taskUserStopCount - (l.map Call.taskDue).sum =
      s.taskSuspendCount - asked s.taskUserStopCount - (k.map Call.taskDue).sum)
    (hs : ∀ t ∈ s.threadList,
      (r.stop t).1 - asked (r.userStopCount t) - r.taskSuspendCount - (l.map fun d => d.due t).sum =
        (s.stop t).1 - asked (s.userStopCount t) - s.taskSuspendCount - (k.map fun d => d.due t).sum) :
    Balanced r := by
  obtain ⟨hn, hin, htask, hthread⟩ := h
  refine ⟨hl ▸ hn, fun d hd => ?_, ?_, fun t hm => ?_⟩
  · rw [hc] at hd
    rw [hl]
    rcases List.mem_append.mp hd with hd | hd
    · exact hw d hd
    · exact hin d (List.mem_append_right k hd)
  · simp only [List.map_append, List.sum_append] at htask
    rw [hc, List.map_append, List.sum_append]
    omega
  · rw [hl] at hm
    have hd := hthread t hm
    have hr := hs t hm
    simp only [State.stop, List.map_append, List.sum_append] at hd hr
    rw [State.stop, hc, List.map_append, List.sum_append]
    omega

theorem Balanced.perm {calls : List Call} (h : Balanced s) (hp : calls.Perm s.calls) : Balanced { s with calls } :=
  ⟨h.nodup, fun d hd => h.within d (hp.subset hd), h.task.trans (by rw [(hp.map _).sum_eq]),
    fun t ht => (h.thread t ht).trans (by rw [(hp.map _).sum_eq])⟩

theorem due_eq_zero {l : List Call} (h : ∀ d ∈ l, d.due t = 0) : (l.map fun d => d.due t).sum = 0 := by
  induction l with
  | nil => rfl
  | cons d l ih =>
    rw [List.map_cons, List.sum_cons, h d List.mem_cons_self, ih fun e he => h e (List.mem_cons_of_mem d he)]
    rfl

theorem Call.Within.due_new {threads : List ThreadId} (h : d.Within threads) (ht : t ∉ threads) (hw : d.who ≠ t) :
    d.due t = 0 := by
  have hne : ∀ u, u ∈ threads → u ≠ t := by
    rintro u hu rfl
    exact ht hu
  obtain ⟨w, st⟩ := d
  cases st with
  | hold u => exact if_neg (hne u h)
  | release u => exact if_neg (hne u h)
  | dowait u sleeping after =>
    cases after with
    | returns => rfl
    | getStatus => exact if_neg (hne u h)
    | nextThread => exact if_neg hw
  | taskDowait last => exact if_neg hw
  | holdSelf => exact if_neg hw
  | taskHold => rfl
  | taskRelease => rfl

section Operations

variable {q : Sched.State} {ts : List ThreadId}

theorem threadHold_stop : ((threadHold q t).thread u).stop =
    if u = t then ((q.thread u).stop.1 + 1, true) else (q.thread u).stop := by
  split
  next h =>
    subst u
    rw [threadHold, modThread_self]
    rfl
  next h => rw [threadHold, modThread_of_ne h]

theorem holdOthers_stop (hn : ts.Nodup) :
    ((ts.foldl (fun r t => if t ≠ who then threadHold r t else r) q).thread u).stop =
      if u ∈ ts ∧ u ≠ who then ((q.thread u).stop.1 + 1, true) else (q.thread u).stop := by
  induction ts generalizing q with
  | nil => simp
  | cons t ts ih =>
    obtain ⟨hnot, hn⟩ := List.nodup_cons.mp hn
    rw [List.foldl_cons, ih hn]
    have ht : ((if t ≠ who then threadHold q t else q).thread u).stop =
        if u = t ∧ u ≠ who then ((q.thread u).stop.1 + 1, true) else (q.thread u).stop := by
      by_cases hw : t = who
      · rw [if_neg (not_not.mpr hw), if_neg fun h => h.2 (h.1.trans hw)]
      · rw [if_pos hw, threadHold_stop]
        by_cases hu : u = t
        · rw [if_pos hu, if_pos ⟨hu, hu ▸ hw⟩]
        · rw [if_neg hu, if_neg fun h => hu h.1]
    rw [ht]
    by_cases hu : u = t
    · subst u
      simp [hnot]
    · simp [hu]

theorem releaseAll_stop (hn : ts.Nodup) : Gives (visit threadRelease q ts) (fun _ => True) fun r =>
    ∀ u, (r.thread u).stop =
      if u ∈ ts then ((q.thread u).stop.1 - 1, if (q.thread u).stop.1 - 1 = 0 then false else (q.thread u).stop.2)
      else (q.thread u).stop := by
  induction ts generalizing q with
  | nil => exact fun u => by simp
  | cons t ts ih =>
    obtain ⟨hnot, hn⟩ := List.nodup_cons.mp hn
    refine threadRelease_stops.bind fun r hr => (ih hn).mono fun p hp u => ?_
    rw [hp u]
    by_cases hu : u = t
    · subst u
      rw [if_neg hnot, if_pos List.mem_cons_self, hr.2]
      rfl
    · rw [hr.1 u hu]
      simp [hu]

end Operations

end MachVM.Kern.Suspend
