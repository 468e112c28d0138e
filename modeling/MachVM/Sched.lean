import MachVM.Lib.Levels
import MachVM.Lib.Outcome

namespace MachVM.Kern.Sched

open Machine Levels

abbrev ThreadId := Nat

abbrev CpuId := Nat

/-- An operation that lets its locks go. -/
abbrev OpId := Nat

/-- `TH_RUN`, `TH_WAIT`, `TH_SUSP` and `TH_SWAPPED`. The threads here are those without `TH_IDLE`: the idle
thread of a processor is a phase of the processor. -/
structure ThState where
  run : Bool := false
  wait : Bool := false
  susp : Bool := false
  swapped : Bool := false
  deriving DecidableEq, Repr

/-- `TH_SW_IN` and so on. -/
inductive SwapState
  | unswappable
  | inCore
  | goingOut
  | wantIn
  | out
  | comingIn
  deriving DecidableEq, Repr

/-- A run queue: `global_runq` or one of `local_runq`. -/
inductive RunqId
  | global
  | local (c : CpuId)
  deriving DecidableEq, Repr

/-- `asserted` is history: the thread has asserted a wait since it was last dispatched. `update` is the priority
that `update_priority` would give it, with `none` when its `sched_stamp` is the `sched_tick`. -/
structure Thread where
  state : ThState
  interruptible : Bool
  waitEvent : Int
  timerSet : Bool
  suspendCount : Int
  swapState : SwapState
  whichq : RunqId
  runq : Option RunqId
  schedPri : Int
  update : Option Int
  asserted : Bool
  deriving DecidableEq, Repr

/-- `NRQS`. -/
def nrqs : Nat := 32

/-- `struct run_queue`. -/
structure RunQueue where
  runq : Nat → List ThreadId
  low : Nat
  count : Nat

inductive CpuState
  | offLine
  | running
  | idle
  | dispatching
  deriving DecidableEq, Repr

/-- What a processor is at. `switching` is `thread_block` from where it has let go of the old thread on, `hint` its
look at the hint of the global queue, the `choose` phases and `goIdle` are `choose_thread`, `idle` is the loop of
the idle thread, and `exiting` and `down` are the way out of `should_exit`. -/
inductive Phase
  | running (t : ThreadId)
  | idle
  | switching
  | hint
  | chooseLocal
  | chooseGlobal
  | goIdle
  | exiting
  | down
  | halted
  deriving DecidableEq, Repr

/-- What is left of an operation: a `thread_timeout` before its `clear_wait`, a `clear_wait` that has seen an
event, a `thread_wakeup_with_result` before a scan, a `thread_swapout` and a `thread_doswapin` before they lock the
thread. -/
inductive Op
  | timedOut (t : ThreadId)
  | clearWait (t : ThreadId) (event : Int)
  | wakeup (event : Int)
  | swapout (t : ThreadId)
  | doswapin (t : ThreadId)
  deriving DecidableEq, Repr

structure State where
  thread : ThreadId → Thread
  waitQueue : Nat → List ThreadId
  queue : RunqId → RunQueue
  phase : CpuId → Phase
  nextThread : CpuId → Option ThreadId
  cpuState : CpuId → CpuState
  shouldExit : CpuId → Bool
  idleQueue : List CpuId
  idleCount : Nat
  masterCpu : CpuId
  swapinQueue : List ThreadId
  ops : OpId → Option Op

inductive Panic
  | assertWait
  | threadWakeup
  | threadBlock
  | threadSwitch
  | threadSetrun
  | emptyRunq
  | threadSwapin
  | threadSwapout
  | threadHalt
  | emptyIdleQueue
  deriving DecidableEq, Repr

/-- `NUMQUEUES`. -/
def numQueues : Nat := 59

/-- `wait_hash`: `event ^ -1` is `-event - 1`. -/
def waitHash (event : Int) : Nat := (if event < 0 then -event - 1 else event).toNat % numQueues

/-- `sched_pri >> 2` as an unsigned number, cut to the last queue. -/
def level (pri : Int) : Nat := if pri < 0 then nrqs - 1 else min (pri / 4).toNat (nrqs - 1)

namespace State

variable (s : State)

def setThread (t : ThreadId) (th : Thread) : State := { s with thread := Function.update s.thread t th }

def modThread (t : ThreadId) (f : Thread → Thread) : State := s.setThread t (f (s.thread t))

def setState (t : ThreadId) (st : ThState) : State := s.modThread t fun th => { th with state := st }

def setPhase (c : CpuId) (p : Phase) : State := { s with phase := Function.update s.phase c p }

def setCpuState (c : CpuId) (x : CpuState) : State := { s with cpuState := Function.update s.cpuState c x }

def setNext (c : CpuId) (t : Option ThreadId) : State := { s with nextThread := Function.update s.nextThread c t }

def setQueue (q : RunqId) (rq : RunQueue) : State := { s with queue := Function.update s.queue q rq }

def setOp (k : OpId) (op : Option Op) : State := { s with ops := Function.update s.ops k op }

end State

section Runnable

variable (s : State) (t : ThreadId)

/-- `update_priority`. -/
def updatePriority : State :=
  match (s.thread t).update with
  | none => s
  | some p => s.modThread t fun th => { th with schedPri := p, update := none }

/-- The end of `thread_setrun`: the thread goes on its run queue. -/
def enqueueRunq (q : RunqId) : State :=
  let k := level (s.thread t).schedPri
  let rq := s.queue q
  (s.setQueue q
    { runq := Function.update rq.runq k (rq.runq k ++ [t])
      low := if k < rq.low then k else rq.low
      count := rq.count + 1 }).modThread t fun th => { th with runq := some q }

/-- The thread is dispatched straight to an idle processor, which leaves the idle queue. -/
def dispatchTo (c : CpuId) (idleQueue : List CpuId) : State :=
  (({ s with idleQueue, idleCount := s.idleCount - 1 }.setNext c (some t)).setCpuState c .dispatching)

/-- `thread_setrun`, less the check for preemption. -/
def threadSetrun : Except Panic State :=
  let s := updatePriority s t
  if (s.thread t).runq ≠ none then .error .threadSetrun
  else
    match (s.thread t).whichq with
    | .global =>
      if 0 < s.idleCount then
        match s.idleQueue with
        | [] => .error .emptyIdleQueue
        | c :: cs => .ok (dispatchTo s t c cs)
      else .ok (enqueueRunq s t .global)
    | .local c =>
      if 0 < s.idleCount ∧ s.cpuState c = .idle then .ok (dispatchTo s t c (s.idleQueue.erase c))
      else .ok (enqueueRunq s t (.local c))

/-- `rem_runq`, which comes with the run queue that the thread was on. -/
def remRunq : State × Option RunqId :=
  match (s.thread t).runq with
  | none => (s, none)
  | some q =>
    let rq := s.queue q
    ((s.setQueue q { rq with runq := fun i => (rq.runq i).erase t, count := rq.count - 1 }).modThread t
      fun th => { th with runq := none }, some q)

/-- `set_pri`. -/
def setPri (pri : Int) : Except Panic State :=
  let r := remRunq s t
  let q := r.1.modThread t fun th => { th with schedPri := pri }
  if r.2 = none then .ok q else threadSetrun q t

/-- `thread_swapin`. Its `thread_wakeup` of the swapper is an operation of its own. -/
def threadSwapin : Except Panic State :=
  match (s.thread t).swapState with
  | .out =>
    .ok ({ s with swapinQueue := s.swapinQueue ++ [t] }.modThread t fun th => { th with swapState := .comingIn })
  | .goingOut => .ok (s.modThread t fun th => { th with swapState := .wantIn })
  | .wantIn | .comingIn => .ok s
  | .inCore | .unswappable => .error .threadSwapin

/-- What `clear_wait` and the wakeups have in common: the thread, whose wait is over, is started if that is
appropriate. -/
def endWait : Except Panic State :=
  let th := s.thread t
  if th.state = { wait := true, susp := true } ∧ th.interruptible = true then .ok (s.setState t { susp := true })
  else if th.state = { wait := true, susp := true } ∨ th.state = { wait := true } then
    threadSetrun (s.setState t { th.state with wait := false, run := true }) t
  else if th.state = { wait := true, swapped := true } then
    threadSwapin (s.setState t { run := true, swapped := true }) t
  else .ok (s.setState t { th.state with wait := false })

/-- `untimeout`, for a thread with a timer. -/
def clearTimer : State := s.modThread t fun th => { th with timerSet := false }

/-- `remqueue`, and `wait_event = 0`. -/
def remWaitQueue : State :=
  let b := waitHash (s.thread t).waitEvent
  { s with waitQueue := Function.update s.waitQueue b ((s.waitQueue b).erase t) }.modThread t
    fun th => { th with waitEvent := 0 }

/-- `clear_wait`, for a thread that is on no wait queue (any more). -/
def clearWaitSwitch : Except Panic State :=
  if (s.thread t).state.wait then endWait (clearTimer s t) t else .ok (clearTimer s t)

/-- One thread of a wakeup. -/
def wakeThread : Except Panic State :=
  let r := clearTimer (remWaitQueue s t) t
  if (r.thread t).state.wait then endWait r t else .error .threadWakeup

/-- `clear_wait` up to where it lets the thread's lock go, with the event it has seen. -/
def clearWait (interruptOnly : Bool) : Except Panic (State × Option Int) :=
  if interruptOnly ∧ (s.thread t).interruptible = false then .ok (s, none)
  else if (s.thread t).waitEvent ≠ 0 then .ok (s, some (s.thread t).waitEvent)
  else clearWaitSwitch s t >>= fun r => .ok (r, none)

/-- The rest of `clear_wait`: someone else may have done the job. -/
def clearWaitEvent (event : Int) : Except Panic State :=
  if (s.thread t).waitEvent = event then clearWaitSwitch (remWaitQueue s t) t else .ok s

end Runnable

/-- One scan of `thread_wakeup_with_result` down a bucket. It ends early, and has to start again, after a thread
that is swapped out. -/
def wakeupScan (event : Int) (s : State) : List ThreadId → Except Panic (State × Bool)
  | [] => .ok (s, true)
  | t :: ts =>
    if (s.thread t).waitEvent = event then
      wakeThread s t >>= fun r =>
        if (s.thread t).state = { wait := true, swapped := true } then .ok (r, false) else wakeupScan event r ts
    else wakeupScan event s ts

section Operations

variable (s : State)

def wakeupOne (event : Int) : Except Panic State :=
  match (s.waitQueue (waitHash event)).find? fun t => (s.thread t).waitEvent = event with
  | none => .ok s
  | some t => wakeThread s t

/-- `assert_wait`, by the thread `t`. -/
def assertWait (t : ThreadId) (event : Int) (interruptible : Bool) : Except Panic State :=
  if (s.thread t).waitEvent ≠ 0 then .error .assertWait
  else
    let b := waitHash event
    let r := if event ≠ 0 then { s with waitQueue := Function.update s.waitQueue b (s.waitQueue b ++ [t]) } else s
    .ok (r.modThread t fun th =>
      { th with waitEvent := event, state := { th.state with wait := true }, interruptible, asserted := true })

/-- `thread_set_timeout`, by the thread `t`. -/
def threadSetTimeout (t : ThreadId) : State :=
  if (s.thread t).state.wait then s.modThread t fun th => { th with timerSet := true } else s

/-- The processor goes on with a thread: the ends of `thread_block` and `thread_switch`. -/
def loadContext (c : CpuId) (t : ThreadId) : State :=
  (s.modThread t fun th => { th with interruptible := true, asserted := false }).setPhase c (.running t)

/-- `thread_block` with the lock of the current thread. -/
def threadBlock (c : CpuId) (t : ThreadId) : Except Panic State :=
  let r := s.setPhase c .switching
  let th := s.thread t
  if th.state = { run := true, susp := true } ∧ th.interruptible = true then .ok (r.setState t { susp := true })
  else if th.state = { run := true, susp := true } ∨ th.state = { run := true } then threadSetrun r t
  else if th.state = { run := true, wait := true, susp := true } then .ok (r.setState t { wait := true, susp := true })
  else if th.state = { run := true, wait := true } then .ok (r.setState t { wait := true })
  else .error .threadBlock

/-- `dequeue_head` of a list of a run queue, for a processor that goes on with the thread. -/
def takeHead (c : CpuId) (q : RunqId) (k : Nat) (low : Nat) : State :=
  let rq := s.queue q
  match rq.runq k with
  | [] => s
  | t :: ts =>
    loadContext ((s.setQueue q { runq := Function.update rq.runq k ts, low, count := rq.count - 1 }).modThread t
      fun th => { th with runq := none }) c t

/-- `DEQUEUE_THREAD`. -/
def dequeueThread (c : CpuId) (q : RunqId) : Except Panic State :=
  let rq := s.queue q
  match firstFrom rq.runq rq.low (nrqs - rq.low) with
  | none => .error .emptyRunq
  | some i => .ok (takeHead s c q i i)

/-- The next section of `thread_block` on a processor that has let go of its old thread. -/
def dispatch (c : CpuId) : Except Panic State :=
  match s.phase c with
  | .switching =>
    if s.shouldExit c then
      let r :=
        if s.cpuState c = .idle then { s with idleQueue := s.idleQueue.erase c, idleCount := s.idleCount - 1 } else s
      .ok (r.setPhase c .exiting)
    else
      match s.nextThread c with
      | some t => .ok (loadContext ((s.setNext c none).setCpuState c .running) c t)
      | none => .ok (s.setPhase c (if 0 < (s.queue (.local c)).count then .chooseLocal else .hint))
  | .hint =>
    let rq := s.queue .global
    if rq.count = 0 ∨ rq.runq rq.low = [] then .ok (s.setPhase c .chooseLocal)
    else .ok (takeHead s c .global rq.low rq.low)
  | .chooseLocal =>
    if 0 < (s.queue (.local c)).count then dequeueThread s c (.local c) else .ok (s.setPhase c .chooseGlobal)
  | .chooseGlobal =>
    if 0 < (s.queue .global).count then dequeueThread s c .global else .ok (s.setPhase c .goIdle)
  | .goIdle =>
    .ok ({ s.setCpuState c .idle with
        idleQueue := if c = s.masterCpu then s.idleQueue ++ [c] else c :: s.idleQueue
        idleCount := s.idleCount + 1 }.setPhase c .idle)
  | .exiting =>
    match s.nextThread c with
    | none => .ok (s.setPhase c .down)
    | some t => threadSetrun ((s.setNext c none).setPhase c .down) t
  | .down => .ok ((s.setCpuState c .offLine).setPhase c .halted)
  | .running _ | .idle | .halted => .ok s

/-- The idle thread leaves its loop: a processor that was not dispatched is set non-idle. Its `thread_block` has
nothing else to let go of. -/
def idleTurn (c : CpuId) : State :=
  let r :=
    if s.cpuState c = .idle then
      { s with idleQueue := s.idleQueue.erase c, idleCount := s.idleCount - 1 }.setCpuState c .running
    else s
  r.setPhase c .switching

/-- `thread_switch` on a processor with the thread `t`. -/
def threadSwitch (c : CpuId) (t new : ThreadId) : Except Panic State :=
  let th := s.thread t
  let r := s.setPhase c .switching
  (if th.state = { run := true, susp := true } ∧ th.interruptible = true then .ok (r.setState t { susp := true })
    else if th.state = { run := true, susp := true } ∨ th.state = { run := true } then threadSetrun r t
    else .error .threadSwitch) >>= fun r => .ok (loadContext r c new)

/-- `thread_go_and_switch`, to the thread `new`. -/
def threadGoAndSwitch (c : CpuId) (t new : ThreadId) : Except Panic State :=
  let s := clearTimer s new
  let th := s.thread new
  if (th.state = { wait := true, susp := true } ∧ th.interruptible = false ∨ th.state = { wait := true }) ∧
      s.idleCount = 0 then
    threadSwitch (s.setState new { th.state with wait := false, run := true }) c t new
  else if th.state.wait then endWait s new
  else .ok s

def threadHold (t : ThreadId) : State :=
  s.modThread t fun th => { th with suspendCount := th.suspendCount + 1, state := { th.state with susp := true } }

/-- `thread_dowait`, less its wait for a thread that it cannot stop. -/
def threadDowait (t : ThreadId) : State :=
  let th := s.thread t
  if th.state = { run := true, susp := true, swapped := true } then s.setState t { susp := true, swapped := true }
  else if th.state = { run := true, susp := true } ∧ th.interruptible = true ∧ (remRunq s t).2 ≠ none then
    (remRunq s t).1.setState t { susp := true }
  else s

def threadRelease (t : ThreadId) : Except Panic State :=
  let n := (s.thread t).suspendCount - 1
  let r := s.modThread t fun th => { th with suspendCount := n }
  if n = 0 then
    let st := { (s.thread t).state with susp := false }
    if st = { swapped := true } then threadSwapin (r.setState t { run := true, swapped := true }) t
    else if st = {} then threadSetrun (r.setState t { run := true }) t
    else .ok (r.setState t st)
  else .ok r

/-- `thread_halt` makes sure that the thread stops. -/
def threadHaltSuspend (t : ThreadId) : State :=
  s.modThread t fun th => { th with state := { th.state with susp := true } }

/-- `thread_halt` sets the thread running, so that it can notice. -/
def threadHaltRun (t : ThreadId) : Except Panic State :=
  let r := s.modThread t fun th => { th with state := { th.state with run := true }, interruptible := false }
  if (s.thread t).state = { susp := true, swapped := true } then threadSwapin r t
  else if (s.thread t).state = { susp := true } then threadSetrun r t
  else .error .threadHalt

/-- `swapout_scan` at a thread, with the `thread_swapout` of a thread that it takes. -/
def swapoutScan (k : OpId) (t : ThreadId) : State :=
  let th := s.thread t
  if th.state.run = false ∧ th.state.swapped = false ∧ th.swapState = .inCore ∧ th.interruptible = true then
    (s.modThread t fun th => { th with state := { th.state with swapped := true }, swapState := .goingOut }).setOp k
      (some (.swapout t))
  else s

/-- `swapin_thread` takes a thread off its queue. -/
def takeSwapin (k : OpId) : State :=
  match s.swapinQueue with
  | [] => s
  | t :: ts => { s with swapinQueue := ts }.setOp k (some (.doswapin t))

/-- The end of `thread_swapout`. -/
def threadSwapout (t : ThreadId) : Except Panic State :=
  match (s.thread t).swapState with
  | .goingOut => .ok (s.modThread t fun th => { th with swapState := .out })
  | .wantIn => threadSwapin (s.modThread t fun th => { th with swapState := .out }) t
  | _ => .error .threadSwapout

/-- `thread_doswapin`, when the stack is wired. -/
def threadDoswapin (t : ThreadId) : Except Panic State :=
  let r := s.modThread t fun th => { th with state := { th.state with swapped := false }, swapState := .inCore }
  if (s.thread t).state.run then threadSetrun r t else .ok r

end Operations

/-- A section of an operation, of the thread that runs on a processor where one is named. -/
inductive Action
  | tick (update : ThreadId → Option Int)
  | bind (t : ThreadId) (q : RunqId)
  | assertWait (c : CpuId) (event : Int) (interruptible : Bool)
  | setTimeout (c : CpuId)
  | block (c : CpuId)
  | dispatch (c : CpuId)
  | idleTurn (c : CpuId)
  | exitRequest (c : CpuId)
  | goAndSwitch (c : CpuId) (new : ThreadId)
  | setPri (t : ThreadId) (pri : Int)
  | timeout (k : OpId) (t : ThreadId)
  | clearWait (k : OpId) (t : ThreadId) (interruptOnly : Bool)
  | wakeup (k : OpId) (event : Int)
  | wakeupOne (event : Int)
  | proceed (k : OpId)
  | hold (t : ThreadId)
  | dowait (t : ThreadId)
  | release (t : ThreadId)
  | haltSuspend (t : ThreadId)
  | haltRun (t : ThreadId)
  | swapoutScan (k : OpId) (t : ThreadId)
  | takeSwapin (k : OpId)

/-- The next section of an operation. -/
def proceed (s : State) (k : OpId) : Op → Except Panic State
  | .timedOut t => clearWait s t false >>= fun r => .ok (r.1.setOp k (r.2.map (.clearWait t)))
  | .clearWait t event => clearWaitEvent s t event >>= fun r => .ok (r.setOp k none)
  | .wakeup event =>
    wakeupScan event s (s.waitQueue (waitHash event)) >>= fun r =>
      .ok (r.1.setOp k (if r.2 then none else some (.wakeup event)))
  | .swapout t => threadSwapout s t >>= fun r => .ok (r.setOp k none)
  | .doswapin t => threadDoswapin s t >>= fun r => .ok (r.setOp k none)

def step (s : State) : Action → Except Panic State
  | .tick update => .ok { s with thread := fun t => { s.thread t with update := update t } }
  | .bind t q => .ok (s.modThread t fun th => { th with whichq := q })
  | .assertWait c event interruptible =>
    match s.phase c with
    | .running t => assertWait s t event interruptible
    | _ => .ok s
  | .setTimeout c =>
    match s.phase c with
    | .running t => .ok (threadSetTimeout s t)
    | _ => .ok s
  | .block c =>
    match s.phase c with
    | .running t => threadBlock s c t
    | _ => .ok s
  | .dispatch c => dispatch s c
  | .idleTurn c => .ok (if s.phase c = .idle then idleTurn s c else s)
  | .exitRequest c => .ok { s with shouldExit := Function.update s.shouldExit c true }
  | .goAndSwitch c new =>
    match s.phase c with
    | .running t => threadGoAndSwitch s c t new
    | _ => .ok s
  | .setPri t pri => setPri s t pri
  | .timeout k t => .ok ((clearTimer s t).setOp k (some (.timedOut t)))
  | .clearWait k t interruptOnly => clearWait s t interruptOnly >>= fun r => .ok (r.1.setOp k (r.2.map (.clearWait t)))
  | .wakeup k event => .ok (s.setOp k (some (.wakeup event)))
  | .wakeupOne event => wakeupOne s event
  | .proceed k =>
    match s.ops k with
    | none => .ok s
    | some op => proceed s k op
  | .hold t => .ok (threadHold s t)
  | .dowait t => .ok (threadDowait s t)
  | .release t => threadRelease s t
  | .haltSuspend t => .ok (threadHaltSuspend s t)
  | .haltRun t => threadHaltRun s t
  | .swapoutScan k t => .ok (swapoutScan s k t)
  | .takeSwapin k => .ok (takeSwapin s k)

end MachVM.Kern.Sched
