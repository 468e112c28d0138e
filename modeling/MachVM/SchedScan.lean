import MachVM.SchedInvariant

namespace MachVM.Kern.Sched

open Levels

/-- `MAX_STUCK_THREADS`. -/
def maxStuckThreads : Nat := 16

inductive Ref
  | took (t : ThreadId)
  | dropped (t : ThreadId)
  deriving DecidableEq, Repr

/-- What `do_thread_scan` works on. `refLog` and `passes` are history: the references taken and dropped, and for each
pass where it has left `q` and what it has put in `stuck_threads`. -/
structure Scan where
  sched : State
  schedStamp : ThreadId → BitVec 32
  schedTick : BitVec 32
  refCount : ThreadId → Nat
  refLog : List Ref
  passes : List (Nat × List ThreadId)

inductive ScanHalt
  | outside
  | badUpdate
  | lastReference
  | sched (p : Panic)
  deriving DecidableEq, Repr

/-- The walk down a list, with `count` and `stuck_threads`, and whether there was no more room. -/
def scanList (stuck : ThreadId → Bool) : List ThreadId → Int → List ThreadId → Bool × Int × List ThreadId
  | [], count, got => (false, count, got)
  | t :: ts, count, got =>
    if stuck t then
      if got.length = maxStuckThreads then (true, count, got) else scanList stuck ts (count - 1) (got ++ [t])
    else scanList stuck ts (count - 1) got

/-- The walk over the lists from `q` on, with `n` of them left. No answer is a look past the last one. -/
def scanLists (stuck : ThreadId → Bool) (runq : Nat → List ThreadId) :
    Nat → Nat → Int → List ThreadId → Option (Nat × Bool × List ThreadId)
  | 0, q, count, got => if count ≤ 0 then some (q, false, got) else none
  | n + 1, q, count, got =>
    if count ≤ 0 then some (q, false, got)
    else
      match scanList stuck (runq q) count got with
      | (true, _, got) => some (q, true, got)
      | (false, count, got) => scanLists stuck runq n (q + 1) count got

namespace Scan

variable (x : Scan) (t : ThreadId)

/-- The test that both passes make. -/
def stuck : Bool := (x.sched.thread t).state = { run := true } && 1 < x.schedTick - x.schedStamp t

/-- `thread_reference`. -/
def reference : Scan :=
  { x with refCount := Function.update x.refCount t (x.refCount t + 1), refLog := x.refLog ++ [.took t] }

/-- `thread_deallocate`, up to where it has to do with more than the count. -/
def threadDeallocate : Except ScanHalt Scan :=
  if x.refCount t - 1 = 0 then .error .lastReference
  else .ok { x with refCount := Function.update x.refCount t (x.refCount t - 1), refLog := x.refLog ++ [.dropped t] }

/-- `update_priority`. -/
def updatePriority : Except ScanHalt Scan :=
  let ticks := (x.schedTick - x.schedStamp t).toInt
  if ticks ≤ 0 then .error .badUpdate
  else
    .ok { x with
      schedStamp := Function.update x.schedStamp t (x.schedStamp t + BitVec.ofInt 32 ticks)
      sched := Sched.updatePriority x.sched t }

def setPri (pri : Int) : Except ScanHalt Scan :=
  match Sched.setPri x.sched t pri with
  | .error p => .error (.sched p)
  | .ok s => .ok { x with sched := s }

/-- The second pass at one thread of `stuck_threads`. -/
def fix : Except ScanHalt Scan :=
  (if x.stuck t then x.updatePriority t >>= fun x => x.setPri t (x.sched.thread t).schedPri else .ok x) >>=
    fun x => x.threadDeallocate t

/-- The first pass, with `q` at 0 where the source does not set it. -/
def collect : Option (Nat × Bool × List ThreadId) :=
  let rq := x.sched.queue .global
  if 0 < rq.count then scanLists x.stuck rq.runq (nrqs - rq.low) rq.low rq.count [] else some (0, false, [])

/-- Both passes, and whether they have to start again. -/
def pass : Except ScanHalt (Scan × Bool) :=
  match x.collect with
  | none => .error .outside
  | some (q, restart, got) =>
    let x := got.foldl reference { x with passes := x.passes ++ [(q, got)] }
    got.reverse.foldlM fix x >>= fun x => .ok (x, restart)

end Scan

/-- `do_thread_scan`. No answer stands for a lack of fuel. -/
def doThreadScan : Nat → Scan → Option (Except ScanHalt Scan)
  | 0, _ => none
  | fuel + 1, x =>
    match x.pass with
    | .error e => some (.error e)
    | .ok (x, true) => doThreadScan fuel x
    | .ok (x, false) => some (.ok x)

end MachVM.Kern.Sched
