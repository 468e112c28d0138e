import MachVM.Lib.Run
import Mathlib.Data.List.Count
import Mathlib.Logic.Function.Basic

namespace MachVM.Kern.Lock

abbrev ThreadId := Nat

/-- `struct lock`, less the interlock: every step below is one section under it. A `thread` of -1 is
`none`. -/
structure LockData where
  wantWrite : Bool
  wantUpgrade : Bool
  waiting : Bool
  canSleep : Bool
  readCount : Int
  thread : Option ThreadId
  recursionDepth : Int
  deriving DecidableEq, Repr

/-- `lock_init`. -/
def lockInit (canSleep : Bool) : LockData where
  wantWrite := false
  wantUpgrade := false
  waiting := false
  canSleep := canSleep
  readCount := 0
  thread := none
  recursionDepth := 0

/-- The waiting loop a thread is in. `lock_write` has two, one before and one after it has the
`want_write` bit. -/
inductive Phase
  | out
  | write
  | writeReaders
  | read
  | upgrade
  | tryUpgrade
  deriving DecidableEq, Repr

/-- A thread that has let the interlock go in a loop has either spun for `lock_wait_time` or gone to sleep.
`returned` is the value of its last operation that has one. -/
structure Thread where
  phase : Phase := .out
  spun : Bool := false
  asleep : Bool := false
  returned : Bool := false
  deriving DecidableEq, Repr

/-- The lock and the threads that use it. The two lists are history: a thread is in one of them once for
each read or write hold that an operation gave it and that it has not given up. -/
structure LState where
  lock : LockData
  thread : ThreadId → Thread
  readers : List ThreadId
  writers : List ThreadId

namespace LState

def setThread (s : LState) (t : ThreadId) (x : Thread) : LState :=
  { s with thread := Function.update s.thread t x }

def returns (s : LState) (t : ThreadId) (b : Bool) : LState :=
  s.setThread t { returned := b }

/-- The operation of a thread is over. -/
def leave (s : LState) (t : ThreadId) : LState :=
  s.returns t (s.thread t).returned

/-- `thread_wakeup` on the lock's event. -/
def threadWakeup (s : LState) : LState :=
  { s with thread := fun t => { s.thread t with asleep := false } }

end LState

/-- `if (l->waiting) ...`, the same at every release. -/
def wakeWaiters (s : LState) : LState :=
  if s.lock.waiting then { s with lock := { s.lock with waiting := false } }.threadWakeup else s

/-- `l->waiting = TRUE; thread_sleep(...)`. -/
def sleepOn (s : LState) (t : ThreadId) (p : Phase) : LState :=
  { s with lock := { s.lock with waiting := true } }.setThread t
    { phase := p, asleep := true, returned := (s.thread t).returned }

/-- One section of the loop that the operations share: the loop goes on while `busy`. With no spinning and no
sleeping the interlock is never let go, and there is no next state. -/
def waitLoop (lockWaitTime : Nat) (s : LState) (t : ThreadId) (p : Phase) (spun busy : Bool)
    (go : Option LState) : Option LState :=
  if !busy then go
  else if 0 < lockWaitTime ∧ (!spun ∨ !s.lock.canSleep) then
    some (s.setThread t { phase := p, spun := true, returned := (s.thread t).returned })
  else if s.lock.canSleep then some (sleepOn s t p)
  else none

section Sections

variable (lockWaitTime : Nat) (s : LState) (t : ThreadId)

/-- The second loop of `lock_write`. -/
def writeReadersLoop (spun : Bool) : Option LState :=
  waitLoop lockWaitTime s t .writeReaders spun (s.lock.readCount != 0 || s.lock.wantUpgrade) <|
    some (({ s with writers := t :: s.writers } : LState).leave t)

/-- The first loop of `lock_write`, and from its end on the second in the same section. -/
def writeLoop (spun : Bool) : Option LState :=
  waitLoop lockWaitTime s t .write spun s.lock.wantWrite <|
    writeReadersLoop lockWaitTime { s with lock := { s.lock with wantWrite := true } } t false

def lockWrite : Option LState :=
  if s.lock.thread = some t then
    some { s with
      lock := { s.lock with recursionDepth := s.lock.recursionDepth + 1 }
      writers := t :: s.writers }
  else writeLoop lockWaitTime s t false

/-- `lock_done`. In the history a thread that holds the lock both ways gives up a read hold. -/
def lockDone : LState :=
  let l := s.lock
  let l' :=
    if l.readCount != 0 then { l with readCount := l.readCount - 1 }
    else if l.recursionDepth != 0 then { l with recursionDepth := l.recursionDepth - 1 }
    else if l.wantUpgrade then { l with wantUpgrade := false }
    else { l with wantWrite := false }
  wakeWaiters { s with
    lock := l'
    readers := s.readers.erase t
    writers := if t ∈ s.readers then s.writers else s.writers.erase t }

/-- A thread that gets a read hold. -/
def acceptReader : LState :=
  { s with
    lock := { s.lock with readCount := s.lock.readCount + 1 }
    readers := t :: s.readers }

def readLoop (spun : Bool) : Option LState :=
  waitLoop lockWaitTime s t .read spun (s.lock.wantWrite || s.lock.wantUpgrade) <|
    some ((acceptReader s t).leave t)

def lockRead : Option LState :=
  if s.lock.thread = some t then some (acceptReader s t)
  else readLoop lockWaitTime s t false

/-- The read hold that an upgrade gives up. -/
def dropReader : LState :=
  { s with
    lock := { s.lock with readCount := s.lock.readCount - 1 }
    readers := s.readers.erase t }

/-- An upgrade in a recursive lock. -/
def deepen : LState :=
  { s with
    lock := { s.lock with recursionDepth := s.lock.recursionDepth + 1 }
    writers := t :: s.writers }

def upgradeLoop (spun : Bool) : Option LState :=
  waitLoop lockWaitTime s t .upgrade spun (s.lock.readCount != 0) <|
    some ({ s with writers := t :: s.writers }.returns t false)

/-- `lock_read_to_write`: returns TRUE if the upgrade failed. -/
def lockReadToWrite : Option LState :=
  let s := dropReader s t
  if s.lock.thread = some t then some ((deepen s t).returns t false)
  else if s.lock.wantUpgrade then some ((wakeWaiters s).returns t true)
  else upgradeLoop lockWaitTime { s with lock := { s.lock with wantUpgrade := true } } t false

def lockWriteToRead : LState :=
  let l := { s.lock with readCount := s.lock.readCount + 1 }
  let l' :=
    if l.recursionDepth != 0 then { l with recursionDepth := l.recursionDepth - 1 }
    else if l.wantUpgrade then { l with wantUpgrade := false }
    else { l with wantWrite := false }
  wakeWaiters { s with
    lock := l'
    readers := t :: s.readers
    writers := s.writers.erase t }

def lockTryWrite : LState :=
  if s.lock.thread = some t then (deepen s t).returns t true
  else if s.lock.wantWrite || s.lock.wantUpgrade || s.lock.readCount != 0 then s.returns t false
  else
    { s with
      lock := { s.lock with wantWrite := true }
      writers := t :: s.writers }.returns t true

def lockTryRead : LState :=
  if s.lock.thread = some t then (acceptReader s t).returns t true
  else if s.lock.wantWrite || s.lock.wantUpgrade then s.returns t false
  else (acceptReader s t).returns t true

/-- The loop of `lock_try_read_to_write`, which sleeps on any lock and never spins. -/
def tryUpgradeLoop : LState :=
  if s.lock.readCount != 0 then sleepOn s t .tryUpgrade
  else { s with writers := t :: s.writers }.returns t true

/-- `lock_try_read_to_write`: returns FALSE if the upgrade failed. -/
def lockTryReadToWrite : LState :=
  if s.lock.thread = some t then (deepen (dropReader s t) t).returns t true
  else if s.lock.wantUpgrade then s.returns t false
  else tryUpgradeLoop (dropReader { s with lock := { s.lock with wantUpgrade := true } } t) t

/-- `none` is the panic "don't have write lock". -/
def lockSetRecursive : Option LState :=
  if !s.lock.wantWrite then none
  else some { s with lock := { s.lock with thread := some t } }

/-- `none` is the panic "wrong thread". -/
def lockClearRecursive : Option LState :=
  if s.lock.thread ≠ some t then none
  else if s.lock.recursionDepth = 0 then some { s with lock := { s.lock with thread := none } }
  else some s

/-- The next section of a thread that let the interlock go in a loop. -/
def nextSection : Option LState :=
  let x := s.thread t
  if x.asleep then none
  else
    match x.phase with
    | .out => none
    | .write => writeLoop lockWaitTime s t x.spun
    | .writeReaders => writeReadersLoop lockWaitTime s t x.spun
    | .read => readLoop lockWaitTime s t x.spun
    | .upgrade => upgradeLoop lockWaitTime s t x.spun
    | .tryUpgrade => some (tryUpgradeLoop s t)

end Sections

inductive Op
  | write
  | done
  | read
  | readToWrite
  | writeToRead
  | tryWrite
  | tryRead
  | tryReadToWrite
  | setRecursive
  | clearRecursive
  deriving DecidableEq, Repr

/-- A thread enters an operation, or goes on in the one it is in. -/
inductive Action
  | call (o : Op) (t : ThreadId)
  | turn (t : ThreadId)
  | sleepable (b : Bool)
  deriving DecidableEq, Repr

/-- The first section of an operation. -/
def call (lockWaitTime : Nat) (s : LState) (t : ThreadId) : Op → Option LState
  | .write => lockWrite lockWaitTime s t
  | .done => some (lockDone s t)
  | .read => lockRead lockWaitTime s t
  | .readToWrite => lockReadToWrite lockWaitTime s t
  | .writeToRead => some (lockWriteToRead s t)
  | .tryWrite => some (lockTryWrite s t)
  | .tryRead => some (lockTryRead s t)
  | .tryReadToWrite => some (lockTryReadToWrite s t)
  | .setRecursive => lockSetRecursive s t
  | .clearRecursive => lockClearRecursive s t

def step (lockWaitTime : Nat) (s : LState) : Action → Option LState
  | .call o t => if (s.thread t).phase = .out then call lockWaitTime s t o else none
  | .turn t => nextSection lockWaitTime s t
  | .sleepable b => some { s with lock := { s.lock with canSleep := b } }

/-- A lock that nobody has used yet. -/
def start (canSleep : Bool) : LState := ⟨lockInit canSleep, fun _ => {}, [], []⟩

end MachVM.Kern.Lock

namespace MachVM.Kern.Lock

open Machine

variable {w : Nat} {s r : LState} {t u : ThreadId} {ow ou : Option ThreadId} {o : Op}

/-- A thread releases, upgrades and downgrades only what it holds, makes the lock recursive only while it
holds it for writing, and gives up or downgrades its last write hold only when the lock is not recursive. -/
def Disciplined (s : LState) : Action → Prop
  | .call .done t =>
    (t ∈ s.readers ∨ t ∈ s.writers) ∧ (s.lock.thread = some t → t ∈ s.readers ∨ 2 ≤ s.writers.count t)
  | .call .readToWrite t => t ∈ s.readers
  | .call .tryReadToWrite t => t ∈ s.readers
  | .call .writeToRead t => t ∈ s.writers ∧ (s.lock.thread = some t → 2 ≤ s.writers.count t)
  | .call .setRecursive t => t ∈ s.writers
  | _ => True

instance (s : LState) (a : Action) : Decidable (Disciplined s a) := by
  unfold Disciplined
  split <;> infer_instance

/-- The runs of a lock from `lock_init` on. -/
abbrev LReach (lockWaitTime : Nat) (ok : LState → Action → Prop) : LState → Prop :=
  Reach (fun s => ∃ b, s = start b) (step lockWaitTime) ok

/-- The thread that has set `want_write` has it for a hold once it is past the loop for the readers. -/
def holdsWrite (s : LState) (ow : Option ThreadId) (t : ThreadId) : Bool :=
  decide (ow = some t ∧ (s.thread t).phase ≠ .writeReaders)

/-- The same of `want_upgrade`. -/
def holdsUpgrade (s : LState) (ou : Option ThreadId) (t : ThreadId) : Bool :=
  decide (ou = some t ∧ (s.thread t).phase ≠ .upgrade ∧ (s.thread t).phase ≠ .tryUpgrade)

/-- The write holds that the recursion depth stands for. -/
def deeper (l : LockData) (t : ThreadId) : Int :=
  if l.thread = some t then l.recursionDepth else 0

/-- Each of the two flags has one owner, and a thread's write holds are the flags it owns and is done waiting
for, and the depth of the recursion. -/
structure Owned (s : LState) (ow ou : Option ThreadId) : Prop where
  wantWrite : s.lock.wantWrite = ow.isSome
  wantUpgrade : s.lock.wantUpgrade = ou.isSome
  readCount : s.lock.readCount = s.readers.length
  writeReaders : ∀ t, (s.thread t).phase = .writeReaders → ow = some t
  upgrading : ∀ t, (s.thread t).phase = .upgrade ∨ (s.thread t).phase = .tryUpgrade → ou = some t
  depth : 0 ≤ s.lock.recursionDepth
  flat : s.lock.thread = none → s.lock.recursionDepth = 0
  recursive : ∀ t, s.lock.thread = some t → holdsWrite s ow t ∨ holdsUpgrade s ou t
  writers : ∀ t, (s.writers.count t : Int) =
    (holdsWrite s ow t).toNat + (holdsUpgrade s ou t).toNat + deeper s.lock t
  writer : ∀ t u, t ∈ s.writers → u ∈ s.writers → u = t
  reader : ∀ t u, t ∈ s.writers → u ∈ s.readers → u = t
  upgrader : ∀ t, holdsWrite s ow t → ou = none ∨ ou = some t

@[simp] theorem lock_setThread (s : LState) (t : ThreadId) (x : Thread) : (s.setThread t x).lock = s.lock := rfl

@[simp] theorem readers_setThread (s : LState) (t : ThreadId) (x : Thread) :
    (s.setThread t x).readers = s.readers := rfl

@[simp] theorem writers_setThread (s : LState) (t : ThreadId) (x : Thread) :
    (s.setThread t x).writers = s.writers := rfl

theorem thread_setThread (s : LState) (t : ThreadId) (x : Thread) (u : ThreadId) :
    (s.setThread t x).thread u = if u = t then x else s.thread u := by
  exact Function.update_apply ..

/-- A phase in which no flag is owned. -/
def Phase.plain (p : Phase) : Prop := p ≠ .writeReaders ∧ p ≠ .upgrade ∧ p ≠ .tryUpgrade

instance (p : Phase) : Decidable p.plain := inferInstanceAs (Decidable (_ ∧ _))

/-- What the invariant reads of the lock. -/
structure SameLock (l l' : LockData) : Prop where
  wantWrite : l'.wantWrite = l.wantWrite
  wantUpgrade : l'.wantUpgrade = l.wantUpgrade
  readCount : l'.readCount = l.readCount
  thread : l'.thread = l.thread
  depth : l'.recursionDepth = l.recursionDepth

theorem Owned.congr (h : Owned s ow ou) (hl : SameLock s.lock r.lock) (hr : r.readers = s.readers)
    (hw : r.writers = s.writers)
    (hp : ∀ u, (r.thread u).phase = (s.thread u).phase ∨ (r.thread u).phase.plain ∧ (s.thread u).phase.plain) :
    Owned r ow ou := by
  have hx : ∀ u, holdsWrite r ow u = holdsWrite s ow u := by
    intro u
    rcases hp u with he | ⟨⟨h1, _⟩, h2, _⟩
    · rw [holdsWrite, holdsWrite, he]
    · simp [holdsWrite, h1, h2]
  have hy : ∀ u, holdsUpgrade r ou u = holdsUpgrade s ou u := by
    intro u
    rcases hp u with he | ⟨⟨_, h1, h2⟩, _, h3, h4⟩
    · rw [holdsUpgrade, holdsUpgrade, he]
    · simp [holdsUpgrade, h1, h2, h3, h4]
  have hd : ∀ u, deeper r.lock u = deeper s.lock u := by
    intro u
    rw [deeper, deeper, hl.thread, hl.depth]
  constructor
  · rw [hl.wantWrite]
    exact h.wantWrite
  · rw [hl.wantUpgrade]
    exact h.wantUpgrade
  · rw [hl.readCount, hr]
    exact h.readCount
  · intro u hu
    rcases hp u with he | ⟨⟨h1, _⟩, _⟩
    · exact h.writeReaders u (he ▸ hu)
    · exact absurd hu h1
  · intro u hu
    rcases hp u with he | ⟨⟨_, h1, h2⟩, _⟩
    · exact h.upgrading u (he ▸ hu)
    · exact absurd hu (by simp [h1, h2])
  · rw [hl.depth]
    exact h.depth
  · rw [hl.thread, hl.depth]
    exact h.flat
  · intro u hu
    rw [hx, hy]
    exact h.recursive u (hl.thread ▸ hu)
  · intro u
    rw [hx, hy, hd, hw]
    exact h.writers u
  · rw [hw]
    exact h.writer
  · rw [hw, hr]
    exact h.reader
  · intro u hu
    exact h.upgrader u (hx u ▸ hu)

end MachVM.Kern.Lock
