import Mathlib.Logic.Basic
import Mathlib.Algebra.Group.Nat.Defs

namespace MachVM.Timing

/-- An `unsigned`. -/
abbrev Word := BitVec 32

def timerState : Word := 1

def timerService : Word := 2

def timerBusy : Word := 4

/-- `TIMER_HIGH_UNIT`, in microseconds. -/
def timerHighUnit : Word := 1000000

/-- `struct timer`. The time stamp is read and written by the owner only, and not here. -/
structure Timer where
  lowBits : Word
  highBits : Word
  flags : Word
  deriving DecidableEq, Repr

structure TimerSave where
  low : Word
  high : Word
  deriving DecidableEq, Repr

def Busy (flags : Word) : Prop := flags &&& timerBusy ≠ 0

instance (flags : Word) : Decidable (Busy flags) := inferInstanceAs (Decidable (_ ≠ _))

/-- Where the owner of the timer stands, with the words it has read. Each constructor is named after the access that
comes next: an increment of `low_bits` reads it and writes it, and `timer_normalize` follows from `busyWrite` on. -/
inductive Owner
  | idle
  | bumpWrite (low usec : Word)
  | busyWrite (flags : Word)
  | highRead
  | lowRead (high : Word)
  | highWrite (high low : Word)
  | reduceRead
  | reduceWrite (low : Word)
  | flipRead
  | flipWrite (flags : Word)
  | clearRead
  | clearWrite (flags : Word)
  deriving DecidableEq, Repr

/-- One access of the owner, which never lets `low_bits` overflow. -/
inductive OwnerStep : Timer → Owner → Timer → Owner → Prop
  | bumpRead (t : Timer) (usec : Word) : OwnerStep t .idle t (.bumpWrite t.lowBits usec)
  | bumpWrite (t : Timer) (low usec : Word) (h : low.toNat + usec.toNat < 2 ^ 32) :
    OwnerStep t (.bumpWrite low usec) { t with lowBits := low + usec } .idle
  | busyRead (t : Timer) : OwnerStep t .idle t (.busyWrite t.flags)
  | busyWrite (t : Timer) (flags : Word) :
    OwnerStep t (.busyWrite flags) { t with flags := flags ||| timerBusy } .highRead
  | highRead (t : Timer) : OwnerStep t .highRead t (.lowRead t.highBits)
  | lowRead (t : Timer) (high : Word) : OwnerStep t (.lowRead high) t (.highWrite high t.lowBits)
  | highWrite (t : Timer) (high low : Word) :
    OwnerStep t (.highWrite high low) { t with highBits := high + low / timerHighUnit } .reduceRead
  | reduceRead (t : Timer) : OwnerStep t .reduceRead t (.reduceWrite t.lowBits)
  | reduceWrite (t : Timer) (low : Word) :
    OwnerStep t (.reduceWrite low) { t with lowBits := low % timerHighUnit } .flipRead
  | flipRead (t : Timer) : OwnerStep t .flipRead t (.flipWrite t.flags)
  | flipWrite (t : Timer) (flags : Word) :
    OwnerStep t (.flipWrite flags) { t with flags := flags ^^^ timerState } .clearRead
  | clearRead (t : Timer) : OwnerStep t .clearRead t (.clearWrite t.flags)
  | clearWrite (t : Timer) (flags : Word) :
    OwnerStep t (.clearWrite flags) { t with flags := flags &&& ~~~(timerBusy ||| timerService) } .idle

/-- Who takes the value of `timer_grab`. -/
inductive Purpose
  | grab
  | delta
  deriving DecidableEq, Repr

/-- Where the reader stands, with the words it has read. `deltaLow` and `deltaHigh` are the two reads of the macro
`TIMER_DELTA`; the others are those of `timer_grab`, for itself or in `timer_delta`. -/
inductive Reader
  | idle
  | deltaLow
  | deltaHigh (temp : Word)
  | grabFlags (p : Purpose)
  | grabLow (p : Purpose) (bflags : Word)
  | grabHigh (p : Purpose) (bflags low : Word)
  | grabAflags (p : Purpose) (bflags low high : Word)
  deriving DecidableEq, Repr

/-- A value that `timer_grab` accepted, and the totals of the timer while it was read. -/
structure Reading where
  value : TimerSave
  moments : List Nat
  deriving DecidableEq, Repr

/-- The timer with its owner and one reader. The words below `result` are nowhere in the machine: the time that the
timer has been given, the units ever carried to `high_bits` and those carried at the saved reading, the changes of
state since the reader looked at the flags, and the totals since it began to read. `late` says that a fast path found
`high_bits` 2^32 or more units on. -/
structure System where
  timer : Timer
  owner : Owner
  reader : Reader
  save : TimerSave
  result : Word
  total : Nat
  carried : Nat
  saved : Nat
  flips : Nat
  moments : List Nat
  savedMoments : List Nat
  readings : List Reading
  late : Bool
  deriving DecidableEq, Repr

/-- The time that an access of the owner adds to the timer. -/
def Owner.gain : Owner → Nat
  | bumpWrite _ usec => usec.toNat
  | _ => 0

/-- The units that an access of the owner carries to `high_bits`. -/
def Owner.carry : Owner → Nat
  | highWrite _ low => low.toNat / timerHighUnit.toNat
  | _ => 0

def Owner.flip : Owner → Nat
  | flipWrite _ => 1
  | _ => 0

namespace System

/-- The owner goes on from `s.owner`. -/
def ownerMoves (s : System) (t : Timer) (o : Owner) : System :=
  { s with
    timer := t
    owner := o
    total := s.total + s.owner.gain
    carried := s.carried + s.owner.carry
    flips := s.flips + s.owner.flip
    moments := (s.total + s.owner.gain) :: s.moments }

def begins (s : System) (r : Reader) : System := { s with reader := r, moments := [s.total] }

/-- What `timer_delta` adds to the result. -/
def delta (s : System) (low high : Word) : Word := (high - s.save.high) * timerHighUnit + low - s.save.low

def accept (s : System) (low high : Word) : Purpose → System
  | .grab => { s with reader := .idle, readings := ⟨⟨low, high⟩, s.moments⟩ :: s.readings }
  | .delta =>
    { s with
      reader := .idle
      result := s.result + s.delta low high
      save := ⟨low, high⟩
      saved := s.carried
      savedMoments := s.moments }

/-- The fast path of `TIMER_DELTA`. -/
def fast (s : System) (temp : Word) : System :=
  { s with
    reader := .idle
    result := s.result + (temp - s.save.low)
    save := { s.save with low := temp }
    savedMoments := s.moments
    late := s.late || decide (s.saved + 2 ^ 32 ≤ s.carried) }

end System

/-- One access of the reader, or the call of an operation. -/
inductive ReaderStep : System → System → Prop
  | timerGrab (s : System) (hi : s.reader = .idle) : ReaderStep s (s.begins (.grabFlags .grab))
  | timerDelta (s : System) (hi : s.reader = .idle) : ReaderStep s (s.begins (.grabFlags .delta))
  | macroDelta (s : System) (hi : s.reader = .idle) : ReaderStep s (s.begins .deltaLow)
  | deltaLow (s : System) (hi : s.reader = .deltaLow) :
    ReaderStep s { s with reader := .deltaHigh s.timer.lowBits }
  | deltaFast (s : System) (temp : Word) (hi : s.reader = .deltaHigh temp) (h : s.save.high = s.timer.highBits) :
    ReaderStep s (s.fast temp)
  | deltaSlow (s : System) (temp : Word) (hi : s.reader = .deltaHigh temp) (h : s.save.high ≠ s.timer.highBits) :
    ReaderStep s { s with reader := .grabFlags .delta }
  | grabFlags (s : System) (p : Purpose) (hi : s.reader = .grabFlags p) :
    ReaderStep s { s with reader := .grabLow p s.timer.flags, flips := 0 }
  | grabLow (s : System) (p : Purpose) (bflags : Word) (hi : s.reader = .grabLow p bflags) :
    ReaderStep s { s with reader := .grabHigh p bflags s.timer.lowBits }
  | grabHigh (s : System) (p : Purpose) (bflags low : Word) (hi : s.reader = .grabHigh p bflags low) :
    ReaderStep s { s with reader := .grabAflags p bflags low s.timer.highBits }
  | grabRetry (s : System) (p : Purpose) (bflags low high : Word) (hi : s.reader = .grabAflags p bflags low high)
    (h : Busy bflags ∨ Busy s.timer.flags ∨ bflags &&& timerState ≠ s.timer.flags &&& timerState) :
    ReaderStep s { s with reader := .grabFlags p }
  | grabAccept (s : System) (p : Purpose) (bflags low high : Word) (hi : s.reader = .grabAflags p bflags low high)
    (h : ¬ (Busy bflags ∨ Busy s.timer.flags ∨ bflags &&& timerState ≠ s.timer.flags &&& timerState)) :
    ReaderStep s (s.accept low high p)

inductive Step : System → System → Prop
  | owner {s : System} {t : Timer} {o : Owner} (h : OwnerStep s.timer s.owner t o) : Step s (s.ownerMoves t o)
  | reader {s s' : System} (h : ReaderStep s s') : Step s s'

/-- The reader has looked at the flags and will look at them again. -/
def Reader.inPass : Reader → Bool
  | grabLow .. | grabHigh .. | grabAflags .. => true
  | _ => false

/-- At most one normalization changes the state of the timer between the two looks at the flags. -/
def System.AtMostOne (s : System) : Prop := s.reader.inPass = true → s.flips ≤ 1

/-- Nobody is under way yet, and the saved value is the timer's. -/
structure Start (s : System) : Prop where
  owner : s.owner = .idle
  reader : s.reader = .idle
  flags : ¬ Busy s.timer.flags
  save : s.save = ⟨s.timer.lowBits, s.timer.highBits⟩
  result : s.result = 0
  total : s.total = s.timer.highBits.toNat * timerHighUnit.toNat + s.timer.lowBits.toNat
  carried : s.carried = s.timer.highBits.toNat
  saved : s.saved = s.carried
  moments : s.moments = [s.total]
  savedMoments : s.savedMoments = [s.total]
  readings : s.readings = []
  late : s.late = false

inductive Reach (s₀ : System) : System → Prop
  | start (h : Start s₀) : Reach s₀ s₀
  | step {s s' : System} (h : Reach s₀ s) (hs : Step s s') (ho : s'.AtMostOne) : Reach s₀ s'

end MachVM.Timing
