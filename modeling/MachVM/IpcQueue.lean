import MachVM.Types

namespace MachVM.Ipc

abbrev ThreadId := Nat
abbrev TaskId := Nat
abbrev SetId := Nat
abbrev MsgId := Nat
abbrev EntryId := Nat

/-- A message queue is part of a port or of a port set. -/
inductive QueueId
  | port (p : PortId)
  | set (x : SetId)
  deriving DecidableEq, Repr

/-- `port_receiver`: a task, `ipc_soft_task` while the right is in a message, or `TASK_NULL`. -/
inductive Receiver
  | task (t : TaskId)
  | soft
  | none
  deriving DecidableEq, Repr

def kernelTask : TaskId := 0
def portBacklogMax : Int := 16

structure SendOptions where
  always : Bool
  notify : Bool
  timeout : Bool
  tout : Nat
  deriving DecidableEq, Repr

/-- Why a thread that nobody woke up runs again. -/
inductive WaitResult
  | interrupted
  | timedOut
  | other
  deriving DecidableEq, Repr

/-- Where a thread is in `msg_queue`, `msg_dequeue` or `set_add_member`, between two stretches of
code that run with locks held. -/
inductive Thread
  | idle
  | sending (m : MsgId) (o : SendOptions) (fresh : Bool)
  | sendBlocked (m : MsgId) (o : SendOptions)
  | placing (m : MsgId) (q : QueueId)
  | receiving (q : QueueId) (size : Nat)
  | rcvBlocked (q : QueueId) (size : Nat)
  | rcvHanded (q : QueueId) (m : MsgId)
  | rcvTold (q : QueueId)
  | holding (m : MsgId)
  | adding (p : PortId)
  deriving DecidableEq, Repr

structure Kmsg where
  port : PortId
  size : Nat
  senderEntry : Option EntryId
  deriving DecidableEq, Repr

structure MsgQueue where
  messages : List MsgId
  blocked : List ThreadId
  lock : Option ThreadId
  deriving DecidableEq, Repr

/-- A port as the message code sees it; `locked` while `set_add_member` keeps it locked. -/
structure QPort where
  inUse : Bool
  receiver : Receiver
  set : Option SetId
  count : Int
  backlog : Int
  senders : List ThreadId
  locked : Bool
  deriving DecidableEq, Repr

structure QSet where
  inUse : Bool
  owner : TaskId
  deriving DecidableEq, Repr

/-- A translation as far as `SEND_NOTIFY` uses it; `task` is `none` once it left its task. -/
structure QEntry where
  task : Option TaskId
  port : PortId
  kmsg : Option MsgId
  deriving DecidableEq, Repr

/-- What became of a message that left its queue. -/
inductive Fate
  | handed (t : ThreadId)
  | destroyed
  deriving DecidableEq, Repr

/-- Ports, sets, queues, translations and threads. The last fields are the history: messages in the
order in which `msg_queue` accepted them for a queue, in the order in which they left, those whose
receiver has finished `msg_dequeue`, those freed by `port_destroy`, those sent with the result
SEND_WILL_NOTIFY, the NOTIFY_MSG_ACCEPTED sent, and the flags cleared because the translation or the
port went away. -/
structure QState where
  port : PortId → QPort
  set : SetId → QSet
  queue : QueueId → MsgQueue
  thread : ThreadId → Thread
  task : ThreadId → TaskId
  msg : MsgId → Kmsg
  nextMsg : MsgId
  entry : EntryId → QEntry
  nextEntry : EntryId
  entryFind : TaskId → PortId → Option EntryId
  accepted : List MsgId
  left : List (MsgId × Fate)
  finished : List MsgId
  freed : List MsgId
  willNotify : List MsgId
  notified : List MsgId
  cleared : List MsgId

namespace QState

def setPort (s : QState) (p : PortId) (x : QPort) : QState :=
  { s with port := Function.update s.port p x }

def setQueue (s : QState) (q : QueueId) (x : MsgQueue) : QState :=
  { s with queue := Function.update s.queue q x }

def setThread (s : QState) (t : ThreadId) (x : Thread) : QState :=
  { s with thread := Function.update s.thread t x }

def setMsg (s : QState) (m : MsgId) (x : Kmsg) : QState := { s with msg := Function.update s.msg m x }

def setEntry (s : QState) (e : EntryId) (x : QEntry) : QState :=
  { s with entry := Function.update s.entry e x }

/-- The queue a message for `p` goes to. -/
def queueOf (s : QState) (p : PortId) : QueueId :=
  match (s.port p).set with
  | none => .port p
  | some x => .set x

/-- Takes the threads of a list off a queue, telling each what `f` says. -/
def wake (s : QState) (ts : List ThreadId) (f : Thread → Thread) : QState :=
  { s with thread := fun t => if t ∈ ts then f (s.thread t) else s.thread t }

end QState

open QState

/-! ## `msg_queue` -/

/-- A thread calls `msg_queue` with a message of its own. -/
def sendCall (s : QState) (t : ThreadId) (p : PortId) (size : Nat) (o : SendOptions) : Option QState :=
  match s.thread t with
  | .idle =>
    some ({ s with nextMsg := s.nextMsg + 1 }.setMsg s.nextMsg ⟨p, size, none⟩
      |>.setThread t (.sending s.nextMsg o true))
  | _ => none

/-- The message is destroyed and `msg_queue` returns an error. -/
def giveUp (s : QState) (t : ThreadId) : Option QState := some (s.setThread t .idle)

/-- Counts the message and trades the port's lock for the queue's. -/
def sendAccept (s : QState) (t : ThreadId) (m : MsgId) (p : PortId) : Option QState :=
  if !(s.port p).inUse then giveUp s t
  else
    let q := s.queueOf p
    match (s.queue q).lock with
    | some _ => none
    | none =>
      some (({ s with accepted := s.accepted ++ [m] }.setPort p
        { s.port p with count := (s.port p).count + 1 }).setQueue q
        { s.queue q with lock := some t } |>.setThread t (.placing m q))

def sendBlock (s : QState) (t : ThreadId) (m : MsgId) (p : PortId) (o : SendOptions) : Option QState :=
  some ((s.setPort p { s.port p with senders := (s.port p).senders ++ [t] }).setThread t
    (.sendBlocked m o))

/-- The SEND_NOTIFY case of the loop: the message and the sender's translation point to each other. -/
def sendNotify (s : QState) (t : ThreadId) (m : MsgId) (p : PortId) : Option QState :=
  match s.entryFind (s.task t) p with
  | none => giveUp s t
  | some e =>
    if (s.entry e).kmsg ≠ none then giveUp s t
    else
      sendAccept ((({ s with willNotify := s.willNotify ++ [m] }.setEntry e
        { s.entry e with kmsg := some m }).setMsg m { s.msg m with senderEntry := some e })) t m p

/-- The stretch of `msg_queue` with the port locked. -/
def sendTry (s : QState) (t : ThreadId) : Option QState :=
  match s.thread t with
  | .sending m o fresh =>
    let p := (s.msg m).port
    let x := s.port p
    let tout := if o.timeout then o.tout else 0
    if x.locked then none
    else if fresh && decide (x.receiver = .task kernelTask) then some (s.setThread t .idle)
    else if x.count < x.backlog || o.always then sendAccept s t m p
    else if !x.inUse then giveUp s t
    else if tout = 0 then
      if o.notify then sendNotify s t m p
      else if o.timeout then giveUp s t
      else sendBlock s t m p { o with tout := tout }
    else sendBlock s t m p { o with tout := tout }
  | _ => none

/-- A blocked sender runs again although nobody woke it. -/
def sendWake (s : QState) (t : ThreadId) (r : WaitResult) : Option QState :=
  match s.thread t with
  | .sendBlocked m o =>
    let p := (s.msg m).port
    if (s.port p).locked then none
    else
      let s := s.setPort p { s.port p with senders := (s.port p).senders.erase t }
      match r with
      | .interrupted => some (s.setThread t .idle)
      | .timedOut => some (s.setThread t (.sending m { o with tout := 0 } false))
      | .other => some (s.setThread t (.sending m o false))
  | _ => none

/-- The size a blocked receiver has room for. -/
def hasRoom (s : QState) (size : Nat) (t : ThreadId) : Bool :=
  match s.thread t with
  | .rcvBlocked _ max => decide (size ≤ max)
  | _ => false

def tellReceiver (q : QueueId) : Thread → Thread := fun _ => .rcvTold q

/-- Hands the message to the first blocked receiver with room for it, turning away those before it,
or puts it at the end of the queue. -/
def deliver (s : QState) (q : QueueId) (m : MsgId) : QState :=
  let x := s.queue q
  let size := (s.msg m).size
  let small := x.blocked.takeWhile fun t => !hasRoom s size t
  let s' := s.wake small (tellReceiver q)
  match x.blocked.dropWhile fun t => !hasRoom s size t with
  | [] => s'.setQueue q { x with messages := x.messages ++ [m], blocked := [] }
  | t :: rest =>
    { (s'.setQueue q { x with blocked := rest }).setThread t (.rcvHanded q m) with
      left := s.left ++ [(m, .handed t)] }

/-- The stretch of `msg_queue` with the queue locked; it ends with the queue unlocked. -/
def place (s : QState) (t : ThreadId) : Option QState :=
  match s.thread t with
  | .placing m q => some (deliver ((s.setQueue q { s.queue q with lock := none }).setThread t .idle) q m)
  | _ => none

/-! ## `msg_dequeue` -/

/-- The checks of `msg_receive_trap` with the port or set locked. -/
def mayReceive (s : QState) (t : ThreadId) : QueueId → Bool
  | .port p => !(s.port p).locked && decide ((s.port p).receiver = .task (s.task t)) &&
      decide ((s.port p).set = none)
  | .set x => (s.set x).inUse && decide ((s.set x).owner = s.task t)

/-- `msg_receive_trap` up to the call of `msg_dequeue`: the queue is locked. -/
def receive (s : QState) (t : ThreadId) (q : QueueId) (size : Nat) : Option QState :=
  if s.thread t = .idle ∧ mayReceive s t q = true ∧ (s.queue q).lock = none then
    some ((s.setQueue q { s.queue q with lock := some t }).setThread t (.receiving q size))
  else none

/-- One round of the loop with the queue locked; `poll` for a timeout of zero. -/
def dequeue (s : QState) (t : ThreadId) (poll : Bool) : Option QState :=
  match s.thread t with
  | .receiving q size =>
    let x := s.queue q
    match x.messages with
    | m :: rest =>
      if size < (s.msg m).size then
        some ((s.setQueue q { x with lock := none }).setThread t .idle)
      else
        some { (s.setQueue q { x with messages := rest, lock := none }).setThread t (.holding m) with
          left := s.left ++ [(m, .handed t)] }
    | [] =>
      if poll then some ((s.setQueue q { x with lock := none }).setThread t .idle)
      else
        some ((s.setQueue q { x with blocked := x.blocked ++ [t], lock := none }).setThread t
          (.rcvBlocked q size))
  | _ => none

/-- A blocked receiver runs again: with the message it was handed, with bad news, or for no reason
of the IPC system. -/
def rcvWake (s : QState) (t : ThreadId) (r : WaitResult) : Option QState :=
  match s.thread t with
  | .rcvHanded q m => if (s.queue q).lock ≠ none then none else some (s.setThread t (.holding m))
  | .rcvTold q => if (s.queue q).lock ≠ none then none else some (s.setThread t .idle)
  | .rcvBlocked q size =>
    if (s.queue q).lock ≠ none then none
    else
      let x := { s.queue q with blocked := (s.queue q).blocked.erase t }
      match r with
      | .other => some ((s.setQueue q { x with lock := some t }).setThread t (.receiving q size))
      | _ => some ((s.setQueue q x).setThread t .idle)
  | _ => none

def wakeSender : Thread → Thread
  | .sendBlocked m o => .sending m o false
  | x => x

/-- Wakes all the senders blocked on a port. -/
def wakeSenders (s : QState) (p : PortId) : QState :=
  (s.wake (s.port p).senders wakeSender).setPort p { s.port p with senders := [] }

/-- The flag of SEND_NOTIFY, at the end of `msg_dequeue`. -/
def acceptNotify (s : QState) (m : MsgId) : QState :=
  match (s.msg m).senderEntry with
  | none => s
  | some e => { s.setEntry e { s.entry e with kmsg := none } with notified := s.notified ++ [m] }

/-- The stretch of `msg_dequeue` with the port locked. -/
def finish (s : QState) (t : ThreadId) : Option QState :=
  match s.thread t with
  | .holding m =>
    let p := (s.msg m).port
    if (s.port p).locked then none
    else
      let s := s.setPort p { s.port p with count := (s.port p).count - 1 }
      let s := if (s.port p).count = 0 then wakeSenders s p else s
      let s := acceptNotify s m
      some ({ s with finished := s.finished ++ [m] }.setThread t .idle)
  | _ => none

/-! ## Ports and sets -/

/-- `msg_queue_changed`. -/
def msgQueueChanged (s : QState) (q : QueueId) : QState :=
  (s.wake (s.queue q).blocked (tellReceiver q)).setQueue q { s.queue q with blocked := [] }

/-- `set_add_member` up to the unlocking of the two queues; the port stays locked. -/
def setAddMember (s : QState) (t : ThreadId) (p : PortId) (x : SetId) : Option QState :=
  if s.thread t = .idle ∧ (s.port p).locked = false ∧ (s.port p).inUse = true ∧ (s.set x).inUse = true ∧
      (s.port p).set = none ∧ (s.port p).receiver = .task (s.set x).owner ∧
      (s.queue (.port p)).lock = none ∧ (s.queue (.set x)).lock = none then
    let ms := (s.queue (.port p)).messages
    let s := s.setPort p { s.port p with set := some x, locked := true }
    let s := s.setQueue (.port p) { s.queue (.port p) with messages := [] }
    some ((ms.foldl (fun s m => deliver s (.set x) m) s).setThread t (.adding p))
  else none

/-- The end of `set_add_member`: receivers waiting on the port are told RCV_PORT_CHANGE. -/
def setAddDone (s : QState) (t : ThreadId) : Option QState :=
  match s.thread t with
  | .adding p =>
    if (s.queue (.port p)).lock ≠ none then none
    else
      let s := msgQueueChanged s (.port p)
      some ((s.setPort p { s.port p with locked := false }).setThread t .idle)
  | _ => none

/-- `set_remove_member`: the port's messages go back to its own queue. -/
def setRemoveMember (s : QState) (p : PortId) (x : SetId) : QState :=
  let mine := (s.queue (.set x)).messages.filter fun m => decide ((s.msg m).port = p)
  let rest := (s.queue (.set x)).messages.filter fun m => !decide ((s.msg m).port = p)
  let s := s.setPort p { s.port p with set := none }
  let s := s.setQueue (.set x) { s.queue (.set x) with messages := rest }
  s.setQueue (.port p) { s.queue (.port p) with messages := (s.queue (.port p)).messages ++ mine }

/-- The queues whose locks a change of the port's membership or receiver takes are free. -/
def queuesFree (s : QState) (p : PortId) : Bool :=
  decide ((s.queue (.port p)).lock = none) && decide ((s.queue (s.queueOf p)).lock = none)

/-- `port_set_remove`, and the first half of a move between two sets. -/
def portSetRemove (s : QState) (p : PortId) : Option QState :=
  match (s.port p).set with
  | some x => if (s.port p).locked = false ∧ queuesFree s p = true then some (setRemoveMember s p x) else none
  | none => none

/-- `port_clear_receiver`: the right goes into a message, or it is dead. -/
def portClearReceiver (s : QState) (p : PortId) (dead : Bool) : Option QState :=
  if (s.port p).locked = false ∧ queuesFree s p = true then
    let s := match (s.port p).set with
      | some x => setRemoveMember s p x
      | none => msgQueueChanged s (.port p)
    some (s.setPort p { s.port p with receiver := if dead then .none else .soft })
  else none

/-- The receive right leaves its message for a task. -/
def portTakeReceive (s : QState) (p : PortId) (t : TaskId) : Option QState :=
  if (s.port p).locked = false ∧ (s.port p).receiver = .soft then
    some (s.setPort p { s.port p with receiver := .task t })
  else none

/-- `set_destroy` starts: the set is dead. -/
def setDead (s : QState) (x : SetId) : QState :=
  { s with set := Function.update s.set x { s.set x with inUse := false } }

/-- `set_destroy` ends: receivers waiting on the set are told RCV_INVALID_PORT. -/
def setChanged (s : QState) (x : SetId) : Option QState :=
  if (s.queue (.set x)).lock ≠ none then none else some (msgQueueChanged s (.set x))

/-- `port_set_backlog` by the receiver; a bad value changes nothing. -/
def portSetBacklog (s : QState) (t : TaskId) (p : PortId) (backlog : Int) : Option QState :=
  if (s.port p).locked = true ∨ (s.port p).receiver ≠ .task t then none
  else if backlog ≤ 0 ∨ portBacklogMax < backlog then none
  else
    let room := (backlog - (s.port p).backlog).toNat
    let s := s.wake ((s.port p).senders.take room) wakeSender
    some (s.setPort p { s.port p with senders := (s.port p).senders.drop room, backlog := backlog })

/-! ## `port_destroy` -/

/-- The port has a backup: its receive right goes there in a notification. -/
def portBackup (s : QState) (p : PortId) : Option QState :=
  if (s.port p).locked = false ∧ (s.port p).inUse = true ∧ (s.port p).receiver = .none then
    some (s.setPort p { s.port p with receiver := .soft })
  else none

/-- The port is marked dead; its receive right is nobody's. -/
def portDead (s : QState) (p : PortId) : Option QState :=
  if (s.port p).locked = false ∧ (s.port p).inUse = true ∧
      ((s.port p).receiver = .soft ∨ (s.port p).receiver = .none) then
    some (s.setPort p { s.port p with inUse := false, receiver := .none })
  else none

/-- `dequeue_head` on the queue of a dead port, without a lock. -/
def destroyDequeue (s : QState) (p : PortId) : Option QState :=
  if (s.port p).inUse then none
  else
    match (s.queue (.port p)).messages with
    | [] => none
    | m :: rest =>
      some { s.setQueue (.port p) { s.queue (.port p) with messages := rest } with
        left := s.left ++ [(m, .destroyed)] }

/-- The flag of a message that is thrown away, with the port locked; then the message is freed. -/
def destroyFlag (s : QState) (m : MsgId) : Option QState :=
  if (s.port (s.msg m).port).locked = false ∧ (m, Fate.destroyed) ∈ s.left ∧ m ∉ s.freed then
    let s := match (s.msg m).senderEntry with
      | none => s
      | some e => { s.setEntry e { s.entry e with kmsg := none } with cleared := s.cleared ++ [m] }
    some { s with freed := s.freed ++ [m] }
  else none

/-- Pokes the senders asleep on a dead port. -/
def destroyPoke (s : QState) (p : PortId) : Option QState :=
  if (s.port p).inUse then none else some (wakeSenders s p)

/-! ## Translations -/

/-- A task gets a right for the port. -/
def entryMake (s : QState) (t : TaskId) (p : PortId) : Option QState :=
  if (s.port p).locked = false ∧ (s.port p).inUse = true ∧ s.entryFind t p = none then
    some { (s.setEntry s.nextEntry ⟨some t, p, none⟩) with
      nextEntry := s.nextEntry + 1
      entryFind := Function.update s.entryFind t (Function.update (s.entryFind t) p (some s.nextEntry)) }
  else none

/-- `obj_entry_remove`: the message is told, the translation itself keeps its pointer. -/
def entryRemove (s : QState) (e : EntryId) : Option QState :=
  let x := s.entry e
  match x.task with
  | none => none
  | some t =>
    if (s.port x.port).locked then none
    else
      let s := match x.kmsg with
        | none => s
        | some m => { s.setMsg m { s.msg m with senderEntry := none } with cleared := s.cleared ++ [m] }
      some { s.setEntry e { x with task := none } with
        entryFind := Function.update s.entryFind t (Function.update (s.entryFind t) x.port none) }

/-- One stretch of code between taking and dropping locks. -/
inductive QAction
  | sendCall (t : ThreadId) (p : PortId) (size : Nat) (o : SendOptions)
  | sendTry (t : ThreadId)
  | sendWake (t : ThreadId) (r : WaitResult)
  | place (t : ThreadId)
  | receive (t : ThreadId) (q : QueueId) (size : Nat)
  | dequeue (t : ThreadId) (poll : Bool)
  | rcvWake (t : ThreadId) (r : WaitResult)
  | finish (t : ThreadId)
  | setAddMember (t : ThreadId) (p : PortId) (x : SetId)
  | setAddDone (t : ThreadId)
  | portSetRemove (p : PortId)
  | portClearReceiver (p : PortId) (dead : Bool)
  | portTakeReceive (p : PortId) (t : TaskId)
  | setDead (x : SetId)
  | setChanged (x : SetId)
  | portSetBacklog (t : TaskId) (p : PortId) (backlog : Int)
  | portBackup (p : PortId)
  | portDead (p : PortId)
  | destroyDequeue (p : PortId)
  | destroyFlag (m : MsgId)
  | destroyPoke (p : PortId)
  | entryMake (t : TaskId) (p : PortId)
  | entryRemove (e : EntryId)
  deriving DecidableEq, Repr

def qStep (s : QState) : QAction → Option QState
  | .sendCall t p size o => Ipc.sendCall s t p size o
  | .sendTry t => Ipc.sendTry s t
  | .sendWake t r => Ipc.sendWake s t r
  | .place t => Ipc.place s t
  | .receive t q size => Ipc.receive s t q size
  | .dequeue t poll => Ipc.dequeue s t poll
  | .rcvWake t r => Ipc.rcvWake s t r
  | .finish t => Ipc.finish s t
  | .setAddMember t p x => Ipc.setAddMember s t p x
  | .setAddDone t => Ipc.setAddDone s t
  | .portSetRemove p => Ipc.portSetRemove s p
  | .portClearReceiver p dead => Ipc.portClearReceiver s p dead
  | .portTakeReceive p t => Ipc.portTakeReceive s p t
  | .setDead x => some (Ipc.setDead s x)
  | .setChanged x => Ipc.setChanged s x
  | .portSetBacklog t p b => Ipc.portSetBacklog s t p b
  | .portBackup p => Ipc.portBackup s p
  | .portDead p => Ipc.portDead s p
  | .destroyDequeue p => Ipc.destroyDequeue s p
  | .destroyFlag m => Ipc.destroyFlag s m
  | .destroyPoke p => Ipc.destroyPoke s p
  | .entryMake t p => Ipc.entryMake s t p
  | .entryRemove e => Ipc.entryRemove s e

/-- Before any message: every port open or closed as it may be, with nothing queued. -/
structure QState.Quiet (s : QState) : Prop where
  queue : ∀ q, s.queue q = ⟨[], [], none⟩
  thread : ∀ t, s.thread t = .idle
  port : ∀ p, (s.port p).set = none ∧ (s.port p).count = 0 ∧ 0 < (s.port p).backlog ∧
    (s.port p).senders = [] ∧ (s.port p).locked = false
  entry : s.nextEntry = 0 ∧ (∀ t p, s.entryFind t p = none) ∧ ∀ e, (s.entry e).task = none
  msg : s.nextMsg = 0
  history : s.accepted = [] ∧ s.left = [] ∧ s.finished = [] ∧ s.freed = [] ∧ s.willNotify = [] ∧
    s.notified = [] ∧ s.cleared = []

inductive QReach : QState → Prop
  | quiet {s : QState} (h : s.Quiet) : QReach s
  | step {s s' : QState} {a : QAction} (h : QReach s) (ha : qStep s a = some s') : QReach s'

end MachVM.Ipc
