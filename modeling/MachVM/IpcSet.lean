import MachVM.IpcQueue
import MachVM.Lib.Mirror

namespace MachVM.Ipc.Members

inductive KernReturn
  | success
  | invalidArgument
  | notReceiver
  | notInSet
  deriving DecidableEq, Repr

/-- A port as the port set code sees it. `refs` is `port_references`; of these, `held` belong to
translations, messages and callers, and `gifts` were given to calls of `set_destroy`. -/
structure MPort where
  inUse : Bool
  receiver : Receiver
  set : Option SetId
  refs : Int
  held : Nat
  gifts : List SetId
  freed : Bool
  deriving DecidableEq, Repr

/-- How far the `set_destroy` of a set is: in its loop with the set locked, or without the lock and
about to lock a member. -/
inductive Destroyer
  | none
  | looping
  | waiting (p : PortId)
  | returned
  deriving DecidableEq, Repr

structure MSet where
  inUse : Bool
  owner : TaskId
  members : List PortId
  traversal : Option PortId
  refs : Int
  held : Nat
  destroyer : Destroyer
  freed : Bool
  deriving DecidableEq, Repr

structure MState where
  port : PortId → MPort
  set : SetId → MSet
  nextPort : PortId
  nextSet : SetId

namespace MState

def setPort (s : MState) (p : PortId) (x : MPort) : MState := { s with port := Function.update s.port p x }

def setSet (s : MState) (x : SetId) (y : MSet) : MState := { s with set := Function.update s.set x y }

/-- `port_check_unlock`: a port without references is freed. -/
def portCheck (s : MState) (p : PortId) : MState :=
  if (s.port p).refs ≤ 0 then s.setPort p { s.port p with freed := true } else s

/-- `set_check_unlock`. -/
def setCheck (s : MState) (x : SetId) : MState :=
  if (s.set x).refs ≤ 0 then s.setSet x { s.set x with freed := true } else s

end MState

/-- `port_alloc`: a port of task `t` with one translation. -/
def portAlloc (s : MState) (t : TaskId) : MState :=
  { s.setPort s.nextPort ⟨true, .task t, none, 1, 1, [], false⟩ with nextPort := s.nextPort + 1 }

/-- `set_alloc`. -/
def setAlloc (s : MState) (t : TaskId) : MState :=
  { s.setSet s.nextSet ⟨true, t, [], none, 1, 1, .none, false⟩ with nextSet := s.nextSet + 1 }

/-- `set_add_member`, the messages apart. -/
def setAddMember (s : MState) (x : SetId) (p : PortId) : MState :=
  (s.setPort p { s.port p with set := some x, refs := (s.port p).refs + 1 }).setSet x
    { s.set x with members := (s.set x).members ++ [p], refs := (s.set x).refs + 1 }

/-- `set_remove_member`, the messages apart. A `set_destroy` that waits for the port is told and gets
a reference for it. -/
def setRemoveMember (s : MState) (x : SetId) (p : PortId) : MState :=
  let s := (s.setPort p { s.port p with set := none, refs := (s.port p).refs - 1 }).setSet x
    { s.set x with members := (s.set x).members.erase p, refs := (s.set x).refs - 1 }
  if (s.set x).traversal = some p then
    (s.setSet x { s.set x with traversal := none }).setPort p
      { s.port p with refs := (s.port p).refs + 1, gifts := (s.port p).gifts ++ [x] }
  else s

/-- `port_set_add` by task `t`, whose name for the set leads to `x`. -/
def portSetAdd (s : MState) (t : TaskId) (x : SetId) (p : PortId) : KernReturn × MState :=
  if (s.port p).inUse = false then (.invalidArgument, s)
  else if (s.port p).receiver ≠ .task t then (.notReceiver, s)
  else if (s.set x).owner ≠ t then (.invalidArgument, s)
  else
    match (s.port p).set with
    | none =>
      if (s.set x).inUse = false then (.invalidArgument, s)
      else (.success, setAddMember s x p)
    | some o =>
      if o = x then
        if (s.set x).inUse = false then (.invalidArgument, s) else (.success, s)
      else if (s.set x).inUse = false then (.invalidArgument, s)
      else (.success, (setAddMember (setRemoveMember s o p) x p).setCheck o)

/-- `port_set_remove` by task `t`. -/
def portSetRemove (s : MState) (t : TaskId) (p : PortId) : KernReturn × MState :=
  if (s.port p).inUse = false then (.invalidArgument, s)
  else if (s.port p).receiver ≠ .task t then (.notReceiver, s)
  else
    match (s.port p).set with
    | none => (.notInSet, s)
    | some x =>
      if (s.set x).inUse = false then (.notInSet, s)
      else (.success, ((setRemoveMember s x p).setCheck x).portCheck p)

/-- `port_clear_receiver`: the right goes into a message, or it is dead. -/
def portClearReceiver (s : MState) (p : PortId) (r : Receiver) : Option MState :=
  if (s.port p).inUse = true ∧ (r = .soft ∨ r = .none) then
    let s := match (s.port p).set with
      | some x => (setRemoveMember s x p).setCheck x
      | none => s
    some (s.setPort p { s.port p with receiver := r })
  else none

/-- The receive right leaves its message for task `t`. -/
def takeReceiver (s : MState) (p : PortId) (t : TaskId) : Option MState :=
  if (s.port p).inUse = true ∧ (s.port p).receiver = .soft then
    some (s.setPort p { s.port p with receiver := .task t })
  else none

/-- `port_destroy`: to the backup port, or the port is no longer in use. -/
def portDestroy (s : MState) (p : PortId) (backup : Bool) : Option MState :=
  if (s.port p).inUse = true ∧ (s.port p).receiver = .none then
    some (if backup then s.setPort p { s.port p with receiver := .soft }
      else s.setPort p { s.port p with inUse := false })
  else none

/-- The head of the loop of `set_destroy`, with the set locked: it unlocks the set to lock the first
member, or it ends. -/
def destroyLoop (s : MState) (x : SetId) : MState :=
  match (s.set x).members with
  | p :: _ => s.setSet x { s.set x with traversal := some p, destroyer := .waiting p }
  | [] => (s.setSet x { s.set x with refs := (s.set x).refs - 1, destroyer := .returned }).setCheck x

/-- `set_destroy`, called by the owner, to the first time it unlocks the set. The translation goes
away with its reference; `set_destroy` has one of its own. -/
def setDestroy (s : MState) (t : TaskId) (x : SetId) : Option MState :=
  if (s.set x).inUse = true ∧ (s.set x).owner = t then
    let s := s.setSet x { s.set x with
      inUse := false
      held := (s.set x).held - 1
      refs := (s.set x).refs - 1 + 1
      destroyer := .looping }
    some (destroyLoop s x)
  else none

/-- `set_destroy` with the port and the set locked again. -/
def destroyNext (s : MState) (x : SetId) : Option MState :=
  match (s.set x).destroyer with
  | .waiting p =>
    let s' := s.setSet x { s.set x with traversal := none, destroyer := .looping }
    let s' := match (s.set x).traversal with
      | none => s'.setPort p { s.port p with
          refs := (s.port p).refs - 1
          gifts := (s.port p).gifts.erase x }
      | some _ => setRemoveMember s' x p
    some (destroyLoop (s'.portCheck p) x)
  | _ => none

/-- Translations, messages and callers take a reference where there is one. -/
def portReference (s : MState) (p : PortId) : Option MState :=
  if 0 < (s.port p).held then
    some (s.setPort p { s.port p with refs := (s.port p).refs + 1, held := (s.port p).held + 1 })
  else none

/-- They release it; whoever has the receive right of a live port keeps its own. -/
def portRelease (s : MState) (p : PortId) : Option MState :=
  if 0 < (s.port p).held ∧ ((s.port p).inUse = true → 1 < (s.port p).held) then
    some ((s.setPort p { s.port p with
      refs := (s.port p).refs - 1
      held := (s.port p).held - 1 }).portCheck p)
  else none

def setReference (s : MState) (x : SetId) : Option MState :=
  if 0 < (s.set x).held then
    some (s.setSet x { s.set x with refs := (s.set x).refs + 1, held := (s.set x).held + 1 })
  else none

def setRelease (s : MState) (x : SetId) : Option MState :=
  if 0 < (s.set x).held ∧ ((s.set x).inUse = true → 1 < (s.set x).held) then
    some ((s.setSet x { s.set x with
      refs := (s.set x).refs - 1
      held := (s.set x).held - 1 }).setCheck x)
  else none

inductive MAction
  | portAlloc (t : TaskId)
  | setAlloc (t : TaskId)
  | portSetAdd (t : TaskId) (x : SetId) (p : PortId)
  | portSetRemove (t : TaskId) (p : PortId)
  | portClearReceiver (p : PortId) (r : Receiver)
  | takeReceiver (p : PortId) (t : TaskId)
  | portDestroy (p : PortId) (backup : Bool)
  | setDestroy (t : TaskId) (x : SetId)
  | destroyNext (x : SetId)
  | portReference (p : PortId)
  | portRelease (p : PortId)
  | setReference (x : SetId)
  | setRelease (x : SetId)
  deriving DecidableEq, Repr

def mStep (s : MState) : MAction → Option MState
  | .portAlloc t => some (Members.portAlloc s t)
  | .setAlloc t => some (Members.setAlloc s t)
  | .portSetAdd t x p => some (Members.portSetAdd s t x p).2
  | .portSetRemove t p => some (Members.portSetRemove s t p).2
  | .portClearReceiver p r => Members.portClearReceiver s p r
  | .takeReceiver p t => Members.takeReceiver s p t
  | .portDestroy p backup => Members.portDestroy s p backup
  | .setDestroy t x => Members.setDestroy s t x
  | .destroyNext x => Members.destroyNext s x
  | .portReference p => Members.portReference s p
  | .portRelease p => Members.portRelease s p
  | .setReference x => Members.setReference s x
  | .setRelease x => Members.setRelease s x

/-- No port and no set yet. -/
def noPorts : MState where
  port _ := ⟨false, .none, none, 0, 0, [], false⟩
  set _ := ⟨false, 0, [], none, 0, 0, .none, false⟩
  nextPort := 0
  nextSet := 0

inductive MReach : MState → Prop
  | start : MReach noPorts
  | step {s s' : MState} {a : MAction} (h : MReach s) (ha : mStep s a = some s') : MReach s'

end MachVM.Ipc.Members
