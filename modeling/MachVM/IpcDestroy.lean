import MachVM.IpcSpaceMoves
import MachVM.Lib.Run

namespace MachVM.Ipc.Destroy

open Space Machine

/-- Where the thread in `obj_destroy_rights` is. At `top` it has the object locked, and with `taskLocked` the
task; in the other phases it has no lock. -/
inductive Phase
  | before
  | top
  | unlocked (e : EntryId) (t : TaskId)
  | taskLocked (e : EntryId) (t : TaskId)
  | notifying (t : TaskId) (n : PortName)
  | done
  deriving DecidableEq, Repr

/-- `otask` is the local of `obj_destroy_rights` and `held` its task references. A thread in `port_dealloc` that
has a task locked, has found the entry of the object and waits for the object's lock is in `inDealloc`;
`leaving` is the entry that `ipc_task_terminate` found at the head of the task's list before it unlocked the task.
The rest is history: the entries that their own tasks removed, those that `obj_destroy_rights` removed, those
freed, the port-deleted notifications, and the uses of entries that were not allocated. -/
structure DState where
  space : SState
  phase : Phase
  otask : Option TaskId
  held : List TaskId
  inDealloc : TaskId → Option EntryId
  leaving : TaskId → Option EntryId
  own : List EntryId
  swept : List EntryId
  freed : List EntryId
  notified : List (TaskId × PortName)
  stray : List EntryId

variable (o : KernObjId) (s : DState)

/-- `obj_entry_dealloc`. -/
def free (e : EntryId) : DState :=
  { s with space := objEntryDealloc s.space e o, freed := s.freed ++ [e] }

/-- The head of the loop, with the object locked. -/
def look : Option DState :=
  if s.phase = .top then
    match s.space.objList o with
    | [] => some { s with phase := .done, otask := none, held := s.held.diff s.otask.toList }
    | e :: _ =>
      match s.space.entry e with
      | none => some { s with stray := s.stray ++ [e] }
      | some x =>
        match x.task with
        | none => some (free o s e)
        | some t => some { s with
            phase := .unlocked e t
            otask := some t
            held := (t :: s.held).diff s.otask.toList }
  else none

def lockTask : Option DState :=
  match s.phase with
  | .unlocked e t => if s.inDealloc t = none then some { s with phase := .taskLocked e t } else none
  | _ => none

/-- From the second `obj_lock` to the end of the turn or to `send_notification`. -/
def relock : Option DState :=
  match s.phase with
  | .taskLocked e t =>
    match s.space.entry e with
    | none => some { s with phase := .top, stray := s.stray ++ [e] }
    | some x =>
      match x.task with
      | none => some { free o s e with phase := .top }
      | some _ => some { free o { s with space := objEntryRemove s.space t e x } e with
          phase := .notifying t x.name
          swept := s.swept ++ [e] }
  | _ => none

/-- `send_notification`, and the object is locked again. -/
def notify : Option DState :=
  match s.phase with
  | .notifying t n => some { s with phase := .top, notified := s.notified ++ [(t, n)] }
  | _ => none

/-- The lock of a task is free. -/
def TaskFree (t : TaskId) : Prop :=
  s.inDealloc t = none ∧ ∀ e, s.phase ≠ .taskLocked e t

instance (t : TaskId) : Decidable (TaskFree s t) :=
  match hp : s.phase with
  | .taskLocked e u =>
    if h : s.inDealloc t = none ∧ u ≠ t then
      isTrue ⟨h.1, fun _ hc => h.2 (Phase.taskLocked.inj (hp.symm.trans hc)).2⟩
    else isFalse fun hc => h ⟨hc.1, fun he => hc.2 e (he ▸ hp)⟩
  | .before | .top | .unlocked .. | .notifying .. | .done =>
    if h : s.inDealloc t = none then isTrue ⟨h, fun _ hc => by simp [hp] at hc⟩
    else isFalse fun hc => h hc.1

/-- `port_dealloc` up to `port_lock`. -/
def deallocFind (t : TaskId) : Option DState :=
  if TaskFree s t then
    match objEntryFind s.space t o with
    | none => some s
    | some e => some { s with inDealloc := Function.update s.inDealloc t (some e) }
  else none

/-- The rest of `port_dealloc` of a port that is dead. -/
def deallocDestroy (t : TaskId) : Option DState :=
  if s.phase ≠ .top then do
    let e ← s.inDealloc t
    let s := { s with inDealloc := Function.update s.inDealloc t none }
    match s.space.entry e with
    | none => some { s with stray := s.stray ++ [e] }
    | some x =>
      if (s.space.obj o).inUse = true then none
      else some { s with space := objEntryDestroy s.space t e x, own := s.own ++ [e] }
  else none

/-- A turn of the loop of `ipc_task_terminate` up to `ipc_task_unlock`. -/
def terminateLook (t : TaskId) : Option DState :=
  if TaskFree s t ∧ s.leaving t = none then do
    let e ← (s.space.taskList t).head?
    match s.space.entry e with
    | none => some { s with stray := s.stray ++ [e] }
    | some _ => some { s with leaving := Function.update s.leaving t (some e) }
  else none

/-- The argument `entry->obj` of the `port_dealloc` that follows. -/
def terminateRead (t : TaskId) : Option DState := do
  let e ← s.leaving t
  let s := { s with leaving := Function.update s.leaving t none }
  match s.space.entry e with
  | none => some { s with stray := s.stray ++ [e] }
  | some _ => some s

/-- The object has been locked for `obj_destroy_rights`. -/
def begin : Option DState :=
  if s.phase = .before then some { s with phase := .top } else none

inductive Action
  | begin
  | look
  | lockTask
  | relock
  | notify
  | deallocFind (t : TaskId)
  | deallocDestroy (t : TaskId)
  | terminateLook (t : TaskId)
  | terminateRead (t : TaskId)
  deriving DecidableEq, Repr

def step : Action → Option DState
  | .begin => begin s
  | .look => look o s
  | .lockTask => lockTask s
  | .relock => relock o s
  | .notify => notify s
  | .deallocFind t => deallocFind o s t
  | .deallocDestroy t => deallocDestroy o s t
  | .terminateLook t => terminateLook s t
  | .terminateRead t => terminateRead s t

/-- The steps of the thread in `obj_destroy_rights`. -/
def Action.sweeps : Action → Bool
  | .begin | .look | .lockTask | .relock | .notify => true
  | _ => false

/-- The object is dead, nobody has begun, and all its entries still belong to their tasks. -/
structure Dying (o : KernObjId) (s : DState) : Prop where
  tables : Tables s.space
  dead : (s.space.obj o).inUse = false
  whole : ∀ e x, s.space.entry e = some x → x.obj = o → x.task ≠ none
  phase : s.phase = .before
  quiet : s.otask = none ∧ s.held = [] ∧ (∀ t, s.inDealloc t = none) ∧ ∀ t, s.leaving t = none
  history : s.own = [] ∧ s.swept = [] ∧ s.freed = [] ∧ s.notified = [] ∧ s.stray = []

/-- The entry that a step of `obj_destroy_rights` frees, if it frees one. -/
def freeing : Action → Option EntryId
  | .look => (s.space.objList o).head?.filter fun e => (s.space.entry e).any fun x => x.task.isNone
  | .relock =>
    match s.phase with
    | .taskLocked e _ => some e
    | _ => none
  | _ => none

/-- `obj_destroy_rights` does not free an entry that `ipc_task_terminate` has left its task unlocked with. -/
def Unhurried (a : Action) : Prop :=
  ∀ t e, s.leaving t = some e → freeing o s a ≠ some e

end MachVM.Ipc.Destroy
