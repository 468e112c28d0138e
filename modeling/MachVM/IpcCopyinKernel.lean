import MachVM.IpcMessageUndo
import MachVM.IpcRightsMoves

namespace MachVM.Ipc

open Space (SState Item KernObjId)

variable {σ : Type} {c : MsgConfig} {sv : MsgServices σ} {size : Nat} {held : σ → Word → Prop}

/-! ## The kernel message -/

/-- The ports of a header that is translated, and the machine after it. -/
def copyinHeader (sv : MsgServices σ) (m : σ) (msg : UserMessage) : Option (σ × Word × Word) :=
  match sv.objCacheCopyin m (msg.word 4) with
  | (_, none) => none
  | (m, some dest) =>
    match if msg.word 3 = 0 then (m, some kernObjNull) else sv.objCacheCopyin m (msg.word 3) with
    | (_, none) => none
    | (m, some reply) => some (m, dest, reply)

/-- The message has a translated header, and the walk of its body stops at an item where `P` holds. -/
def UserMessage.StopsAt (c : MsgConfig) (sv : MsgServices σ) (m : σ) (msg : UserMessage)
    (P : MsgItem → MsgWalk σ → Prop) : Prop :=
  msg.Complex ∧ ∃ m' dest reply, copyinHeader sv m msg = some (m', dest, reply) ∧
    Ipc.StopsAt c sv msg.size P (msgSizeMax + 1) msgHeaderWords
      (translatedHeader sv m' msg (msg.toKernel sv m) dest reply)

section Whole

variable {m : σ} {msg : UserMessage} {w : MsgWalk σ}

end Whole

/-! ## The kernel -/

/-- The page size, and the pages of `ipc_soft_map` and `ipc_kernel_map`. The soft map is that of a task,
so its addresses lie below those of the kernel. -/
structure IpcMaps where
  pageShift : Nat
  softMin : Nat
  softMax : Nat
  kernelMin : Nat
  kernelMax : Nat
  small : pageShift ≤ 30
  apart : softMax ≤ kernelMin
  ordered : kernelMin ≤ kernelMax
  inside : (kernelMax + 1) * 2 ^ pageShift ≤ 2 ^ 32

namespace IpcMaps

def pageSize (a : IpcMaps) : Nat := 2 ^ a.pageShift

def truncPage (a : IpcMaps) (x : Word) : Word := BitVec.ofNat 32 (x.toNat / a.pageSize * a.pageSize)

def roundPage (a : IpcMaps) (x : Word) : Word := a.truncPage (x + BitVec.ofNat 32 (a.pageSize - 1))

def lowPage (a : IpcMaps) (isPort : Bool) : Nat := if isPort then a.kernelMin else a.softMin

def highPage (a : IpcMaps) (isPort : Bool) : Nat := if isPort then a.kernelMax else a.softMax

end IpcMaps

/-- The kernel as `msg_copyin` changes it: the ports and translations, the references that the message
under way holds among them, the pages allocated in `ipc_kernel_map` (`true`) and `ipc_soft_map`, the
references of the memory objects, the address map of the sender and the number of kernel messages. -/
structure KernelState (τ : Type) where
  space : SState
  mine : List Item
  pages : Bool → Nat → Bool
  objectRefs : Word → Int
  sender : τ
  kmsgs : Int

variable {τ : Type}

namespace KernelState

def setPages (k : KernelState τ) (isPort : Bool) (first last : Nat) (b : Bool) : KernelState τ :=
  { k with
    pages := Function.update k.pages isPort fun p => if first ≤ p ∧ p < last then b else k.pages isPort p }

/-- The first place in the map with `n` free pages. -/
def findSpace (a : IpcMaps) (k : KernelState τ) (isPort : Bool) (n : Nat) : Option Nat :=
  (List.range (a.highPage isPort)).find? fun p =>
    decide (a.lowPage isPort ≤ p ∧ p + n ≤ a.highPage isPort) &&
      (List.range n).all fun j => !k.pages isPort (p + j)

/-- `vm_allocate` anywhere in one of the maps. -/
def vmAllocate (a : IpcMaps) (k : KernelState τ) (isPort : Bool) (size : Word) :
    Option (Word × KernelState τ) :=
  if size = 0 then some (0, k)
  else
    let n := (a.roundPage size).toNat / a.pageSize
    (k.findSpace a isPort n).map fun p =>
      (BitVec.ofNat 32 (p * a.pageSize), k.setPages isPort p (p + n) true)

def vmDeallocate (a : IpcMaps) (k : KernelState τ) (isPort : Bool) (start size : Word) : KernelState τ :=
  if size = 0 then k
  else
    k.setPages isPort ((a.truncPage start).toNat / a.pageSize)
      ((a.roundPage (start + size)).toNat / a.pageSize) false

/-- The size of the region of whole pages that `vm_move` copies. -/
def srcSize (a : IpcMaps) (source bytes : Word) : Word :=
  a.roundPage (source + bytes) - a.truncPage source

/-- `vm_move` of at least one byte out of the sender's map. `copy` is `vm_map_copy`: what becomes of the
sender's map and, unless it fails, the words from the source address on. -/
def vmMove (a : IpcMaps) (copy : τ → Word → Word → Bool → τ × Option (Nat → Word)) (k : KernelState τ)
    (isPort : Bool) (source bytes : Word) (deallocate : Bool) :
    KernelState τ × Option (Word × (Nat → Word)) :=
  match k.vmAllocate a isPort (srcSize a source bytes) with
  | none => (k, none)
  | some (dstStart, k) =>
    let r := copy k.sender source bytes deallocate
    ({ k with sender := r.1 },
      r.2.map fun data => (dstStart + (source - a.truncPage source), data))

/-- The message takes a reference: `s` is what became of the ports. -/
def take (k : KernelState τ) (s : SState) (i : Item) : KernelState τ :=
  { k with space := s, mine := k.mine ++ [i] }

end KernelState

/-- What `MSG_TYPE_PORT_ALL` and `MSG_TYPE_PORT` stand for. -/
def msgRights (tn : Word) : Space.MsgType := if tn = msgTypePortAll then .portAll else .port

/-- The address of an object, which is neither null nor `KERN_OBJ_INVALID`. -/
def objAddress (o : KernObjId) : Option Word :=
  if 0 < o ∧ o < 2 ^ 32 - 1 then some (BitVec.ofNat 32 o) else none

/-- The object that a name in an array stands for; a kernel task passes pointers. -/
def copyinObject (s : SState) (t : TaskId) (name : Word) : Option KernObjId :=
  if (s.task t).kernelSpace then some name.toNat
  else (Space.objEntryLookup s t ⟨name⟩).bind fun e => (s.entry e).map Space.Entry.obj

/-- `object_copyin` or `object_copyin_from_kernel`, as `copyinf` of the sender has it. -/
def copyinf (s : SState) (t : TaskId) (name tn : Word) (deallocate : Bool) : Option SState :=
  if (s.task t).kernelSpace then
    Space.objectCopyinFromKernel s t name.toNat (msgRights tn) deallocate
  else Space.objectCopyin s t ⟨name⟩ (msgRights tn) deallocate

/-- What `object_destroy` does with a reference of a message; `obj_release` does the same with one that
carries no rights. -/
def objectDestroyItem (s : SState) (i : Item) : SState :=
  if i.rights = .portAll ∧ (s.obj i.obj).inUse = true then
    Space.portDestroyReceiveOwn (Space.dropItem s i) i.obj
  else Space.loseRef (Space.dropItem s i) i.obj

namespace KernelState

/-- A reference that was copied in, or the state as it was. -/
def copiedIn (k : KernelState τ) (rights : Space.MsgType) (r : Option (KernObjId × SState)) :
    KernelState τ × Option Word :=
  match r.bind fun r => (objAddress r.1).map fun x => (x, k.take r.2 ⟨r.1, rights, true⟩) with
  | some (x, k) => (k, some x)
  | none => (k, none)

def drop (k : KernelState τ) (i : Item) : KernelState τ :=
  { k with space := objectDestroyItem k.space i, mine := k.mine.erase i }

end KernelState

/-- The kernel under `msg_copyin` for the task `t`; what only `msg_copyout` calls is that of `sv`. An item
never asks `vm_move` for 2 ^ 29 bytes or more. -/
def copyinServices (a : IpcMaps) (copy : τ → Word → Word → Bool → τ × Option (Nat → Word)) (t : TaskId)
    (sv : MsgServices (KernelState τ)) : MsgServices (KernelState τ) :=
  { sv with
    objCacheCopyin := fun k name => k.copiedIn .port (Space.objCacheCopyin k.space t ⟨name⟩)
    receiverIsKernel := fun k dest => decide ((k.space.obj dest.toNat).receiver = .task kernelTask)
    objRelease := fun k obj => k.drop ⟨obj.toNat, .port, true⟩
    objectCopyin := fun k name tn deallocate =>
      k.copiedIn (msgRights tn) ((copyinObject k.space t name).bind fun o =>
        (copyinf k.space t name tn deallocate).map fun s => (o, s))
    vmMoveIn := fun k isPort source bytes deallocate =>
      if bytes ≠ 0 ∧ bytes.toNat < 2 ^ 29 then k.vmMove a copy isPort source bytes deallocate
      else (k, none)
    objectDestroy := fun k obj tn => k.drop ⟨obj.toNat, msgRights tn, true⟩
    vmDeallocate := fun k isPort start size => k.vmDeallocate a isPort start size
    vmObjectDeallocate := fun k x =>
      { k with objectRefs := Function.update k.objectRefs x (k.objectRefs x - 1) } }

/-- Every receive right in transit is in a message. -/
def Transit (s : SState) : Prop :=
  ∀ o, (s.obj o).receiver = .soft →
    (s.obj o).inUse = true ∧ ∃ i ∈ s.items, Space.holdsRight o i = true

end MachVM.Ipc
