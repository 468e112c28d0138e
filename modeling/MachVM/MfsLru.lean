import Mathlib.Data.List.Count
import Mathlib.Data.List.Nodup
import Mathlib.Logic.Function.Basic
import Mathlib.Tactic.Common

namespace MachVM.Mfs

abbrev FileId := Nat

/-- `struct vm_info`. `link` is the `next` of `lru_links` as the last removal has left it. -/
structure VmInfo where
  mapCount : Int
  useCount : Int
  mapped : Bool
  queued : Bool
  dirty : Bool
  locked : Bool
  link : Option FileId
  deriving DecidableEq, Repr

/-- The list and what goes with it. `changes` counts the changes of the list, of which `vm_info_version` has the low
32 bits, and `infoLock` is `vm_info_lock` in the hands of a call that scans the list. -/
structure Lru where
  file : FileId → VmInfo
  queue : List FileId
  filesMapped : Int
  changes : Nat
  infoLock : Bool

/-- What is done with a file between `vmp_get` and `vmp_put`. `reclaim` is a pass of the loop of `remap_inode` that
finds no space. -/
inductive Work
  | push
  | write
  | reclaim
  deriving DecidableEq, Repr

/-- A section that a call has still to do. `last` is the number of changes that `last_version` stands for, and the
`next` of a scan is `none` for the head of the queue. -/
inductive Section
  | use (f : FileId) (body : List Work)
  | mapUse (f : FileId) (body : List Work)
  | setMapped (f : FileId) (body : List Work)
  | lock (f : FileId)
  | unlock (f : FileId)
  | work (f : FileId) (w : Work)
  | put (f : FileId)
  | trim
  | trimLoop
  | memfree (f : FileId) (flush : Bool)
  | unmap (f : FileId) (flush : Bool)
  | mapInode (f : FileId) (body : List Work)
  | unmapInode (f : FileId) (linked flush : Bool)
  | unmapLinks (f : FileId) (linked flush : Bool)
  | unmapDone (f : FileId)
  | fsync (f : FileId)
  | uncache (f : FileId)
  | sync
  | syncAt (c : Option FileId) (last : Nat)
  | syncGet (f : FileId) (next : Option FileId) (last : Nat)
  | syncPut (f : FileId) (next : Option FileId) (last : Nat)
  | syncBack (next : Option FileId) (last : Nat)
  | clear
  | clearAt (c : Option FileId) (last : Nat)
  | clearFree (f : FileId) (last : Nat)
  | clearBack (f : FileId) (last : Nat)
  deriving DecidableEq, Repr

namespace Lru

variable (s : Lru)

/-- `vm_info_version`. -/
def version : BitVec 32 := BitVec.ofNat 32 s.changes

/-- `queue_first(&vm_info_queue)`. -/
def first : Option FileId := s.queue.head?

/-- `queue_next(&vmp->lru_links)`. -/
def next (f : FileId) : Option FileId :=
  if f ∈ s.queue then s.queue[s.queue.idxOf f + 1]? else (s.file f).link

def setFile (f : FileId) (x : VmInfo) : Lru := { s with file := Function.update s.file f x }

/-- `vm_info_enqueue`. -/
def enqueue (f : FileId) : Lru :=
  { s.setFile f { s.file f with queued := true } with
    queue := s.queue ++ [f], filesMapped := s.filesMapped + 1, changes := s.changes + 1 }

/-- `vm_info_dequeue`. -/
def dequeue (f : FileId) : Lru :=
  { s.setFile f { s.file f with queued := false, link := s.next f } with
    queue := s.queue.erase f, filesMapped := s.filesMapped - 1, changes := s.changes + 1 }

def takeOff (f : FileId) : Lru := if (s.file f).queued then s.dequeue f else s

/-- `vmp_get` up to the lock of the file. -/
def get (f : FileId) : Lru :=
  (s.takeOff f).setFile f { (s.takeOff f).file f with useCount := (s.file f).useCount + 1 }

/-- `vmp_put` up to that lock. -/
def put (f : FileId) : Lru :=
  let r := s.setFile f { s.file f with useCount := (s.file f).useCount - 1 }
  if (s.file f).useCount - 1 = 0 then r.enqueue f else r

def setMapCount (f : FileId) (n : Int) : Lru := s.setFile f { s.file f with mapCount := n }

def setInfoLock (b : Bool) : Lru := { s with infoLock := b }

/-- The scan of `mfs_sync` goes on, or from the beginning where the version is another one. -/
def resumeSync (next : Option FileId) (last : Nat) : Section :=
  if BitVec.ofNat 32 last = s.version then .syncAt next last else .syncAt s.first s.changes

/-- The same of `mfs_cache_clear`. -/
def resumeClear (f : FileId) (last : Nat) : Section :=
  if BitVec.ofNat 32 last = s.version then .clearAt (s.next f) last else .clearAt s.first s.changes

/-- The sections of a file in use, from its lock on. -/
def body (f : FileId) (ws : List Work) : List Section :=
  ws.map (Section.work f) ++ [.put f, .unlock f, .trim]

/-- What is done between the locks of `mfs_memfree`. -/
def unmap (f : FileId) (flush : Bool) : Lru :=
  s.setFile f { s.file f with
    mapped := (s.file f).mapped && (s.file f).mapCount ≠ 0, dirty := (s.file f).dirty && !flush }

def work (f : FileId) : Work → Lru × List Section
  | .push => (s.setFile f { s.file f with dirty := false }, [])
  | .write => (s.setFile f { s.file f with dirty := true }, [])
  | .reclaim =>
    match s.queue with
    | [] => (s, [])
    | g :: _ => (s.dequeue g, [.memfree g true])

/-- Sections under `vm_info_lock` wait for a scan that holds it. -/
def underLock (x : Lru × List Section) : Option (Lru × List Section) := if s.infoLock then none else some x

/-- `none` is a section that has to wait, or the removal of the head from an empty queue. -/
def exec (filesMax : Nat) : Section → Option (Lru × List Section)
  | .use f ws => s.underLock (s.get f, .lock f :: body f ws)
  | .mapUse f ws => s.underLock (s.get f, [.lock f, .setMapped f ws])
  | .setMapped f ws => some (s.setFile f { s.file f with mapped := true }, body f ws)
  | .lock f => if (s.file f).locked then none else some (s.setFile f { s.file f with locked := true }, [])
  | .unlock f => some (s.setFile f { s.file f with locked := false }, [])
  | .work f .reclaim => s.underLock (s.work f .reclaim)
  | .work f w => some (s.work f w)
  | .put f => s.underLock (s.put f, [])
  | .trim => some (s, if (filesMax : Int) < s.filesMapped then [.trimLoop] else [])
  | .trimLoop =>
    if s.filesMapped ≤ filesMax then s.underLock (s, [])
    else
      match s.queue with
      | [] => none
      | g :: _ => s.underLock (s.dequeue g, [.memfree g true, .trimLoop])
  | .memfree f flush => s.underLock (s.takeOff f, [.lock f, .unmap f flush, .unlock f])
  | .unmap f flush => some (s.unmap f flush, [])
  | .mapInode f ws =>
    some (s.setMapCount f ((s.file f).mapCount + 1),
      if 0 < (s.file f).mapCount ∨ (s.file f).mapped then [] else [.mapUse f ws])
  | .unmapInode f linked flush =>
    if !(s.file f).mapped then some (s, [])
    else if 0 < (s.file f).mapCount - 1 then some (s.setMapCount f ((s.file f).mapCount - 1), [])
    else some (s, [.unmapLinks f linked flush])
  | .unmapLinks f linked flush =>
    if !linked then some (s.setMapCount f ((s.file f).mapCount - 1), [.memfree f false])
    else if flush then some (s, [.use f [.push], .unmapDone f])
    else some (s.setMapCount f ((s.file f).mapCount - 1), [])
  | .unmapDone f => some (s.setMapCount f ((s.file f).mapCount - 1), [])
  | .fsync f => some (s, if (s.file f).mapped then [.use f [.push]] else [])
  | .uncache f => some (s, if (s.file f).mapped ∧ (s.file f).mapCount = 0 then [.memfree f false] else [])
  | .sync => s.underLock (s.setInfoLock true, [.syncAt s.first s.changes])
  | .syncAt none _ => some (s.setInfoLock false, [])
  | .syncAt (some f) last =>
    if (s.file f).dirty then some (s.setInfoLock false, [.syncGet f (s.next f) last])
    else some (s, [s.resumeSync (s.next f) last])
  | .syncGet f next last => s.underLock (s.get f, [.lock f, .work f .push, .syncPut f next last])
  | .syncPut f next last => s.underLock (s.put f, [.unlock f, .trim, .syncBack next (last + 2)])
  | .syncBack next last => s.underLock (s.setInfoLock true, [s.resumeSync next last])
  | .clear => s.underLock (s.setInfoLock true, [.clearAt s.first s.changes])
  | .clearAt none _ => some (s.setInfoLock false, [])
  | .clearAt (some f) last =>
    if (s.file f).mapCount = 0 then some (s.setInfoLock false, [.clearFree f last])
    else some (s, [s.resumeClear f last])
  | .clearFree f last => s.underLock (s.takeOff f, [.lock f, .unmap f true, .unlock f, .clearBack f last])
  | .clearBack f last => s.underLock (s.setInfoLock true, [s.resumeClear f last])

end Lru

/-- What the rest of the kernel calls. -/
inductive Call
  | io (f : FileId) (ws : List Work)
  | mapInode (f : FileId) (ws : List Work)
  | unmapInode (f : FileId) (linked flush : Bool)
  | fsync (f : FileId)
  | uncache (f : FileId)
  | sync
  | cacheClear
  deriving DecidableEq, Repr

def Call.first : Call → Section
  | io f ws => .use f ws
  | mapInode f ws => .mapInode f ws
  | unmapInode f linked flush => .unmapInode f linked flush
  | fsync f => .fsync f
  | uncache f => .uncache f
  | sync => .sync
  | cacheClear => .clear

/-- Each call has a list of the sections it has before it; the call that ran last comes first. -/
structure State where
  lru : Lru
  calls : List (List Section)

/-- A call is made, or one of those made runs its next section. -/
inductive Action
  | call (c : Call)
  | run (i : Nat)
  deriving DecidableEq, Repr

def State.section? (s : State) (i : Nat) : Option Section := s.calls[i]?.bind List.head?

def step (filesMax : Nat) (s : State) : Action → Option State
  | .call c => some { s with calls := s.calls ++ [[c.first]] }
  | .run i =>
    match s.calls[i]? with
    | some (x :: xs) => (s.lru.exec filesMax x).map fun (r, ys) => { lru := r, calls := (ys ++ xs) :: s.calls.eraseIdx i }
    | _ => none

/-- No file is mapped. -/
structure Started (s : State) : Prop where
  file : ∀ f, (s.lru.file f).useCount = 0 ∧ (s.lru.file f).mapped = false ∧ (s.lru.file f).queued = false
  queue : s.lru.queue = []
  filesMapped : s.lru.filesMapped = 0
  infoLock : s.lru.infoLock = false
  calls : s.calls = []

end MachVM.Mfs

namespace MachVM.Mfs

namespace Section

/-- The section gives back a use of the file, or comes before the one that does. -/
def uses (f : FileId) : Section → Bool
  | .put g => g == f
  | .setMapped g _ => g == f
  | .syncPut g _ _ => g == f
  | _ => false

/-- The call has `vm_info_lock`. -/
def scans : Section → Bool
  | .syncAt _ _ => true
  | .clearAt _ _ => true
  | _ => false

end Section

namespace Lru

/-- What the list and the files on it keep to. -/
structure Kept (s : Lru) : Prop where
  nodup : s.queue.Nodup
  queued : ∀ f, f ∈ s.queue ↔ (s.file f).queued = true
  idle : ∀ f, (s.file f).queued = true → (s.file f).useCount = 0 ∧ (s.file f).mapped = true
  filesMapped : s.filesMapped = s.queue.length

/-- A place on the list, as long as no more than `last` changes have been made. -/
def Saved (s : Lru) (c : Option FileId) (last : Nat) : Prop :=
  last ≤ s.changes ∧ (s.changes = last → ∀ g ∈ c, g ∈ s.queue)

/-- What a section may rely on. -/
def Ok (s : Lru) : Section → Prop
  | .put f => (s.file f).mapped = true
  | .syncAt c last => s.changes = last ∧ ∀ g ∈ c, g ∈ s.queue
  | .syncGet f next last => s.Saved next last ∧ next ≠ some f
  | .syncPut f next last => (s.file f).mapped = true ∧ s.Saved next (last + 1)
  | .syncBack next last => s.Saved next last
  | .clearAt c last => s.changes = last ∧ ∀ g ∈ c, g ∈ s.queue
  | .clearFree f last => s.Saved (some f) last
  | .clearBack _ last => last < s.changes
  | _ => True

/-- What a step does to the files in use and to the list, as far as the other calls can tell. -/
structure Moves (s r : Lru) : Prop where
  mapped : ∀ f, (s.file f).useCount ≠ 0 → (s.file f).mapped = true → (r.file f).mapped = true
  list : r.queue = s.queue ∧ r.changes = s.changes ∨ s.infoLock = false ∧ s.changes < r.changes

variable {s r : Lru} {f g : FileId} {x : VmInfo} {c : Option FileId} {last : Nat}

@[simp] theorem setFile_self : (s.setFile f x).file f = x := Function.update_self ..

@[simp] theorem setFile_of_ne (h : g ≠ f) : (s.setFile f x).file g = s.file g := Function.update_of_ne h ..

@[simp] theorem setFile_queue : (s.setFile f x).queue = s.queue := rfl

@[simp] theorem setFile_filesMapped : (s.setFile f x).filesMapped = s.filesMapped := rfl

@[simp] theorem setFile_changes : (s.setFile f x).changes = s.changes := rfl

@[simp] theorem setFile_infoLock : (s.setFile f x).infoLock = s.infoLock := rfl

theorem Kept.setFile (h : Kept s) (hq : x.queued = (s.file f).queued)
    (hi : x.queued = true → x.useCount = 0 ∧ x.mapped = true) : Kept (s.setFile f x) := by
  refine ⟨h.nodup, fun g => ?_, fun g hg => ?_, h.filesMapped⟩
  · rw [setFile_queue, h.queued g]
    by_cases hgf : g = f
    · rw [hgf, setFile_self, hq]
    · rw [setFile_of_ne hgf]
  · by_cases hgf : g = f
    · rw [hgf, setFile_self] at hg ⊢
      exact hi hg
    · rw [setFile_of_ne hgf] at hg ⊢
      exact h.idle g hg

theorem Kept.not_queued (h : Kept s) (hu : (s.file f).useCount ≠ 0) : (s.file f).queued = false := by
  by_contra hq
  exact hu (h.idle f (by simpa using hq)).1

theorem Kept.enqueue (h : Kept s) (hq : (s.file f).queued = false) (hu : (s.file f).useCount = 0)
    (hm : (s.file f).mapped = true) : Kept (s.enqueue f) := by
  have hf : f ∉ s.queue := fun hin => by simp [(h.queued f).mp hin] at hq
  refine ⟨?_, fun g => ?_, fun g hg => ?_, ?_⟩
  · exact List.nodup_append.mpr ⟨h.nodup, List.nodup_singleton f, fun a ha b hb => by
      rw [List.mem_singleton.mp hb]
      exact fun he => hf (he ▸ ha)⟩
  · by_cases hgf : g = f
    · subst hgf
      simp [Lru.enqueue, Lru.setFile]
    · simp [Lru.enqueue, Lru.setFile, hgf, h.queued g]
  · by_cases hgf : g = f
    · subst hgf
      simp [Lru.enqueue, Lru.setFile, hu, hm]
    · have hg' : (s.file g).queued = true := by simpa [Lru.enqueue, Lru.setFile, hgf] using hg
      simpa [Lru.enqueue, Lru.setFile, hgf] using h.idle g hg'
  · simp [Lru.enqueue, h.filesMapped]

theorem Kept.dequeue (h : Kept s) (hq : (s.file f).queued = true) : Kept (s.dequeue f) := by
  have hf : f ∈ s.queue := (h.queued f).mpr hq
  refine ⟨h.nodup.erase f, fun g => ?_, fun g hg => ?_, ?_⟩
  · by_cases hgf : g = f
    · subst hgf
      simp [Lru.dequeue, Lru.setFile, h.nodup.not_mem_erase]
    · simp [Lru.dequeue, Lru.setFile, hgf, List.mem_erase_of_ne hgf, h.queued g]
  · by_cases hgf : g = f
    · subst hgf
      simp [Lru.dequeue, Lru.setFile] at hg
    · have hg' : (s.file g).queued = true := by simpa [Lru.dequeue, Lru.setFile, hgf] using hg
      simpa [Lru.dequeue, Lru.setFile, hgf] using h.idle g hg'
  · have hpos : 0 < s.queue.length := List.length_pos_of_mem hf
    simp only [Lru.dequeue, h.filesMapped, List.length_erase_of_mem hf]
    omega

theorem dequeue_useCount (f g : FileId) : ((s.dequeue f).file g).useCount = (s.file g).useCount := by
  by_cases hgf : g = f
  · subst hgf
    simp [dequeue, setFile]
  · simp [dequeue, setFile, hgf]

theorem dequeue_mapped (f g : FileId) : ((s.dequeue f).file g).mapped = (s.file g).mapped := by
  by_cases hgf : g = f
  · subst hgf
    simp [dequeue, setFile]
  · simp [dequeue, setFile, hgf]

theorem takeOff_useCount (f g : FileId) : ((s.takeOff f).file g).useCount = (s.file g).useCount := by
  unfold takeOff
  split
  next => exact dequeue_useCount f g
  next => rfl

theorem takeOff_mapped (f g : FileId) : ((s.takeOff f).file g).mapped = (s.file g).mapped := by
  unfold takeOff
  split
  next => exact dequeue_mapped f g
  next => rfl

theorem takeOff_not_queued (f : FileId) : ((s.takeOff f).file f).queued = false := by
  unfold takeOff
  split
  next => simp [dequeue, setFile]
  next h => simpa using h

theorem takeOff_infoLock (f : FileId) : (s.takeOff f).infoLock = s.infoLock := by
  unfold takeOff
  split
  next => rfl
  next => rfl

theorem takeOff_list (hi : s.infoLock = false) : (s.takeOff f).queue = s.queue ∧ (s.takeOff f).changes = s.changes ∨
    s.infoLock = false ∧ s.changes < (s.takeOff f).changes := by
  unfold takeOff
  split
  next => exact .inr ⟨hi, Nat.lt_succ_self _⟩
  next => exact .inl ⟨rfl, rfl⟩

theorem Kept.takeOff (h : Kept s) (f : FileId) : Kept (s.takeOff f) := by
  unfold Lru.takeOff
  split
  next hq => exact h.dequeue hq
  next => exact h

theorem get_file_of_ne (h : g ≠ f) : (s.get f).file g = (s.takeOff f).file g := setFile_of_ne h

theorem get_useCount (f g : FileId) :
    ((s.get f).file g).useCount = (s.file g).useCount + if g = f then 1 else 0 := by
  split
  next hgf => rw [hgf, get, setFile_self]
  next hgf => rw [get_file_of_ne hgf, takeOff_useCount, Int.add_zero]

theorem get_mapped (f g : FileId) : ((s.get f).file g).mapped = (s.file g).mapped := by
  by_cases hgf : g = f
  · rw [hgf, get, setFile_self]
    exact takeOff_mapped f f
  · rw [get_file_of_ne hgf, takeOff_mapped]

theorem Kept.get (h : Kept s) (f : FileId) : Kept (s.get f) :=
  (h.takeOff f).setFile rfl fun hq => by simp [takeOff_not_queued] at hq

theorem Kept.put (h : Kept s) (hu : (s.file f).useCount ≠ 0) (hm : (s.file f).mapped = true) : Kept (s.put f) := by
  have hq := h.not_queued hu
  have hk : Kept (s.setFile f { s.file f with useCount := (s.file f).useCount - 1 }) :=
    h.setFile rfl fun hq' => by rw [hq] at hq'; simp at hq'
  unfold Lru.put
  dsimp only
  split
  next h0 => exact hk.enqueue (by rw [setFile_self]; exact hq) (by rw [setFile_self]; exact h0) (by rw [setFile_self]; exact hm)
  next => exact hk

theorem put_useCount (f g : FileId) :
    ((s.put f).file g).useCount + (if f = g then 1 else 0) = (s.file g).useCount := by
  unfold put
  dsimp only
  by_cases hgf : g = f
  · subst hgf
    split
    next => simp [enqueue, setFile]
    next => simp
  · split
    next => simp [enqueue, setFile, hgf, Ne.symm hgf]
    next => simp [hgf, Ne.symm hgf]

theorem put_mapped (f g : FileId) : ((s.put f).file g).mapped = (s.file g).mapped := by
  unfold put
  dsimp only
  by_cases hgf : g = f
  · subst hgf
    split
    next => simp [enqueue, setFile]
    next => simp
  · split
    next => simp [enqueue, setFile, hgf]
    next => simp [hgf]

theorem put_list (hi : s.infoLock = false) : (s.put f).queue = s.queue ∧ (s.put f).changes = s.changes ∨
    s.infoLock = false ∧ s.changes < (s.put f).changes := by
  unfold put
  dsimp only
  split
  next => exact .inr ⟨hi, Nat.lt_succ_self _⟩
  next => exact .inl ⟨rfl, rfl⟩

theorem put_infoLock (f : FileId) : (s.put f).infoLock = s.infoLock := by
  unfold put
  dsimp only
  split
  next => rfl
  next => rfl

theorem next_mem (hf : f ∈ s.queue) : ∀ g ∈ s.next f, g ∈ s.queue := by
  intro g hg
  rw [next, if_pos hf] at hg
  exact List.mem_of_getElem? hg

theorem first_mem : ∀ g ∈ s.first, g ∈ s.queue := fun _ hg => List.mem_of_head? hg

theorem next_ne (hn : s.queue.Nodup) (hf : f ∈ s.queue) : s.next f ≠ some f := by
  rw [next, if_pos hf]
  intro hs
  obtain ⟨hi, he⟩ := List.getElem?_eq_some_iff.mp hs
  have := hn.idxOf_getElem (s.queue.idxOf f + 1) hi
  rw [he] at this
  omega

end Lru

end MachVM.Mfs
