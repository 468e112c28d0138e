import Mathlib.Data.List.Range
import Mathlib.Logic.Function.Basic
import Mathlib.Algebra.Group.Nat.Defs

namespace MachVM.Mfs

/-- A file as its users see it: what is beyond its end reads as zero once the file is extended. -/
@[ext] structure File where
  size : Nat
  byte : Nat → UInt8
  beyond : ∀ i, size ≤ i → byte i = 0

namespace File

variable (f : File)

def read (off len : Nat) : List UInt8 := (List.range (min len (f.size - off))).map fun k => f.byte (off + k)

/-- A gap before the bytes written is filled with zeros. -/
def write (off : Nat) (bs : List UInt8) : File where
  size := max f.size (off + bs.length)
  byte i := if off ≤ i ∧ i < off + bs.length then bs.getD (i - off) 0 else f.byte i
  beyond i hi := by
    rw [if_neg (by omega)]
    exact f.beyond i (by omega)

def trunc (length : Nat) : File where
  size := min f.size length
  byte i := if i < length then f.byte i else 0
  beyond i hi := by
    split
    next h => exact f.beyond i (by omega)
    next => rfl

end File

/-- `PAGE_SIZE`. -/
def pageBytes : Nat := 4096

/-- `CHUNK_SIZE`. -/
def chunkSize : Nat := 64 * 1024

def truncPage (x : Nat) : Nat := x / pageBytes * pageBytes

def roundPage (x : Nat) : Nat := (x + (pageBytes - 1)) / pageBytes * pageBytes

/-- A resident page of the object. Its bytes are named by their offsets in the file. -/
structure Resident where
  data : Nat → UInt8
  modified : Bool

/-- The `vm_info` of one file with the pages of its object. `store` is what the pager returns, and `vnodeSize` the size
that the file has there. -/
structure MappedFile where
  mapCount : Nat
  mapped : Bool
  inodeSize : Nat
  offset : Nat
  size : Nat
  dirty : Bool
  page : Nat → Option Resident
  store : Nat → UInt8
  vnodeSize : Nat

/-- Some byte of the range is in the page. -/
def touches (p off n : Nat) : Bool :=
  decide (0 < n) && decide (off < (p + 1) * pageBytes) && decide (p * pageBytes < off + n)

namespace MappedFile

variable (s : MappedFile)

/-- What a reference to the object at an offset comes to. -/
def content (i : Nat) : UInt8 :=
  match s.page (i / pageBytes) with
  | some r => r.data i
  | none => s.store i

def pagein (p : Nat) : Resident := (s.page p).getD ⟨s.store, false⟩

/-- A modified page is written to the pager. -/
def pageout (p : Nat) : MappedFile :=
  match s.page p with
  | none => s
  | some r =>
    if r.modified then
      { s with
        page := Function.update s.page p (some { r with modified := false })
        store := fun i => if i / pageBytes = p then r.data i else s.store i
        vnodeSize := max s.vnodeSize (min s.inodeSize ((p + 1) * pageBytes)) }
    else s

/-- The pageout daemon takes a page. -/
def evict (p : Nat) : MappedFile := { s.pageout p with page := Function.update (s.pageout p).page p none }

/-- `vmp_push`. -/
def push : MappedFile :=
  if s.dirty then
    let start := truncPage s.offset
    let last := roundPage (s.size + s.offset)
    (List.range' (start / pageBytes) ((last - start) / pageBytes)).foldl pageout { s with dirty := false }
  else s

/-- `ino_flush`: the pages of a range are thrown away. -/
def inoFlush (start size : Nat) : MappedFile :=
  { s with
    page := fun p =>
      if truncPage start ≤ p * pageBytes ∧ p * pageBytes < roundPage (size + start) then none else s.page p }

/-- `remap_inode`. -/
def remap (start size : Nat) : MappedFile :=
  { (if 0 < s.size then s.push else s) with
    offset := truncPage start
    size := max (roundPage (start + size) - truncPage start) chunkSize }

def inWindow (off n : Nat) : Bool := n == 0 || (decide (s.offset ≤ off) && decide (off + n ≤ s.offset + s.size))

/-- `uiomove` out of the window. `none` is a reference to an address that is not mapped. -/
def moveOut (off n : Nat) : Option (MappedFile × List UInt8) :=
  if s.inWindow off n then
    some ({ s with page := fun p => if touches p off n then some (s.pagein p) else s.page p },
      (List.range n).map fun k => s.content (off + k))
  else none

/-- `uiomove` or `bzero` into the window. -/
def moveIn (off : Nat) (bs : List UInt8) : Option MappedFile :=
  if s.inWindow off bs.length then
    some { s with
      page := fun p =>
        if touches p off bs.length then
          some { data := fun i =>
                  if off ≤ i ∧ i < off + bs.length then bs.getD (i - off) 0 else (s.pagein p).data i
                 modified := true }
        else s.page p }
  else none

/-- The window is moved if the bytes are not all in it. -/
def ready (off n : Nat) : MappedFile := if off < s.offset ∨ s.offset + s.size < off + n then s.remap off n else s

/-- `mfs_get`, from the lock of the file on. -/
def get (maxWindow start size : Nat) : MappedFile :=
  if s.size < min size maxWindow then s.remap start (min size maxWindow) else s

/-- The loop of `mfs_io` for a read; `none` is also more turns than `fuel`. -/
def readLoop (bsize vsize : Nat) : Nat → MappedFile → Nat → Nat → Option (MappedFile × List UInt8)
  | 0, _, _, _ => none
  | fuel + 1, s, off, resid =>
    if vsize ≤ off then some (s, [])
    else
      let n := min (min bsize resid) (vsize - off)
      ((s.ready off n).moveOut off n).bind fun (r, bs) =>
        if 0 < resid - n ∧ n ≠ 0 then
          (readLoop bsize vsize fuel r (off + n) (resid - n)).map fun (q, cs) => (q, bs ++ cs)
        else some (r, bs)

/-- The same for a write to a regular file. -/
def writeLoop (bsize : Nat) : Nat → MappedFile → Nat → List UInt8 → Option MappedFile
  | 0, _, _, _ => none
  | fuel + 1, s, off, bs =>
    let n := min bsize bs.length
    let s := { s with inodeSize := if s.inodeSize < off + n then off + n else s.inodeSize }
    ((s.ready off n).moveIn off (bs.take n)).bind fun r =>
      let r := { r with dirty := true }
      if 0 < bs.length - n ∧ n ≠ 0 then writeLoop bsize fuel r (off + n) (bs.drop n) else some r

def mfsRead (bsize maxWindow off len : Nat) : Option (MappedFile × List UInt8) :=
  let r := s.get maxWindow off len
  readLoop bsize r.inodeSize (len + 1) r off len

/-- With `IO_APPEND` the offset is set after `mfs_get`. -/
def mfsWrite (bsize maxWindow off : Nat) (bs : List UInt8) (append sync : Bool) : Option MappedFile :=
  let r := s.get maxWindow off bs.length
  (writeLoop bsize (bs.length + 1) r (if append then r.inodeSize else off) bs).map fun q =>
    if sync then q.push else q

/-- What `mfs_trunc` does to the window and the pages past the new end page. -/
def truncWindow (length : Nat) : MappedFile :=
  let size := roundPage length
  let rsize := (size + 2 ^ 32 - s.offset) % 2 ^ 32
  if 0 < s.size ∧ rsize < s.size then { s.inoFlush size (s.size - rsize) with size := rsize } else s

/-- What it does to the rest of the last page. -/
def truncTail (length : Nat) : Option MappedFile :=
  if 0 < s.size ∧ length ≠ roundPage length then
    let n := roundPage length - length
    ((s.ready length n).moveIn length (List.replicate n 0)).map fun r => { r with dirty := true }
  else some s

def mfsTrunc (length : Nat) : Option MappedFile :=
  if s.inodeSize < length then some s
  else if !s.mapped then some { s with inodeSize := length }
  else ((s.truncWindow length).truncTail length).map fun r => { r with inodeSize := length }

/-- The rest of `itrunc`: the pager has no bytes from the new end on. -/
def cut (length : Nat) : MappedFile :=
  if s.vnodeSize ≤ length then s
  else { s with store := fun i => if i < length then s.store i else 0, vnodeSize := length }

/-- `mfs_memfree`. -/
def memfree (flush : Bool) : MappedFile :=
  { (if flush then s.push else s) with size := 0, mapped := s.mapped && s.mapCount != 0 }

/-- `mfs_uncache`. -/
def uncache : MappedFile := if s.mapped && s.mapCount == 0 then s.memfree false else s

/-- `map_inode`. -/
def mapInode (maxWindow : Nat) : MappedFile :=
  if 0 < s.mapCount ∨ s.mapped then { s with mapCount := s.mapCount + 1 }
  else
    let r := { s with
      mapCount := s.mapCount + 1, mapped := true, inodeSize := s.vnodeSize, offset := 0, size := 0 }
    if 0 < r.inodeSize ∧ r.inodeSize < maxWindow then r.remap 0 r.inodeSize else r

/-- `unmap_inode`. -/
def unmapInode (linked flush : Bool) : MappedFile :=
  if !s.mapped then s
  else if 0 < s.mapCount - 1 then { s with mapCount := s.mapCount - 1 }
  else if !linked then memfree { s with mapCount := s.mapCount - 1 } false
  else { (if flush then s.push else s) with mapCount := s.mapCount - 1 }

end MappedFile

/-- What is done with the file. `get` is a use of it that only moves the window, and `trim` is `mfs_memfree` of
`mfs_cache_trim` or of a call that needs its space. -/
inductive FileCall
  | mapInode
  | unmapInode (linked flush : Bool)
  | read (off len : Nat)
  | write (off : Nat) (bs : List UInt8) (append sync : Bool)
  | trunc (length : Nat)
  | get (start size : Nat)
  | trim
  | uncache
  | evict (p : Nat)
  deriving DecidableEq, Repr

section

variable (bsize maxWindow : Nat)

def FileCall.exec (s : MappedFile) : FileCall → Option MappedFile
  | mapInode => some (s.mapInode maxWindow)
  | unmapInode linked flush => some (s.unmapInode linked flush)
  | read off len => (s.mfsRead bsize maxWindow off len).map Prod.fst
  | write off bs append sync => s.mfsWrite bsize maxWindow off bs append sync
  | trunc length => (s.mfsTrunc length).map fun r => r.cut length
  | get start size => some (s.get maxWindow start size)
  | trim => some (s.memfree true)
  | uncache => some s.uncache
  | evict p => some (s.evict p)

/-- What the call makes of the file. -/
def FileCall.spec (f : File) : FileCall → File
  | write off bs append _ => f.write (if append then f.size else off) bs
  | trunc length => f.trunc length
  | _ => f

def fileStep (x : MappedFile × File) (c : FileCall) : Option (MappedFile × File) :=
  (c.exec bsize maxWindow x.1).map fun r => (r, c.spec x.2)

end

/-- The pager has the file, and nothing of it is in memory. -/
structure Unmapped (s : MappedFile) (f : File) : Prop where
  mapped : s.mapped = false ∧ s.mapCount = 0
  size : s.vnodeSize = f.size ∧ f.size ≤ 2 ^ 31
  page : ∀ p, s.page p = none
  store : ∀ i, s.store i = f.byte i

/-- The file has just been opened. -/
def Opened (maxWindow : Nat) (x : MappedFile × File) : Prop := ∃ s, Unmapped s x.2 ∧ x.1 = s.mapInode maxWindow

end MachVM.Mfs
