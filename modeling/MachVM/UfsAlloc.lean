import Mathlib.Algebra.Ring.Int.Defs
import MachVM.UfsMap

namespace MachVM.Ufs

/-- `NRPOS`. -/
def nrpos : Nat := 8

/-- The counts of `struct csum` for blocks and fragments. -/
structure Csum where
  nbfree : Int
  nffree : Int

def Csum.add (a b : Csum) : Csum where
  nbfree := a.nbfree + b.nbfree
  nffree := a.nffree + b.nffree

/-- What does not change in the superblock, with `MAXBPC` for its room after `fs_rotbl`. -/
structure Fs where
  size : Nat
  ncg : Nat
  fsize : Nat
  frag : Nat
  spc : Nat
  nsect : Nat
  nspf : Nat
  fpg : Nat
  cpc : Nat
  maxbpc : Nat
  postbl : Nat → Nat → Int
  rotbl : Nat → Nat
  frag_ok : FragOk frag
  ncg_pos : 0 < ncg
  fsize_pos : 0 < fsize
  fpg_pos : 0 < fpg
  frag_dvd : frag ∣ fpg
  size_le : size ≤ ncg * fpg
  nsect_pos : 0 < nsect

/-- `struct cg`. -/
structure Cg where
  cs : Csum
  rotor : Nat
  frotor : Nat
  frsum : Nat → Int
  btot : Nat → Int
  b : Nat → Nat → Int
  free : BitMap

/-- The summaries in the superblock and the cylinder groups. `reads` tells how the reads of the disk come out, and
`nreads` how many there have been. -/
structure State where
  cstotal : Csum
  cs : Nat → Csum
  cg : Nat → Cg
  reads : Nat → Bool
  nreads : Nat

inductive Panic
  | mapCorrupted
  | blockNotInMap
  | cylGroupsCorrupted
  | cantFindBlk
  | freeBadSize
  | freeingFreeBlock
  | freeingFreeFrag

namespace Fs

variable (fs : Fs)

def bsize : Nat := fs.frag * fs.fsize

def numfrags (size : Nat) : Nat := size / fs.fsize

def fragoff (size : Nat) : Nat := size % fs.fsize

def fragnum (d : Nat) : Nat := d % fs.frag

def blknum (d : Nat) : Nat := d - d % fs.frag

def dtog (d : Nat) : Nat := d / fs.fpg

def dtogd (d : Nat) : Nat := d % fs.fpg

def nspb : Nat := fs.nspf * fs.frag

def cbtocylno (bno : Nat) : Nat := bno * fs.nspf / fs.spc

def cbtorpos (bno : Nat) : Nat := bno * fs.nspf % fs.spc % fs.nsect * nrpos / fs.nsect

end Fs

namespace State

variable (s : State) (g : Nat)

def setCg (c : Cg) : State := { s with cg := Function.update s.cg g c }

/-- The same change of the summary of a group, of its copy in `fs_cs` and of `fs_cstotal`. -/
def account (d : Csum) : State :=
  { s with
    cstotal := s.cstotal.add d
    cs := Function.update s.cs g ((s.cs g).add d)
    cg := Function.update s.cg g { s.cg g with cs := (s.cg g).cs.add d } }

/-- `bread`, with the check of `cg_magic` where it reads a group. -/
def bread : Bool × State := (s.reads s.nreads, { s with nreads := s.nreads + 1 })

end State

section Search

variable (fs : Fs) (c : Cg)

/-- The byte of `cg_free` that `mapsearch` finds. -/
def mapsearchByte (bpref allocsiz : Nat) : Option Nat :=
  let start := (if bpref ≠ 0 then fs.dtogd bpref else c.frotor) / nbby
  let len := howmany fs.fpg nbby - start
  let loc := scanc (hasFrag fs.frag allocsiz) c.free start len
  if loc ≠ 0 then some (start + len - loc)
  else
    let len := start + 1
    let loc := scanc (hasFrag fs.frag allocsiz) c.free 0 len
    if loc ≠ 0 then some (len - loc) else none

/-- The fragment that is selected among those of a byte. -/
def sift (bno allocsiz : Nat) : Option Nat :=
  (List.range (nbby / fs.frag)).findSome? fun q =>
    let blk := blkmap fs.frag c.free (bno + q * fs.frag)
    (List.range (fs.frag + 1 - allocsiz)).findSome? fun pos =>
      if runAt blk.toNat allocsiz pos then some (bno + q * fs.frag + pos) else none

def mapsearch (bpref allocsiz : Nat) : Except Panic (Cg × Nat) :=
  match mapsearchByte fs c bpref allocsiz with
  | none => .error .mapCorrupted
  | some k =>
    match sift fs c (k * nbby) allocsiz with
    | none => .error .blockNotInMap
    | some bno => .ok ({ c with frotor := k * nbby }, bno)

/-- The rotational position at which there is a block in a cylinder, from `pos` on and around. -/
def rotational (cylbp : Nat → Int) (pos : Nat) : Option Nat :=
  (List.range' pos (nrpos - pos) ++ List.range pos).find? fun i => 0 < cylbp i

/-- The blocks of a list of the rotational layout, with `n` steps at most. -/
def layout (i : Nat) : Nat → List Nat
  | 0 => []
  | n + 1 =>
    let delta := fs.rotbl i
    i :: if delta = 0 ∨ fs.maxbpc < i + delta then [] else layout (i + delta) n

end Search

/-- `cg_b` and `cg_btot` for the free block at `bno`, with `cnt` more of it. -/
def countBlock (fs : Fs) (c : Cg) (bno : Nat) (cnt : Int) : Cg :=
  let i := fs.cbtocylno bno
  let rpos := fs.cbtorpos bno
  { c with
    b := Function.update c.b i (Function.update (c.b i) rpos (c.b i rpos + cnt))
    btot := Function.update c.btot i (c.btot i + cnt) }

section Block

variable (fs : Fs) (s : State) (g : Nat)

/-- `gotit` of `alloccgblk`. -/
def gotit (bno : Nat) : State × Nat :=
  let c := { s.cg g with free := clrblock fs.frag (s.cg g).free (bno / fs.frag) }
  ((s.setCg g (countBlock fs c bno (-1))).account g { nbfree := -1, nffree := 0 },
    g * fs.fpg + bno)

/-- `norot` of `alloccgblk`. -/
def norot (bpref : Nat) : Except Panic (State × Nat) :=
  (mapsearch fs (s.cg g) bpref fs.frag).map fun r => gotit fs (s.setCg g { r.1 with rotor := r.2 }) g r.2

/-- `alloccgblk`. The machines without block layout go the way of `fs_cpc` = 0. -/
def alloccgblk (bpref : Nat) : Except Panic (State × Nat) :=
  let c := s.cg g
  if bpref = 0 then norot fs s g c.rotor
  else
    let bpref := fs.dtogd (fs.blknum bpref)
    if isblock fs.frag c.free (bpref / fs.frag) then .ok (gotit fs s g bpref)
    else
      let cylno := fs.cbtocylno bpref
      if c.btot cylno = 0 then norot fs s g bpref
      else if fs.cpc = 0 then norot fs s g (howmany (fs.spc * cylno) fs.nspf)
      else
        match rotational (c.b cylno) (fs.cbtorpos bpref) with
        | none => norot fs s g bpref
        | some i =>
          let pos := cylno % fs.cpc
          let bno := (cylno - pos) * fs.spc / fs.nspb
          if fs.postbl pos i = -1 then .error .cylGroupsCorrupted
          else
            match (layout fs (fs.postbl pos i).toNat (fs.maxbpc + 1)).find? fun i =>
              isblock fs.frag c.free (bno + i) with
            | none => .error .cantFindBlk
            | some i => .ok (gotit fs s g ((bno + i) * fs.frag))

end Block

section Operations

variable (fs : Fs) (s : State) (g : Nat)

/-- A whole block is taken, and its end is given back. -/
def hackBlock (bpref frags : Nat) : Except Panic (State × Nat) :=
  (alloccgblk fs s g bpref).map fun r =>
    let c := r.1.cg g
    let i := fs.frag - frags
    let c := { c with
      free := c.free.setbits (fs.dtogd r.2 + frags) i
      frsum := Function.update c.frsum i (c.frsum i + 1) }
    ((r.1.setCg g c).account g { nbfree := 0, nffree := i }, r.2)

/-- A run of `siz` free fragments loses the first `n`. -/
def frsumTake (frsum : Nat → Int) (siz n : Nat) : Nat → Int :=
  let frsum := Function.update frsum siz (frsum siz - 1)
  if n ≠ siz then Function.update frsum (siz - n) (frsum (siz - n) + 1) else frsum

/-- Part of a run of free fragments is taken. -/
def takeFrags (bpref allocsiz frags : Nat) : Except Panic (State × Nat) :=
  (mapsearch fs (s.cg g) bpref allocsiz).map fun r =>
    let c := { r.1 with
      free := r.1.free.clrbits r.2 frags
      frsum := frsumTake r.1.frsum allocsiz frags }
    ((s.setCg g c).account g { nbfree := 0, nffree := -frags }, g * fs.fpg + r.2)

def alloccg (bpref size : Nat) : Except Panic (State × Nat) :=
  if (s.cs g).nbfree = 0 ∧ size = fs.bsize then .ok (s, 0)
  else
    let (readable, s) := s.bread
    if readable = false ∨ (s.cg g).cs.nbfree = 0 ∧ size = fs.bsize then .ok (s, 0)
    else if size = fs.bsize then alloccgblk fs s g bpref
    else
      let frags := fs.numfrags size
      match (List.range' frags (fs.frag - frags)).find? fun k => (s.cg g).frsum k ≠ 0 with
      | some allocsiz => takeFrags fs s g bpref allocsiz frags
      | none => if (s.cg g).cs.nbfree = 0 then .ok (s, 0) else hackBlock fs s g bpref frags

def fragextend (bprev osize nsize : Nat) : State × Nat :=
  if (s.cs g).nffree < fs.numfrags (nsize - osize) then (s, 0)
  else
    let frags := fs.numfrags nsize
    let bbase := fs.fragnum bprev
    if fs.fragnum (bprev + frags - 1) < bbase then (s, 0)
    else
      let (readable, s) := s.bread
      if readable = false then (s, 0)
      else
        let c := s.cg g
        let bno := fs.dtogd bprev
        let old := fs.numfrags osize
        if (List.range' old (frags - old)).any fun i => !c.free.isset (bno + i) then (s, 0)
        else
          -- The end of the run that the fragment is extended into.
          let i := ((List.range' frags (fs.frag - bbase - frags)).find? fun i => !c.free.isset (bno + i)).getD
            (max frags (fs.frag - bbase))
          let c := { c with
            free := c.free.clrbits (bno + old) (frags - old)
            frsum := frsumTake c.frsum (i - old) (frags - old) }
          ((s.setCg g c).account g { nbfree := 0, nffree := -(frags - old : Nat) }, bprev)

/-- The block at `bno` is free as a whole. -/
def wholeBlock (bno : Nat) : State :=
  (s.setCg g (countBlock fs (s.cg g) bno 1)).account g { nbfree := 1, nffree := 0 }

/-- `fragacct` for all places of `cg_frsum`. -/
def accountFrags (frag : Nat) (blk : Byte) (cnt : Int) (frsum : Nat → Int) (siz : Nat) : Int :=
  frsum siz + fragacct frag blk siz * cnt

/-- A fragment is put back in the map, and the block reassembled where it is complete. -/
def freeFrags (bno frags : Nat) : Except Panic State :=
  let c := s.cg g
  let bbase := bno - fs.fragnum bno
  let frsum := accountFrags fs.frag (blkmap fs.frag c.free bbase) (-1) c.frsum
  if (List.range frags).any fun i => c.free.isset (bno + i) then .error .freeingFreeFrag
  else
    let free := c.free.setbits bno frags
    let c := { c with free, frsum := accountFrags fs.frag (blkmap fs.frag free bbase) 1 frsum }
    let s := (s.setCg g c).account g { nbfree := 0, nffree := frags }
    if isblock fs.frag free (bbase / fs.frag) then
      .ok (wholeBlock fs (s.account g { nbfree := 0, nffree := -fs.frag }) g bbase)
    else .ok s

def free (bno size : Nat) : Except Panic State :=
  if fs.bsize < size ∨ fs.fragoff size ≠ 0 then .error .freeBadSize
  else
    let g := fs.dtog bno
    -- `badblock`.
    if fs.size ≤ bno then .ok s
    else
      let (readable, s) := s.bread
      if readable = false then .ok s
      else
        let bno := fs.dtogd bno
        if size = fs.bsize then
          if isblock fs.frag (s.cg g).free (bno / fs.frag) then .error .freeingFreeBlock
          else
            let c := { s.cg g with free := setblock fs.frag (s.cg g).free (bno / fs.frag) }
            .ok (wholeBlock fs (s.setCg g c) g bno)
        else freeFrags fs s g bno (fs.numfrags size)

end Operations

section Overflow

/-- The groups of the quadratic rehash, in `n` rounds at most. -/
def rehash (ncg : Nat) : Nat → Nat → Nat → List Nat
  | 0, _, _ => []
  | n + 1, i, cg =>
    if ncg ≤ i then []
    else
      let cg := if ncg ≤ cg + i then cg + i - ncg else cg + i
      cg :: rehash ncg n (i * 2) cg

/-- The groups of the brute force search. -/
def bruteForce (ncg : Nat) : Nat → Nat → List Nat
  | 0, _ => []
  | n + 1, cg => cg :: bruteForce ncg n (if cg + 1 = ncg then 0 else cg + 1)

/-- The groups that `hashalloc` goes on to from the preferred one. -/
def overflow (ncg icg : Nat) : List Nat := rehash ncg ncg 1 icg ++ bruteForce ncg (ncg - 2) ((icg + 2) % ncg)

/-- The first result that is not 0. -/
def tryEach {σ ε : Type} (allocator : σ → Nat → Nat → Except ε (σ × Nat)) : σ → List Nat → Except ε (σ × Nat)
  | s, [] => .ok (s, 0)
  | s, g :: gs =>
    match allocator s g 0 with
    | .error e => .error e
    | .ok (s, r) => if r ≠ 0 then .ok (s, r) else tryEach allocator s gs

def hashalloc {σ ε : Type} (ncg : Nat) (allocator : σ → Nat → Nat → Except ε (σ × Nat)) (s : σ) (cg pref : Nat) :
    Except ε (σ × Nat) :=
  match allocator s cg pref with
  | .error e => .error e
  | .ok (s, r) => if r ≠ 0 then .ok (s, r) else tryEach allocator s (overflow ncg cg)

end Overflow

end MachVM.Ufs
