import Mathlib.Data.List.Chain
import Mathlib.Data.List.Flatten
import Mathlib.Logic.Function.Basic

namespace MachVM.Tty

abbrev Byte := BitVec 8

abbrev ListId := Nat

/-- `CBLOCK`, which the masks of the source take to be a power of 2. -/
def cblock : Nat := 64

/-- `CBSIZE`: what the link leaves of a block. -/
def cbsize : Nat := cblock - 4

/-- `a & CROUND`. -/
def low (a : Nat) : Nat := a % cblock

/-- `a & ~CROUND`. -/
def base (a : Nat) : Nat := a - a % cblock

/-- `bp->c_info`. -/
def info (bp : Nat) : Nat := bp + 4

/-- `struct clist`: the count, the first character and the place behind the last one. -/
structure Clist where
  cc : Int
  cf : Nat
  cl : Nat
  deriving DecidableEq, Repr

def Clist.null : Clist := ⟨0, 0, 0⟩

/-- The character lists with the memory of their blocks: `next` is the word `c_next` of a block, `byte` the
characters. Addresses are numbers, and `NULL` is 0. -/
structure Clists where
  next : Nat → Nat
  byte : Nat → Byte
  cfreelist : Nat
  cfreecount : Int
  cwaiting : Bool
  q : ListId → Clist

namespace Clists

variable (s : Clists)

def setList (p : ListId) (l : Clist) : Clists := { s with q := Function.update s.q p l }

def setNext (bp a : Nat) : Clists := { s with next := Function.update s.next bp a }

/-- `bcopy` to the address. -/
def store (a : Nat) (ws : List Byte) : Clists :=
  { s with byte := fun x => if a ≤ x then ws.getD (x - a) (s.byte x) else s.byte x }

/-- `bcopy` from the address. -/
def load (a : Nat) (n : Nat) : List Byte := (List.range n).map fun i => s.byte (a + i)

/-- A block goes to the head of the free list. -/
def putBlock (bp : Nat) : Clists :=
  { s.setNext bp s.cfreelist with cfreelist := bp, cfreecount := s.cfreecount + cbsize }

/-- The same with `wakeup(&cwaiting)`. -/
def freeBlock (bp : Nat) : Clists := { s.putBlock bp with cwaiting := false }

/-- The head of the free list, when there is one, with its link cleared. -/
def takeBlock : Clists :=
  { s.setNext s.cfreelist 0 with cfreelist := s.next s.cfreelist, cfreecount := s.cfreecount - cbsize }

def getc (p : ListId) : Int × Clists :=
  let l := s.q p
  if l.cc ≤ 0 then (-1, s.setList p .null)
  else
    let c : Int := (s.byte l.cf).toNat
    let cf := l.cf + 1
    if l.cc - 1 ≤ 0 then (c, (s.setList p ⟨l.cc - 1, 0, 0⟩).freeBlock (base (cf - 1)))
    else if low cf = 0 then
      let bp := cf - cblock
      (c, (s.setList p ⟨l.cc - 1, info (s.next bp), l.cl⟩).freeBlock bp)
    else (c, s.setList p ⟨l.cc - 1, cf, l.cl⟩)

/-- The loop of `q_to_b` with `cc` characters to go and `acc` moved; `none` is that the count of steps is out. -/
def qToBLoop (p : ListId) : Nat → Nat → List Byte → Clists → Option (List Byte × Clists)
  | _, 0, acc, s => some (acc, s)
  | 0, _ + 1, _, _ => none
  | n + 1, cc + 1, acc, s =>
    let l := s.q p
    let nc := min (min (cblock - low l.cf) (cc + 1)) l.cc.toNat
    let acc := acc ++ s.load l.cf nc
    let cf := l.cf + nc
    if l.cc - nc ≤ 0 then some (acc, (s.setList p ⟨l.cc - nc, 0, 0⟩).freeBlock (base (cf - 1)))
    else if low cf = 0 then
      let bp := cf - cblock
      qToBLoop p n (cc + 1 - nc) acc ((s.setList p ⟨l.cc - nc, info (s.next bp), l.cl⟩).freeBlock bp)
    else qToBLoop p n (cc + 1 - nc) acc (s.setList p ⟨l.cc - nc, cf, l.cl⟩)

def qToB (p : ListId) (cc : Int) : Option (List Byte × Clists) :=
  if cc ≤ 0 then some ([], s)
  else if (s.q p).cc ≤ 0 then some ([], s.setList p .null)
  else qToBLoop p cc.toNat cc.toNat [] s

def ndflushLoop (p : ListId) : Nat → Int → Clists → Option Clists
  | n, cc, s =>
    let l := s.q p
    if 0 < cc ∧ l.cc ≠ 0 then
      match n with
      | 0 => none
      | n + 1 =>
        let bp := base l.cf
        let stop := if bp = base (l.cl - 1) then l.cl else bp + cblock
        let rem : Int := (stop : Int) - l.cf
        if rem ≤ cc then
          ndflushLoop p n (cc - rem) ((s.setList p ⟨l.cc - rem, info (s.next bp), l.cl⟩).freeBlock bp)
        else
          let r := s.setList p ⟨l.cc - cc, l.cf + cc.toNat, l.cl⟩
          some (if l.cc - cc ≤ 0 then r.freeBlock bp else r)
    else some s

def ndflush (p : ListId) (cc : Int) : Option Clists :=
  if (s.q p).cc ≤ 0 then some s
  else (ndflushLoop p cc.toNat cc s).map fun r => if (r.q p).cc ≤ 0 then r.setList p .null else r

/-- The characters are put at `cp`, which becomes `c_cl`. -/
def putcAt (c : BitVec 32) (p : ListId) (cp : Nat) : Int × Clists :=
  let l := s.q p
  (0, (s.store cp [c.setWidth 8]).setList p ⟨l.cc + 1, l.cf, cp + 1⟩)

def putc (c : BitVec 32) (p : ListId) : Int × Clists :=
  let l := s.q p
  if l.cl = 0 ∨ l.cc < 0 then
    let bp := s.cfreelist
    if bp = 0 then (-1, s)
    else (s.takeBlock.setList p { l with cf := info bp }).putcAt c p (info bp)
  else if low l.cl = 0 then
    let bp := s.cfreelist
    let r := s.setNext (l.cl - cblock) bp
    if bp = 0 then (-1, r) else r.takeBlock.putcAt c p (info bp)
  else s.putcAt c p l.cl

/-- The loop of `b_to_q`, with the place it has come to and what of the buffer is left. -/
def bToQLoop : Nat → List Byte → Nat → Clists → Option (List Byte × Nat × Clists)
  | _, [], cq, s => some ([], cq, s)
  | 0, _ :: _, _, _ => none
  | n + 1, b :: bs, cq, s =>
    if low cq = 0 then
      let bp := s.cfreelist
      let r := s.setNext (cq - cblock) bp
      if bp = 0 then some (b :: bs, cq, r)
      else
        let nc := min (b :: bs).length (cblock - low (info bp))
        bToQLoop n ((b :: bs).drop nc) (info bp + nc) (r.takeBlock.store (info bp) ((b :: bs).take nc))
    else
      let nc := min (b :: bs).length (cblock - low cq)
      bToQLoop n ((b :: bs).drop nc) (cq + nc) (s.store cq ((b :: bs).take nc))

/-- From the place `cq` on; the answer is how many characters are left over. -/
def bToQFrom (bs : List Byte) (p : ListId) (cq : Nat) : Option (Nat × Clists) :=
  (bToQLoop bs.length bs cq s).map fun (rest, cq, r) =>
    (rest.length, r.setList p ⟨(r.q p).cc + (bs.length - rest.length), (r.q p).cf, cq⟩)

def bToQ (bs : List Byte) (p : ListId) : Option (Nat × Clists) :=
  let l := s.q p
  if bs.length = 0 then some (0, s)
  else if l.cl = 0 ∨ l.cc < 0 then
    let bp := s.cfreelist
    if bp = 0 then some (bs.length, s)
    else (s.takeBlock.setList p { l with cf := info bp }).bToQFrom bs p (info bp)
  else s.bToQFrom bs p l.cl

/-- The search for the block before the one at `cl`. -/
def beforeBlock (cl : Nat) : Nat → Nat → Option Nat
  | 0, _ => none
  | n + 1, bp => if s.next bp = cl then some bp else beforeBlock cl n (s.next bp)

/-- `signed` is whether the compiler's `char` is. -/
def charValue (signed : Bool) (b : Byte) : Int := if signed then b.toInt else b.toNat

def unputc (signed : Bool) (p : ListId) : Option (Int × Clists) :=
  let l := s.q p
  if l.cc ≤ 0 then some (-1, s)
  else
    let cl := l.cl - 1
    let c := charValue signed (s.byte cl)
    if l.cc - 1 ≤ 0 then some (c, (s.setList p ⟨l.cc - 1, 0, 0⟩).putBlock (base cl))
    else if low cl = 4 then
      (s.beforeBlock (base cl) l.cc.toNat (base l.cf)).map fun obp =>
        (c, ((s.setList p ⟨l.cc - 1, l.cf, obp + cblock⟩).putBlock (s.next obp)).setNext obp 0)
    else some (c, s.setList p ⟨l.cc - 1, l.cf, cl⟩)

def catqLoop (src dst : ListId) : Nat → Clists → Option Clists
  | n, s =>
    if 0 < (s.q src).cc then
      match n with
      | 0 => none
      | n + 1 =>
        (s.qToB src (cbsize * 4)).bind fun (bs, r) => (r.bToQ bs dst).bind fun (_, r) => catqLoop src dst n r
    else some s

def catq (src dst : ListId) : Option Clists :=
  if (s.q dst).cc = 0 then some ((s.setList dst (s.q src)).setList src .null)
  else catqLoop src dst (s.q src).cc.toNat s

end Clists

/-- A block that `cinit` puts on the free list, and those behind it up to `stop`. -/
def cinitLoop (stop : Nat) : Nat → Nat → Clists → Clists
  | 0, _, s => s
  | n + 1, cp, s =>
    if cp < stop then
      cinitLoop stop n (cp + cblock)
        { s.setNext cp s.cfreelist with cfreelist := cp, cfreecount := s.cfreecount + cbsize }
    else s

/-- `cinit` over the `nclist` blocks of memory at `cfree`; the lists are empty. -/
def cinit (cfree nclist : Nat) (s : Clists) : Clists :=
  cinitLoop (cfree + cblock * (nclist - 1)) nclist (base (cfree + (cblock - 1))) s

inductive Call
  | getc (p : ListId)
  | qToB (p : ListId) (cc : Int)
  | ndflush (p : ListId) (cc : Int)
  | putc (c : BitVec 32) (p : ListId)
  | bToQ (bs : List Byte) (p : ListId)
  | unputc (p : ListId)
  | catq (src dst : ListId)
  deriving DecidableEq, Repr

inductive Answer
  | int (c : Int)
  | bytes (bs : List Byte)
  | done
  deriving DecidableEq, Repr

/-- `none` is a call that has not ended after the steps given to its loops. -/
def exec (signed : Bool) (s : Clists) : Call → Option (Answer × Clists)
  | .getc p => some (.int (s.getc p).1, (s.getc p).2)
  | .qToB p cc => (s.qToB p cc).map fun (bs, r) => (.bytes bs, r)
  | .ndflush p cc => (s.ndflush p cc).map fun r => (.done, r)
  | .putc c p => some (.int (s.putc c p).1, (s.putc c p).2)
  | .bToQ bs p => (s.bToQ bs p).map fun (n, r) => (.int n, r)
  | .unputc p => (s.unputc signed p).map fun (c, r) => (.int c, r)
  | .catq src dst => (s.catq src dst).map fun r => (.done, r)

end MachVM.Tty

namespace MachVM.Tty

/-- The characters a list has in one block, from the offset `off` of its `c_info` on. -/
structure Chunk where
  block : Nat
  off : Nat
  bytes : List Byte

namespace Chunk

def start (c : Chunk) : Nat := info c.block + c.off

def finish (c : Chunk) : Nat := c.start + c.bytes.length

structure Ok (s : Clists) (c : Chunk) : Prop where
  nonempty : 0 < c.bytes.length
  fits : c.off + c.bytes.length ≤ cbsize
  bytes : s.load c.start c.bytes.length = c.bytes

/-- The block is full to its end, and `d` is in the next one from its beginning. -/
def Linked (s : Clists) (c d : Chunk) : Prop :=
  s.next c.block = d.block ∧ c.off + c.bytes.length = cbsize ∧ d.off = 0

end Chunk

/-- The character list has the characters `bs`, in the chunks `cs`. -/
structure Holds (s : Clists) (l : Clist) (cs : List Chunk) (bs : List Byte) : Prop where
  ok : ∀ c ∈ cs, c.Ok s
  links : cs.IsChain (Chunk.Linked s)
  content : cs.flatMap Chunk.bytes = bs
  cc : l.cc = bs.length
  cf : l.cf = (cs.head?.map Chunk.start).getD 0
  cl : l.cl = (cs.getLast?.map Chunk.finish).getD 0

/-- The blocks from `a` on by their links. -/
def Links (next : Nat → Nat) : Nat → List Nat → Prop
  | a, [] => a = 0
  | a, b :: l => a = b ∧ Links next (next b) l

def Aligned (b : Nat) : Prop := 0 < b ∧ b % cblock = 0

abbrev blocks (cs : List Chunk) : List Nat := cs.map Chunk.block

/-- `own` has the list that each block of the arena is in; the others are `free`. -/
structure Inv (arena : Nat → Prop) (s : Clists) (cs : ListId → List Chunk) (free : List Nat)
    (own : Nat → Option ListId) (D : ListId → List Byte) : Prop where
  holds : ∀ p, Holds s (s.q p) (cs p) (D p)
  chain : Links s.next s.cfreelist free
  count : s.cfreecount = cbsize * free.length
  nodup : ∀ p, (blocks (cs p)).Nodup
  freeNodup : free.Nodup
  memFree : ∀ b, b ∈ free ↔ arena b ∧ own b = none
  memList : ∀ p b, b ∈ blocks (cs p) ↔ arena b ∧ own b = some p
  aligned : ∀ b, arena b → Aligned b

variable {arena : Nat → Prop} {s r : Clists} {cs : ListId → List Chunk} {free free' : List Nat}
  {own own' : Nat → Option ListId} {D : ListId → List Byte} {p : ListId} {l : Clist} {c d : Chunk} {ks rest : List Chunk}
  {bs ws : List Byte} {a b : Nat} {n m : Nat}

section Memory

theorem length_load : (s.load a n).length = n := by simp [Clists.load]

theorem getElem_load {i : Nat} (h : i < (s.load a n).length) : (s.load a n)[i] = s.byte (a + i) := by
  simp [Clists.load]

theorem load_congr (h : ∀ i < n, r.byte (a + i) = s.byte (a + i)) : r.load a n = s.load a n :=
  List.map_congr_left fun i hi => h i (List.mem_range.mp hi)

theorem load_add : s.load a (n + m) = s.load a n ++ s.load (a + n) m := by
  simp only [Clists.load, List.range_add, List.map_append, List.map_map, Function.comp_def, Nat.add_assoc]

theorem load_take (h : s.load a bs.length = bs) (hn : n ≤ bs.length) : s.load a n = bs.take n := by
  have he := load_add (s := s) (a := a) (n := n) (m := bs.length - n)
  rw [Nat.add_sub_cancel' hn, h] at he
  conv_rhs => rw [he]
  rw [List.take_left' length_load]

theorem load_drop (h : s.load a bs.length = bs) (hn : n ≤ bs.length) :
    s.load (a + n) (bs.length - n) = bs.drop n := by
  have he := load_add (s := s) (a := a) (n := n) (m := bs.length - n)
  rw [Nat.add_sub_cancel' hn, h] at he
  conv_rhs => rw [he]
  rw [List.drop_left' length_load]

theorem load_store : (s.store a ws).load a ws.length = ws := by
  refine List.ext_getElem length_load fun i _ hi => ?_
  rw [getElem_load]
  simp [Clists.store, hi]

theorem byte_store_before (h : b < a) : (s.store a ws).byte b = s.byte b := if_neg (Nat.not_le_of_lt h)

theorem byte_store_behind (h : a + ws.length ≤ b) : (s.store a ws).byte b = s.byte b := by
  rw [Clists.store]
  dsimp only
  split
  next => rw [List.getD_eq_getElem?_getD, List.getElem?_eq_none (by omega), Option.getD_none]
  next => rfl

end Memory

section Frame

theorem Chunk.Ok.congr (h : c.Ok s) (hb : ∀ i < cblock, r.byte (c.block + i) = s.byte (c.block + i)) : c.Ok r where
  nonempty := h.nonempty
  fits := h.fits
  bytes := by
    refine (load_congr fun i hi => ?_).trans h.bytes
    have := h.fits
    simp only [cbsize, cblock] at this hb
    have hi := hb (4 + c.off + i) (by omega)
    rwa [← Nat.add_assoc, ← Nat.add_assoc] at hi

theorem Holds.congr (h : Holds s l ks bs) (hn : ∀ b ∈ blocks ks, r.next b = s.next b)
    (hb : ∀ b ∈ blocks ks, ∀ i < cblock, r.byte (b + i) = s.byte (b + i)) : Holds r l ks bs where
  ok c hc := (h.ok c hc).congr (hb c.block (List.mem_map_of_mem hc))
  links := h.links.imp_of_mem_imp fun c d hc _ hl => by
    rw [Chunk.Linked, hn c.block (List.mem_map_of_mem hc)]
    exact hl
  content := h.content
  cc := h.cc
  cf := h.cf
  cl := h.cl

theorem Links.congr {next next' : Nat → Nat} (h : Links next a free) (hn : ∀ b ∈ free, next' b = next b) :
    Links next' a free := by
  induction free generalizing a with
  | nil => exact h
  | cons b free ih =>
    obtain ⟨rfl, h⟩ := h
    refine ⟨rfl, ?_⟩
    rw [hn a List.mem_cons_self]
    exact ih h fun x hx => hn x (List.mem_cons_of_mem _ hx)

theorem Inv.change (h : Inv arena s cs free own D) (hq : r.q = Function.update s.q p l)
    (hown : ∀ b q, q ≠ p → (own' b = some q ↔ own b = some q))
    (hn : ∀ q, q ≠ p → ∀ b ∈ blocks (cs q), r.next b = s.next b)
    (hb : ∀ q, q ≠ p → ∀ b ∈ blocks (cs q), ∀ i < cblock, r.byte (b + i) = s.byte (b + i))
    (hh : Holds r l ks bs) (hc : Links r.next r.cfreelist free') (hcount : r.cfreecount = cbsize * free'.length)
    (hnodup : (blocks ks).Nodup) (hfree : free'.Nodup) (hmf : ∀ b, b ∈ free' ↔ arena b ∧ own' b = none)
    (hml : ∀ b, b ∈ blocks ks ↔ arena b ∧ own' b = some p) :
    Inv arena r (Function.update cs p ks) free' own' (Function.update D p bs) where
  holds q := by
    by_cases hqp : q = p
    · subst hqp
      rw [hq, Function.update_self, Function.update_self, Function.update_self]
      exact hh
    · rw [hq, Function.update_of_ne hqp, Function.update_of_ne hqp, Function.update_of_ne hqp]
      exact (h.holds q).congr (hn q hqp) (hb q hqp)
  chain := hc
  count := hcount
  nodup q := by
    by_cases hqp : q = p
    · rwa [hqp, Function.update_self]
    · rw [Function.update_of_ne hqp]
      exact h.nodup q
  freeNodup := hfree
  memFree := hmf
  memList q b := by
    by_cases hqp : q = p
    · rw [hqp, Function.update_self]
      exact hml b
    · rw [Function.update_of_ne hqp, hown b q hqp]
      exact h.memList q b
  aligned := h.aligned

theorem Inv.disjoint (h : Inv arena s cs free own D) {q : ListId} (hq : q ≠ p) (hb : b ∈ blocks (cs q)) :
    b ∉ blocks (cs p) := fun hp =>
  hq (Option.some.inj (((h.memList q b).mp hb).2.symm.trans ((h.memList p b).mp hp).2))

theorem Inv.not_free (h : Inv arena s cs free own D) (hb : b ∈ blocks (cs p)) : b ∉ free := fun hf => by
  have hp := ((h.memList p b).mp hb).2
  rw [((h.memFree b).mp hf).2] at hp
  cases hp

theorem Inv.aligned_of_mem (h : Inv arena s cs free own D) (hb : b ∈ blocks (cs p)) : Aligned b :=
  h.aligned b ((h.memList p b).mp hb).1

theorem Inv.rewrite (h : Inv arena s cs free own D) (hq : r.q = Function.update s.q p l)
    (hn : ∀ b ∉ blocks (cs p), r.next b = s.next b)
    (hb : ∀ q, q ≠ p → ∀ b ∈ blocks (cs q), ∀ i < cblock, r.byte (b + i) = s.byte (b + i))
    (hf : r.cfreelist = s.cfreelist) (hcount : r.cfreecount = s.cfreecount) (hh : Holds r l ks bs)
    (hks : blocks ks = blocks (cs p)) : Inv arena r (Function.update cs p ks) free own (Function.update D p bs) := by
  refine h.change hq (fun _ _ _ => Iff.rfl) (fun q hqp b hm => hn b (h.disjoint hqp hm)) hb hh ?_
    (hcount.trans h.count) ?_ h.freeNodup h.memFree (by rw [hks]; exact h.memList p)
  · rw [hf]
    exact h.chain.congr fun b hm => hn b fun hp => h.not_free hp hm
  · rw [hks]
    exact h.nodup p

theorem Inv.release (h : Inv arena s cs free own D) (hq : r.q = Function.update s.q p l)
    (hperm : (blocks (cs p)).Perm (b :: blocks ks)) (hn : ∀ x ∉ blocks (cs p), r.next x = s.next x)
    (hnb : r.next b = s.cfreelist) (hb : r.byte = s.byte) (hf : r.cfreelist = b)
    (hcount : r.cfreecount = s.cfreecount + cbsize) (hh : Holds r l ks bs) :
    Inv arena r (Function.update cs p ks) (b :: free) (Function.update own b none) (Function.update D p bs) := by
  have hmem : b ∈ blocks (cs p) := hperm.mem_iff.mpr List.mem_cons_self
  obtain ⟨harena, hown⟩ := (h.memList p b).mp hmem
  obtain ⟨hbk, hnodup⟩ := List.nodup_cons.mp (hperm.nodup_iff.mp (h.nodup p))
  refine h.change hq (fun x q hqp => ?_) (fun q hqp x hm => hn x (h.disjoint hqp hm))
    (fun q hqp x _ i _ => by rw [hb]) hh ?_ ?_ hnodup (List.nodup_cons.mpr ⟨h.not_free hmem, h.freeNodup⟩)
    (fun x => ?_) fun x => ?_
  · by_cases hx : x = b
    · subst hx
      rw [Function.update_self, hown]
      simp [Ne.symm hqp]
    · rw [Function.update_of_ne hx]
  · refine ⟨hf, ?_⟩
    rw [hnb]
    exact h.chain.congr fun x hm => hn x fun hp => h.not_free hp hm
  · rw [hcount, h.count, List.length_cons]
    simp only [cbsize, cblock]
    omega
  · by_cases hx : x = b
    · subst hx
      simp [harena]
    · rw [Function.update_of_ne hx, List.mem_cons, ← h.memFree x]
      simp [hx]
  · have := hperm.mem_iff (a := x)
    rw [h.memList p x, List.mem_cons] at this
    by_cases hx : x = b
    · subst hx
      simp [hbk]
    · rw [Function.update_of_ne hx]
      simpa [hx] using this.symm

theorem Inv.acquire (h : Inv arena s cs (b :: free) own D) (hq : r.q = Function.update s.q p l)
    (hperm : (blocks ks).Perm (b :: blocks (cs p))) (hn : ∀ x ∉ blocks (cs p), x ≠ b → r.next x = s.next x)
    (hb : ∀ q, q ≠ p → ∀ x ∈ blocks (cs q), ∀ i < cblock, r.byte (x + i) = s.byte (x + i))
    (hf : r.cfreelist = s.next b) (hcount : r.cfreecount = s.cfreecount - cbsize) (hh : Holds r l ks bs) :
    Inv arena r (Function.update cs p ks) free (Function.update own b (some p)) (Function.update D p bs) := by
  obtain ⟨harena, hown⟩ := (h.memFree b).mp List.mem_cons_self
  obtain ⟨hbf, hfree⟩ := List.nodup_cons.mp h.freeNodup
  have hbl : ∀ q, b ∉ blocks (cs q) := fun q hm => h.not_free hm List.mem_cons_self
  refine h.change hq (fun x q hqp => ?_) (fun q hqp x hm => hn x (h.disjoint hqp hm) ?_) hb hh ?_ ?_ ?_ hfree
    (fun x => ?_) fun x => ?_
  · by_cases hx : x = b
    · subst hx
      rw [Function.update_self, hown]
      simp [Ne.symm hqp]
    · rw [Function.update_of_ne hx]
  · rintro rfl
    exact hbl q hm
  · rw [hf]
    refine h.chain.2.congr fun x hm => hn x (fun hp => h.not_free hp (List.mem_cons_of_mem _ hm)) ?_
    rintro rfl
    exact hbf hm
  · rw [hcount, h.count, List.length_cons]
    simp only [cbsize, cblock]
    omega
  · exact hperm.nodup_iff.mpr (List.nodup_cons.mpr ⟨hbl p, h.nodup p⟩)
  · have := h.memFree x
    rw [List.mem_cons] at this
    by_cases hx : x = b
    · subst hx
      simp [hbf]
    · rw [Function.update_of_ne hx]
      simpa [hx] using this
  · have := hperm.mem_iff (a := x)
    rw [List.mem_cons, h.memList p x] at this
    by_cases hx : x = b
    · subst hx
      simpa [harena] using this
    · rw [Function.update_of_ne hx]
      simpa [hx] using this

end Frame

end MachVM.Tty
