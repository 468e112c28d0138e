import Mathlib.Data.Nat.Basic
import Mathlib.Tactic.Common
import Mathlib.Algebra.Group.Nat.Defs

namespace MachVM.InodeWrite

def pageSize : Nat := 4096

/-- `struct fs`: the bytes of a block and of a fragment are powers of two. -/
structure Fs where
  bshift : Nat
  fshift : Nat
  frag : fshift ≤ bshift
  deriving Repr

def Fs.bsize (fs : Fs) : Nat := 2 ^ fs.bshift
def Fs.fsize (fs : Fs) : Nat := 2 ^ fs.fshift

def ndaddr : Nat := 12

def lblkno (fs : Fs) (loc : Nat) : Nat := loc / fs.bsize
def blkoff (fs : Fs) (loc : Nat) : Nat := loc % fs.bsize

def fragroundup (fs : Fs) (size : Nat) : Nat := (size + fs.fsize - 1) / fs.fsize * fs.fsize

def blksize (fs : Fs) (iSize lbn : Nat) : Nat :=
  if ndaddr ≤ lbn ∨ (lbn + 1) * fs.bsize ≤ iSize then fs.bsize else fragroundup fs (blkoff fs iSize)

/-- What `bmap` for writing does to `i_size`: a fragment at the end of the file, before the block, is extended to
a full block. -/
def bmapSize (fs : Fs) (iSize bn : Nat) : Nat :=
  let nb := lblkno fs iSize
  let osize := blksize fs iSize nb
  if nb < ndaddr ∧ nb < bn ∧ osize < fs.bsize ∧ 0 < osize then (nb + 1) * fs.bsize else iSize

/-- What a turn of `inode_write` gets from below: no block, before or after the last fragment was extended; a
buffer with B_ERROR; or a buffer, of which `size - bp->b_resid` bytes were transferred. -/
inductive Answer
  | unmapped (extended : Bool)
  | failed
  | buffer (transferred : Nat)
  deriving DecidableEq, Repr

/-- A `bcopy` of `inode_write`, from the page to a place of the file. -/
structure Copy where
  source : Nat
  dest : Nat
  count : Nat
  deriving DecidableEq, Repr

def bcopy (data file : Nat → UInt8) (c : Copy) : Nat → UInt8 := fun p =>
  if c.dest ≤ p ∧ p < c.dest + c.count then data (c.source + (p - c.dest)) else file p

/-- The variables of `inode_write` and the file. The list of the copies is history. -/
structure Write where
  csize : Nat
  pOffset : Nat
  fOffset : Nat
  iSize : Nat
  file : Nat → UInt8
  copies : List Copy

/-- One turn of the loop, with the value of `n` at its end, or `none` for EIO. -/
def inodeWriteTurn (fs : Fs) (data : Nat → UInt8) (a : Answer) (w : Write) : Write × Option Nat :=
  let lbn := lblkno fs w.fOffset
  let on := blkoff fs w.fOffset
  let n := min (fs.bsize - on) w.csize
  let grown := bmapSize fs w.iSize lbn
  let fEnd := (w.fOffset + n) % 2 ^ 32
  let iSize := if grown < fEnd then fEnd else grown
  match a with
  | .unmapped extended => ({ w with iSize := if extended then grown else w.iSize }, none)
  | .failed => ({ w with iSize := iSize }, none)
  | .buffer transferred =>
    let n := min n transferred
    let c : Copy := ⟨w.pOffset, w.fOffset, n⟩
    ({ csize := w.csize - n, pOffset := w.pOffset + n, fOffset := (w.fOffset + n) % 2 ^ 32, iSize := iSize,
       file := bcopy data w.file c, copies := c :: w.copies }, some n)

/-- The loop, given the answers to all its turns. The result is `false` for EIO. -/
def inodeWriteLoop (fs : Fs) (data : Nat → UInt8) : List Answer → Write → Option (Bool × Write)
  | [], _ => none
  | a :: as, w =>
    match inodeWriteTurn fs data a w with
    | (w, none) => if as.isEmpty then some (false, w) else none
    | (w, some n) =>
      if w.csize ≠ 0 ∧ n ≠ 0 then inodeWriteLoop fs data as w
      else if as.isEmpty then some (true, w) else none

attribute [local simp] inodeWriteLoop

structure Inode where
  iSize : Nat
  inodeSize : Nat
  file : Nat → UInt8

def inodeWrite (fs : Fs) (ip : Inode) (data : Nat → UInt8) (csize fOffset : Nat) (answers : List Answer) :
    Option (Bool × Write) :=
  inodeWriteLoop fs data answers ⟨csize, 0, fOffset, ip.iSize, ip.file, []⟩

/-- `struct istruct`, as `pf_alloc` and `inode_pager_create` make them. -/
structure InodePager where
  swapfile : Bool
  paging : Bool
  pagingShift : Nat
  errors : Nat
  swap_paging : swapfile = true → paging = true
  shift_paging : paging = false → pagingShift = 0

structure PageWrite where
  errors : Nat
  inode : Inode
  copies : List Copy

/-- `is_page_write` with MACH_NBC and without MACH_VFS. -/
def isPageWrite (is : InodePager) (fs : Fs) (ip : Inode) (pfBmap : Nat → Nat) (offset : Nat) (data : Nat → UInt8)
    (answers : List Answer) : Option PageWrite :=
  let actual := if is.swapfile then pfBmap offset else offset
  if actual = 2 ^ 32 - 1 then if answers.isEmpty then some ⟨is.errors, ip, []⟩ else none
  else
    -- the sum and the difference are unsigned
    let size := if is.paging = false ∧ ip.inodeSize < (actual + pageSize) % 2 ^ 32
      then (ip.inodeSize + 2 ^ 32 - actual) % 2 ^ 32 else pageSize
    (inodeWrite fs ip data size (actual * 2 ^ is.pagingShift % 2 ^ 32) answers).map fun (ok, w) =>
      ⟨if ok then is.errors else is.errors + 1, { ip with iSize := w.iSize, file := w.file }, w.copies⟩

/-- The bytes of the file that the copies went to. -/
def Written (copies : List Copy) (p : Nat) : Prop := ∃ c ∈ copies, c.dest ≤ p ∧ p < c.dest + c.count

/-- The range that belongs to the page and to the file. -/
def Inode.InPage (ip : Inode) (offset p : Nat) : Prop := offset ≤ p ∧ p < min (offset + pageSize) ip.inodeSize

/-- What the write of one page of a mapped file does. -/
structure Right (errors : Nat) (ip : Inode) (offset : Nat) (data : Nat → UInt8) (r : PageWrite) : Prop where
  only : ∀ p, Written r.copies p → ip.InPage offset p
  bytes : ∀ p, Written r.copies p → r.inode.file p = data (p - offset)
  others : ∀ p, ¬Written r.copies p → r.inode.file p = ip.file p
  size : r.inode.iSize ≤ max ip.iSize ip.inodeSize
  all : r.errors = errors → ∀ p, ip.InPage offset p → Written r.copies p

/-- The page begins in the file or at its end, and is not the last page of the address space. -/
def Inode.Clips (ip : Inode) (offset : Nat) : Prop := offset ≤ ip.inodeSize ∧ offset + pageSize < 2 ^ 32

/-- The buffer is not empty. -/
def Answer.Moves (a : Answer) : Prop := a ≠ .buffer 0

variable {fs : Fs} {data file : Nat → UInt8} {a : Answer} {as : List Answer} {w w' : Write} {ok : Bool}
  {offset length bound n p : Nat} {is : InodePager} {ip : Inode} {pfBmap : Nat → Nat} {r : PageWrite}
  {copies : List Copy} {c : Copy}

theorem Fs.bsize_pos (fs : Fs) : 0 < fs.bsize := Nat.two_pow_pos _

theorem written_cons : Written (c :: copies) p ↔ (c.dest ≤ p ∧ p < c.dest + c.count) ∨ Written copies p := by
  simp [Written]

theorem bmapSize_le (fs : Fs) (iSize loc : Nat) : bmapSize fs iSize (lblkno fs loc) ≤ max iSize loc := by
  simp only [bmapSize]
  split
  next h =>
    refine Nat.le_trans ?_ (Nat.le_max_right ..)
    calc (lblkno fs iSize + 1) * fs.bsize ≤ lblkno fs loc * fs.bsize := Nat.mul_le_mul_right _ h.2.1
      _ ≤ loc := Nat.div_mul_le_self ..
  next => exact Nat.le_max_left ..

/-- The first `pOffset` of the bytes to copy are copied. -/
structure Copied (offset length : Nat) (data file : Nat → UInt8) (w : Write) : Prop where
  count : w.pOffset + w.csize = length
  place : w.fOffset = (offset + w.pOffset) % 2 ^ 32
  written : ∀ p, Written w.copies p ↔ offset ≤ p ∧ p < offset + w.pOffset
  bytes : ∀ p, Written w.copies p → w.file p = data (p - offset)
  others : ∀ p, ¬Written w.copies p → w.file p = file p

theorem Copied.fOffset_eq (h : Copied offset length data file w) (hfit : offset + length ≤ 2 ^ 32)
    (ho : offset < 2 ^ 32) (hc : w.csize ≠ 0 ∨ length = 0) : w.fOffset = offset + w.pOffset := by
  rw [h.place, Nat.mod_eq_of_lt]
  have := h.count
  omega

theorem Copied.congr (h : Copied offset length data file w) (hc : w'.csize = w.csize) (hp : w'.pOffset = w.pOffset)
    (hf : w'.fOffset = w.fOffset) (hfile : w'.file = w.file) (hcopies : w'.copies = w.copies) :
    Copied offset length data file w' := by
  refine ⟨by rw [hc, hp, h.count], by rw [hf, hp, h.place], ?_, ?_, ?_⟩
  · rw [hcopies, hp]
    exact h.written
  · rw [hcopies, hfile]
    exact h.bytes
  · rw [hcopies, hfile]
    exact h.others

theorem Copied.copy (h : Copied offset length data file w) (hf : w.fOffset = offset + w.pOffset) (hn : n ≤ w.csize)
    {iSize : Nat} : Copied offset length data file
      { csize := w.csize - n, pOffset := w.pOffset + n, fOffset := (w.fOffset + n) % 2 ^ 32, iSize := iSize,
        file := bcopy data w.file ⟨w.pOffset, w.fOffset, n⟩, copies := ⟨w.pOffset, w.fOffset, n⟩ :: w.copies } := by
  have hcount := h.count
  refine ⟨by simp only; omega, by simp only [hf, Nat.add_assoc], fun p => ?_, fun p hp => ?_, fun p hp => ?_⟩
  · simp only [written_cons, h.written, hf]
    omega
  · simp only [bcopy]
    split
    next hin =>
      rw [hf] at hin ⊢
      congr 1
      omega
    next hin => exact h.bytes p ((written_cons.mp hp).resolve_left hin)
  · obtain ⟨hin, hw⟩ := not_or.mp (fun h => hp (written_cons.mpr h))
    simp only [bcopy, if_neg hin]
    exact h.others p hw

theorem turn_copied {m : Option Nat} (h : Copied offset length data file w) (hf : w.fOffset = offset + w.pOffset)
    (hm : inodeWriteTurn fs data a w = (w', m)) : Copied offset length data file w' ∧
      match m with
      | none => a.Moves
      | some n => w'.csize = w.csize - n ∧ n ≤ w.csize ∧ (n = 0 ↔ w.csize = 0 ∨ ¬a.Moves) := by
  cases a with
  | unmapped extended =>
    cases hm
    exact ⟨h.congr rfl rfl rfl rfl rfl, fun h => by cases h⟩
  | failed =>
    cases hm
    exact ⟨h.congr rfl rfl rfl rfl rfl, fun h => by cases h⟩
  | buffer transferred =>
    cases hm
    have hroom : blkoff fs w.fOffset < fs.bsize := Nat.mod_lt _ fs.bsize_pos
    have hle : min (min (fs.bsize - blkoff fs w.fOffset) w.csize) transferred ≤ w.csize := by omega
    refine ⟨h.copy hf hle, rfl, hle, ?_⟩
    simp only [Answer.Moves, ne_eq, Answer.buffer.injEq, not_not]
    omega

theorem turn_iSize {m : Option Nat} (hend : w.fOffset + w.csize ≤ bound) (hb : bound < 2 ^ 32)
    (hm : inodeWriteTurn fs data a w = (w', m)) : w'.iSize ≤ max w.iSize bound := by
  have hgrown := bmapSize_le fs w.iSize w.fOffset
  have hmod : (w.fOffset + min (fs.bsize - blkoff fs w.fOffset) w.csize) % 2 ^ 32 ≤ bound := by
    refine Nat.le_trans (Nat.mod_le _ _) ?_
    omega
  cases a with
  | unmapped extended =>
    cases hm
    simp only
    split <;> omega
  | failed =>
    cases hm
    simp only
    split <;> omega
  | buffer transferred =>
    cases hm
    simp only
    split <;> omega

theorem loop_copied (h : Copied offset length data file w) (hfit : offset + length ≤ 2 ^ 32) (ho : offset < 2 ^ 32)
    (hc : w.csize ≠ 0 ∨ length = 0) (hl : inodeWriteLoop fs data as w = some (ok, w')) :
    Copied offset length data file w' ∧ (ok = true → w'.csize = 0 ∨ ∃ a ∈ as, ¬a.Moves) ∧
      ((∃ a ∈ as, ¬a.Moves) → length ≠ 0 → ok = true ∧ w'.csize ≠ 0) := by
  induction as generalizing w with
  | nil => cases hl
  | cons a as ih =>
    rw [inodeWriteLoop] at hl
    have hf := h.fOffset_eq hfit ho hc
    rcases hm : inodeWriteTurn fs data a w with ⟨v, _ | n⟩
    · obtain ⟨hv, ha⟩ := turn_copied h hf hm
      simp only [hm] at hl
      split at hl
      next he =>
        cases Option.some.inj hl
        rw [List.isEmpty_iff] at he
        subst he
        refine ⟨hv, fun h => absurd h Bool.false_ne_true, fun ⟨b, hb, hnot⟩ => ?_⟩
        cases List.mem_singleton.mp hb
        exact absurd ha hnot
      next => cases hl
    · obtain ⟨hv, hsize, hn, hzero⟩ := turn_copied h hf hm
      simp only [hm] at hl
      split at hl
      next hgo =>
        obtain ⟨hr, hdone, hstop⟩ := ih hv (.inl hgo.1) hl
        have ha : a.Moves := by
          by_contra ha
          exact hgo.2 (hzero.mpr (.inr ha))
        refine ⟨hr, fun hok => (hdone hok).imp_right fun ⟨b, hb, hnot⟩ => ⟨b, List.mem_cons_of_mem _ hb, hnot⟩, ?_⟩
        rintro ⟨b, hb, hnot⟩
        rcases List.mem_cons.mp hb with rfl | hb
        · exact absurd ha hnot
        · exact hstop ⟨b, hb, hnot⟩
      next hend =>
        split at hl
        next he =>
          cases Option.some.inj hl
          rw [List.isEmpty_iff] at he
          subst he
          refine ⟨hv, fun _ => ?_, fun ⟨b, hb, hnot⟩ hne => ⟨rfl, ?_⟩⟩
          · by_cases hz : w'.csize = 0
            · exact .inl hz
            · have hn0 : n = 0 := by
                by_contra h
                exact hend ⟨hz, h⟩
              refine .inr ⟨a, List.mem_singleton_self a, ?_⟩
              rcases hzero.mp hn0 with h0 | ha
              · omega
              · exact ha
          · cases List.mem_singleton.mp hb
            have hn0 := hzero.mpr (.inr hnot)
            have := hc.resolve_right hne
            omega
        next => cases hl

theorem loop_iSize (h : Copied offset length data file w) (hc : w.csize ≠ 0 ∨ length = 0)
    (hend : offset + length ≤ bound) (hb : bound < 2 ^ 32)
    (hl : inodeWriteLoop fs data as w = some (ok, w')) : w'.iSize ≤ max w.iSize bound := by
  induction as generalizing w with
  | nil => cases hl
  | cons a as ih =>
    rw [inodeWriteLoop] at hl
    have hf := h.fOffset_eq (by omega) (by omega) hc
    have hcount := h.count
    rcases hm : inodeWriteTurn fs data a w with ⟨v, m⟩
    have hv := turn_iSize (by omega) hb hm
    obtain ⟨hcopied, _⟩ := turn_copied h hf hm
    cases m with
    | none =>
      simp only [hm] at hl
      split at hl
      next =>
        cases Option.some.inj hl
        exact hv
      next => cases hl
    | some n =>
      simp only [hm] at hl
      split at hl
      next hgo =>
        have := ih hcopied (.inl hgo.1) hl
        omega
      next =>
        split at hl
        next =>
          cases Option.some.inj hl
          exact hv
        next => cases hl

theorem loop_returns (fs : Fs) (h : Copied offset length data file w) (hfit : offset + length ≤ 2 ^ 32)
    (ho : offset < 2 ^ 32) (hc : w.csize ≠ 0 ∨ length = 0) (answers : Nat → Answer) (k : Nat) :
    ∃ m, (inodeWriteLoop fs data ((List.range' k m).map answers) w).isSome := by
  induction hs : w.csize using Nat.strong_induction_on generalizing w k with
  | _ size ih =>
    have hf := h.fOffset_eq hfit ho hc
    rcases hm : inodeWriteTurn fs data (answers k) w with ⟨v, _ | n⟩
    · refine ⟨1, ?_⟩
      simp [inodeWriteLoop, hm]
    · obtain ⟨hv, hsize, hn, -⟩ := turn_copied h hf hm
      by_cases hgo : v.csize ≠ 0 ∧ n ≠ 0
      · obtain ⟨m, hr⟩ := ih v.csize (by omega) hv (.inl hgo.1) (k + 1) rfl
        refine ⟨m + 1, ?_⟩
        simp only [List.range'_succ, List.map_cons, inodeWriteLoop, hm, if_pos hgo]
        exact hr
      · refine ⟨1, ?_⟩
        simp only [List.range'_succ, List.range'_zero, List.map_cons, List.map_nil, inodeWriteLoop, hm, if_neg hgo]
        rfl

theorem copied_start (data file : Nat → UInt8) (length iSize : Nat) (ho : offset < 2 ^ 32) :
    Copied offset length data file ⟨length, 0, offset, iSize, file, []⟩ := by
  have hno : ∀ p, ¬Written [] p := fun p ⟨c, hc, _⟩ => List.not_mem_nil hc
  refine ⟨Nat.zero_add _, (Nat.mod_eq_of_lt ho).symm, fun p => ?_, fun p hp => absurd hp (hno p), fun p _ => rfl⟩
  simp only [hno, Nat.add_zero, false_iff]
  omega

/-- The bytes that `is_page_write` asks for. -/
def clippedSize (ip : Inode) (offset : Nat) : Nat :=
  if ip.inodeSize < (offset + pageSize) % 2 ^ 32 then (ip.inodeSize + 2 ^ 32 - offset) % 2 ^ 32 else pageSize

theorem isPageWrite_eq (fs : Fs) (ip : Inode) (pfBmap : Nat → Nat) (data : Nat → UInt8) (as : List Answer)
    (hp : is.paging = false) (ho : offset < 2 ^ 32) (ha : pageSize ∣ offset) :
    isPageWrite is fs ip pfBmap offset data as =
      (inodeWrite fs ip data (clippedSize ip offset) offset as).map fun (ok, w) =>
        ⟨if ok then is.errors else is.errors + 1, { ip with iSize := w.iSize, file := w.file }, w.copies⟩ := by
  have hs : is.swapfile = false := Bool.eq_false_iff.mpr fun h => by simp [is.swap_paging h] at hp
  have hne : offset ≠ 2 ^ 32 - 1 := by
    obtain ⟨k, rfl⟩ := ha
    unfold pageSize
    omega
  unfold isPageWrite
  simp only [hs, Bool.false_eq_true, if_false, if_neg hne, hp, true_and, is.shift_paging hp, Nat.pow_zero,
    Nat.mul_one, Nat.mod_eq_of_lt ho, clippedSize]

theorem isPageWrite_cases (hp : is.paging = false) (ho : offset < 2 ^ 32) (ha : pageSize ∣ offset)
    (h : isPageWrite is fs ip pfBmap offset data as = some r) : ∃ ok w,
      inodeWriteLoop fs data as ⟨clippedSize ip offset, 0, offset, ip.iSize, ip.file, []⟩ = some (ok, w) ∧
      (r.errors = is.errors ↔ ok = true) ∧ r.inode.iSize = w.iSize ∧ r.inode.file = w.file ∧ r.copies = w.copies := by
  rw [isPageWrite_eq _ _ _ _ _ hp ho ha] at h
  obtain ⟨⟨ok, w⟩, hw, rfl⟩ := Option.map_eq_some_iff.mp h
  refine ⟨ok, w, hw, ?_, rfl, rfl, rfl⟩
  cases ok <;> simp

theorem Inode.Clips.inPage (h : ip.Clips offset) (p : Nat) :
    ip.InPage offset p ↔ offset ≤ p ∧ p < offset + clippedSize ip offset := by
  obtain ⟨hle, hlt⟩ := h
  unfold Inode.InPage clippedSize pageSize at *
  split <;> omega

theorem Inode.Clips.fits (h : ip.Clips offset) : offset + clippedSize ip offset ≤ ip.inodeSize := by
  obtain ⟨hle, hlt⟩ := h
  unfold clippedSize pageSize at *
  split <;> omega

theorem Inode.Clips.right_iff (h : ip.Clips offset) (hp : is.paging = false) (ha : pageSize ∣ offset)
    (hi : ip.inodeSize < 2 ^ 32) (hr : isPageWrite is fs ip pfBmap offset data as = some r) :
    Right is.errors ip offset data r ↔ offset = ip.inodeSize ∨ ∀ a ∈ as, a.Moves := by
  have ho : offset < 2 ^ 32 := by
    have := h.2
    omega
  obtain ⟨ok, w, hw, herr, hsize, hfile, hcopies⟩ := isPageWrite_cases hp ho ha hr
  have hfits := h.fits
  have hzero : offset = ip.inodeSize ↔ clippedSize ip offset = 0 := by
    obtain ⟨hle, hlt⟩ := h
    unfold clippedSize pageSize at *
    split <;> omega
  have hpage := h.inPage
  generalize clippedSize ip offset = length at hw hfits hzero hpage
  have hstart : Copied offset length data ip.file ⟨length, 0, offset, ip.iSize, ip.file, []⟩ := copied_start _ _ _ _ ho
  have hc : length ≠ 0 ∨ length = 0 := Decidable.ne_or_eq _ _
  obtain ⟨hw', hdone, hstop⟩ := loop_copied hstart (by omega) ho hc hw
  have hcount := hw'.count
  constructor
  · intro hright
    by_contra hno
    obtain ⟨hne, hall⟩ := not_or.mp hno
    push Not at hall
    obtain ⟨hok, hleft⟩ := hstop hall fun h0 => hne (hzero.mpr h0)
    have hin : ip.InPage offset (offset + w.pOffset) := (hpage _).mpr (by omega)
    have := hright.all (herr.mpr hok) _ hin
    rw [hcopies] at this
    have := (hw'.written _).mp this
    omega
  · intro hcond
    refine ⟨fun p hp => ?_, fun p hp => ?_, fun p hp => ?_, ?_, fun hok p hp => ?_⟩
    · rw [hcopies] at hp
      have := (hw'.written p).mp hp
      exact (hpage p).mpr (by omega)
    · rw [hcopies] at hp
      rw [hfile]
      exact hw'.bytes p hp
    · rw [hcopies] at hp
      rw [hfile]
      exact hw'.others p hp
    · rw [hsize]
      exact loop_iSize hstart hc hfits hi hw
    · rw [hcopies]
      refine (hw'.written p).mpr ?_
      have hp := (hpage p).mp hp
      have hdone : w.csize = 0 := by
        rcases hcond with h0 | hall
        · have := hzero.mp h0
          omega
        · exact (hdone (herr.mp hok)).resolve_right fun ⟨a, ha, hnot⟩ => hnot (hall a ha)
      omega

theorem isPageWrite_returns (h : ip.Clips offset) (hp : is.paging = false) (ha : pageSize ∣ offset)
    (hi : ip.inodeSize < 2 ^ 32) (answers : Nat → Answer) :
    ∃ m, (isPageWrite is fs ip pfBmap offset data ((List.range' 0 m).map answers)).isSome := by
  have ho : offset < 2 ^ 32 := by
    have := h.2
    omega
  have hfits := h.fits
  have heq := fun as => isPageWrite_eq fs ip pfBmap data as hp ho ha
  generalize clippedSize ip offset = length at hfits heq
  obtain ⟨m, hm⟩ := loop_returns fs (copied_start data ip.file length ip.iSize ho)
    (by omega) ho (Decidable.ne_or_eq _ _) answers 0
  refine ⟨m, ?_⟩
  rw [heq, Option.isSome_map]
  exact hm

theorem loop_ok (hb : ∀ a ∈ as, ∃ t, a = .buffer t) (hl : inodeWriteLoop fs data as w = some (ok, w')) : ok = true := by
  induction as generalizing w with
  | nil => cases hl
  | cons a as ih =>
    obtain ⟨t, rfl⟩ := hb a List.mem_cons_self
    rw [inodeWriteLoop] at hl
    simp only [inodeWriteTurn] at hl
    split at hl
    next => exact ih (fun b hb' => hb b (List.mem_cons_of_mem _ hb')) hl
    next =>
      split at hl
      next =>
        cases Option.some.inj hl
        rfl
      next => cases hl

theorem past_end_wrong (fs : Fs) (data : Nat → UInt8) (hp : is.paging = false) (ha : pageSize ∣ offset)
    (ho : offset < 2 ^ 32) (hpast : ip.inodeSize < offset) (hs : clippedSize ip offset ≠ 0) :
    ∃ as r, (∀ a ∈ as, a.Moves) ∧ isPageWrite is fs ip pfBmap offset data as = some r ∧
      ¬Right is.errors ip offset data r := by
  have heq := fun as => isPageWrite_eq fs ip pfBmap data as hp ho ha
  generalize clippedSize ip offset = size at hs heq
  have hroom : blkoff fs offset < fs.bsize := Nat.mod_lt _ fs.bsize_pos
  have hn : 0 < min (min (fs.bsize - blkoff fs offset) size) fs.bsize := by omega
  have hwrong : ∀ r : PageWrite, ⟨0, offset, min (min (fs.bsize - blkoff fs offset) size) fs.bsize⟩ ∈ r.copies →
      ¬Right is.errors ip offset data r := by
    intro r hc hright
    have := hright.only offset ⟨_, hc, Nat.le_refl _, Nat.lt_add_of_pos_right hn⟩
    unfold Inode.InPage at this
    omega
  have hmoves : Answer.Moves (.buffer fs.bsize) := fun h => Nat.ne_of_gt fs.bsize_pos (Answer.buffer.inj h)
  by_cases hend : size - min (min (fs.bsize - blkoff fs offset) size) fs.bsize = 0
  · obtain ⟨r, hr, hc⟩ : ∃ r, isPageWrite is fs ip pfBmap offset data [.buffer fs.bsize] = some r ∧
        ⟨0, offset, min (min (fs.bsize - blkoff fs offset) size) fs.bsize⟩ ∈ r.copies := by
      rw [heq, inodeWrite, inodeWriteLoop]
      simp only [inodeWriteTurn, hend, ne_eq, not_true_eq_false, false_and, if_false, List.isEmpty_nil, if_true]
      exact ⟨_, rfl, List.mem_cons_self⟩
    exact ⟨_, r, fun a ha => List.mem_singleton.mp ha ▸ hmoves, hr, hwrong r hc⟩
  · obtain ⟨r, hr, hc⟩ : ∃ r, isPageWrite is fs ip pfBmap offset data [.buffer fs.bsize, .unmapped false] = some r ∧
        ⟨0, offset, min (min (fs.bsize - blkoff fs offset) size) fs.bsize⟩ ∈ r.copies := by
      rw [heq, inodeWrite, inodeWriteLoop]
      simp only [inodeWriteTurn, ne_eq, hend, not_false_eq_true, Nat.ne_of_gt hn, and_self, if_true,
        inodeWriteLoop, List.isEmpty_nil]
      exact ⟨_, rfl, List.mem_cons_self⟩
    refine ⟨_, r, fun a ha => ?_, hr, hwrong r hc⟩
    rcases List.mem_cons.mp ha with rfl | ha
    · exact hmoves
    · cases List.mem_singleton.mp ha
      exact fun h => by cases h

theorem last_page_wrong (fs : Fs) (data : Nat → UInt8) (hp : is.paging = false) (ha : pageSize ∣ offset)
    (ho : offset < 2 ^ 32) (hlast : 2 ^ 32 ≤ offset + pageSize) (hi : ip.inodeSize < 2 ^ 32) :
    ∃ as r, (∀ a ∈ as, a.Moves) ∧ isPageWrite is fs ip pfBmap offset data as = some r ∧
      ¬Right is.errors ip offset data r := by
  have heq := fun as => isPageWrite_eq fs ip pfBmap data as hp ho ha
  have hend : offset + pageSize = 2 ^ 32 := by
    obtain ⟨k, rfl⟩ := ha
    unfold pageSize at *
    omega
  have hsize : clippedSize ip offset = pageSize := by
    rw [clippedSize, hend, Nat.mod_self, if_neg (Nat.not_lt_zero _)]
  rw [hsize] at heq
  have hmoves : Answer.Moves (.buffer fs.bsize) := fun h => Nat.ne_of_gt fs.bsize_pos (Answer.buffer.inj h)
  have hstart := copied_start data ip.file pageSize ip.iSize ho
  have hfit : offset + pageSize ≤ 2 ^ 32 := Nat.le_of_eq hend
  generalize pageSize = length at *
  obtain ⟨m, hm⟩ := loop_returns fs hstart hfit ho (Decidable.ne_or_eq _ _) (fun _ => .buffer fs.bsize) 0
  obtain ⟨⟨ok, w⟩, hw⟩ := Option.isSome_iff_exists.mp hm
  have hb : ∀ a ∈ (List.range' 0 m).map fun _ => Answer.buffer fs.bsize, a = .buffer fs.bsize := by
    intro a ha
    obtain ⟨_, _, rfl⟩ := List.mem_map.mp ha
    rfl
  obtain ⟨hcopied, hdone, -⟩ := loop_copied hstart hfit ho (Decidable.ne_or_eq _ _) hw
  have hok := loop_ok (fun a ha => ⟨_, hb a ha⟩) hw
  have hzero : w.csize = 0 := (hdone hok).resolve_right fun ⟨a, ha, hnot⟩ => hnot (hb a ha ▸ hmoves)
  refine ⟨_, _, fun a ha => hb a ha ▸ hmoves, (heq _).trans (congrArg _ hw), fun hright => ?_⟩
  have hcount := hcopied.count
  have := hright.only (2 ^ 32 - 1) ((hcopied.written _).mpr (by omega))
  unfold Inode.InPage at this
  omega

/-- Where the file system moves something at every turn, the write of a page is right exactly for the pages that
begin in the file or at its end; for these it is right unless it stops at an empty buffer. -/
theorem isPageWrite_right_iff (is : InodePager) (fs : Fs) (ip : Inode) (pfBmap : Nat → Nat) (offset : Nat)
    (data : Nat → UInt8) (hp : is.paging = false) (ha : pageSize ∣ offset) (ho : offset < 2 ^ 32)
    (hi : ip.inodeSize < 2 ^ 32) :
    ((∀ as r, (∀ a ∈ as, a.Moves) → isPageWrite is fs ip pfBmap offset data as = some r →
        Right is.errors ip offset data r) ↔ ip.Clips offset) ∧
      (ip.Clips offset →
        (∀ answers : Nat → Answer, ∃ m,
          (isPageWrite is fs ip pfBmap offset data ((List.range' 0 m).map answers)).isSome) ∧
        ∀ as r, isPageWrite is fs ip pfBmap offset data as = some r →
          (Right is.errors ip offset data r ↔ offset = ip.inodeSize ∨ ∀ a ∈ as, a.Moves)) := by
  refine ⟨⟨fun hall => ?_, fun h as r hm hr => (h.right_iff hp ha hi hr).mpr (.inr hm)⟩,
    fun h => ⟨isPageWrite_returns h hp ha hi, fun as r hr => h.right_iff hp ha hi hr⟩⟩
  by_contra hno
  obtain ⟨as, r, hm, hr, hwrong⟩ : ∃ as r, (∀ a ∈ as, a.Moves) ∧
      isPageWrite is fs ip pfBmap offset data as = some r ∧ ¬Right is.errors ip offset data r := by
    by_cases hlast : offset + pageSize < 2 ^ 32
    · refine past_end_wrong fs data hp ha ho ?_ ?_
      · exact Nat.lt_of_not_le fun hle => hno ⟨hle, hlast⟩
      · unfold Inode.Clips at hno
        unfold clippedSize pageSize at *
        split <;> omega
    · exact last_page_wrong fs data hp ha ho (Nat.le_of_not_lt hlast) hi
  exact hwrong (hall as r hm hr)

/-- The pager of a mapped file. -/
def mappedFile : InodePager where
  swapfile := false
  paging := false
  pagingShift := 0
  errors := 0
  swap_paging := fun h => h
  shift_paging := fun _ => rfl

def wholeBlocks : Fs := ⟨12, 10, by decide⟩

/-- A file of 4096 bytes. -/
def onePageFile : Inode := ⟨4096, 4096, fun _ => 0⟩

/-- The first page of the file is written right. -/
theorem firstPage_right :
    ∃ r, isPageWrite mappedFile wholeBlocks onePageFile id 0 (fun _ => 1) [.buffer 4096] = some r ∧
      (Right 0 onePageFile 0 (fun _ => 1) r ↔ 0 = onePageFile.inodeSize ∨ ∀ a ∈ [Answer.buffer 4096], a.Moves) := by
  have h := (isPageWrite_right_iff mappedFile wholeBlocks onePageFile id 0 (fun _ => 1) rfl (Nat.dvd_zero _)
    (by decide) (by decide)).2 ⟨by decide, by decide⟩
  exact ⟨_, rfl, h.2 _ _ rfl⟩

/-- The file was truncated to one page, and the third page is written, with `i_size` raised to its end. And a
buffer comes back empty for the first page, and no error is counted. -/
theorem pastEnd_and_empty_wrong :
    (∃ r, isPageWrite mappedFile wholeBlocks onePageFile id 8192 (fun _ => 1) [.buffer 4096, .unmapped false] = some r ∧
      r.inode.iSize = 12288 ∧ ¬Right 0 onePageFile 8192 (fun _ => 1) r) ∧
    ∃ r, isPageWrite mappedFile wholeBlocks onePageFile id 0 (fun _ => 1) [.buffer 0] = some r ∧ r.errors = 0 ∧
      ¬Right 0 onePageFile 0 (fun _ => 1) r := by
  refine ⟨⟨_, rfl, by decide, fun h => ?_⟩, _, rfl, rfl, fun h => ?_⟩
  · exact absurd h.size (by decide)
  · obtain ⟨c, hc, _, hlt⟩ := h.all rfl 0 ⟨Nat.le_refl _, by decide⟩
    cases List.mem_singleton.mp hc
    exact absurd hlt (by decide)

end MachVM.InodeWrite
