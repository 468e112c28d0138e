import Mathlib.Algebra.Group.Nat.Defs
import MachVM.Lib.Runs

namespace MachVM.Ufs

open Runs

abbrev Byte := BitVec 8

/-- `NBBY`. -/
def nbby : Nat := 8

def howmany (x y : Nat) : Nat := (x + (y - 1)) / y

/-- Bit patterns for identifying fragments in the block map. -/
def around : List Nat := [0x3, 0x7, 0xf, 0x1f, 0x3f, 0x7f, 0xff, 0x1ff, 0x3ff]

def inside : List Nat := [0x0, 0x2, 0x6, 0xe, 0x1e, 0x3e, 0x7e, 0xfe, 0x1fe]

/-- The tables of the fragment sizes that a byte of the map has. -/
def fragtbl124 : List Byte :=
  [
    0x00, 0x16, 0x16, 0x2a, 0x16, 0x16, 0x26, 0x4e, 0x16, 0x16, 0x16, 0x3e, 0x2a, 0x3e, 0x4e, 0x8a,
    0x16, 0x16, 0x16, 0x3e, 0x16, 0x16, 0x36, 0x5e, 0x16, 0x16, 0x16, 0x3e, 0x3e, 0x3e, 0x5e, 0x9e,
    0x16, 0x16, 0x16, 0x3e, 0x16, 0x16, 0x36, 0x5e, 0x16, 0x16, 0x16, 0x3e, 0x3e, 0x3e, 0x5e, 0x9e,
    0x2a, 0x3e, 0x3e, 0x2a, 0x3e, 0x3e, 0x2e, 0x6e, 0x3e, 0x3e, 0x3e, 0x3e, 0x2a, 0x3e, 0x6e, 0xaa,
    0x16, 0x16, 0x16, 0x3e, 0x16, 0x16, 0x36, 0x5e, 0x16, 0x16, 0x16, 0x3e, 0x3e, 0x3e, 0x5e, 0x9e,
    0x16, 0x16, 0x16, 0x3e, 0x16, 0x16, 0x36, 0x5e, 0x16, 0x16, 0x16, 0x3e, 0x3e, 0x3e, 0x5e, 0x9e,
    0x26, 0x36, 0x36, 0x2e, 0x36, 0x36, 0x26, 0x6e, 0x36, 0x36, 0x36, 0x3e, 0x2e, 0x3e, 0x6e, 0xae,
    0x4e, 0x5e, 0x5e, 0x6e, 0x5e, 0x5e, 0x6e, 0x4e, 0x5e, 0x5e, 0x5e, 0x7e, 0x6e, 0x7e, 0x4e, 0xce,
    0x16, 0x16, 0x16, 0x3e, 0x16, 0x16, 0x36, 0x5e, 0x16, 0x16, 0x16, 0x3e, 0x3e, 0x3e, 0x5e, 0x9e,
    0x16, 0x16, 0x16, 0x3e, 0x16, 0x16, 0x36, 0x5e, 0x16, 0x16, 0x16, 0x3e, 0x3e, 0x3e, 0x5e, 0x9e,
    0x16, 0x16, 0x16, 0x3e, 0x16, 0x16, 0x36, 0x5e, 0x16, 0x16, 0x16, 0x3e, 0x3e, 0x3e, 0x5e, 0x9e,
    0x3e, 0x3e, 0x3e, 0x3e, 0x3e, 0x3e, 0x3e, 0x7e, 0x3e, 0x3e, 0x3e, 0x3e, 0x3e, 0x3e, 0x7e, 0xbe,
    0x2a, 0x3e, 0x3e, 0x2a, 0x3e, 0x3e, 0x2e, 0x6e, 0x3e, 0x3e, 0x3e, 0x3e, 0x2a, 0x3e, 0x6e, 0xaa,
    0x3e, 0x3e, 0x3e, 0x3e, 0x3e, 0x3e, 0x3e, 0x7e, 0x3e, 0x3e, 0x3e, 0x3e, 0x3e, 0x3e, 0x7e, 0xbe,
    0x4e, 0x5e, 0x5e, 0x6e, 0x5e, 0x5e, 0x6e, 0x4e, 0x5e, 0x5e, 0x5e, 0x7e, 0x6e, 0x7e, 0x4e, 0xce,
    0x8a, 0x9e, 0x9e, 0xaa, 0x9e, 0x9e, 0xae, 0xce, 0x9e, 0x9e, 0x9e, 0xbe, 0xaa, 0xbe, 0xce, 0x8a]

def fragtbl8 : List Byte :=
  [
    0x00, 0x01, 0x01, 0x02, 0x01, 0x01, 0x02, 0x04, 0x01, 0x01, 0x01, 0x03, 0x02, 0x03, 0x04, 0x08,
    0x01, 0x01, 0x01, 0x03, 0x01, 0x01, 0x03, 0x05, 0x02, 0x03, 0x03, 0x02, 0x04, 0x05, 0x08, 0x10,
    0x01, 0x01, 0x01, 0x03, 0x01, 0x01, 0x03, 0x05, 0x01, 0x01, 0x01, 0x03, 0x03, 0x03, 0x05, 0x09,
    0x02, 0x03, 0x03, 0x02, 0x03, 0x03, 0x02, 0x06, 0x04, 0x05, 0x05, 0x06, 0x08, 0x09, 0x10, 0x20,
    0x01, 0x01, 0x01, 0x03, 0x01, 0x01, 0x03, 0x05, 0x01, 0x01, 0x01, 0x03, 0x03, 0x03, 0x05, 0x09,
    0x01, 0x01, 0x01, 0x03, 0x01, 0x01, 0x03, 0x05, 0x03, 0x03, 0x03, 0x03, 0x05, 0x05, 0x09, 0x11,
    0x02, 0x03, 0x03, 0x02, 0x03, 0x03, 0x02, 0x06, 0x03, 0x03, 0x03, 0x03, 0x02, 0x03, 0x06, 0x0a,
    0x04, 0x05, 0x05, 0x06, 0x05, 0x05, 0x06, 0x04, 0x08, 0x09, 0x09, 0x0a, 0x10, 0x11, 0x20, 0x40,
    0x01, 0x01, 0x01, 0x03, 0x01, 0x01, 0x03, 0x05, 0x01, 0x01, 0x01, 0x03, 0x03, 0x03, 0x05, 0x09,
    0x01, 0x01, 0x01, 0x03, 0x01, 0x01, 0x03, 0x05, 0x03, 0x03, 0x03, 0x03, 0x05, 0x05, 0x09, 0x11,
    0x01, 0x01, 0x01, 0x03, 0x01, 0x01, 0x03, 0x05, 0x01, 0x01, 0x01, 0x03, 0x03, 0x03, 0x05, 0x09,
    0x03, 0x03, 0x03, 0x03, 0x03, 0x03, 0x03, 0x07, 0x05, 0x05, 0x05, 0x07, 0x09, 0x09, 0x11, 0x21,
    0x02, 0x03, 0x03, 0x02, 0x03, 0x03, 0x02, 0x06, 0x03, 0x03, 0x03, 0x03, 0x02, 0x03, 0x06, 0x0a,
    0x03, 0x03, 0x03, 0x03, 0x03, 0x03, 0x03, 0x07, 0x02, 0x03, 0x03, 0x02, 0x06, 0x07, 0x0a, 0x12,
    0x04, 0x05, 0x05, 0x06, 0x05, 0x05, 0x06, 0x04, 0x05, 0x05, 0x05, 0x07, 0x06, 0x07, 0x04, 0x0c,
    0x08, 0x09, 0x09, 0x0a, 0x09, 0x09, 0x0a, 0x0c, 0x10, 0x11, 0x11, 0x12, 0x20, 0x21, 0x40, 0x80]

/-- `fragtbl`, whose other places are null. -/
def fragtbl : Nat → List Byte
  | 1 | 2 | 4 => fragtbl124
  | 8 => fragtbl8
  | _ => []

/-- The bytes of a map. -/
abbrev BitMap := Nat → Byte

namespace BitMap

variable (m : BitMap)

def isset (i : Nat) : Bool := (m (i / nbby)).getLsbD (i % nbby)

def setbit (i : Nat) : BitMap := Function.update m (i / nbby) (m (i / nbby) ||| 1#8 <<< (i % nbby))

def clrbit (i : Nat) : BitMap := Function.update m (i / nbby) (m (i / nbby) &&& ~~~(1#8 <<< (i % nbby)))

/-- The loops that set or clear `n` bits from `i` on. -/
def setbits (i : Nat) : Nat → BitMap
  | 0 => m
  | n + 1 => (setbits i n).setbit (i + n)

def clrbits (i : Nat) : Nat → BitMap
  | 0 => m
  | n + 1 => (clrbits i n).clrbit (i + n)

end BitMap

/-- The bits of a block from a map. -/
def blkmap (frag : Nat) (m : BitMap) (loc : Nat) : Byte := m (loc / nbby) >>> (loc % nbby) &&& 0xff#8 >>> (nbby - frag)

section Blocks

variable (frag : Nat) (m : BitMap) (h : Nat)

def isblock : Bool :=
  match frag with
  | 8 => m h = 0xff#8
  | 4 => m (h / 2) &&& 0x0f#8 <<< (h % 2 * 4) = 0x0f#8 <<< (h % 2 * 4)
  | 2 => m (h / 4) &&& 0x03#8 <<< (h % 4 * 2) = 0x03#8 <<< (h % 4 * 2)
  | 1 => m (h / 8) &&& 0x01#8 <<< (h % 8) = 0x01#8 <<< (h % 8)
  | _ => false

def clrblock : BitMap :=
  match frag with
  | 8 => Function.update m h 0
  | 4 => Function.update m (h / 2) (m (h / 2) &&& ~~~(0x0f#8 <<< (h % 2 * 4)))
  | 2 => Function.update m (h / 4) (m (h / 4) &&& ~~~(0x03#8 <<< (h % 4 * 2)))
  | 1 => Function.update m (h / 8) (m (h / 8) &&& ~~~(0x01#8 <<< (h % 8)))
  | _ => m

def setblock : BitMap :=
  match frag with
  | 8 => Function.update m h 0xff
  | 4 => Function.update m (h / 2) (m (h / 2) ||| 0x0f#8 <<< (h % 2 * 4))
  | 2 => Function.update m (h / 4) (m (h / 4) ||| 0x03#8 <<< (h % 4 * 2))
  | 1 => Function.update m (h / 8) (m (h / 8) ||| 0x01#8 <<< (h % 8))
  | _ => m

end Blocks

/-- Whether the pattern of a block has a free run of exactly `siz` fragments at `pos`. -/
def runAt (blk siz pos : Nat) : Bool := (blk <<< 1) &&& (around.getD siz 0 <<< pos) == inside.getD siz 0 <<< pos

/-- The bytes in which the table has the size. -/
def hasFrag (frag siz : Nat) (b : Byte) : Bool :=
  (fragtbl frag).getD b.toNat 0 &&& 1#8 <<< (siz - 1 + frag % nbby) ≠ 0#8

/-- The bytes that are left when one is found that satisfies a condition, as `scanc` and `skpc` return them. -/
def scanc (p : Byte → Bool) (m : BitMap) (start : Nat) : Nat → Nat
  | 0 => 0
  | n + 1 => if p (m start) then n + 1 else scanc p m (start + 1) n

/-- How many times `fragacct` adds `cnt` to the place `siz` of `fraglist`. -/
def fragacct (frag : Nat) (fragmap : Byte) (siz : Nat) : Nat :=
  if 1 ≤ siz ∧ siz < frag ∧ hasFrag frag siz fragmap then
    scan (runAt fragmap.toNat siz) (frag - siz) siz (frag + 1) 0
  else 0

section Bits

variable {m : BitMap} {x y : Byte} {b s w lo : Nat}

theorem one_shl {j : Nat} (k : Nat) (hj : j < 8) : (1#8 <<< j).getLsbD k = decide (k = j) := by
  rw [BitVec.getLsbD_shiftLeft, BitVec.getLsbD_one, Bool.eq_iff_iff]
  simp only [Bool.and_eq_true, Bool.not_eq_true', decide_eq_true_eq, decide_eq_false_iff_not]
  omega

theorem ones_getLsbD : ∀ p ∈ [(0x01#8, 1), (0x03#8, 2), (0x0f#8, 4), (0xff#8, 8)], ∀ i : Nat,
    p.1.getLsbD i = decide (i < p.2) := by
  intro p hp i
  by_cases hi : i < 8
  · have hall : ∀ p ∈ [(0x01#8, 1), (0x03#8, 2), (0x0f#8, 4), (0xff#8, 8)], ∀ i < 8,
        p.1.getLsbD i = decide (i < p.2) := by decide
    exact hall p hp i hi
  · have hle : ∀ p ∈ [(0x01#8, 1), (0x03#8, 2), (0x0f#8, 4), (0xff#8, 8)], p.2 ≤ 8 := by decide
    have := hle p hp
    rw [BitVec.getLsbD_of_ge _ _ (by omega), decide_eq_false (by omega)]

theorem isset_update {v : Bool} (hp : ∀ j, j / 8 = b ∧ s ≤ j % 8 ∧ j % 8 < s + w ↔ lo ≤ j ∧ j < lo + w)
    (hy : ∀ k < 8, y.getLsbD k = if s ≤ k ∧ k < s + w then v else (m b).getLsbD k) :
    BitMap.isset (Function.update m b y) = fill m.isset lo w v := by
  funext j
  unfold BitMap.isset fill nbby
  by_cases hb : j / 8 = b
  · rw [hb, Function.update_self, hy _ (Nat.mod_lt _ (by omega))]
    exact if_congr ⟨fun h => (hp j).mp ⟨hb, h⟩, fun h => ((hp j).mpr h).2⟩ rfl (by simp only [hb])
  · rw [Function.update_of_ne hb, if_neg fun h => hb ((hp j).mpr h).1]

variable (hx : ∀ i, x.getLsbD i = decide (i < w))
  (hp : ∀ j, j / 8 = b ∧ s ≤ j % 8 ∧ j % 8 < s + w ↔ lo ≤ j ∧ j < lo + w)

include hx

theorem mask_shl {k : Nat} (hk : k < 8) : (x <<< s).getLsbD k = decide (s ≤ k ∧ k < s + w) := by
  rw [BitVec.getLsbD_shiftLeft, hx, Bool.eq_iff_iff]
  simp only [Bool.and_eq_true, Bool.not_eq_true', decide_eq_true_eq, decide_eq_false_iff_not]
  omega

include hp

theorem isset_clear : BitMap.isset (Function.update m b (m b &&& ~~~(x <<< s))) = fill m.isset lo w false := by
  refine isset_update hp fun k hk => ?_
  rw [BitVec.getLsbD_and, BitVec.getLsbD_not, decide_eq_true hk, mask_shl hx hk]
  split <;> simp [*]

theorem isset_fill : BitMap.isset (Function.update m b (m b ||| x <<< s)) = fill m.isset lo w true := by
  refine isset_update hp fun k hk => ?_
  rw [BitVec.getLsbD_or, mask_shl hx hk]
  split <;> simp [*]

theorem mask_iff : m b &&& x <<< s = x <<< s ↔ ∀ k < w, m.isset (lo + k) = true := by
  have hmask : m b &&& x <<< s = x <<< s ↔ ∀ j, lo ≤ j ∧ j < lo + w → m.isset j = true := by
    constructor
    · intro h j hj
      obtain ⟨hb, hin⟩ := (hp j).mpr hj
      have hk : j % 8 < 8 := Nat.mod_lt _ (by omega)
      have hbit := congrArg (fun y => y.getLsbD (j % 8)) h
      simp only [BitVec.getLsbD_and, mask_shl hx hk, decide_eq_true hin, Bool.and_true] at hbit
      unfold BitMap.isset nbby
      rw [hb, hbit]
    · intro h
      refine BitVec.eq_of_getLsbD_eq fun k hk => ?_
      rw [BitVec.getLsbD_and, mask_shl hx hk]
      by_cases hin : s ≤ k ∧ k < s + w
      · have hplace : (8 * b + k) / 8 = b ∧ (8 * b + k) % 8 = k := by omega
        have hset := h (8 * b + k) ((hp _).mp (by rw [hplace.1, hplace.2]; exact ⟨rfl, hin⟩))
        unfold BitMap.isset nbby at hset
        rw [hplace.1, hplace.2] at hset
        rw [hset, Bool.true_and]
      · rw [decide_eq_false hin, Bool.and_false]
  rw [hmask]
  constructor
  · exact fun h k hk => h _ (by omega)
  · intro h j hj
    have := h (j - lo) (by omega)
    rwa [Nat.add_sub_cancel' hj.1] at this

end Bits

section Loops

variable (m : BitMap) (i n : Nat)

theorem isset_setbit : (m.setbit i).isset = fill m.isset i 1 true :=
  isset_fill (ones_getLsbD (0x01#8, 1) (by decide)) (by unfold nbby; omega)

theorem isset_clrbit : (m.clrbit i).isset = fill m.isset i 1 false :=
  isset_clear (ones_getLsbD (0x01#8, 1) (by decide)) (by unfold nbby; omega)

theorem isset_setbits : (m.setbits i n).isset = fill m.isset i n true := by
  induction n with
  | zero => exact funext fun j => (fill_outside (by omega)).symm
  | succ n ih => rw [BitMap.setbits, isset_setbit, ih, fill_fill]

theorem isset_clrbits : (m.clrbits i n).isset = fill m.isset i n false := by
  induction n with
  | zero => exact funext fun j => (fill_outside (by omega)).symm
  | succ n ih => rw [BitMap.clrbits, isset_clrbit, ih, fill_fill]

end Loops

/-- The sizes of a block in fragments. -/
def FragOk (frag : Nat) : Prop := frag = 1 ∨ frag = 2 ∨ frag = 4 ∨ frag = 8

section Patterns

variable {frag : Nat} (hf : FragOk frag) (m : BitMap) (h : Nat)

include hf

theorem isset_clrblock : (clrblock frag m h).isset = fill m.isset (h * frag) frag false := by
  rcases hf with rfl | rfl | rfl | rfl
  · exact isset_clear (ones_getLsbD (0x01#8, 1) (by decide)) (by omega)
  · exact isset_clear (ones_getLsbD (0x03#8, 2) (by decide)) (by omega)
  · exact isset_clear (ones_getLsbD (0x0f#8, 4) (by decide)) (by omega)
  · have hzero : m h &&& ~~~(0xff#8 <<< 0) = 0 := BitVec.and_zero
    rw [← isset_clear (m := m) (b := h) (s := 0) (ones_getLsbD (0xff#8, 8) (by decide)) (by omega), hzero]
    rfl

theorem isset_setblock : (setblock frag m h).isset = fill m.isset (h * frag) frag true := by
  rcases hf with rfl | rfl | rfl | rfl
  · exact isset_fill (ones_getLsbD (0x01#8, 1) (by decide)) (by omega)
  · exact isset_fill (ones_getLsbD (0x03#8, 2) (by decide)) (by omega)
  · exact isset_fill (ones_getLsbD (0x0f#8, 4) (by decide)) (by omega)
  · have hones : m h ||| 0xff#8 <<< 0 = 0xff := BitVec.or_allOnes
    rw [← isset_fill (m := m) (b := h) (s := 0) (ones_getLsbD (0xff#8, 8) (by decide)) (by omega), hones]
    rfl

theorem isblock_iff : isblock frag m h = true ↔ ∀ k < frag, m.isset (h * frag + k) = true := by
  rcases hf with rfl | rfl | rfl | rfl
  · exact decide_eq_true_iff.trans (mask_iff (ones_getLsbD (0x01#8, 1) (by decide)) (by omega))
  · exact decide_eq_true_iff.trans (mask_iff (ones_getLsbD (0x03#8, 2) (by decide)) (by omega))
  · exact decide_eq_true_iff.trans (mask_iff (ones_getLsbD (0x0f#8, 4) (by decide)) (by omega))
  · rw [← mask_iff (m := m) (b := h) (s := 0) (ones_getLsbD (0xff#8, 8) (by decide)) (by omega)]
    have hand : m h &&& 0xff#8 <<< 0 = m h := BitVec.and_allOnes
    rw [hand]
    exact decide_eq_true_iff

theorem blkmap_getLsbD (k : Nat) :
    (blkmap frag m (h * frag)).getLsbD k = (decide (k < frag) && m.isset (h * frag + k)) := by
  unfold blkmap BitMap.isset nbby
  rw [BitVec.getLsbD_and, BitVec.getLsbD_ushiftRight, BitVec.getLsbD_ushiftRight,
    ones_getLsbD (0xff#8, 8) (by decide), Bool.and_comm]
  have hle : frag ≤ 8 := by
    rcases hf with rfl | rfl | rfl | rfl <;> decide
  by_cases hk : k < frag
  · have hplace : (h * frag + k) / 8 = h * frag / 8 ∧ (h * frag + k) % 8 = h * frag % 8 + k := by
      rcases hf with rfl | rfl | rfl | rfl <;> omega
    rw [decide_eq_true (by omega), decide_eq_true hk, hplace.1, hplace.2]
  · rw [decide_eq_false (by omega), decide_eq_false hk, Bool.false_and, Bool.false_and]

end Patterns

section Tables

theorem patterns_all : ∀ siz < 9, around.getD siz 0 = 2 ^ (siz + 2) - 1 ∧ inside.getD siz 0 = (2 ^ siz - 1) <<< 1 := by
  decide

theorem runAt_iff {blk siz pos : Nat} (hs : siz ≤ 8) : runAt blk siz pos = true ↔ IsRun blk.testBit pos siz := by
  obtain ⟨ha, hi⟩ := patterns_all siz (by omega)
  have hbit : runAt blk siz pos = true ↔ ∀ i, (decide (1 ≤ i) && blk.testBit (i - 1) && (decide (pos ≤ i) &&
      decide (i - pos < siz + 2))) = (decide (pos ≤ i) && (decide (1 ≤ i - pos) && decide (i - pos - 1 < siz))) := by
    unfold runAt
    rw [ha, hi, beq_iff_eq]
    simp only [← Nat.testBit_shiftLeft, ← Nat.testBit_two_pow_sub_one, ← Nat.testBit_and]
    exact ⟨fun h i => congrArg (fun n => n.testBit i) h, Nat.eq_of_testBit_eq⟩
  rw [hbit]
  constructor
  · intro h
    refine ⟨fun k hk => ?_, ?_, ?_⟩
    · have := h (pos + k + 1)
      simpa [show 1 ≤ pos + k + 1 - pos by omega, show pos + k + 1 - pos < siz + 2 by omega,
        show pos + k + 1 - pos - 1 < siz by omega, show pos ≤ pos + k + 1 by omega] using this
    · have := h (pos + siz + 1)
      simpa [show pos + siz + 1 - pos < siz + 2 by omega, show ¬pos + siz + 1 - pos - 1 < siz by omega,
        show pos ≤ pos + siz + 1 by omega] using this
    · have := h pos
      refine (Nat.eq_zero_or_pos pos).imp_right fun hpos => ?_
      simpa [show 1 ≤ pos from hpos] using this
  · intro h i
    rw [Bool.eq_iff_iff]
    simp only [Bool.and_eq_true, decide_eq_true_eq]
    constructor
    · rintro ⟨⟨h1, hb⟩, hp, hlt⟩
      have hin : 1 ≤ i - pos := by
        by_contra h0
        rw [h.before (p := i - 1) (by omega)] at hb
        cases hb
      refine ⟨hp, hin, ?_⟩
      · by_contra hlen
        have := h.2.1
        rw [show pos + siz = i - 1 by omega, hb] at this
        cases this
    · rintro ⟨hp, h1, hlt⟩
      exact ⟨⟨by omega, h.set (by omega) (by omega)⟩, hp, by omega⟩

/-- A byte of the table for the runs of each block in the byte. -/
def tableFits (frag : Nat) : Bool :=
  (fragtbl frag).zipIdx.all fun e => (List.range' 1 frag).all fun siz =>
    Nat.testBit e.1.toNat (siz - 1 + frag % nbby) == (List.range (nbby / frag)).any fun q =>
      (List.range (frag + 1 - siz)).any fun pos => runAt (e.2 >>> (q * frag) &&& (2 ^ frag - 1)) siz pos

theorem tables_fit : ∀ frag ∈ [1, 2, 4, 8], (fragtbl frag).length = 256 ∧ tableFits frag = true := by
  decide +kernel

variable {frag siz : Nat}

theorem isRun_last {f : Nat → Bool} {pos : Nat} (hout : ∀ i, frag ≤ i → f i = false) (hs : 0 < siz)
    (h : IsRun f pos siz) : pos + siz ≤ frag := by
  by_contra hlong
  have := h.set (p := pos + siz - 1) (by omega) (by omega)
  rw [hout _ (by omega)] at this
  cases this

variable (hf : FragOk frag)

include hf

theorem FragOk.mem : frag ∈ [1, 2, 4, 8] := by
  rcases hf with rfl | rfl | rfl | rfl <;> decide

theorem FragOk.pos : 0 < frag := by
  rcases hf with rfl | rfl | rfl | rfl <;> decide

theorem FragOk.le : frag ≤ 8 := by
  rcases hf with rfl | rfl | rfl | rfl <;> decide

theorem hasFrag_testBit (hs : 0 < siz) (hle : siz ≤ frag) (b : Byte) :
    hasFrag frag siz b = ((fragtbl frag).getD b.toNat 0).toNat.testBit (siz - 1 + frag % nbby) := by
  have hn : siz - 1 + frag % nbby < 8 := by
    unfold nbby
    rcases hf with rfl | rfl | rfl | rfl <;> omega
  unfold hasFrag
  generalize (fragtbl frag).getD b.toNat 0 = x
  rw [BitVec.testBit_toNat, Bool.eq_iff_iff, decide_eq_true_iff, ← not_iff_not, Decidable.not_not]
  constructor
  · intro h
    have := congrArg (fun y => y.getLsbD (siz - 1 + frag % nbby)) h
    simp only [BitVec.getLsbD_and, one_shl _ hn, decide_true, Bool.and_true, BitVec.getLsbD_zero] at this
    simp [this]
  · intro h
    refine BitVec.eq_of_getLsbD_eq fun k _ => ?_
    rw [BitVec.getLsbD_and, one_shl _ hn, BitVec.getLsbD_zero]
    by_cases hk : k = siz - 1 + frag % nbby
    · rw [hk, (Bool.not_eq_true _).mp h, Bool.false_and]
    · rw [decide_eq_false hk, Bool.and_false]

theorem hasFrag_iff (hs : 0 < siz) (hle : siz ≤ frag) (b : Byte) :
    hasFrag frag siz b = true ↔
      ∃ q < nbby / frag, ∃ pos < frag + 1 - siz, IsRun (fun i => decide (i < frag) && b.getLsbD (q * frag + i)) pos siz := by
  obtain ⟨hlen, hfits⟩ := tables_fit frag hf.mem
  have hidx : b.toNat < (fragtbl frag).length := hlen ▸ b.isLt
  have hmem : ((fragtbl frag)[b.toNat], b.toNat) ∈ (fragtbl frag).zipIdx := by
    rw [List.mk_mem_zipIdx_iff_getElem?, List.getElem?_eq_getElem hidx]
  have hfit := List.all_eq_true.mp (List.all_eq_true.mp hfits _ hmem) siz
    (List.mem_range'_1.mpr (by omega))
  rw [hasFrag_testBit hf hs hle, List.getD_eq_getElem?_getD, List.getElem?_eq_getElem hidx, Option.getD_some,
    beq_iff_eq.mp hfit]
  simp only [List.any_eq_true, List.mem_range, runAt_iff (hle.trans hf.le)]
  refine exists_congr fun q => and_congr_right fun _ => exists_congr fun pos => and_congr_right fun _ => ?_
  refine isRun_congr fun i => ?_
  rw [Nat.testBit_and, Nat.testBit_shiftRight, Nat.testBit_two_pow_sub_one, Bool.and_comm, BitVec.testBit_toNat]

theorem fragacct_runs {p : Byte} (hout : ∀ i, frag ≤ i → p.getLsbD i = false) (hs : 0 < siz) (hlt : siz < frag) :
    fragacct frag p siz = runs frag p.getLsbD siz := by
  have hrun : ∀ pos, runAt p.toNat siz pos = true ↔ IsRun p.getLsbD pos siz := fun pos => by
    rw [runAt_iff (by have := hf.le; omega)]
    exact isRun_congr fun i => BitVec.testBit_toNat p
  have hend : ∀ pos, frag - siz < pos → ¬IsRun p.getLsbD pos siz := fun pos hpos h => by
    have := isRun_last hout hs h
    omega
  unfold fragacct
  split
  next h =>
    have hscan := @scan_tally (runAt p.toNat siz) (frag - siz) siz
      (fun q hq => (Bool.not_eq_true _).mp fun h => hend q hq ((hrun q).mp h))
      (fun q k hq hk => (Bool.not_eq_true _).mp fun h => by
        have := ((hrun q).mp hq).apart ((hrun _).mp h) (by omega)
        omega) (frag + 1) 0 (by omega)
    rw [Tally.tally_zero, Nat.add_zero] at hscan
    rw [hscan]
    unfold runs
    rw [Tally.tally_of_le (n := frag - siz + 1) (m := frag) (by omega)
      fun x hx => decide_eq_false (hend x (by omega))]
    refine Tally.tally_congr fun x _ => ?_
    rw [Bool.eq_iff_iff, hrun, decide_eq_true_iff]
  next h =>
    refine ((Tally.tally_eq_zero ..).mpr fun x _ => decide_eq_false fun hx => h ⟨hs, hlt, ?_⟩).symm
    refine (hasFrag_iff hf hs (Nat.le_of_lt hlt) p).mpr ⟨0, ?_, x, ?_, ?_⟩
    · unfold nbby
      rcases hf with rfl | rfl | rfl | rfl <;> decide
    · have := isRun_last hout hs hx
      omega
    · refine (isRun_congr fun i => ?_).mp hx
      rw [Nat.zero_mul, Nat.zero_add]
      by_cases hi : i < frag
      · rw [decide_eq_true hi, Bool.true_and]
      · rw [decide_eq_false hi, Bool.false_and, hout i (by omega)]

end Tables

end MachVM.Ufs
