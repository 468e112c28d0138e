import Mathlib.Algebra.Group.Nat.Defs

namespace Align

variable {w : Nat}

/-- An address rounded up to the next one with none of the bits of a mask. -/
def roundUp (c m : BitVec w) : BitVec w := (c + m) &&& ~~~m

variable {c m : BitVec w}

theorem and_roundUp : roundUp c m &&& m = 0#w := by
  rw [roundUp, BitVec.and_assoc, BitVec.and_comm (~~~m)]
  simp

theorem roundUp_zero : roundUp c 0 = c := by simp [roundUp]

/-- A word splits into the bits under a mask and the others. -/
theorem and_add_and_not (x m : BitVec w) : (x &&& m) + (x &&& ~~~m) = x := by
  have hd : (x &&& m) &&& (x &&& ~~~m) = 0#w := by
    ext i hi
    simp only [BitVec.getElem_and, BitVec.getElem_not, BitVec.getElem_zero]
    cases x[i] <;> cases m[i] <;> rfl
  rw [BitVec.add_eq_or_of_and_eq_zero _ _ hd]
  ext i hi
  simp only [BitVec.getElem_or, BitVec.getElem_and, BitVec.getElem_not]
  cases x[i] <;> cases m[i] <;> rfl

theorem and_not_toNat (x m : BitVec w) : (x &&& ~~~m).toNat = x.toNat - (x &&& m).toNat := by
  have hle : (x &&& m).toNat ≤ x.toNat := by
    rw [BitVec.toNat_and]
    exact Nat.and_le_left
  have hsub : x &&& ~~~m = x - (x &&& m) := by
    have h := and_add_and_not x m
    rw [← BitVec.add_sub_cancel (x &&& ~~~m) (x &&& m), BitVec.add_comm (x &&& ~~~m), h]
  rw [hsub, BitVec.toNat_sub_of_le (BitVec.le_def.mpr hle)]

theorem roundUp_toNat : (roundUp c m).toNat = (c + m).toNat - ((c + m) &&& m).toNat :=
  and_not_toNat (c + m) m

/-- Rounding up that does not wrap around. -/
theorem le_roundUp (h : c.toNat + m.toNat < 2 ^ w) : c ≤ roundUp c m := by
  have hle : ((c + m) &&& m).toNat ≤ m.toNat := by
    rw [BitVec.toNat_and]
    exact Nat.and_le_right
  rw [BitVec.le_def, roundUp_toNat, BitVec.toNat_add_of_lt h]
  omega

/-- Rounding up that wraps around ends below the address. -/
theorem roundUp_lt (h : 2 ^ w ≤ c.toNat + m.toNat) : roundUp c m < c := by
  have hc := c.isLt
  have hm := m.isLt
  rw [BitVec.lt_def, roundUp_toNat, BitVec.toNat_add, Nat.mod_eq_sub_mod h,
    Nat.mod_eq_of_lt (by omega)]
  omega

end Align
