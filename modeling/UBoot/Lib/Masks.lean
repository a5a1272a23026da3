/-
# Masks

A mask and its complement split a word in two. Where the mask has the low bits of a word, the parts
are the remainder and the multiple of a division by a power of two.
-/

import Mathlib.Data.BitVec

namespace UBoot.Lib

variable {w k : Nat} {mask : BitVec w}

/-- What the complement of a mask leaves and what the mask leaves make up the word. -/
theorem and_not_add_and (x mask : BitVec w) :
    (x &&& ~~~mask).toNat + (x &&& mask).toNat = x.toNat := by
  have hapart : (x &&& ~~~mask) &&& (x &&& mask) = 0#w := by
    rw [BitVec.and_assoc, ← BitVec.and_assoc (~~~mask), BitVec.and_comm (~~~mask), BitVec.and_assoc,
      BitVec.not_and_self]
    simp
  have hboth : x &&& ~~~mask ||| x &&& mask = x := by
    rw [← BitVec.and_or_distrib_left, BitVec.or_comm, BitVec.or_not_self, BitVec.and_allOnes]
  rw [← BitVec.toNat_add_of_and_eq_zero hapart, BitVec.add_eq_or_of_and_eq_zero _ _ hapart, hboth]

theorem and_low_toNat (hmask : mask.toNat = 2 ^ k - 1) (x : BitVec w) :
    (x &&& mask).toNat = x.toNat % 2 ^ k := by
  rw [BitVec.toNat_and, hmask, Nat.and_two_pow_sub_one_eq_mod]

theorem and_low_eq_zero_iff (hmask : mask.toNat = 2 ^ k - 1) (x : BitVec w) :
    x &&& mask = 0#w ↔ x.toNat % 2 ^ k = 0 := by
  rw [← and_low_toNat hmask, ← BitVec.toNat_inj, BitVec.toNat_zero]

/-- Without its low bits, a word is rounded down. -/
theorem and_not_low_toNat (hmask : mask.toNat = 2 ^ k - 1) (x : BitVec w) :
    (x &&& ~~~mask).toNat = x.toNat / 2 ^ k * 2 ^ k := by
  have hsum := and_not_add_and x mask
  rw [and_low_toNat hmask] at hsum
  exact Nat.add_right_cancel (hsum.trans (Nat.div_add_mod' x.toNat (2 ^ k)).symm)

end UBoot.Lib
