/-
# The checksum of a packet

`NetCksum` of `net/net.c` adds words and folds the carry in. Up to multiples of 65535 it is
the sum of the words, so a packet passes `NetCksumOk` exactly if that sum is one, and the
complement of the checksum of a packet with zeros makes it pass.
-/

import UBoot.Net.Packet
import UBoot.Lib.Masks
import UBoot.Lib.Memory

namespace UBoot

open UBoot.Lib

/-- A `ushort` that is not in network order. -/
def hostBytes (x : BitVec 32) : List Byte := [x.setWidth 8, (x >>> 8).setWidth 8]

/-- The sum of the words, and of an odd byte at the end. -/
def wordSum : List Byte → Nat
  | b₀ :: b₁ :: p => b₀.toNat + 256 * b₁.toNat + wordSum p
  | [b] => b.toNat
  | [] => 0

theorem wordSum_cons_cons (b₀ b₁ : Byte) (p : List Byte) :
    wordSum (b₀ :: b₁ :: p) = b₀.toNat + 256 * b₁.toNat + wordSum p := rfl

theorem wordSum_append {xs : List Byte} (even : 2 ∣ xs.length) (ys : List Byte) :
    wordSum (xs ++ ys) = wordSum xs + wordSum ys := by
  induction xs using wordSum.induct with
  | case1 b₀ b₁ p ih =>
      have even' : 2 ∣ p.length := by
        simp only [List.length_cons] at even
        omega
      simp only [List.cons_append, wordSum_cons_cons, ih even']
      omega
  | case2 b => simp at even
  | case3 => exact (Nat.zero_add _).symm

theorem wordSum_le (xs : List Byte) : wordSum xs ≤ 65535 * ((xs.length + 1) / 2) := by
  induction xs using wordSum.induct with
  | case1 b₀ b₁ p ih =>
      have := b₀.isLt
      have := b₁.isLt
      simp only [wordSum_cons_cons, List.length_cons]
      omega
  | case2 b =>
      rw [List.length_singleton]
      exact (Nat.le_of_lt b.isLt).trans (by decide)
  | case3 => exact Nat.zero_le _

theorem toNat_ntohs (hi lo : Byte) : (ntohs hi lo).toNat = lo.toNat + 256 * hi.toNat := by
  have hi_lt := hi.isLt
  have disjoint := Nat.two_pow_add_eq_or_of_lt lo.isLt hi.toNat
  rw [ntohs, BitVec.toNat_or, BitVec.toNat_shiftLeft, BitVec.toNat_setWidth_of_le (by decide),
    BitVec.toNat_setWidth_of_le (by decide), Nat.shiftLeft_eq, Nat.mod_eq_of_lt (by omega),
    Nat.mul_comm, ← disjoint]
  omega

/-- The words that are added, when they do not overflow. -/
theorem cksumWords_toNat {n : Nat} {p : List Byte} (h : p.length = 2 * n) (small : n ≤ 65536) :
    (cksumWords n p).toNat = wordSum p := by
  induction n generalizing p with
  | zero =>
      obtain rfl : p = [] := List.length_eq_zero_iff.1 (by omega)
      rfl
  | succ n ih =>
      match p, h with
      | b₀ :: b₁ :: p, h =>
          have length : p.length = 2 * n := by
            simp only [List.length_cons] at h
            omega
          have bound := wordSum_le p
          have := b₀.isLt
          have := b₁.isLt
          rw [cksumWords, BitVec.toNat_add, ih length (by omega), BitVec.toNat_setWidth, toNat_ntohs,
            wordSum_cons_cons]
          omega

theorem foldCarry_toNat (x : BitVec 32) :
    (foldCarry x).toNat = x.toNat % 65536 + x.toNat / 65536 := by
  have := x.isLt
  rw [foldCarry, BitVec.toNat_add, and_low_toNat (k := 16) rfl, BitVec.toNat_ushiftRight,
    Nat.shiftRight_eq_div_pow]
  omega

/-- What is left when the carry is folded in. -/
structure IsFold (sum x : Nat) : Prop where
  le : x ≤ 65535
  mod : x % 65535 = sum % 65535
  zero : x = 0 → sum = 0

theorem NetCksum_isFold {n : Nat} {p : List Byte} (h : p.length = 2 * n) (small : n ≤ 65536) :
    IsFold (wordSum p) (NetCksum p n).toNat := by
  have lt := (cksumWords n p).isLt
  have mask : (NetCksum p n).toNat =
      (foldCarry (foldCarry (cksumWords n p))).toNat % 65536 :=
    and_low_toNat (k := 16) rfl _
  rw [foldCarry_toNat, foldCarry_toNat, cksumWords_toNat h small] at mask
  rw [cksumWords_toNat h small] at lt
  generalize folded : wordSum p % 65536 + wordSum p / 65536 = y at mask
  have once : y % 65535 = wordSum p % 65535 := by omega
  have bound : y ≤ 131070 := by omega
  rw [Nat.mod_eq_of_lt (by omega)] at mask
  exact ⟨by omega, by omega, by omega⟩

/-- The mask of `NetCksumOk`. -/
theorem and_fffe (y : Nat) : y &&& 0xfffe = 0 ↔ y / 2 % 32768 = 0 := by
  have low : (y &&& 0xfffe) % 2 = 0 := by
    rw [show (2 : Nat) = 2 ^ 1 from rfl, Nat.and_mod_two_pow]
    exact Nat.and_zero _
  have high : (y &&& 0xfffe) / 2 = y / 2 % 32768 := by
    have shifted := Nat.shiftRight_and_distrib (i := 1) (a := y) (b := 0xfffe)
    rw [Nat.shiftRight_eq_div_pow, Nat.shiftRight_eq_div_pow] at shifted
    rw [show y / 2 % 32768 = y / 2 ^ 1 % 2 ^ 15 from rfl, ← Nat.and_two_pow_sub_one_eq_mod]
    exact shifted
  omega

theorem NetCksumOk_iff {n : Nat} {p : List Byte} (h : p.length = 2 * n) (small : n ≤ 65536) :
    NetCksumOk p n = true ↔ 65535 ∣ wordSum p := by
  obtain ⟨le, mod, zero⟩ := NetCksum_isFold h small
  have ok : NetCksumOk p n = true ↔ (NetCksum p n).toNat = 0 ∨ (NetCksum p n).toNat = 65535 := by
    rw [NetCksumOk]
    generalize NetCksum p n = x at le
    have next : (x + 1).toNat = x.toNat + 1 := by
      rw [BitVec.toNat_add]
      exact Nat.mod_eq_of_lt (by simp; omega)
    have masked : (x + 1 &&& 0xfffe#32).toNat = (x.toNat + 1) &&& 0xfffe := by
      rw [BitVec.toNat_and, next]
      rfl
    rw [decide_eq_true_eq, ← BitVec.toNat_inj, masked]
    refine (and_fffe (x.toNat + 1)).trans ?_
    omega
  rw [ok]
  omega

/-- The checksum makes the sum whole. -/
theorem dvd_hostBytes {sum : Nat} {x : BitVec 32} (h : IsFold sum x.toNat) :
    65535 ∣ sum + wordSum (hostBytes (~~~ x)) := by
  have bytes : wordSum (hostBytes (~~~ x)) = 65535 - x.toNat := by
    have := x.isLt
    have := h.le
    simp only [hostBytes, wordSum, BitVec.toNat_setWidth, BitVec.toNat_ushiftRight, BitVec.toNat_not,
      Nat.shiftRight_eq_div_pow]
    omega
  have := h.mod
  have := h.le
  rw [bytes]
  omega

/-! ## Packets with a checksum -/

/-- A checksum that is stored where there were zeros makes the sum whole. -/
theorem dvd_store_checksum {m : Nat → Byte} {i pos words : Nat} (even : 2 ∣ pos)
    (room : pos + 2 ≤ 2 * words) (small : words ≤ 65536) (zero : slice m (i + pos) 2 = [0, 0]) :
    65535 ∣ wordSum (slice (store m (i + pos) (hostBytes (~~~ NetCksum (slice m i (2 * words)) words)))
      i (2 * words)) := by
  have fold := NetCksum_isFold (length_slice m i (2 * words)) small
  generalize NetCksum (slice m i (2 * words)) words = x at fold
  obtain ⟨r, hr⟩ := Nat.exists_eq_add_of_le room
  have cut : ∀ m : Nat → Byte, wordSum (slice m i (2 * words)) = wordSum (slice m i pos) +
      (wordSum (slice m (i + pos) 2) + wordSum (slice m (i + pos + 2) r)) := by
    intro m
    rw [hr, Nat.add_assoc, slice_append, slice_append, wordSum_append (by simpa using even),
      wordSum_append (by simp)]
  have sum := dvd_hostBytes fold
  rw [cut, zero] at sum
  have same : slice (store m (i + pos) (hostBytes (~~~ x))) (i + pos) 2 = hostBytes (~~~ x) :=
    slice_store_same rfl
  rw [cut, slice_store_beside (by simp), same, slice_store_beside (by
    simp only [hostBytes, List.length_cons, List.length_nil]
    omega)]
  have zeros : wordSum [(0 : Byte), 0] = 0 := rfl
  rw [zeros] at sum
  rwa [show ∀ a b c : Nat, a + (c + b) = a + (0 + b) + c by omega]

/-- A zero behind an odd number of bytes. -/
def padded (p : List Byte) : List Byte := if p.length % 2 = 0 then p else p ++ [0#8]

theorem wordSum_padded (p : List Byte) : wordSum (padded p) = wordSum p := by
  have zero : ∀ p : List Byte, p.length % 2 = 1 → wordSum (p ++ [0#8]) = wordSum p := by
    intro p
    induction p using wordSum.induct with
    | case1 b₀ b₁ p ih =>
        intro odd
        simp only [List.length_cons] at odd
        simp only [List.cons_append, wordSum, ih (by omega)]
    | case2 b => exact fun _ => by simp [wordSum]
    | case3 => exact fun odd => absurd odd (by decide)
  rw [padded]
  split
  · rfl
  · exact zero p (by omega)

theorem NetCksumOk_padded {p : List Byte} (h : p.length ≤ 65536) :
    NetCksumOk (padded p) ((padded p).length / 2) = true ↔ 65535 ∣ wordSum p := by
  have even : (padded p).length = 2 * ((padded p).length / 2) ∧ (padded p).length ≤ 65537 := by
    rw [padded]
    split
    · omega
    · rw [List.length_append, List.length_singleton]
      omega
  rw [NetCksumOk_iff even.1 (by omega), wordSum_padded]

end UBoot
