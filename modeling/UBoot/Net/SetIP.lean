/-
# The header that `NetSetIP` builds

`NetSetIP` and `NetCksum` of `net/net.c` on a machine of either byte order. A word in memory is
two bytes in the order of the machine, `htons` turns it where the machine is little-endian, and the
checksum is stored as the machine has it. In the other order every word is turned, so that the
sums here are those of `NetCksum` over the bytes in turned pairs.
-/

import UBoot.Net.Checksum

namespace UBoot.SetIP

open UBoot.Lib

/-- A `ushort` in memory. -/
def ushort (big : Bool) (x : BitVec 16) : List Byte :=
  if big then [(x >>> 8).setWidth 8, x.setWidth 8] else [x.setWidth 8, (x >>> 8).setWidth 8]

/-- A `ulong` in memory. -/
def ulong (big : Bool) (x : BitVec 32) : List Byte :=
  if big then ushort big (x.extractLsb' 16 16) ++ ushort big (x.setWidth 16)
  else ushort big (x.setWidth 16) ++ ushort big (x.extractLsb' 16 16)

/-- `htons` -/
def htons (big : Bool) (x : BitVec 16) : BitVec 16 := if big then x else x >>> 8 ||| x <<< 8

/-- `xsum += *p++`, a number of times. -/
def cksumWords (big : Bool) : Nat → List Byte → BitVec 32
  | n + 1, b₀ :: b₁ :: p =>
      (if big then ntohs b₀ b₁ else ntohs b₁ b₀).setWidth 32 + cksumWords big n p
  | _, _ => 0

/-- `NetCksum` of `len` words. -/
def NetCksum (big : Bool) (ptr : List Byte) (len : Nat) : BitVec 32 :=
  foldCarry (foldCarry (cksumWords big len ptr)) &&& 0xffff#32

/-- `NetCksumOk` -/
def NetCksumOk (big : Bool) (ptr : List Byte) (len : Nat) : Bool :=
  (NetCksum big ptr len + 1) &&& 0xfffe#32 = 0

/-- The variables of `net/net.c` that a header is built from. -/
structure Stack where
  /-- `NetOurIP`, in network order -/
  NetOurIP : BitVec 32
  NetIPID : BitVec 32

/-- `IP_FLAGS_DFRAG` -/
def IP_FLAGS_DFRAG : BitVec 16 := 0x4000

/-- `NetSetIP` of a packet at `xip`. An `int` is its 32 bits. -/
def NetSetIP (big : Bool) (s : Stack) (xip : Nat) (dest dport sport len : BitVec 32)
    (m : Nat → Byte) : (Nat → Byte) × Stack :=
  let m := if len &&& 1 = 1 then
    store m ((xip + (BitVec.ofNat 32 IP_HDR_SIZE + len).toNat) % 2 ^ 32) [0] else m
  let m := store m xip [0x45]
  let m := store m (xip + 1) [0]
  let m := store m (xip + 2)
    (ushort big (htons big ((BitVec.ofNat 32 IP_HDR_SIZE + len).setWidth 16)))
  let m := store m (xip + 4) (ushort big (htons big (s.NetIPID.setWidth 16)))
  let m := store m (xip + 6) (ushort big (htons big IP_FLAGS_DFRAG))
  let m := store m (xip + 8) [255]
  let m := store m (xip + 9) [17]
  let m := store m (xip + 10) (ushort big 0)
  let m := store m (xip + 12) (ulong big s.NetOurIP)
  let m := store m (xip + 16) (ulong big dest)
  let m := store m (xip + 20) (ushort big (htons big (sport.setWidth 16)))
  let m := store m (xip + 22) (ushort big (htons big (dport.setWidth 16)))
  let m := store m (xip + 24) (ushort big (htons big ((8 + len).setWidth 16)))
  let m := store m (xip + 26) (ushort big 0)
  let sum := NetCksum big (slice m xip IP_HDR_SIZE_NO_UDP) (IP_HDR_SIZE_NO_UDP / 2)
  (store m (xip + 10) (ushort big ((~~~ sum).setWidth 16)),
    { s with NetIPID := s.NetIPID + 1 })

/-! ## The order of the machine -/

/-- The words of a packet with the low byte in front. -/
def inOrder (big : Bool) : List Byte → List Byte
  | b₀ :: b₁ :: p => if big then b₁ :: b₀ :: inOrder big p else b₀ :: b₁ :: inOrder big p
  | p => p

@[simp] theorem length_ushort (big : Bool) (x : BitVec 16) : (ushort big x).length = 2 := by
  cases big <;> rfl

@[simp] theorem length_ulong (big : Bool) (x : BitVec 32) : (ulong big x).length = 4 := by
  cases big <;> rfl

/-- What goes over the wire has the high byte in front, whatever the machine. -/
theorem ushort_htons (big : Bool) (x : BitVec 16) : ushort big (htons big x) = UBoot.htons x := by
  cases big with
  | true => rfl
  | false =>
      rw [ushort, htons, UBoot.htons, if_neg Bool.false_ne_true, if_neg Bool.false_ne_true]
      congr 1
      · ext i hi
        simp
      · congr 1
        ext i hi
        have hhigh : x.getLsbD (8 + (8 + i)) = false := x.getLsbD_of_ge _ (by omega)
        have hlow : 8 + i < 16 := by omega
        simp [hhigh, hlow, ← BitVec.getLsbD_eq_getElem]

@[simp] theorem length_inOrder (big : Bool) (p : List Byte) :
    (inOrder big p).length = p.length := by
  fun_induction inOrder big p with
  | case1 b₀ b₁ p hbig ih => simp [ih]
  | case2 b₀ b₁ p hbig ih => simp [ih]
  | case3 p hshort => rfl

theorem inOrder_append (big : Bool) {xs : List Byte} (even : 2 ∣ xs.length) (ys : List Byte) :
    inOrder big (xs ++ ys) = inOrder big xs ++ inOrder big ys := by
  induction xs using wordSum.induct with
  | case1 b₀ b₁ p ih =>
      have even' : 2 ∣ p.length := by
        simp only [List.length_cons] at even
        omega
      cases big <;> simp [inOrder, ih even']
  | case2 b => simp at even
  | case3 => rfl

theorem cksumWords_inOrder (big : Bool) (n : Nat) (p : List Byte) :
    cksumWords big n p = UBoot.cksumWords n (inOrder big p) := by
  induction n generalizing p with
  | zero => rfl
  | succ n ih =>
      match p with
      | [] => rfl
      | [b] => rfl
      | b₀ :: b₁ :: p => cases big <;> simp [cksumWords, inOrder, UBoot.cksumWords, ih]

theorem NetCksum_inOrder (big : Bool) (p : List Byte) (n : Nat) :
    NetCksum big p n = UBoot.NetCksum (inOrder big p) n := by
  rw [NetCksum, cksumWords_inOrder]
  rfl

/-- The sum of the words as the machine reads them. -/
def sumOf (big : Bool) (p : List Byte) : Nat := wordSum (inOrder big p)

theorem sumOf_append (big : Bool) {xs : List Byte} (even : 2 ∣ xs.length) (ys : List Byte) :
    sumOf big (xs ++ ys) = sumOf big xs + sumOf big ys := by
  rw [sumOf, inOrder_append big even, wordSum_append (by simpa using even)]
  rfl

theorem sumOf_ushort (big : Bool) (x : BitVec 16) : sumOf big (ushort big x) = x.toNat := by
  have := x.isLt
  cases big
  all_goals
    simp only [sumOf, ushort, inOrder, wordSum, if_true, if_neg Bool.false_ne_true,
      BitVec.toNat_setWidth, BitVec.toNat_ushiftRight, Nat.shiftRight_eq_div_pow]
    omega

theorem NetCksumOk_iff (big : Bool) {n : Nat} {p : List Byte} (h : p.length = 2 * n)
    (small : n ≤ 65536) : NetCksumOk big p n = true ↔ 65535 ∣ sumOf big p := by
  rw [NetCksumOk, NetCksum_inOrder]
  exact UBoot.NetCksumOk_iff ((length_inOrder big p).trans h) small

/-! ## The checksum of a header -/

/-- The complement of the checksum makes the sum whole. -/
theorem dvd_complement (big : Bool) {n : Nat} {p : List Byte} (h : p.length = 2 * n)
    (small : n ≤ 65536) :
    65535 ∣ sumOf big p + ((~~~ NetCksum big p n).setWidth 16 : BitVec 16).toNat := by
  have fold := NetCksum_isFold ((length_inOrder big p).trans h) small
  rw [NetCksum_inOrder, BitVec.toNat_setWidth, BitVec.toNat_not, sumOf]
  generalize UBoot.NetCksum (inOrder big p) n = x at fold ⊢
  have lt := x.isLt
  have le := fold.le
  have mod := fold.mod
  omega

/-- The checksum is stored over a field of the header that was zero. -/
theorem dvd_store_sum (big : Bool) {m : Nat → Byte} {xip : Nat}
    (hzero : slice m (xip + 10) 2 = ushort big 0) :
    65535 ∣ sumOf big (slice (store m (xip + 10)
      (ushort big ((~~~ NetCksum big (slice m xip 20) 10).setWidth 16))) xip 20) := by
  have hsum := dvd_complement big (length_slice m xip 20) (by decide : 10 ≤ 65536)
  generalize ((~~~ NetCksum big (slice m xip 20) 10).setWidth 16 : BitVec 16) = sum at hsum ⊢
  have hcut (m : Nat → Byte) : sumOf big (slice m xip 20) =
      sumOf big (slice m xip 10) + (sumOf big (slice m (xip + 10) 2) +
        sumOf big (slice m (xip + 12) 8)) := by
    rw [slice_append m xip 10 10, slice_append m (xip + 10) 2 8,
      sumOf_append big (by rw [length_slice]; decide), sumOf_append big (by rw [length_slice])]
  rw [hcut, hzero, sumOf_ushort] at hsum
  rw [hcut, slice_store_beside (by omega), slice_store_same (length_ushort big sum),
    slice_store_beside (by rw [length_ushort]; omega), sumOf_ushort]
  have hnone : (0 : BitVec 16).toNat = 0 := rfl
  omega

theorem built_ok (big : Bool) (s : Stack) (xip : Nat) (dest dport sport len : BitVec 32)
    (m : Nat → Byte) :
    NetCksumOk big (slice (NetSetIP big s xip dest dport sport len m).1 xip IP_HDR_SIZE_NO_UDP)
      (IP_HDR_SIZE_NO_UDP / 2) = true := by
  have hlength := length_slice (NetSetIP big s xip dest dport sport len m).1 xip IP_HDR_SIZE_NO_UDP
  rw [NetCksumOk_iff big hlength (by decide)]
  apply dvd_store_sum
  -- the fields behind the checksum are stored after its zero
  rw [slice_store_beside (by rw [length_ushort]; omega),
    slice_store_beside (by rw [length_ushort]; omega),
    slice_store_beside (by rw [length_ushort]; omega),
    slice_store_beside (by rw [length_ushort]; omega),
    slice_store_beside (by rw [length_ulong]; omega),
    slice_store_beside (by rw [length_ulong]; omega)]
  exact slice_store_same (length_ushort big 0)

/-! ## Another word -/

/-- One's complement has two zeros, and no other number twice. -/
def SameClass (x y : BitVec 16) : Prop := x = y ∨ x = 0 ∧ y = 0xffff ∨ x = 0xffff ∧ y = 0

theorem sameClass_iff (x y : BitVec 16) :
    SameClass x y ↔ x.toNat % 65535 = y.toNat % 65535 := by
  rw [SameClass]
  have hx := x.isLt
  have hy := y.isLt
  have hzero : (0 : BitVec 16).toNat = 0 := rfl
  have hones : (0xffff : BitVec 16).toNat = 65535 := rfl
  simp only [← BitVec.toNat_inj, hzero, hones]
  omega

/-- A word of a packet, as the machine reads it. -/
def word (big : Bool) (p : List Byte) (i : Nat) : BitVec 16 :=
  if big then ntohs (p.getD (2 * i) 0) (p.getD (2 * i + 1) 0)
  else ntohs (p.getD (2 * i + 1) 0) (p.getD (2 * i) 0)

/-- The packet with another word. -/
def setWord (big : Bool) (p : List Byte) (i : Nat) (x : BitVec 16) : List Byte :=
  p.take (2 * i) ++ ushort big x ++ p.drop (2 * i + 2)

theorem sumOf_pair (big : Bool) (b₀ b₁ : Byte) :
    sumOf big [b₀, b₁] = (if big then ntohs b₀ b₁ else ntohs b₁ b₀).toNat := by
  cases big <;> simp [sumOf, inOrder, wordSum, toNat_ntohs]

theorem sumOf_split (big : Bool) {p : List Byte} {i : Nat} (h : 2 * i + 2 ≤ p.length) :
    sumOf big p = sumOf big (p.take (2 * i)) + (word big p i).toNat +
      sumOf big (p.drop (2 * i + 2)) := by
  have hsplit : p = p.take (2 * i) ++ ([p.getD (2 * i) 0, p.getD (2 * i + 1) 0] ++
      p.drop (2 * i + 2)) := by
    conv_lhs => rw [← List.take_append_drop (2 * i) p]
    rw [List.drop_eq_getElem_cons (by omega), List.drop_eq_getElem_cons (by omega),
      List.getD_eq_getElem _ _ (by omega), List.getD_eq_getElem _ _ (by omega)]
    rfl
  have heven : 2 ∣ (p.take (2 * i)).length :=
    (Nat.dvd_mul_right 2 i).trans (dvd_of_eq (List.length_take_of_le (by omega)).symm)
  conv_lhs => rw [hsplit]
  rw [sumOf_append big heven, sumOf_append big (by simp), sumOf_pair,
    word]
  omega

theorem sumOf_setWord (big : Bool) {p : List Byte} {i : Nat} (h : 2 * i + 2 ≤ p.length)
    (x : BitVec 16) : sumOf big (setWord big p i x) =
      sumOf big (p.take (2 * i)) + x.toNat + sumOf big (p.drop (2 * i + 2)) := by
  have heven : 2 ∣ (p.take (2 * i)).length :=
    (Nat.dvd_mul_right 2 i).trans (dvd_of_eq (List.length_take_of_le (by omega)).symm)
  rw [setWord, List.append_assoc, sumOf_append big heven,
    sumOf_append big (by rw [length_ushort]), sumOf_ushort]
  omega

theorem length_setWord (big : Bool) {p : List Byte} {i : Nat} (h : 2 * i + 2 ≤ p.length)
    (x : BitVec 16) : (setWord big p i x).length = p.length := by
  rw [setWord, List.length_append, List.length_append, length_ushort, List.length_drop,
    List.length_take_of_le (by omega)]
  omega

theorem changed_not_ok (big : Bool) {ip : List Byte} (hlength : ip.length = 20)
    (hok : NetCksumOk big ip 10 = true) {i : Nat} (hi : i < 10) {x : BitVec 16}
    (hclass : ¬SameClass x (word big ip i)) : NetCksumOk big (setWord big ip i x) 10 = false := by
  rw [sameClass_iff] at hclass
  rw [NetCksumOk_iff big hlength (by decide), sumOf_split big (by omega : 2 * i + 2 ≤ _)] at hok
  rw [Bool.eq_false_iff, Ne, NetCksumOk_iff big ((length_setWord big (by omega) x).trans hlength)
    (by decide), sumOf_setWord big (by omega)]
  intro hdvd
  omega

/-- The checksum of a header is right where it is built, and wrong after another word is put into
a header, unless one's complement has the two words for the same number. -/
structure ChecksumRight (big : Bool) : Prop where
  built : ∀ (s : Stack) (xip : Nat) (dest dport sport len : BitVec 32) (m : Nat → Byte),
    NetCksumOk big (slice (NetSetIP big s xip dest dport sport len m).1 xip IP_HDR_SIZE_NO_UDP)
      (IP_HDR_SIZE_NO_UDP / 2) = true
  changed : ∀ ip : List Byte, ip.length = IP_HDR_SIZE_NO_UDP →
    NetCksumOk big ip (IP_HDR_SIZE_NO_UDP / 2) = true → ∀ i < IP_HDR_SIZE_NO_UDP / 2,
    ∀ x : BitVec 16, ¬SameClass x (word big ip i) →
      NetCksumOk big (setWord big ip i x) (IP_HDR_SIZE_NO_UDP / 2) = false

theorem header_checksum_right (big : Bool) : ChecksumRight big where
  built := built_ok big
  changed _ hlength hok _ hi _ hclass := changed_not_ok big hlength hok hi hclass

end UBoot.SetIP
