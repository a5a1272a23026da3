/-
# The environment checksum

`crc32` of `lib_generic/crc32.c` on a little-endian machine. The source reads
the middle of the buffer 32 bits at a time; `crc32NoComp` keeps that word loop
and the two byte loops around it. The results used elsewhere are that the word
loop is the byte loop, and that a checksum may be continued over a second
buffer, which is how the boot code checks an image in pieces.
-/

import Mathlib

namespace UBoot

/-- One byte of memory. -/
abbrev Byte := BitVec 8

instance lawfulBEqByte : LawfulBEq Byte := inferInstance

instance lawfulBEqWord : LawfulBEq (BitVec 32) := inferInstance

instance lawfulBEqBytes : LawfulBEq (List Byte) := inferInstance

namespace Crc32

/-- One bit of `make_crc_table`: `c & 1 ? poly ^ (c >> 1) : c >> 1`. -/
def tableBit (c : BitVec 32) : BitVec 32 :=
  if c &&& 1#32 = 1#32 then 0xedb88320#32 ^^^ (c >>> 1) else c >>> 1

/-- `crc_table[n]`, as `make_crc_table` computes it. -/
def crcTable (n : BitVec 32) : BitVec 32 :=
  tableBit^[8] n

/-- `DO_CRC(x)`. -/
def doCrc (crc x : BitVec 32) : BitVec 32 :=
  crcTable ((crc ^^^ x) &&& 255#32) ^^^ (crc >>> 8)

/-- `DO_CRC(*p++)` on the byte under the pointer. -/
def doCrcByte (crc : BitVec 32) (b : Byte) : BitVec 32 :=
  doCrc crc (b.setWidth 32)

/-- A 32-bit load of four bytes. -/
def loadWord (b₀ b₁ b₂ b₃ : Byte) : BitVec 32 :=
  b₀.setWidth 32 ||| b₁.setWidth 32 <<< 8 ||| b₂.setWidth 32 <<< 16 ||| b₃.setWidth 32 <<< 24

/-- The word loop, followed by "the last few bytes". -/
def crcWords : BitVec 32 → List Byte → BitVec 32
  | crc, b₀ :: b₁ :: b₂ :: b₃ :: rest =>
      crcWords (doCrc (doCrc (doCrc (doCrc (crc ^^^ loadWord b₀ b₁ b₂ b₃) 0#32) 0#32) 0#32) 0#32)
        rest
  | crc, rest => rest.foldl doCrcByte crc

/-- `crc32_no_comp` on a buffer at address `addr`: bytes up to the next word
boundary, then words, then the remainder. -/
def crc32NoComp (addr : Nat) (crc : BitVec 32) (buf : List Byte) : BitVec 32 :=
  let head := if addr % 4 = 0 then 0 else 4 - addr % 4
  crcWords ((buf.take head).foldl doCrcByte crc) (buf.drop head)

end Crc32

open Crc32

/-- `crc32`. The buffers of the environment code are word aligned or read by
bytes; `crc32NoComp_eq_foldl` shows that the address makes no difference. -/
def crc32 (crc : BitVec 32) (buf : List Byte) : BitVec 32 :=
  crc32NoComp 0 (crc ^^^ 0xffffffff#32) buf ^^^ 0xffffffff#32

namespace Crc32

/-- Feeding a word with a zero byte consumes its low byte and leaves the other
three in place for the next round. -/
theorem doCrc_xor_word (crc word : BitVec 32) :
    doCrc (crc ^^^ word) 0#32 = doCrcByte crc (word.setWidth 8) ^^^ word >>> 8 := by
  have hindex : (crc ^^^ word) &&& 255#32 =
      (crc ^^^ (word.setWidth 8).setWidth 32) &&& 255#32 := by
    have hmask : ∀ i : Fin 32, (255#32)[i] = decide (i.1 < 8) := by decide
    ext i hi
    have hbit : (255#32)[i] = decide (i < 8) := hmask ⟨i, hi⟩
    simp only [BitVec.getElem_and, BitVec.getElem_xor, BitVec.getElem_setWidth,
      BitVec.getLsbD_setWidth, hbit]
    by_cases h : i < 8 <;> simp [h, hi]
  simp only [doCrcByte, doCrc, BitVec.xor_zero, hindex, BitVec.ushiftRight_xor_distrib,
    BitVec.xor_assoc]

/-- The word loop is the byte loop. -/
theorem crcWords_eq_foldl (crc : BitVec 32) (buf : List Byte) :
    crcWords crc buf = buf.foldl doCrcByte crc := by
  fun_induction crcWords crc buf with
  | case1 crc b₀ b₁ b₂ b₃ rest ih =>
      have byte₀ : (loadWord b₀ b₁ b₂ b₃).setWidth 8 = b₀ := by
        ext i hi; simp [loadWord]
      have byte₁ : (loadWord b₀ b₁ b₂ b₃ >>> 8).setWidth 8 = b₁ := by
        ext i hi; simp [loadWord]; grind
      have byte₂ : (loadWord b₀ b₁ b₂ b₃ >>> 8 >>> 8).setWidth 8 = b₂ := by
        ext i hi; simp [loadWord]; grind
      have byte₃ : (loadWord b₀ b₁ b₂ b₃ >>> 8 >>> 8 >>> 8).setWidth 8 = b₃ := by
        ext i hi; simp [loadWord]; grind
      have consumed : loadWord b₀ b₁ b₂ b₃ >>> 8 >>> 8 >>> 8 >>> 8 = 0#32 := by
        ext i hi; simp
      rw [ih, doCrc_xor_word, doCrc_xor_word, doCrc_xor_word, doCrc_xor_word, byte₀, byte₁, byte₂,
        byte₃, consumed, BitVec.xor_zero]
      rfl
  | case2 crc rest => rfl

/-- The checksum is a byte fold wherever the buffer starts. -/
theorem crc32NoComp_eq_foldl (addr : Nat) (crc : BitVec 32) (buf : List Byte) :
    crc32NoComp addr crc buf = buf.foldl doCrcByte crc := by
  simp only [crc32NoComp, crcWords_eq_foldl]
  rw [← List.foldl_append, List.take_append_drop]

end Crc32

/-- Checksumming a buffer in two pieces, the first result fed to the second
call, is checksumming it at once. -/
theorem crc32_append (crc : BitVec 32) (first second : List Byte) :
    crc32 crc (first ++ second) = crc32 (crc32 crc first) second := by
  simp only [crc32, crc32NoComp_eq_foldl, List.foldl_append, BitVec.xor_assoc, BitVec.xor_self,
    BitVec.xor_zero]

/-- The published check value of CRC-32, on the ASCII digits one to nine. -/
example : crc32 0 [0x31, 0x32, 0x33, 0x34, 0x35, 0x36, 0x37, 0x38, 0x39] = 0xcbf43926 := by
  decide +kernel

end UBoot
