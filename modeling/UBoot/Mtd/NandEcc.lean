/-
# Error correction of NAND pages

`nand_calculate_ecc` and `nand_correct_data` of `drivers/mtd/nand/nand_ecc.c`. The code of 256 bytes
is a sum: every bit that is set adds the place it has, once as it is and once inverted. A bit that is
flipped changes the code by its place, so that the difference of two codes names the bit; two of them
leave a difference that names none.
-/

import UBoot.LibGeneric.Crc32

namespace UBoot.NandEcc

/-- `nand_ecc_precalc_table` -/
def nand_ecc_precalc_table : List Byte := [
  0x00, 0x55, 0x56, 0x03, 0x59, 0x0c, 0x0f, 0x5a, 0x5a, 0x0f, 0x0c, 0x59, 0x03, 0x56, 0x55, 0x00,
  0x65, 0x30, 0x33, 0x66, 0x3c, 0x69, 0x6a, 0x3f, 0x3f, 0x6a, 0x69, 0x3c, 0x66, 0x33, 0x30, 0x65,
  0x66, 0x33, 0x30, 0x65, 0x3f, 0x6a, 0x69, 0x3c, 0x3c, 0x69, 0x6a, 0x3f, 0x65, 0x30, 0x33, 0x66,
  0x03, 0x56, 0x55, 0x00, 0x5a, 0x0f, 0x0c, 0x59, 0x59, 0x0c, 0x0f, 0x5a, 0x00, 0x55, 0x56, 0x03,
  0x69, 0x3c, 0x3f, 0x6a, 0x30, 0x65, 0x66, 0x33, 0x33, 0x66, 0x65, 0x30, 0x6a, 0x3f, 0x3c, 0x69,
  0x0c, 0x59, 0x5a, 0x0f, 0x55, 0x00, 0x03, 0x56, 0x56, 0x03, 0x00, 0x55, 0x0f, 0x5a, 0x59, 0x0c,
  0x0f, 0x5a, 0x59, 0x0c, 0x56, 0x03, 0x00, 0x55, 0x55, 0x00, 0x03, 0x56, 0x0c, 0x59, 0x5a, 0x0f,
  0x6a, 0x3f, 0x3c, 0x69, 0x33, 0x66, 0x65, 0x30, 0x30, 0x65, 0x66, 0x33, 0x69, 0x3c, 0x3f, 0x6a,
  0x6a, 0x3f, 0x3c, 0x69, 0x33, 0x66, 0x65, 0x30, 0x30, 0x65, 0x66, 0x33, 0x69, 0x3c, 0x3f, 0x6a,
  0x0f, 0x5a, 0x59, 0x0c, 0x56, 0x03, 0x00, 0x55, 0x55, 0x00, 0x03, 0x56, 0x0c, 0x59, 0x5a, 0x0f,
  0x0c, 0x59, 0x5a, 0x0f, 0x55, 0x00, 0x03, 0x56, 0x56, 0x03, 0x00, 0x55, 0x0f, 0x5a, 0x59, 0x0c,
  0x69, 0x3c, 0x3f, 0x6a, 0x30, 0x65, 0x66, 0x33, 0x33, 0x66, 0x65, 0x30, 0x6a, 0x3f, 0x3c, 0x69,
  0x03, 0x56, 0x55, 0x00, 0x5a, 0x0f, 0x0c, 0x59, 0x59, 0x0c, 0x0f, 0x5a, 0x00, 0x55, 0x56, 0x03,
  0x66, 0x33, 0x30, 0x65, 0x3f, 0x6a, 0x69, 0x3c, 0x3c, 0x69, 0x6a, 0x3f, 0x65, 0x30, 0x33, 0x66,
  0x65, 0x30, 0x33, 0x66, 0x3c, 0x69, 0x6a, 0x3f, 0x3f, 0x6a, 0x69, 0x3c, 0x66, 0x33, 0x30, 0x65,
  0x00, 0x55, 0x56, 0x03, 0x59, 0x0c, 0x0f, 0x5a, 0x5a, 0x0f, 0x0c, 0x59, 0x03, 0x56, 0x55, 0x00]

/-- `nand_ecc_precalc_table[b]` -/
def precalc (b : Byte) : Byte := nand_ecc_precalc_table.getD b.toNat 0

/-- `reg1`, `reg2` and `reg3` -/
@[ext]
structure Regs where
  reg1 : Byte
  reg2 : Byte
  reg3 : Byte

/-- One round of the loop over the bytes. -/
def Regs.add (r : Regs) (i : Nat) (b : Byte) : Regs :=
  let idx := precalc b
  let reg1 := r.reg1 ^^^ (idx &&& 0x3f)
  if idx &&& 0x40 ≠ 0 then
    ⟨reg1, r.reg2 ^^^ ~~~BitVec.ofNat 8 i, r.reg3 ^^^ BitVec.ofNat 8 i⟩
  else ⟨reg1, r.reg2, r.reg3⟩

/-- The loop over the bytes. -/
def parities (dat : Nat → Byte) : Nat → Regs
  | 0 => ⟨0, 0, 0⟩
  | n + 1 => (parities dat n).add n (dat n)

/-- `tmp1`: the upper bits of `reg3` and `reg2` in turn. -/
def tmp1 (reg2 reg3 : Byte) : Byte :=
  (reg3 &&& 0x80) >>> 0 ||| (reg2 &&& 0x80) >>> 1 ||| (reg3 &&& 0x40) >>> 1 |||
    (reg2 &&& 0x40) >>> 2 ||| (reg3 &&& 0x20) >>> 2 ||| (reg2 &&& 0x20) >>> 3 |||
    (reg3 &&& 0x10) >>> 3 ||| (reg2 &&& 0x10) >>> 4

/-- `tmp2`: the lower bits. -/
def tmp2 (reg2 reg3 : Byte) : Byte :=
  (reg3 &&& 0x08) <<< 4 ||| (reg2 &&& 0x08) <<< 3 ||| (reg3 &&& 0x04) <<< 3 |||
    (reg2 &&& 0x04) <<< 2 ||| (reg3 &&& 0x02) <<< 2 ||| (reg2 &&& 0x02) <<< 1 |||
    (reg3 &&& 0x01) <<< 1 ||| (reg2 &&& 0x01) <<< 0

/-- `ecc_code` -/
@[ext]
structure Ecc where
  code0 : Byte
  code1 : Byte
  code2 : Byte
deriving DecidableEq

/-- The difference of two codes. -/
def Ecc.xor (x y : Ecc) : Ecc := ⟨x.code0 ^^^ y.code0, x.code1 ^^^ y.code1, x.code2 ^^^ y.code2⟩

/-- `nand_calculate_ecc`. With `CONFIG_MTD_NAND_ECC_SMC` the first two bytes are the other way
round. -/
def nand_calculate_ecc (smc : Bool) (dat : Nat → Byte) : Ecc :=
  let r := parities dat 256
  let line1 := ~~~tmp1 r.reg2 r.reg3
  let line2 := ~~~tmp2 r.reg2 r.reg3
  let column := (~~~r.reg1) <<< 2 ||| 0x03#8
  if smc then ⟨line2, line1, column⟩ else ⟨line1, line2, column⟩

/-- The loop of `countbits`, for a number of so many bits. -/
def countLoop : Nat → Nat → Nat
  | 0, _ => 0
  | width + 1, byte => if byte = 0 then 0 else byte % 2 + countLoop width (byte / 2)

/-- `countbits` of a `uint32_t` -/
def countbits (byte : Nat) : Nat := countLoop 32 byte

/-- `-EBADMSG` -/
def EBADMSG : Int := -74

/-- `byteoffs` -/
def byteoffs (s0 s1 : Byte) : Byte :=
  s1 <<< 0 &&& 0x80 ||| s1 <<< 1 &&& 0x40 ||| s1 <<< 2 &&& 0x20 ||| s1 <<< 3 &&& 0x10 |||
    s0 >>> 4 &&& 0x08 ||| s0 >>> 3 &&& 0x04 ||| s0 >>> 2 &&& 0x02 ||| s0 >>> 1 &&& 0x01

/-- `bitnum` -/
def bitnum (s2 : Byte) : Byte :=
  s2 >>> 5 &&& 0x04 ||| s2 >>> 4 &&& 0x02 ||| s2 >>> 3 &&& 0x01

/-- `dat[i] ^= (1 << j)` -/
def flip (dat : Nat → Byte) (i j : Nat) : Nat → Byte :=
  Function.update dat i (dat i ^^^ 1#8 <<< j)

/-- The check for a single bit error. -/
def Single (s0 s1 s2 : Byte) : Prop :=
  (s0 ^^^ s0 >>> 1) &&& 0x55 = 0x55 ∧ (s1 ^^^ s1 >>> 1) &&& 0x55 = 0x55 ∧
    (s2 ^^^ s2 >>> 1) &&& 0x54 = 0x54

instance (s0 s1 s2 : Byte) : Decidable (Single s0 s1 s2) := inferInstanceAs (Decidable (_ ∧ _))

/-- `s0` of a difference -/
def Ecc.s0 (smc : Bool) (d : Ecc) : Byte := if smc then d.code0 else d.code1

/-- `s1` of a difference -/
def Ecc.s1 (smc : Bool) (d : Ecc) : Byte := if smc then d.code1 else d.code0

/-- `nand_correct_data`: the return value and the data afterwards. -/
def nand_correct_data (smc : Bool) (dat : Nat → Byte) (read_ecc calc_ecc : Ecc) :
    Int × (Nat → Byte) :=
  let d := calc_ecc.xor read_ecc
  let s0 := d.s0 smc
  let s1 := d.s1 smc
  let s2 := d.code2
  if s0 ||| s1 ||| s2 = 0 then (0, dat)
  else if Single s0 s1 s2 then (1, flip dat (byteoffs s0 s1).toNat (bitnum s2).toNat)
  else if countbits (s0.toNat ||| s1.toNat <<< 8 ||| s2.toNat <<< 16) = 1 then (1, dat)
  else (EBADMSG, dat)

/-! ## Stored bytes -/

/-- A bit of the data, or of the code beside it. -/
inductive Cell
  | data (i : Fin 256) (j : Fin 8)
  | code (k : Fin 3) (j : Fin 8)
deriving DecidableEq

/-- The two bits of a code that the check does not look at. -/
def Cell.Spare : Cell → Prop
  | .data _ _ => False
  | .code k j => k = 2 ∧ j < 2

/-- The code of a single bit. -/
def codeBit (k : Fin 3) (j : Fin 8) : Ecc :=
  let b := 1#8 <<< j.val
  match k with
  | 0 => ⟨b, 0, 0⟩
  | 1 => ⟨0, b, 0⟩
  | 2 => ⟨0, 0, b⟩

/-- Data with its code, as it is in the flash. -/
structure Stored where
  dat : Nat → Byte
  ecc : Ecc

namespace Stored

variable (smc : Bool) (x : Stored)

/-- A bit that has changed. -/
def flip : Cell → Stored
  | .data i j => { x with dat := NandEcc.flip x.dat i j }
  | .code k j => { x with ecc := x.ecc.xor (codeBit k j) }

/-- The code is that of the data. -/
def Intact : Prop := x.ecc = nand_calculate_ecc smc x.dat

/-- What `nand_correct_data` makes of what is read. -/
def read : Int × (Nat → Byte) :=
  nand_correct_data smc x.dat x.ecc (nand_calculate_ecc smc x.dat)

/-- Between the code that is calculated and the one that is read. -/
def difference : Ecc := (nand_calculate_ecc smc x.dat).xor x.ecc

end Stored

/-! ## What a bit adds -/

section Sums

variable {dat : Nat → Byte}

theorem xor_right_comm (x y z : Byte) : x ^^^ y ^^^ z = x ^^^ z ^^^ y := by ac_rfl

/-- What the first bits of a byte add up to. -/
def bitSum (b : Byte) : Nat → Byte
  | 0 => 0
  | n + 1 => bitSum b n ^^^ if b.getLsbD n then precalc (1#8 <<< n) else 0

/-- The table is additive. -/
theorem nand_ecc_precalc_table_eq :
    nand_ecc_precalc_table = (List.range 256).map fun n => bitSum (BitVec.ofNat 8 n) 8 := by
  decide +kernel

theorem precalc_eq_bitSum (b : Byte) : precalc b = bitSum b 8 := by
  rw [precalc, nand_ecc_precalc_table_eq, List.getD_eq_getElem _ _ (by simpa using b.isLt),
    List.getElem_map, List.getElem_range, BitVec.ofNat_toNat, BitVec.setWidth_eq]

theorem bitSum_flip (b : Byte) (j : Nat) {n : Nat} (hn : n ≤ 8) :
    bitSum (b ^^^ 1#8 <<< j) n = bitSum b n ^^^ if j < n then precalc (1#8 <<< j) else 0 := by
  induction n with
  | zero => simp [bitSum]
  | succ n ih =>
      have hbit : (b ^^^ 1#8 <<< j).getLsbD n = (b.getLsbD n ^^ decide (n = j)) := by
        rw [BitVec.getLsbD_xor, BitVec.getLsbD_shiftLeft, BitVec.getLsbD_one]
        congr 1
        grind
      rw [bitSum, bitSum, ih (Nat.le_of_succ_le hn), hbit, xor_right_comm]
      rcases Nat.lt_trichotomy j n with hlt | rfl | hlt
      · rw [if_pos hlt, if_pos (Nat.lt_succ_of_lt hlt), decide_eq_false hlt.ne', Bool.xor_false]
      · rw [if_neg (Nat.lt_irrefl _), if_pos (Nat.lt_succ_self _), decide_eq_true rfl, Bool.xor_true]
        cases b.getLsbD j <;> simp
      · rw [decide_eq_false hlt.ne, Bool.xor_false, if_neg hlt.not_gt, if_neg (Nat.not_lt.mpr hlt)]

theorem precalc_flip (b : Byte) (j : Fin 8) :
    precalc (b ^^^ 1#8 <<< j.val) = precalc b ^^^ precalc (1#8 <<< j.val) := by
  rw [precalc_eq_bitSum, bitSum_flip b j le_rfl, if_pos j.isLt, ← precalc_eq_bitSum]

theorem precalc_odd : ∀ j : Fin 8, precalc (1#8 <<< j.val) &&& 0x40 = 0x40 := by decide

/-- What a bit of a byte adds. -/
def Regs.place (r : Regs) (i j : Nat) : Regs :=
  ⟨r.reg1 ^^^ (precalc (1#8 <<< j) &&& 0x3f), r.reg2 ^^^ ~~~BitVec.ofNat 8 i,
    r.reg3 ^^^ BitVec.ofNat 8 i⟩

theorem xor_and (x y mask : Byte) : (x ^^^ y) &&& mask = (x &&& mask) ^^^ (y &&& mask) := by
  apply BitVec.eq_of_toNat_eq
  rw [BitVec.toNat_and, BitVec.toNat_xor, BitVec.toNat_xor, BitVec.toNat_and, BitVec.toNat_and,
    Nat.and_xor_distrib_right]

theorem Regs.add_odd {b : Byte} (h : precalc b &&& 0x40 ≠ 0) (r : Regs) (i : Nat) :
    r.add i b = ⟨r.reg1 ^^^ (precalc b &&& 0x3f), r.reg2 ^^^ ~~~BitVec.ofNat 8 i,
      r.reg3 ^^^ BitVec.ofNat 8 i⟩ := if_pos h

theorem Regs.add_even {b : Byte} (h : ¬precalc b &&& 0x40 ≠ 0) (r : Regs) (i : Nat) :
    r.add i b = ⟨r.reg1 ^^^ (precalc b &&& 0x3f), r.reg2, r.reg3⟩ := if_neg h

theorem precalc_flip_odd_iff (b : Byte) (j : Fin 8) :
    precalc (b ^^^ 1#8 <<< j.val) &&& 0x40 ≠ 0 ↔ ¬precalc b &&& 0x40 ≠ 0 := by
  rw [precalc_flip, xor_and, precalc_odd]
  generalize precalc b = idx
  revert idx
  decide

theorem Regs.add_flip (r : Regs) (i : Nat) (b : Byte) (j : Fin 8) :
    r.add i (b ^^^ 1#8 <<< j.val) = (r.add i b).place i j := by
  by_cases h : precalc b &&& 0x40 ≠ 0
  · rw [Regs.add_odd h, Regs.add_even fun hodd => (precalc_flip_odd_iff b j).mp hodd h, precalc_flip,
      xor_and, ← BitVec.xor_assoc]
    simp only [Regs.place, BitVec.xor_assoc, BitVec.xor_self, BitVec.xor_zero]
  · rw [Regs.add_even h, Regs.add_odd ((precalc_flip_odd_iff b j).mpr h), precalc_flip, xor_and,
      ← BitVec.xor_assoc]
    rfl

theorem Regs.place_add (r : Regs) (i j n : Nat) (b : Byte) :
    (r.place i j).add n b = (r.add n b).place i j := by
  by_cases h : precalc b &&& 0x40 ≠ 0
  · rw [Regs.add_odd h, Regs.add_odd h]
    exact Regs.ext (xor_right_comm ..) (xor_right_comm ..) (xor_right_comm ..)
  · rw [Regs.add_even h, Regs.add_even h]
    exact Regs.ext (xor_right_comm ..) rfl rfl

/-- A bit adds its place to what all bytes add. -/
theorem parities_flip {i n : Nat} (hi : i < n) (j : Fin 8) :
    parities (flip dat i j) n = (parities dat n).place i j := by
  induction n with
  | zero => exact absurd hi (Nat.not_lt_zero i)
  | succ n ih =>
      rw [parities, parities]
      by_cases heq : i = n
      · subst heq
        have hbelow : ∀ m ≤ i, parities (flip dat i j) m = parities dat m := by
          intro m hm
          induction m with
          | zero => rfl
          | succ m ih =>
              rw [parities, parities, ih (Nat.le_of_succ_le hm), flip,
                Function.update_of_ne (by omega)]
        rw [hbelow i le_rfl, flip, Function.update_self, Regs.add_flip]
      · rw [ih (by omega), flip, Function.update_of_ne (Ne.symm heq), Regs.place_add]

theorem tmp1_xor (x y x' y' : Byte) : tmp1 (x ^^^ x') (y ^^^ y') = tmp1 x y ^^^ tmp1 x' y' := by
  ext i hi
  interval_cases i <;> simp [tmp1]

theorem tmp2_xor (x y x' y' : Byte) : tmp2 (x ^^^ x') (y ^^^ y') = tmp2 x y ^^^ tmp2 x' y' := by
  ext i hi
  interval_cases i <;> simp [tmp2]

/-- `CP0` to `CP5` of a bit, where `s2` has them. -/
def column (j : Nat) : Byte := (precalc (1#8 <<< j) &&& 0x3f) <<< 2

/-- What a bit of the data adds to the code. -/
def dataPlace (smc : Bool) (i : Byte) (j : Nat) : Ecc :=
  let line1 := tmp1 (~~~i) i
  let line2 := tmp2 (~~~i) i
  if smc then ⟨line2, line1, column j⟩ else ⟨line1, line2, column j⟩

theorem not_xor (x y : Byte) : ~~~(x ^^^ y) = ~~~x ^^^ y := by
  ext i hi
  simp

theorem column_xor (x y : Byte) :
    (x ^^^ y) <<< 2 ||| 0x03#8 = (x <<< 2 ||| 0x03#8) ^^^ y <<< 2 := by
  ext i hi
  interval_cases i <;> simp

theorem nand_calculate_ecc_flip (smc : Bool) (dat : Nat → Byte) (i : Fin 256) (j : Fin 8) :
    nand_calculate_ecc smc (flip dat i j) =
      (nand_calculate_ecc smc dat).xor (dataPlace smc (BitVec.ofNat 8 i) j) := by
  rw [nand_calculate_ecc, parities_flip i.isLt]
  simp only [Regs.place, tmp1_xor, tmp2_xor, not_xor, column_xor]
  cases smc <;> rfl

end Sums

namespace Ecc

theorem xor_comm (x y : Ecc) : x.xor y = y.xor x :=
  Ecc.ext (BitVec.xor_comm ..) (BitVec.xor_comm ..) (BitVec.xor_comm ..)

theorem xor_assoc (x y z : Ecc) : (x.xor y).xor z = x.xor (y.xor z) :=
  Ecc.ext (BitVec.xor_assoc ..) (BitVec.xor_assoc ..) (BitVec.xor_assoc ..)

@[simp] theorem xor_self (x : Ecc) : x.xor x = ⟨0, 0, 0⟩ :=
  Ecc.ext BitVec.xor_self BitVec.xor_self BitVec.xor_self

@[simp] theorem zero_xor (x : Ecc) : (⟨0, 0, 0⟩ : Ecc).xor x = x :=
  Ecc.ext BitVec.zero_xor BitVec.zero_xor BitVec.zero_xor

@[simp] theorem s0_xor (smc : Bool) (x y : Ecc) : (x.xor y).s0 smc = x.s0 smc ^^^ y.s0 smc := by
  cases smc <;> rfl

@[simp] theorem s1_xor (smc : Bool) (x y : Ecc) : (x.xor y).s1 smc = x.s1 smc ^^^ y.s1 smc := by
  cases smc <;> rfl

end Ecc

@[simp] theorem s0_dataPlace (smc : Bool) (i : Byte) (j : Nat) :
    (dataPlace smc i j).s0 smc = tmp2 (~~~i) i := by
  cases smc <;> rfl

@[simp] theorem s1_dataPlace (smc : Bool) (i : Byte) (j : Nat) :
    (dataPlace smc i j).s1 smc = tmp1 (~~~i) i := by
  cases smc <;> rfl

/-- What a bit adds to the difference of the codes. -/
def Cell.place (smc : Bool) : Cell → Ecc
  | .data i j => dataPlace smc (BitVec.ofNat 8 i) j
  | .code k j => codeBit k j

theorem Stored.difference_flip (smc : Bool) (x : Stored) (p : Cell) :
    (x.flip p).difference smc = (x.difference smc).xor (p.place smc) := by
  cases p with
  | data i j =>
      rw [Stored.difference, Stored.flip, nand_calculate_ecc_flip, Stored.difference,
        Ecc.xor_assoc, Ecc.xor_assoc, Ecc.xor_comm x.ecc]
      rfl
  | code k j => exact (Ecc.xor_assoc ..).symm

theorem Stored.Intact.difference {smc : Bool} {x : Stored} (h : x.Intact smc) :
    x.difference smc = ⟨0, 0, 0⟩ := by
  rw [Stored.difference, ← h, Ecc.xor_self]

/-! ## What a difference says -/

/-- The bits of a byte that are set. -/
def weight (b : Byte) : Nat := countLoop 8 b.toNat

theorem countLoop_zero (width : Nat) : countLoop width 0 = 0 := by
  cases width <;> rfl

theorem countLoop_succ (width byte : Nat) :
    countLoop (width + 1) byte = byte % 2 + countLoop width (byte / 2) := by
  rw [countLoop]
  split
  · next h => rw [h, Nat.zero_mod, Nat.zero_div, countLoop_zero]
  · rfl

theorem countLoop_add {width low : Nat} (hlow : low < 2 ^ width) (rest high : Nat) :
    countLoop (width + rest) (low + 2 ^ width * high) =
      countLoop width low + countLoop rest high := by
  induction width generalizing low with
  | zero =>
      rw [Nat.pow_zero, Nat.lt_one_iff] at hlow
      rw [hlow, Nat.zero_add, Nat.zero_add, Nat.pow_zero, Nat.one_mul, countLoop, Nat.zero_add]
  | succ width ih =>
      have hpow : 2 ^ (width + 1) * high = 2 * (2 ^ width * high) := by
        rw [Nat.pow_succ, Nat.mul_comm (2 ^ width), Nat.mul_assoc]
      have hhalf : (low + 2 ^ (width + 1) * high) / 2 = low / 2 + 2 ^ width * high := by omega
      have hlast : (low + 2 ^ (width + 1) * high) % 2 = low % 2 := by omega
      rw [Nat.succ_add, countLoop_succ, countLoop_succ, hhalf, hlast, Nat.add_assoc]
      congr 1
      refine ih ?_
      rw [Nat.pow_succ] at hlow
      omega

theorem countbits_eq (s0 s1 s2 : Byte) :
    countbits (s0.toNat ||| s1.toNat <<< 8 ||| s2.toNat <<< 16) =
      weight s0 + weight s1 + weight s2 := by
  have hfirst : s0.toNat ||| s1.toNat <<< 8 = s0.toNat + 2 ^ 8 * s1.toNat := by
    rw [Nat.or_comm, ← Nat.shiftLeft_add_eq_or_of_lt s0.isLt, Nat.shiftLeft_eq]
    omega
  have hall : s0.toNat + 2 ^ 8 * s1.toNat ||| s2.toNat <<< 16 =
      s0.toNat + 2 ^ 8 * (s1.toNat + 2 ^ 8 * (s2.toNat + 2 ^ 8 * 0)) := by
    have hlt : s0.toNat + 2 ^ 8 * s1.toNat < 2 ^ 16 := by
      have := s0.isLt
      have := s1.isLt
      omega
    rw [Nat.or_comm, ← Nat.shiftLeft_add_eq_or_of_lt hlt, Nat.shiftLeft_eq]
    omega
  rw [hfirst, hall, countbits, countLoop_add s0.isLt 24, countLoop_add s1.isLt 16,
    countLoop_add s2.isLt 8, countLoop_zero, ← Nat.add_assoc]
  rfl

/-- Neighbours under a mask differ. -/
def Alternates (mask s : Byte) : Prop := (s ^^^ s >>> 1) &&& mask = mask

instance (mask s : Byte) : Decidable (Alternates mask s) := inferInstanceAs (Decidable (_ = _))

/-! ### One place -/

/-- One bit of what alternates is in each pair. -/
theorem Alternates.alone : ∀ {s : Byte}, Alternates 0x55 s →
    weight s = 4 ∧ ∀ b : Fin 8, ¬Alternates 0x55 (s ^^^ 1#8 <<< b.val) := by
  decide

theorem alternates_tmp1 (i : Byte) : Alternates 0x55 (tmp1 (~~~i) i) := by
  rw [Alternates]
  ext k hk
  interval_cases k <;> simp [tmp1]

theorem alternates_tmp2 (i : Byte) : Alternates 0x55 (tmp2 (~~~i) i) := by
  rw [Alternates]
  ext k hk
  interval_cases k <;> simp [tmp2]

theorem line_place (i : Byte) :
    (Alternates 0x55 (tmp1 (~~~i) i) ∧ weight (tmp1 (~~~i) i) = 4 ∧
      ∀ b : Fin 8, ¬Alternates 0x55 (tmp1 (~~~i) i ^^^ 1#8 <<< b.val)) ∧
    (Alternates 0x55 (tmp2 (~~~i) i) ∧ weight (tmp2 (~~~i) i) = 4 ∧
      ∀ b : Fin 8, ¬Alternates 0x55 (tmp2 (~~~i) i ^^^ 1#8 <<< b.val)) :=
  ⟨⟨alternates_tmp1 i, (alternates_tmp1 i).alone⟩, alternates_tmp2 i, (alternates_tmp2 i).alone⟩

theorem byteoffs_place (i : Byte) : byteoffs (tmp2 (~~~i) i) (tmp1 (~~~i) i) = i := by
  ext k hk
  interval_cases k <;> simp [byteoffs, tmp1, tmp2]

theorem column_place : ∀ j : Fin 8, Alternates 0x54 (column j) ∧ weight (column j) = 3 ∧
    bitnum (column j) = BitVec.ofNat 8 j ∧
    ∀ b : Fin 8, if b < 2 then Alternates 0x54 (column j ^^^ 1#8 <<< b.val) ∧
        bitnum (column j ^^^ 1#8 <<< b.val) = BitVec.ofNat 8 j
      else ¬Alternates 0x54 (column j ^^^ 1#8 <<< b.val) := by
  decide

/-! ### Two places -/

/-- Neighbours are the same. -/
def Paired (s : Byte) : Prop := (s ^^^ s >>> 1) &&& 0x55 = 0

instance (s : Byte) : Decidable (Paired s) := inferInstanceAs (Decidable (_ = _))

theorem Paired.even : ∀ {s : Byte}, Paired s → ¬Alternates 0x55 s ∧ weight s % 2 = 0 := by decide

/-- Two places leave every pair of bits the same. -/
theorem paired_tmp1 (e : Byte) : Paired (tmp1 e e) := by
  rw [Paired]
  ext k hk
  interval_cases k <;> simp [tmp1]

theorem paired_tmp2 (e : Byte) : Paired (tmp2 e e) := by
  rw [Paired]
  ext k hk
  interval_cases k <;> simp [tmp2]

theorem byteoffs_pairs (e : Byte) : byteoffs (tmp2 e e) (tmp1 e e) = e := by
  ext k hk
  interval_cases k <;> simp [byteoffs, tmp1, tmp2]

theorem column_pairs : ∀ j j' : Fin 8, weight (column j ^^^ column j') % 2 = 0 ∧
    (column j ^^^ column j' = 0 → j = j') := by
  decide

theorem bit_pairs : ∀ b : Fin 8, ¬Alternates 0x55#8 (1#8 <<< b.val) ∧ weight (1#8 <<< b.val) = 1 := by
  decide

theorem bits_pairs : ∀ b b' : Fin 8, ¬Alternates 0x55#8 (1#8 <<< b.val ^^^ 1#8 <<< b'.val) ∧
    (b ≠ b' → weight (1#8 <<< b.val ^^^ 1#8 <<< b'.val) = 2) := by
  decide

/-- No byte of the code gets one in each pair from two bits. -/
theorem codes_alternate (k k' : Fin 3) (b b' : Fin 8) :
    ¬Alternates 0x55#8 ((codeBit k b).xor (codeBit k' b')).code0 ∧
      ¬Alternates 0x55#8 ((codeBit k b).xor (codeBit k' b')).code1 := by
  have hnone : ¬Alternates 0x55#8 0#8 := by decide
  fin_cases k <;> fin_cases k' <;> simp [codeBit, Ecc.xor, hnone, (bit_pairs _).1, (bits_pairs _ _).1]

theorem codes_weight {k k' : Fin 3} {b b' : Fin 8} (hne : (k, b) ≠ (k', b')) :
    weight ((codeBit k b).xor (codeBit k' b')).code0 +
      weight ((codeBit k b).xor (codeBit k' b')).code1 +
      weight ((codeBit k b).xor (codeBit k' b')).code2 = 2 := by
  have hnone : weight 0#8 = 0 := rfl
  by_cases hk : k = k'
  · subst hk
    have htwo := (bits_pairs b b').2 fun hb => hne (hb ▸ rfl)
    fin_cases k <;> simp [codeBit, Ecc.xor, hnone, htwo]
  · fin_cases k <;> fin_cases k' <;>
      first | exact absurd rfl hk | simp [codeBit, Ecc.xor, hnone, (bit_pairs _).2]

theorem codes_pairs (smc : Bool) (k k' : Fin 3) (b b' : Fin 8) (hne : (k, b) ≠ (k', b')) :
    let d := (codeBit k b).xor (codeBit k' b')
    (¬Alternates 0x55 (d.s0 smc) ∨ ¬Alternates 0x55 (d.s1 smc)) ∧
      weight (d.s0 smc) + weight (d.s1 smc) + weight d.code2 = 2 := by
  obtain ⟨hcode0, hcode1⟩ := codes_alternate k k' b b'
  have hweight := codes_weight hne
  cases smc with
  | true => exact ⟨.inl hcode0, hweight⟩
  | false => exact ⟨.inl hcode1, (congrArg (· + _) (Nat.add_comm _ _)).trans hweight⟩

/-- A bit of the code is in one of its bytes. -/
theorem code_alone : ∀ (smc : Bool) (k : Fin 3) (b : Fin 8),
    (¬Alternates 0x55 ((codeBit k b).s0 smc) ∨ ¬Alternates 0x55 ((codeBit k b).s1 smc)) ∧
    weight ((codeBit k b).s0 smc) + weight ((codeBit k b).s1 smc) +
      weight (codeBit k b).code2 = 1 ∧
    (((codeBit k b).s0 smc = 1#8 <<< b.val ∧ (codeBit k b).s1 smc = 0#8 ∧ (codeBit k b).code2 = 0#8) ∨
      ((codeBit k b).s0 smc = 0#8 ∧ (codeBit k b).s1 smc = 1#8 <<< b.val ∧
        (codeBit k b).code2 = 0#8) ∨
      (k = 2 ∧ (codeBit k b).s0 smc = 0#8 ∧ (codeBit k b).s1 smc = 0#8 ∧
        (codeBit k b).code2 = 1#8 <<< b.val)) := by
  decide

theorem or_eq_zero {x y : Byte} (h : x ||| y = 0) : x = 0 ∧ y = 0 := BitVec.or_eq_zero_iff.mp h

/-! ## What is read -/

section Reading

variable {smc : Bool} {x : Stored} {d : Ecc}

theorem read_zero (hd : x.difference smc = ⟨0, 0, 0⟩) : x.read smc = (0, x.dat) := by
  rw [Stored.read, nand_correct_data]
  simp only [Stored.difference] at hd
  rw [hd]
  cases smc <;> rfl

theorem read_single (hd : x.difference smc = d) (h0 : Alternates 0x55 (d.s0 smc))
    (h1 : Alternates 0x55 (d.s1 smc)) (h2 : Alternates 0x54 d.code2) : x.read smc =
      (1, flip x.dat (byteoffs (d.s0 smc) (d.s1 smc)).toNat (bitnum d.code2).toNat) := by
  subst hd
  have hne : ¬(x.difference smc).s0 smc ||| (x.difference smc).s1 smc |||
      (x.difference smc).code2 = 0 := by
    intro h
    rw [(or_eq_zero h).2] at h2
    exact absurd h2 (by decide)
  exact (if_neg hne).trans (if_pos ⟨h0, h1, h2⟩)

theorem read_not_single (hd : x.difference smc = d)
    (hnot : ¬Alternates 0x55 (d.s0 smc) ∨ ¬Alternates 0x55 (d.s1 smc) ∨ ¬Alternates 0x54 d.code2)
    (hne : d ≠ ⟨0, 0, 0⟩) : x.read smc =
      (if weight (d.s0 smc) + weight (d.s1 smc) + weight d.code2 = 1 then 1 else EBADMSG, x.dat) := by
  subst hd
  have hzero : ¬(x.difference smc).s0 smc ||| (x.difference smc).s1 smc |||
      (x.difference smc).code2 = 0 := by
    intro h
    obtain ⟨h, h2⟩ := or_eq_zero h
    obtain ⟨h0, h1⟩ := or_eq_zero h
    refine hne ?_
    cases smc with
    | false => exact Ecc.ext h1 h0 h2
    | true => exact Ecc.ext h0 h1 h2
  have hsingle : ¬Single ((x.difference smc).s0 smc) ((x.difference smc).s1 smc)
      (x.difference smc).code2 := by
    rintro ⟨h0, h1, h2⟩
    rcases hnot with h | h | h
    · exact h h0
    · exact h h1
    · exact h h2
  refine (if_neg hzero).trans ((if_neg hsingle).trans ?_)
  by_cases hone : weight ((x.difference smc).s0 smc) + weight ((x.difference smc).s1 smc) +
      weight (x.difference smc).code2 = 1
  · rw [if_pos hone]
    exact if_pos ((countbits_eq ..).trans hone)
  · rw [if_neg hone]
    exact if_neg fun h => hone ((countbits_eq ..).symm.trans h)

/-! ### One bit -/

variable {p q : Cell}

theorem ofNat_toNat (i : Fin 256) : (BitVec.ofNat 8 i.val).toNat = i.val := by
  rw [BitVec.toNat_ofNat]
  exact Nat.mod_eq_of_lt i.isLt

theorem flip_flip (dat : Nat → Byte) (i j : Nat) : flip (flip dat i j) i j = dat := by
  rw [flip, flip, Function.update_self, Function.update_idem, BitVec.xor_assoc, BitVec.xor_self,
    BitVec.xor_zero, Function.update_eq_self]

/-- A single bit that has changed is put right, wherever it is. -/
theorem read_flip (h : x.Intact smc) (p : Cell) : (x.flip p).read smc = (1, x.dat) := by
  have hd : (x.flip p).difference smc = p.place smc := by
    rw [Stored.difference_flip, h.difference, Ecc.zero_xor]
  cases p with
  | data i j =>
      obtain ⟨halternates, -, hnum, -⟩ := column_place j
      have hcode : (Cell.place smc (.data i j)).code2 = column j := by cases smc <;> rfl
      rw [read_single hd]
      · rw [hcode, hnum, Cell.place, s0_dataPlace, s1_dataPlace, byteoffs_place, ofNat_toNat,
          BitVec.toNat_ofNat, Nat.mod_eq_of_lt (j.isLt.trans (by decide))]
        exact congrArg _ (flip_flip x.dat i j)
      · exact (s0_dataPlace smc _ j).symm ▸ (line_place _).2.1
      · exact (s1_dataPlace smc _ j).symm ▸ (line_place _).1.1
      · exact hcode.symm ▸ halternates
  | code k b =>
      have hne : codeBit k b ≠ ⟨0, 0, 0⟩ := by
        intro hzero
        have hweight := (code_alone true k b).2.1
        rw [hzero] at hweight
        exact absurd hweight (by decide)
      rw [read_not_single hd ((code_alone smc k b).1.imp_right .inl) hne]
      exact congrArg (·, x.dat) (if_pos (code_alone smc k b).2.1)

/-! ### Two bits -/

theorem not_xor_not (x y : Byte) : ~~~x ^^^ ~~~y = x ^^^ y := by
  rw [← not_xor, BitVec.xor_comm, ← not_xor, BitVec.not_not, BitVec.xor_comm]

/-- A difference that is neither of one bit of the data nor of one bit of the code. -/
def Hopeless (smc : Bool) (d : Ecc) : Prop :=
  (¬Alternates 0x55 (d.s0 smc) ∨ ¬Alternates 0x55 (d.s1 smc) ∨ ¬Alternates 0x54 d.code2) ∧
    weight (d.s0 smc) + weight (d.s1 smc) + weight d.code2 ≠ 1 ∧ d ≠ ⟨0, 0, 0⟩

theorem Hopeless.read (hd : x.difference smc = d) (h : Hopeless smc d) :
    x.read smc = (EBADMSG, x.dat) := by
  rw [read_not_single hd h.1 h.2.2, if_neg h.2.1]

theorem hopeless_data {i i' : Fin 256} {j j' : Fin 8} (hne : (i, j) ≠ (i', j')) :
    Hopeless smc ((Cell.place smc (.data i j)).xor (Cell.place smc (.data i' j'))) := by
  let e := BitVec.ofNat 8 i.val ^^^ BitVec.ofNat 8 i'.val
  have h0 : ((Cell.place smc (.data i j)).xor (Cell.place smc (.data i' j'))).s0 smc = tmp2 e e := by
    rw [Ecc.s0_xor, Cell.place, Cell.place, s0_dataPlace, s0_dataPlace, ← tmp2_xor, not_xor_not]
  have h1 : ((Cell.place smc (.data i j)).xor (Cell.place smc (.data i' j'))).s1 smc = tmp1 e e := by
    rw [Ecc.s1_xor, Cell.place, Cell.place, s1_dataPlace, s1_dataPlace, ← tmp1_xor, not_xor_not]
  have h2 : ((Cell.place smc (.data i j)).xor (Cell.place smc (.data i' j'))).code2 =
      column j ^^^ column j' := by
    cases smc <;> rfl
  obtain ⟨heven, hcolumn⟩ := column_pairs j j'
  refine ⟨.inr (.inl ?_), ?_, ?_⟩
  · rw [h1]
    exact (paired_tmp1 e).even.1
  · have heven1 := (paired_tmp1 e).even.2
    have heven2 := (paired_tmp2 e).even.2
    rw [h0, h1, h2]
    omega
  · intro hzero
    have hlines : e = 0 := by
      have hplace := byteoffs_pairs e
      rw [← h0, ← h1, hzero] at hplace
      rw [← hplace]
      cases smc <;> rfl
    have hi : i = i' := by
      have heq := congrArg BitVec.toNat (BitVec.xor_eq_zero_iff.mp hlines)
      rw [ofNat_toNat, ofNat_toNat] at heq
      exact Fin.ext heq
    refine hne (Prod.ext hi (hcolumn ?_))
    rw [← h2, hzero]

theorem hopeless_code {k k' : Fin 3} {b b' : Fin 8} (hne : (k, b) ≠ (k', b')) :
    Hopeless smc ((codeBit k b).xor (codeBit k' b')) := by
  obtain ⟨hnot, hweight⟩ := codes_pairs smc k k' b b' hne
  refine ⟨hnot.imp_right .inl, by omega, fun hzero => ?_⟩
  rw [hzero] at hweight
  cases smc <;> exact absurd hweight (by decide)

/-- A bit of the data, and one of the code that the check looks at. -/
theorem hopeless_mixed (i : Fin 256) (j : Fin 8) {k : Fin 3} {b : Fin 8}
    (hspare : ¬(k = 2 ∧ b < 2)) :
    Hopeless smc ((Cell.place smc (.data i j)).xor (codeBit k b)) := by
  obtain ⟨⟨-, hw1, hno1⟩, -, hw2, hno2⟩ := line_place (BitVec.ofNat 8 i.val)
  obtain ⟨-, hwc, -, hnoc⟩ := column_place j
  have h0 : ((Cell.place smc (.data i j)).xor (codeBit k b)).s0 smc =
      tmp2 (~~~BitVec.ofNat 8 i.val) (BitVec.ofNat 8 i.val) ^^^ (codeBit k b).s0 smc := by
    rw [Ecc.s0_xor, Cell.place, s0_dataPlace]
  have h1 : ((Cell.place smc (.data i j)).xor (codeBit k b)).s1 smc =
      tmp1 (~~~BitVec.ofNat 8 i.val) (BitVec.ofNat 8 i.val) ^^^ (codeBit k b).s1 smc := by
    rw [Ecc.s1_xor, Cell.place, s1_dataPlace]
  have h2 : ((Cell.place smc (.data i j)).xor (codeBit k b)).code2 =
      column j ^^^ (codeBit k b).code2 := by
    cases smc <;> rfl
  have hheavy {d : Ecc} (h : 2 ≤ weight (d.s0 smc) + weight (d.s1 smc) + weight d.code2) :
      weight (d.s0 smc) + weight (d.s1 smc) + weight d.code2 ≠ 1 ∧ d ≠ ⟨0, 0, 0⟩ := by
    refine ⟨by omega, fun hzero => ?_⟩
    rw [hzero] at h
    cases smc <;> exact absurd h (by decide)
  rcases (code_alone smc k b).2.2 with ⟨e0, e1, e2⟩ | ⟨e0, e1, e2⟩ | ⟨rfl, e0, e1, e2⟩
  · rw [e0] at h0
    rw [e1, BitVec.xor_zero] at h1
    refine ⟨.inl (h0 ▸ hno2 b), hheavy ?_⟩
    rw [h1]
    omega
  · rw [e0, BitVec.xor_zero] at h0
    rw [e1] at h1
    refine ⟨.inr (.inl (h1 ▸ hno1 b)), hheavy ?_⟩
    rw [h0]
    omega
  · rw [e0, BitVec.xor_zero] at h0
    rw [e2] at h2
    have hcode := hnoc b
    rw [if_neg fun hb => hspare ⟨rfl, hb⟩] at hcode
    refine ⟨.inr (.inr (h2 ▸ hcode)), hheavy ?_⟩
    rw [h0]
    omega

/-- Two bits that have changed are noticed, unless the check does not look at one of them. -/
theorem read_flip_flip (h : x.Intact smc) (hne : p ≠ q) (hp : ¬p.Spare) (hq : ¬q.Spare) :
    ((x.flip p).flip q).read smc = (EBADMSG, ((x.flip p).flip q).dat) := by
  have hd : ((x.flip p).flip q).difference smc = (p.place smc).xor (q.place smc) := by
    rw [Stored.difference_flip, Stored.difference_flip, h.difference, Ecc.zero_xor]
  cases p with
  | data i j =>
      cases q with
      | data i' j' =>
          exact (hopeless_data fun heq => hne (by cases heq; rfl)).read hd
      | code k b => exact (hopeless_mixed i j hq).read hd
  | code k b =>
      cases q with
      | data i j => exact (hopeless_mixed i j hp).read (hd.trans (Ecc.xor_comm ..))
      | code k' b' => exact (hopeless_code fun heq => hne (by cases heq; rfl)).read hd

/-- A bit of the data is put right beside one that the check does not look at. -/
theorem read_flip_spare (h : x.Intact smc) (i : Fin 256) (j : Fin 8) (hq : q.Spare) :
    ((x.flip (.data i j)).flip q).read smc = (1, x.dat) := by
  cases q with
  | data _ _ => exact hq.elim
  | code k b =>
      obtain ⟨rfl, hb⟩ := hq
      have hd : ((x.flip (.data i j)).flip (.code 2 b)).difference smc =
          (Cell.place smc (.data i j)).xor (codeBit 2 b) := by
        rw [Stored.difference_flip, Stored.difference_flip, h.difference, Ecc.zero_xor]
        rfl
      obtain ⟨-, -, -, hcode⟩ := column_place j
      have halternates := hcode b
      rw [if_pos hb] at halternates
      have h0 : ((Cell.place smc (.data i j)).xor (codeBit 2 b)).s0 smc =
          tmp2 (~~~BitVec.ofNat 8 i.val) (BitVec.ofNat 8 i.val) := by
        rw [Ecc.s0_xor, Cell.place, s0_dataPlace]
        cases smc <;> exact BitVec.xor_zero
      have h1 : ((Cell.place smc (.data i j)).xor (codeBit 2 b)).s1 smc =
          tmp1 (~~~BitVec.ofNat 8 i.val) (BitVec.ofNat 8 i.val) := by
        rw [Ecc.s1_xor, Cell.place, s1_dataPlace]
        cases smc <;> exact BitVec.xor_zero
      have h2 : ((Cell.place smc (.data i j)).xor (codeBit 2 b)).code2 =
          column j ^^^ 1#8 <<< b.val := by
        cases smc <;> rfl
      rw [read_single hd (h0 ▸ (line_place _).2.1) (h1 ▸ (line_place _).1.1) (h2 ▸ halternates.1),
        h0, h1, h2, byteoffs_place, halternates.2, ofNat_toNat, BitVec.toNat_ofNat,
        Nat.mod_eq_of_lt (j.isLt.trans (by decide))]
      exact congrArg _ (flip_flip x.dat i j)

/-- A code corrects any single bit, of the data or of itself, and notices any two that the check looks
at. -/
theorem corrects_one_detects_two (smc : Bool) (dat : Nat → Byte) :
    let x : Stored := ⟨dat, nand_calculate_ecc smc dat⟩
    x.read smc = (0, dat) ∧ (∀ p, (x.flip p).read smc = (1, dat)) ∧
      ∀ p q, p ≠ q → ¬p.Spare → ¬q.Spare →
        ((x.flip p).flip q).read smc = (EBADMSG, ((x.flip p).flip q).dat) := by
  intro x
  have hintact : x.Intact smc := rfl
  exact ⟨read_zero hintact.difference, read_flip hintact, fun p q hne hp hq =>
    read_flip_flip hintact hne hp hq⟩

end Reading

/-- A bit of the data and one of the code. -/
theorem corrects_one_detects_two_mixed (dat : Nat → Byte) :
    let x : Stored := ⟨dat, nand_calculate_ecc false dat⟩
    (((x.flip (.data 3 1)).flip (.code 0 4)).read false).1 = EBADMSG :=
  congrArg Prod.fst ((corrects_one_detects_two false dat).2.2 (.data 3 1) (.code 0 4) (by decide) id
    fun h => absurd h.1 (by decide))

end UBoot.NandEcc
