/-
# NAND with bad blocks

`get_len_incl_bad`, `nand_write_skip_bad` and `nand_read_skip_bad` of
`drivers/mtd/nand/nand_util.c`, with a 32 bit `size_t` and a driver whose calls succeed.
Offsets have 64 bits, but the mask `~(nand->erasesize - 1)` has 32, so that a bad block
is looked for in the first 4 GiB.
-/

import UBoot.LibGeneric.Crc32
import UBoot.Lib.Memory

namespace UBoot

open UBoot.Lib

/-- `nand_info_t`: sizes are powers of two, the device is made of whole blocks. -/
structure NandInfo where
  eraseshift : Nat
  writeshift : Nat
  blocks : Nat
  isbad : Nat → Bool

namespace NandInfo

variable (nand : NandInfo)

def erasesize : Nat := 2 ^ nand.eraseshift
def writesize : Nat := 2 ^ nand.writeshift
def size : Nat := nand.blocks * nand.erasesize

/-- `nand->erasesize - (offset & (nand->erasesize - 1))` -/
def blockLen (offset : Nat) : Nat := nand.erasesize - offset % nand.erasesize

/-- `nand_block_isbad (nand, offset & ~(nand->erasesize - 1))` -/
def checkBad (offset : Nat) : Bool :=
  nand.isbad (offset % 2 ^ 32 / nand.erasesize * nand.erasesize)

theorem erasesize_pos : 0 < nand.erasesize := Nat.two_pow_pos _

theorem blockLen_pos (offset : Nat) : 0 < nand.blockLen offset :=
  Nat.sub_pos_of_lt (Nat.mod_lt _ nand.erasesize_pos)

/-- The loop of `get_len_incl_bad`. -/
def lenInclBad (length offset len_excl_bad len_incl_bad : Nat) : Nat :=
  if len_excl_bad < length then
    let block_len := nand.blockLen offset
    let len_excl_bad :=
      if nand.checkBad offset then len_excl_bad else (len_excl_bad + block_len) % 2 ^ 32
    let len_incl_bad := (len_incl_bad + block_len) % 2 ^ 32
    if nand.size ≤ offset + block_len then len_incl_bad
    else lenInclBad length (offset + block_len) len_excl_bad len_incl_bad
  else len_incl_bad
termination_by nand.size - offset
decreasing_by
  have := nand.blockLen_pos offset
  omega

/-- `get_len_incl_bad` -/
def get_len_incl_bad (offset length : Nat) : Nat := nand.lenInclBad length offset 0 0

/-- What the loops do with the device: they ask for a block, and transfer data. -/
inductive Access
  | check (block : Nat)
  | data (offset size : Nat)

/-- The loop of `nand_write_skip_bad` and `nand_read_skip_bad`, without result if it
takes more than `fuel` rounds. -/
def skipBad : Nat → Nat → Nat → Option (List Access)
  | _, _, 0 => some []
  | 0, _, _ + 1 => none
  | fuel + 1, offset, left + 1 =>
      let check := .check (offset % 2 ^ 32 / nand.erasesize * nand.erasesize)
      if nand.checkBad offset then
        (skipBad fuel (offset + nand.blockLen offset) (left + 1)).map (check :: ·)
      else
        let size := min (left + 1) (nand.blockLen offset)
        (skipBad fuel (offset + size) (left + 1 - size)).map (check :: .data offset size :: ·)

/-- `-EINVAL` -/
def EINVAL : Int := -22

/-- `nand_write_skip_bad`: the return value and the accesses, in order. The data goes
from the beginning of the buffer on. -/
def nand_write_skip_bad (fuel offset length : Nat) : Option (Int × List Access) :=
  if offset % nand.writesize ≠ 0 ∨ length % nand.writesize ≠ 0 then some (EINVAL, [])
  else if nand.size < offset + nand.get_len_incl_bad offset length then some (EINVAL, [])
  else if nand.get_len_incl_bad offset length = length then some (0, [.data offset length])
  else (nand.skipBad fuel offset length).map fun accesses => (0, accesses)

/-- `nand_read_skip_bad`: the return value and the accesses. -/
def nand_read_skip_bad (fuel offset length : Nat) : Option (Int × List Access) :=
  if nand.size < offset + nand.get_len_incl_bad offset length then some (EINVAL, [])
  else if nand.get_len_incl_bad offset length = length then some (0, [.data offset length])
  else (nand.skipBad fuel offset length).map fun accesses => (0, accesses)

end NandInfo

open NandInfo

/-- The contents after the writes of a buffer. -/
def writeAll (flash : Nat → Byte) : List Access → List Byte → Nat → Byte
  | [], _ => flash
  | .check _ :: accesses, buffer => writeAll flash accesses buffer
  | .data offset size :: accesses, buffer =>
      writeAll (store flash offset (buffer.take size)) accesses (buffer.drop size)

/-- What the reads bring. -/
def readAll (flash : Nat → Byte) : List Access → List Byte
  | [] => []
  | .check _ :: accesses => readAll flash accesses
  | .data offset size :: accesses =>
      (List.range size).map (fun i => flash (offset + i)) ++ readAll flash accesses

/-! ## What is meant -/

namespace NandInfo

variable (nand : NandInfo)

/-- The block of an address is bad. -/
def Bad (a : Nat) : Bool := nand.isbad (a / nand.erasesize * nand.erasesize)

/-- The bytes in good blocks, from an offset to the end of the device. -/
def goodBytes (offset : Nat) : Nat :=
  if offset < nand.size then
    (if nand.Bad offset then 0 else nand.blockLen offset) +
      goodBytes (offset + nand.blockLen offset)
  else 0
termination_by nand.size - offset
decreasing_by
  have := nand.blockLen_pos offset
  omega

/-- The bytes of the blocks looked at until so many good ones are found, or the device
ends. -/
def span (offset left : Nat) : Nat :=
  if offset < nand.size ∧ 0 < left then
    nand.blockLen offset + span (offset + nand.blockLen offset)
      (if nand.Bad offset then left else left - nand.blockLen offset)
  else 0
termination_by nand.size - offset
decreasing_by
  have := nand.blockLen_pos offset
  omega

/-- The accesses go up from `lo`, stay below the end of the device, and transfer `total`
bytes, all of good blocks. -/
def Orderly : Nat → Nat → List Access → Prop
  | _, total, [] => total = 0
  | lo, total, .check block :: accesses => block < nand.size ∧ Orderly lo total accesses
  | lo, total, .data offset size :: accesses =>
      lo ≤ offset ∧ size ≤ total ∧
        (∀ i < size, offset + i < nand.size ∧ nand.Bad (offset + i) = false) ∧
        Orderly (offset + size) (total - size) accesses

/-- A call does what it should. If the good blocks do not suffice it reports an error and
does nothing. Otherwise it writes the buffer in order to good blocks, and reading gives
the buffer back. -/
def WritesGood (offset length : Nat) : Prop :=
  ∃ fuel rc accesses, nand.nand_write_skip_bad fuel offset length = some (rc, accesses) ∧
    if nand.goodBytes offset < length then rc ≠ 0 ∧ accesses = []
    else rc = 0 ∧ nand.Orderly offset length accesses ∧
      ∃ reads, nand.nand_read_skip_bad fuel offset length = some (0, reads) ∧
        ∀ (flash : Nat → Byte) (buffer : List Byte), buffer.length = length →
          readAll (writeAll flash accesses buffer) reads = buffer

/-- The check of a block is right for the blocks looked at, which holds below 4 GiB. -/
def ChecksRight (offset length : Nat) : Prop :=
  ∀ a, offset ≤ a → a < offset + nand.span offset length → nand.checkBad a = nand.Bad a

/-! ## Blocks -/

variable {nand} {offset left length lo total : Nat}

theorem blockLen_le (h : offset < nand.size) : offset + nand.blockLen offset ≤ nand.size := by
  have hpos := nand.erasesize_pos
  have hdiv := Nat.div_add_mod offset nand.erasesize
  have hmod := Nat.mod_lt offset hpos
  have hlt : offset / nand.erasesize < nand.blocks := Nat.div_lt_of_lt_mul (by
    rw [Nat.mul_comm]
    exact h)
  have hle := Nat.mul_le_mul_left nand.erasesize hlt
  rw [Nat.mul_succ, Nat.mul_comm _ nand.blocks] at hle
  rw [blockLen, size]
  omega

/-- The rest of a block is as good as its beginning. -/
theorem bad_add {i : Nat} (h : i < nand.blockLen offset) :
    nand.Bad (offset + i) = nand.Bad offset := by
  have hdiv := Nat.div_add_mod offset nand.erasesize
  have hmod := Nat.mod_lt offset nand.erasesize_pos
  have hsame : (offset + i) / nand.erasesize = offset / nand.erasesize := by
    rw [blockLen] at h
    refine Nat.div_eq_of_lt_le ?_ ?_
    · rw [Nat.mul_comm]
      omega
    · rw [Nat.succ_mul, Nat.mul_comm]
      omega
  rw [Bad, Bad, hsame]

theorem span_of_pos (h : offset < nand.size) (hleft : 0 < left) :
    nand.span offset left = nand.blockLen offset + nand.span (offset + nand.blockLen offset)
      (if nand.Bad offset then left else left - nand.blockLen offset) := by
  rw [span, if_pos ⟨h, hleft⟩]

theorem span_of_end (h : nand.size ≤ offset) : nand.span offset left = 0 := by
  rw [span, if_neg (by omega)]

theorem goodBytes_of_lt (h : offset < nand.size) : nand.goodBytes offset =
    (if nand.Bad offset then 0 else nand.blockLen offset) +
      nand.goodBytes (offset + nand.blockLen offset) := by
  rw [goodBytes, if_pos h]

theorem goodBytes_of_end (h : nand.size ≤ offset) : nand.goodBytes offset = 0 := by
  rw [goodBytes, if_neg (by omega)]

/-- Induction over the blocks up to the end of the device. -/
theorem blockInduction (nand : NandInfo) {P : Nat → Prop} (last : ∀ offset, nand.size ≤ offset → P offset)
    (step : ∀ offset < nand.size, P (offset + nand.blockLen offset) → P offset) (offset : Nat) :
    P offset := by
  by_cases h : nand.size ≤ offset
  · exact last offset h
  · have := nand.blockLen_pos offset
    exact step offset (by omega) (nand.blockInduction last step (offset + nand.blockLen offset))
termination_by nand.size - offset

theorem span_le (h : offset ≤ nand.size) (left : Nat) :
    offset + nand.span offset left ≤ nand.size := by
  induction offset using nand.blockInduction generalizing left with
  | last offset hend => rw [span_of_end hend]; omega
  | step offset hlt ih =>
      rcases Nat.eq_zero_or_pos left with rfl | hpos
      · rw [span, if_neg (by omega)]
        omega
      · rw [span_of_pos hlt hpos]
        have := ih (blockLen_le hlt) (if nand.Bad offset then left else left - nand.blockLen offset)
        omega

/-- When the good blocks suffice at least the requested length is looked at. -/
theorem le_span (hgood : left ≤ nand.goodBytes offset) : left ≤ nand.span offset left := by
  induction offset using nand.blockInduction generalizing left with
  | last offset hend => rw [goodBytes_of_end hend] at hgood; omega
  | step offset hlt ih =>
      rcases Nat.eq_zero_or_pos left with rfl | hpos
      · exact Nat.zero_le _
      · rw [goodBytes_of_lt hlt] at hgood
        rw [span_of_pos hlt hpos]
        split at hgood
        · next hbad =>
            rw [if_pos hbad]
            have := @ih left (by omega)
            omega
        · next hbad =>
            rw [if_neg hbad]
            have := @ih (left - nand.blockLen offset) (by omega)
            omega

/-! ## `get_len_incl_bad` -/

theorem ChecksRight.next (h : nand.ChecksRight offset left) (hlt : offset < nand.size)
    (hleft : 0 < left) : nand.checkBad offset = nand.Bad offset ∧
      nand.ChecksRight (offset + nand.blockLen offset)
        (if nand.Bad offset then left else left - nand.blockLen offset) := by
  have hspan := span_of_pos hlt hleft
  have hpos := nand.blockLen_pos offset
  exact ⟨h offset le_rfl (by omega), fun a ha ha' => h a (by omega) (by omega)⟩

theorem lenInclBad_eq {excl incl : Nat} (hlt : offset < nand.size) (hle : excl ≤ incl)
    (checks : nand.ChecksRight offset (length - excl))
    (fits : incl + nand.span offset (length - excl) < 2 ^ 32) :
    nand.lenInclBad length offset excl incl = incl + nand.span offset (length - excl) := by
  induction offset using nand.blockInduction generalizing excl incl with
  | last offset hend => omega
  | step offset hlt ih =>
      rw [lenInclBad]
      by_cases hmore : excl < length
      · have hspan := @span_of_pos nand offset (length - excl) hlt (by omega)
        obtain ⟨hcheck, hnext⟩ := checks.next hlt (by omega)
        have hexcl : length - (if nand.Bad offset then excl else excl + nand.blockLen offset) =
            if nand.Bad offset then length - excl else length - excl - nand.blockLen offset := by
          split <;> omega
        rw [if_pos hmore]
        simp only [hcheck]
        have hwrap : (if nand.Bad offset then excl else (excl + nand.blockLen offset) % 2 ^ 32) =
            if nand.Bad offset then excl else excl + nand.blockLen offset := by
          split
          · rfl
          · exact Nat.mod_eq_of_lt (by omega)
        rw [hwrap, Nat.mod_eq_of_lt (by omega)]
        split
        · next hend =>
            rw [hspan, span_of_end hend]
            omega
        · rw [← hexcl] at hnext hspan
          rw [ih (by omega) (by split <;> omega) hnext (by omega), hspan]
          omega
      · rw [if_neg hmore, show length - excl = 0 by omega, span, if_neg (by omega)]
        omega

theorem get_len_incl_bad_eq (hlt : offset < nand.size) (checks : nand.ChecksRight offset length)
    (fits : nand.span offset length < 2 ^ 32) :
    nand.get_len_incl_bad offset length = nand.span offset length := by
  have h := @lenInclBad_eq nand offset length 0 0 hlt (Nat.le_refl 0) (by rwa [Nat.sub_zero])
    (by rw [Nat.sub_zero]; omega)
  rwa [Nat.zero_add, Nat.sub_zero] at h

/-! ## Accesses -/

theorem Orderly.mono {accesses : List Access} (h : nand.Orderly offset total accesses)
    (hle : lo ≤ offset) : nand.Orderly lo total accesses := by
  induction accesses generalizing total with
  | nil => exact h
  | cons access accesses ih =>
      cases access with
      | check block => exact ⟨h.1, ih h.2⟩
      | data => exact ⟨hle.trans h.1, h.2⟩

/-- A range without bad blocks. -/
theorem good_of_span_eq (hgood : left ≤ nand.goodBytes offset)
    (hspan : nand.span offset left = left) :
    ∀ i < left, offset + i < nand.size ∧ nand.Bad (offset + i) = false := by
  induction offset using nand.blockInduction generalizing left with
  | last offset hend => rw [goodBytes_of_end hend] at hgood; omega
  | step offset hlt ih =>
      intro i hi
      have hpos := nand.blockLen_pos offset
      have hle := blockLen_le hlt
      rw [goodBytes_of_lt hlt] at hgood
      rw [span_of_pos hlt (by omega)] at hspan
      by_cases hbad : nand.Bad offset
      · rw [if_pos hbad] at hgood hspan
        have := @le_span nand (offset + nand.blockLen offset) left (by omega)
        omega
      · rw [if_neg hbad] at hgood hspan
        by_cases hin : i < nand.blockLen offset
        · exact ⟨by omega, by rw [bad_add hin]; simpa using hbad⟩
        · have := @ih (left - nand.blockLen offset) (by omega) (by omega)
            (i - nand.blockLen offset) (by omega)
          rwa [show offset + nand.blockLen offset + (i - nand.blockLen offset) = offset + i by omega]
            at this

/-- The loop ends when the good blocks suffice. -/
theorem skipBad_orderly (hgood : left ≤ nand.goodBytes offset)
    (checks : nand.ChecksRight offset left) :
    ∃ fuel accesses, nand.skipBad fuel offset left = some accesses ∧
      nand.Orderly offset left accesses := by
  induction offset using nand.blockInduction generalizing left with
  | last offset hend =>
      rw [goodBytes_of_end hend] at hgood
      obtain rfl : left = 0 := by omega
      exact ⟨0, [], rfl, rfl⟩
  | step offset hlt ih =>
      cases left with
      | zero => exact ⟨0, [], by rw [skipBad], rfl⟩
      | succ left =>
          have hle := blockLen_le hlt
          have hpos := nand.blockLen_pos offset
          obtain ⟨hcheck, hnext⟩ := checks.next hlt (Nat.succ_pos _)
          have hblock : offset % 2 ^ 32 / nand.erasesize * nand.erasesize < nand.size :=
            lt_of_le_of_lt ((Nat.div_mul_le_self ..).trans (Nat.mod_le ..)) hlt
          rw [goodBytes_of_lt hlt] at hgood
          by_cases hbad : nand.Bad offset
          · -- the block is skipped
            rw [if_pos hbad] at hgood hnext
            obtain ⟨fuel, accesses, hrun, horderly⟩ := ih (by omega) hnext
            refine ⟨fuel + 1,
              .check (offset % 2 ^ 32 / nand.erasesize * nand.erasesize) :: accesses, ?_, hblock,
              horderly.mono (by omega)⟩
            rw [skipBad, if_pos (hcheck.trans hbad), hrun]
            rfl
          · rw [if_neg hbad] at hgood hnext
            have hdata : ∀ i < min (left + 1) (nand.blockLen offset),
                offset + i < nand.size ∧ nand.Bad (offset + i) = false := fun i hi =>
              ⟨by omega, by rw [bad_add (by omega)]; simpa using hbad⟩
            rcases Nat.lt_or_ge (nand.blockLen offset) (left + 1) with hmore | hlast
            · obtain ⟨fuel, accesses, hrun, horderly⟩ := ih (by omega) hnext
              rw [Nat.min_eq_right (by omega)] at hdata
              refine ⟨fuel + 1, .check _ :: .data offset (nand.blockLen offset) :: accesses, ?_,
                hblock, le_rfl, by omega, hdata, horderly⟩
              rw [skipBad, if_neg (by rw [hcheck]; exact hbad)]
              simp only [Nat.min_eq_right hmore.le, hrun]
              rfl
            · rw [Nat.min_eq_left hlast] at hdata
              refine ⟨1, [.check _, .data offset (left + 1)], ?_, hblock, le_rfl, le_rfl, hdata,
                Nat.sub_self _⟩
              rw [skipBad, if_neg (by rw [hcheck]; exact hbad)]
              simp only [Nat.min_eq_left hlast, Nat.sub_self]
              rw [skipBad]
              rfl

/-! ## Write and read -/

theorem writeAll_below {accesses : List Access} (h : nand.Orderly lo total accesses)
    (flash : Nat → Byte) (buffer : List Byte) {j : Nat} (hj : j < lo) :
    writeAll flash accesses buffer j = flash j := by
  induction accesses generalizing lo total flash buffer with
  | nil => rfl
  | cons access accesses ih =>
      cases access with
      | check block => exact ih h.2 flash buffer hj
      | data offset size =>
          have hle := h.1
          rw [writeAll, ih h.2.2.2 _ _ (by omega), store_outside (.inl (by omega))]

/-- What was written is read back. -/
theorem readAll_writeAll {accesses : List Access} (h : nand.Orderly lo total accesses)
    (flash : Nat → Byte) (buffer : List Byte) (hlength : buffer.length = total) :
    readAll (writeAll flash accesses buffer) accesses = buffer := by
  induction accesses generalizing lo total flash buffer with
  | nil => exact (List.length_eq_zero_iff.mp (hlength.trans h)).symm
  | cons access accesses ih =>
      cases access with
      | check block => exact ih h.2 flash buffer hlength
      | data offset size =>
          obtain ⟨-, hsize, -, hrest⟩ := h
          have hdata : (List.range size).map (fun i => writeAll flash
              (.data offset size :: accesses) buffer (offset + i)) = buffer.take size := by
            refine List.ext_getElem (by simp [hlength, hsize]) fun i hi hi' => ?_
            have hlt : i < size := by simpa using hi
            rw [List.getElem_map, List.getElem_range, writeAll, writeAll_below hrest _ _ (by omega)]
            exact store_add (List.getElem?_eq_getElem hi')
          rw [readAll, hdata, writeAll, ih hrest _ _ (by rw [List.length_drop, hlength]),
            List.take_append_drop]

/-! ## The calls -/

theorem writesGood_of_le (hlt : offset < nand.size) (hpage : offset % nand.writesize = 0)
    (hpage' : length % nand.writesize = 0) (checks : nand.ChecksRight offset length)
    (fits : nand.span offset length < 2 ^ 32) (hgood : length ≤ nand.goodBytes offset) :
    nand.WritesGood offset length := by
  have hlen := get_len_incl_bad_eq hlt checks fits
  have hle := span_le hlt.le length
  have haligned : ¬ (offset % nand.writesize ≠ 0 ∨ length % nand.writesize ≠ 0) := by omega
  obtain ⟨fuel, accesses, hrun, horderly⟩ := skipBad_orderly hgood checks
  have back : ∀ accesses, nand.Orderly offset length accesses → ∀ (flash : Nat → Byte)
      (buffer : List Byte), buffer.length = length →
      readAll (writeAll flash accesses buffer) accesses = buffer :=
    fun accesses h flash buffer => readAll_writeAll h flash buffer
  by_cases hfast : nand.span offset length = length
  · have hdata := good_of_span_eq hgood hfast
    have horderly' : nand.Orderly offset length [.data offset length] :=
      ⟨le_rfl, le_rfl, hdata, Nat.sub_self _⟩
    refine ⟨fuel, 0, [.data offset length], ?_, ?_⟩
    · rw [nand_write_skip_bad, if_neg haligned, hlen, if_neg (by omega), if_pos hfast]
    · rw [if_neg (by omega)]
      refine ⟨rfl, horderly', [.data offset length], ?_, back _ horderly'⟩
      rw [nand_read_skip_bad, hlen, if_neg (by omega), if_pos hfast]
  · refine ⟨fuel, 0, accesses, ?_, ?_⟩
    · rw [nand_write_skip_bad, if_neg haligned, hlen, if_neg (by omega), if_neg hfast, hrun]
      rfl
    · rw [if_neg (by omega)]
      refine ⟨rfl, horderly, accesses, ?_, back _ horderly⟩
      rw [nand_read_skip_bad, hlen, if_neg (by omega), if_neg hfast, hrun]
      rfl

/-- When the good blocks do not suffice no error is reported: the length counted stops at
the end of the device. -/
theorem not_writesGood_of_lt (hlt : offset < nand.size) (hpage : offset % nand.writesize = 0)
    (hpage' : length % nand.writesize = 0) (checks : nand.ChecksRight offset length)
    (fits : nand.span offset length < 2 ^ 32) (hshort : nand.goodBytes offset < length) :
    ¬ nand.WritesGood offset length := by
  rintro ⟨fuel, rc, accesses, hrun, houtcome⟩
  rw [if_pos hshort] at houtcome
  have hlen := get_len_incl_bad_eq hlt checks fits
  have hle := span_le hlt.le length
  have haligned : ¬ (offset % nand.writesize ≠ 0 ∨ length % nand.writesize ≠ 0) := by omega
  rw [nand_write_skip_bad, if_neg haligned, hlen, if_neg (by omega)] at hrun
  split at hrun
  · have : (0 : Int) = rc := congrArg Prod.fst (Option.some.inj hrun)
    exact houtcome.1 this.symm
  · obtain ⟨_, -, heq⟩ := Option.map_eq_some_iff.mp hrun
    exact houtcome.1 (congrArg Prod.fst heq).symm

/-- On a device of up to 4 GiB the checks are right. -/
theorem checksRight_of_size_le (h : nand.size ≤ 2 ^ 32) (hlt : offset < nand.size) :
    nand.ChecksRight offset length := by
  intro a _ ha
  have := span_le hlt.le length
  rw [checkBad, Bad, Nat.mod_eq_of_lt (by omega)]

/-- A device of three blocks of two pages, the second block bad. -/
def threeBlocks : NandInfo := ⟨1, 0, 3, fun block => block = 2⟩

end NandInfo

end UBoot
