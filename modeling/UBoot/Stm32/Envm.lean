/-
# The embedded flash of STM32 microcontrollers

`envm_write` of `cpu/arm_cortexm3/stm32/envm.c`. The flash is made of blocks of several sizes.
The block to erase is selected in the control register, which keeps its value between calls.
-/

import UBoot.LibGeneric.Crc32

namespace UBoot.Stm32

/-- `u32` -/
abbrev U32 := BitVec 32

/-- `CONFIG_SYS_STM32F43X`, `CONFIG_SYS_STM32F7`, and neither. -/
inductive Chip
  | STM32F2
  | STM32F43X
  | STM32F7
  deriving DecidableEq

/-- `STM32_FLASH_BASE` -/
def STM32_FLASH_BASE : Nat := 0x08000000

/-- `STM32_FLASH_SIZE` -/
def STM32_FLASH_SIZE : Chip → Nat
  | .STM32F43X => 1024 * 1024 * 2
  | _ => 1024 * 1024 * 1

/-- The blocks of one bank. -/
def bank : List Nat := List.replicate 4 (16 * 1024) ++ [64 * 1024] ++ List.replicate 7 (128 * 1024)

/-- `flash_bsize` -/
def flash_bsize : Chip → List Nat
  | .STM32F7 => List.replicate 4 (32 * 1024) ++ [128 * 1024] ++ List.replicate 3 (256 * 1024)
  | .STM32F2 => bank
  | .STM32F43X => bank ++ bank

/-- The flash, its control register, whether it is busy, and the blocks erased so far. -/
structure Flash where
  nvm : Nat → Byte
  cr : U32
  busy : Bool
  erased : List Nat

/-- `EINVAL` and `EBUSY` -/
def EINVAL : Int := 22
def EBUSY : Int := 16

/-- Bits of the control register. -/
def STM32_FLASH_CR_LOCK : U32 := 1#32 <<< 31
def STM32_FLASH_CR_ERRIE : U32 := 1#32 <<< 25
def STM32_FLASH_CR_EOPIE : U32 := 1#32 <<< 24
def STM32_FLASH_CR_START : U32 := 1#32 <<< 16
def STM32_FLASH_CR_PSIZE_MSK : U32 := 3#32
def STM32_FLASH_CR_PSIZE_32x : U32 := 2#32 <<< 8
def STM32_FLASH_CR_SECT_SHIFT : Nat := 3
def STM32_FLASH_CR_SECT_MSK : U32 := 0xf#32
def STM32_FLASH_CR_BLCK (v : Bool) : U32 := (if v then 1#32 else 0#32) <<< 7
def STM32_FLASH_CR_SER : U32 := 1#32 <<< 1
def STM32_FLASH_CR_PG : U32 := 1#32 <<< 0

/-- How a call ends: it returns something, or it reads past the end of `flash_bsize`. -/
inductive Outcome (α : Type)
  | returns (rv : α)
  | overruns
  deriving DecidableEq

/-- `stm32_flash_cr_unlock`: the two keys clear the lock. -/
def stm32_flash_cr_unlock (f : Flash) : Flash := { f with cr := f.cr &&& ~~~STM32_FLASH_CR_LOCK }

/-- `stm32_flash_cr_lock` -/
def stm32_flash_cr_lock (f : Flash) : Flash := { f with cr := f.cr ||| STM32_FLASH_CR_LOCK }

/-- The wait until the flash is not busy. -/
def waitReady (f : Flash) : Flash := { f with busy := false }

variable (chip : Chip)

/-- Where a block begins. -/
def blockStart (n : Nat) : Nat := STM32_FLASH_BASE + ((flash_bsize chip).take n).sum

/-- The bit of the control register for the second bank. -/
def secondBank (cr : U32) : Bool := cr.getLsbD 7

/-- The block that the control register selects: its number in the bank, and the bank of a chip
that has two. -/
def selected (cr : U32) : Nat :=
  (cr.extractLsb' STM32_FLASH_CR_SECT_SHIFT 4).toNat +
    if chip = .STM32F43X ∧ secondBank cr then 12 else 0

/-- `START` is set: the selected block is erased, and the bit cleared again. -/
def start (f : Flash) : Flash :=
  let n := selected chip (f.cr ||| STM32_FLASH_CR_START)
  { nvm := fun i => if blockStart chip n ≤ i ∧ i < blockStart chip (n + 1) then 0xff#8 else f.nvm i
    cr := (f.cr ||| STM32_FLASH_CR_START) &&& ~~~STM32_FLASH_CR_START
    busy := true
    erased := f.erased ++ [n] }

/-- The loop of `stm32_flash_get_block`. -/
def getBlock (addr : U32) : List Nat → U32 → Nat → Int
  | [], _, _ => -EINVAL
  | bsize :: rest, base, i =>
      if addr = base then i else getBlock addr rest (base + BitVec.ofNat 32 bsize) (i + 1)

/-- `stm32_flash_get_block` -/
def stm32_flash_get_block (addr : U32) : Int :=
  getBlock addr (flash_bsize chip) (BitVec.ofNat 32 STM32_FLASH_BASE) 0

/-- The number behind the last block to erase; there is none if the table is too short. -/
def lastBlock (size : Nat) : List Nat → Nat → Nat → Option Nat
  | [], erasesize, num => if erasesize < size then none else some num
  | bsize :: rest, erasesize, num =>
      if erasesize < size then lastBlock size rest (erasesize + bsize) (num + 1) else some num

/-- What the register is when a block has been selected. -/
def selectBlock (n : Nat) (cr : U32) : U32 :=
  let cr := cr &&& ~~~(STM32_FLASH_CR_SECT_MSK <<< STM32_FLASH_CR_SECT_SHIFT)
  if chip = .STM32F43X then
    let v := decide (12 ≤ n)
    let k := if v then n - 12 else n
    cr ||| (BitVec.ofNat 32 k <<< STM32_FLASH_CR_SECT_SHIFT ||| STM32_FLASH_CR_BLCK v |||
      STM32_FLASH_CR_SER)
  else cr ||| (BitVec.ofNat 32 n <<< STM32_FLASH_CR_SECT_SHIFT ||| STM32_FLASH_CR_SER)

/-- The loop that erases so many blocks. -/
def eraseBlocks : Nat → Nat → Flash → Flash
  | 0, _, f => f
  | count + 1, n, f =>
      eraseBlocks count (n + 1) (waitReady (start chip { f with cr := selectBlock chip n f.cr }))

/-- `stm32_flash_erase` -/
def stm32_flash_erase (offset size : U32) (f : Flash) : Flash × Outcome Int :=
  let n := stm32_flash_get_block chip offset
  if n < 0 then (f, .returns n)
  else
    match lastBlock size.toNat ((flash_bsize chip).drop n.toNat) 0 n.toNat with
    | none => (f, .overruns)
    | some num =>
        if f.busy then (f, .returns (-EBUSY))
        else
          let f := eraseBlocks chip (num - n.toNat) n.toNat (stm32_flash_cr_unlock f)
          let f := { f with cr := f.cr &&& ~~~(STM32_FLASH_CR_SER |||
            STM32_FLASH_CR_SECT_MSK <<< STM32_FLASH_CR_SECT_SHIFT) }
          (stm32_flash_cr_lock f, .returns 0)

/-- The loop that copies so many words. Programming clears bits. -/
def programWords (buf : U32 → Byte) : Nat → U32 → U32 → Flash → Flash
  | 0, _, _, f => f
  | words + 1, dst, src, f =>
      let f := { f with
        nvm := fun i =>
          if dst.toNat ≤ i ∧ i < dst.toNat + 4 then
            f.nvm i &&& buf (src + BitVec.ofNat 32 (i - dst.toNat))
          else f.nvm i
        busy := true }
      programWords buf words (dst + 4#32) (src + 4#32) (waitReady f)

/-- `stm32_flash_program` -/
def stm32_flash_program (offset : U32) (buf : U32 → Byte) (size : U32) (f : Flash) : Flash × Int :=
  let words := (size + 4#32 - 1#32) / 4#32
  if f.busy then (f, -EBUSY)
  else
    let f := stm32_flash_cr_unlock f
    let f := programWords buf words.toNat offset 0#32 { f with cr := f.cr ||| STM32_FLASH_CR_PG }
    (stm32_flash_cr_lock { f with cr := f.cr &&& ~~~STM32_FLASH_CR_PG }, 0)

/-- `envm_init` -/
def envm_init (f : Flash) : Flash :=
  let f := stm32_flash_cr_unlock f
  let f := { f with cr := f.cr &&& ~~~(STM32_FLASH_CR_PSIZE_MSK ||| STM32_FLASH_CR_ERRIE |||
    STM32_FLASH_CR_EOPIE) }
  stm32_flash_cr_lock { f with cr := f.cr ||| STM32_FLASH_CR_PSIZE_32x }

/-- `envm_write` -/
def envm_write (offset : U32) (buf : U32 → Byte) (size : U32) (f : Flash) : Flash × Outcome U32 :=
  if offset.toNat < STM32_FLASH_BASE ∨
      STM32_FLASH_BASE + STM32_FLASH_SIZE chip < (offset + size).toNat then (f, .returns 0#32)
  else
    match stm32_flash_erase chip offset size f with
    | (f, .overruns) => (f, .overruns)
    | (f, .returns ret) =>
        if ret < 0 then (f, .returns 0#32)
        else
          let (f, ret) := stm32_flash_program offset buf size f
          (f, .returns (if ret < 0 then 0#32 else size))

end UBoot.Stm32
