/-
# The environment tools and erase blocks

`flash_read_buf` and `flash_write_buf` of `tools/env/fw_env.c`, on a device whose operations
succeed. Erasing sets the bits of an area and writing clears bits. The environment may begin
anywhere in a block, and on NAND bad blocks are passed over.
-/

import UBoot.Lib.EraseRounds
import UBoot.Lib.Memory
import UBoot.LibGeneric.Crc32

namespace UBoot.Tools

open UBoot.Lib

/-- `MTD_NORFLASH` and `MTD_NANDFLASH` -/
inductive MtdType
  | nor
  | nand
  deriving DecidableEq

/-- `struct envdev_s`, with the answers of `MEMGETBADBLOCK`. -/
structure EnvDev where
  devoff : Nat
  erase_size : Nat
  env_sectors : Nat
  mtd_type : MtdType
  bad : Nat → Bool
  erase_pos : 0 < erase_size

/-- What is done to the device: an area is erased, or bytes are written that the buffer has
from an index on. -/
inductive FlashOp
  | erase (start length : Nat)
  | write (start src length : Nat)
  deriving DecidableEq

/-- The contents after an operation, where `data` is the memory from the buffer on. -/
def FlashOp.apply (data : Nat → Byte) (flash : Nat → Byte) : FlashOp → Nat → Byte
  | .erase start length => eraseCells start length flash
  | .write start src length => programCells start length (fun i => data (src + i)) flash

/-- The return value, unless it is -1, the operations in order, the length of the buffer
that is written, and the contents of the device. -/
structure Rewrite where
  rc : Option Nat
  ops : List FlashOp
  dataLen : Nat
  flash : Nat → Byte

namespace EnvDev

variable (dev : EnvDev)

/-- `flash_bad_block`, which asks on NAND only. -/
def flash_bad_block (blockstart : Nat) : Bool :=
  decide (dev.mtd_type = .nand) && dev.bad blockstart

/-- The end of the sectors of the environment. -/
def top : Nat := (dev.devoff / dev.erase_size + dev.env_sectors) * dev.erase_size

/-- The loop of `flash_read_buf`: the bytes in order, unless it returns -1. -/
def readLoop (flash : Nat → Byte) (count blocklen top_of_range : Nat) :
    Nat → Nat → Nat → Nat → Nat → Option (List Byte)
  | 0, _, _, _, _ => none
  | fuel + 1, processed, readlen, block_seek, blockstart =>
      if processed < count then
        if blockstart + block_seek + readlen > top_of_range then none
        else if dev.flash_bad_block blockstart then
          readLoop flash count blocklen top_of_range fuel processed readlen block_seek
            (blockstart + blocklen)
        else
          (readLoop flash count blocklen top_of_range fuel (processed + readlen)
            (min blocklen (count - (processed + readlen))) 0 (blockstart + blocklen)).map
            ((List.range readlen).map (fun i => flash (blockstart + block_seek + i)) ++ ·)
      else some []

/-- `flash_read_buf`. The loop takes a round for each block at most. -/
def flash_read_buf (flash : Nat → Byte) (count offset : Nat) : Option (List Byte) :=
  let blockstart := offset / dev.erase_size * dev.erase_size
  let block_seek := offset - blockstart
  match dev.mtd_type with
  | .nand =>
      let blocklen := dev.erase_size
      let readlen := if count > blocklen - block_seek then blocklen - block_seek else count
      dev.readLoop flash count blocklen dev.top (dev.top + 2) 0 readlen block_seek blockstart
  | .nor => dev.readLoop flash count 0 (offset + count) 2 0 count block_seek blockstart

/-- The loop of `flash_write_buf`: what is returned, unless it is -1, and the operations. -/
def writeLoop (write_total erasesize CONFIG_ENV_SIZE : Nat) :
    Nat → Nat → Nat → Option Nat × List FlashOp
  | 0, _, _ => (none, [])
  | fuel + 1, processed, blockstart =>
      if processed < write_total then
        if blockstart + erasesize > dev.top then (none, [])
        else if dev.flash_bad_block blockstart then
          writeLoop write_total erasesize CONFIG_ENV_SIZE fuel processed
            (blockstart + dev.erase_size)
        else
          let rest := writeLoop write_total erasesize CONFIG_ENV_SIZE fuel
            (processed + dev.erase_size) (blockstart + dev.erase_size)
          (rest.1, .erase blockstart erasesize ::
            .write blockstart processed CONFIG_ENV_SIZE :: rest.2)
      else (some processed, [])

/-- The loop with a buffer. -/
def writeData (write_total erasesize CONFIG_ENV_SIZE erase_offset : Nat) (flash : Nat → Byte)
    (data : Nat → Byte) (dataLen : Nat) : Rewrite :=
  let written :=
    dev.writeLoop write_total erasesize CONFIG_ENV_SIZE (dev.top + 2) 0 erase_offset
  ⟨written.1, written.2, dataLen, written.2.foldl (FlashOp.apply data) flash⟩

/-- `flash_write_buf`. The memory from the buffer on, which it does not initialize, is
`heap`. -/
def flash_write_buf (CONFIG_ENV_SIZE : Nat) (heap : Nat → Byte) (flash : Nat → Byte)
    (buf : List Byte) (offset : Nat) : Rewrite :=
  let count := buf.length
  let blocklen := dev.erase_size
  let erase_offset := offset / blocklen * blocklen
  let erase_len := dev.top - erase_offset
  let block_seek := offset - erase_offset
  let write_total := (block_seek + count + blocklen - 1) / blocklen * blocklen
  let erasesize := match dev.mtd_type with
    | .nand => blocklen
    | .nor => erase_len
  if write_total > count then
    match dev.flash_read_buf flash write_total erase_offset with
    | none => ⟨none, [], erase_len, flash⟩
    | some old =>
        let data := store (store heap 0 old) block_seek buf
        dev.writeData write_total erasesize CONFIG_ENV_SIZE erase_offset flash data erase_len
  else
    dev.writeData write_total erasesize CONFIG_ENV_SIZE erase_offset flash (store heap 0 buf) count

/-! ## What is meant -/

/-- The first block of the environment. -/
def first : Nat := dev.devoff / dev.erase_size * dev.erase_size

/-- Where the environment begins in it. -/
def seek : Nat := dev.devoff % dev.erase_size

/-- The good ones of some blocks, in order. -/
def goodFrom : Nat → Nat → List Nat
  | 0, _ => []
  | sectors + 1, blockstart =>
      if dev.flash_bad_block blockstart then goodFrom sectors (blockstart + dev.erase_size)
      else blockstart :: goodFrom sectors (blockstart + dev.erase_size)

/-- The good blocks of the environment. -/
def goodBlocks : List Nat := dev.goodFrom dev.env_sectors dev.first

/-- The address of a byte, counted from the beginning of the first block: on NAND the blocks
are good ones. -/
def place (p : Nat) : Nat :=
  match dev.mtd_type with
  | .nand => dev.goodBlocks.getD (p / dev.erase_size) 0 + p % dev.erase_size
  | .nor => dev.first + p

end EnvDev

/-- An operation stays in the sectors of the environment. -/
def FlashOp.Inside (dev : EnvDev) : FlashOp → Prop
  | .erase start length => dev.first ≤ start ∧ start + length ≤ dev.top
  | .write start _ length => dev.first ≤ start ∧ start + length ≤ dev.top

/-- An operation reads from the buffer. -/
def FlashOp.ReadsWithin (dataLen : Nat) : FlashOp → Prop
  | .erase _ _ => True
  | .write _ src length => src + length ≤ dataLen

/-- The buffer is read back, nothing outside the sectors is touched, the source stays inside
the data, and the rest keeps its contents. -/
structure EnvDev.Rewrites (dev : EnvDev) (flash : Nat → Byte) (buf : List Byte) (r : Rewrite) :
    Prop where
  reads_back : dev.flash_read_buf r.flash buf.length dev.devoff = some buf
  inside : ∀ op ∈ r.ops, op.Inside dev
  sources : ∀ op ∈ r.ops, op.ReadsWithin r.dataLen
  rest : ∀ a, (∀ i < buf.length, a ≠ dev.place (dev.seek + i)) → r.flash a = flash a

end UBoot.Tools
