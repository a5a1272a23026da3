/-
# The internal flash of Kinetis microcontrollers

`envm_write` of `cpu/arm_cortexm3/kinetis/envm.c`. A sector is put together in the
programming acceleration RAM, erased and programmed. The commands of the flash memory module
may fail, and leave something in their sector then. The flash begins at address 0.
-/

import UBoot.LibGeneric.Crc32
import UBoot.Lib.Memory

namespace UBoot.Kinetis

open UBoot.Lib

/-- `u32` -/
abbrev U32 := BitVec 32

/-- A microcontroller: the size of a sector, of the acceleration RAM and of the flash. -/
structure Part where
  FLASH_SECTOR_SIZE : Nat
  FLASH_PROG_ACCEL_SIZE : Nat
  CONFIG_MEM_NVM_LEN : Nat
  sector : FLASH_SECTOR_SIZE = 2048 ∨ FLASH_SECTOR_SIZE = 4096
  half : FLASH_SECTOR_SIZE ≤ FLASH_PROG_ACCEL_SIZE / 2
  accel : FLASH_PROG_ACCEL_SIZE ≤ 16384
  whole : FLASH_SECTOR_SIZE ∣ CONFIG_MEM_NVM_LEN
  address : CONFIG_MEM_NVM_LEN ≤ 2 ^ 24
  conf : 0x40C < CONFIG_MEM_NVM_LEN

/-- `KINETIS_FLASH_FSEC_OFFSET` -/
def KINETIS_FLASH_FSEC_OFFSET : Nat := 0x40C

/-- `KINETIS_FLASH_CONF_FSEC_SEC_MSK` -/
def KINETIS_FLASH_CONF_FSEC_SEC_MSK : Byte := 3

/-- `KINETIS_FLASH_CONF_FSEC_SEC_UNSECURE` -/
def KINETIS_FLASH_CONF_FSEC_SEC_UNSECURE : Byte := 2

/-- `FTFL_CMD_ERASE_SECTOR` and `FTFL_CMD_PROGRAM_SECTION` of a sector. -/
inductive Command
  | erase (sect : Nat)
  | program (sect : Nat)
  deriving DecidableEq

/-- The flash, the acceleration RAM, and the commands so far. -/
structure Flash where
  nvm : Nat → Byte
  accel : Nat → Byte
  commands : List Command

/-- How a call ends: it returns something, or a copy beyond the acceleration RAM stops the
processor. -/
inductive Outcome (α : Type)
  | returns (rv : α)
  | stops
  deriving DecidableEq

/-- `-EIO` and `-EINVAL` -/
def EIO : Int := 5
def EINVAL : Int := 22

variable (part : Part)

/-- An address lies in a sector. -/
def Part.InSector (sect i : Nat) : Prop :=
  sect * part.FLASH_SECTOR_SIZE ≤ i ∧ i < (sect + 1) * part.FLASH_SECTOR_SIZE

instance Part.instDecidableInSector (sect i : Nat) : Decidable (part.InSector sect i) :=
  inferInstanceAs (Decidable (_ ∧ _))

/-- What is wrong with each command, counted from the beginning: nothing, or it fails and its
sector holds this afterwards. -/
abbrev Faults := Nat → Option (Nat → Byte)

variable (faults : Faults)

/-- `kinetis_ftfl_command` for a sector: `done` is what it holds if the command succeeds. -/
def kinetis_ftfl_command (command : Command) (sect : Nat) (done : Nat → Byte) (f : Flash) :
    Flash × Int :=
  match faults f.commands.length with
  | none =>
      ({ f with
        nvm := fun i => if part.InSector sect i then done i else f.nvm i
        commands := f.commands ++ [command] }, 0)
  | some left =>
      ({ f with
        nvm := fun i => if part.InSector sect i then left i else f.nvm i
        commands := f.commands ++ [command] }, - EIO)

/-- `kinetis_ftfl_erase_sector` -/
def kinetis_ftfl_erase_sector (sect : Nat) (f : Flash) : Flash × Int :=
  kinetis_ftfl_command part faults (.erase sect) sect (fun _ => 0xff#8) f

/-- `kinetis_ftfl_program_section` of a whole sector. Programming clears bits. -/
def kinetis_ftfl_program_section (sect : Nat) (f : Flash) : Flash × Int :=
  kinetis_ftfl_command part faults (.program sect) sect
    (fun i => f.nvm i &&& f.accel (i - sect * part.FLASH_SECTOR_SIZE)) f

/-- So many bytes of a buffer. Pointers are 32 bit numbers. -/
def bytes (buf : U32 → Byte) (src : U32) (size : Nat) : List Byte :=
  (List.range size).map fun k => buf (src + BitVec.ofNat 32 k)

/-- What the acceleration RAM holds before the sector is erased. -/
def fillAccel (sect sect_offset fin : Nat) (source : List Byte) (f : Flash) : Nat → Byte :=
  let base := sect * part.FLASH_SECTOR_SIZE
  let accel := store f.accel 0 (slice f.nvm base sect_offset)
  let accel := store accel fin (slice f.nvm (base + fin) (part.FLASH_SECTOR_SIZE - fin))
  store accel sect_offset source

/-- `kinetis_flash_program_sector` -/
def kinetis_flash_program_sector (buf : U32 → Byte) (sect sect_offset src size : U32) (f : Flash) :
    Flash × Outcome Int :=
  if part.CONFIG_MEM_NVM_LEN / part.FLASH_SECTOR_SIZE ≤ sect.toNat then (f, .returns (-EINVAL))
  else if part.FLASH_SECTOR_SIZE < (sect_offset + size).toNat then (f, .returns (-EINVAL))
  else if part.FLASH_PROG_ACCEL_SIZE < sect_offset.toNat + size.toNat then (f, .stops)
  else
    let f := { f with
      accel := fillAccel part sect.toNat sect_offset.toNat (sect_offset + size).toNat
        (bytes buf src size.toNat) f }
    let (f, rv) := kinetis_ftfl_erase_sector part faults sect.toNat f
    if rv ≠ 0 then (f, .returns rv)
    else
      let (f, rv) := kinetis_ftfl_program_section part faults sect.toNat f
      (f, .returns rv)

/-- `FLASH_SECTOR_SIZE` as an `u32`. -/
def Part.sectorSize : U32 := BitVec.ofNat 32 part.FLASH_SECTOR_SIZE

/-- The offset in a sector. -/
def sectOffset (dest_addr first_sect sect : U32) : U32 :=
  if sect = first_sect then dest_addr - first_sect * part.sectorSize else 0#32

/-- The length in a sector. -/
def sectLen (dest_addr size first_sect last_sect sect : U32) : U32 :=
  if first_sect = last_sect then size
  else if sect = first_sect then part.sectorSize - (dest_addr - first_sect * part.sectorSize)
  else if sect = last_sect then dest_addr + size - last_sect * part.sectorSize
  else part.sectorSize

/-- The loop of `kinetis_flash_program`, for `n` sectors. -/
def programSectors (buf : U32 → Byte) (dest_addr size first_sect last_sect : U32) :
    Nat → U32 → Flash → Flash × Outcome Int
  | 0, _, f => (f, .returns 0)
  | n + 1, sect, f =>
      let sect_offset := sectOffset part dest_addr first_sect sect
      let sect_len := sectLen part dest_addr size first_sect last_sect sect
      match kinetis_flash_program_sector part faults buf sect sect_offset
        (sect * part.sectorSize + sect_offset - dest_addr) sect_len f with
      | (f, .returns 0) => programSectors buf dest_addr size first_sect last_sect n (sect + 1#32) f
      | (f, outcome) => (f, outcome)

/-- `kinetis_flash_program` -/
def kinetis_flash_program (buf : U32 → Byte) (dest_addr size : U32) (f : Flash) :
    Flash × Outcome Int :=
  let first_sect := dest_addr / part.sectorSize
  let last_sect := (dest_addr + size - 1#32) / part.sectorSize
  programSectors part faults buf dest_addr size first_sect last_sect
    (last_sect.toNat + 1 - first_sect.toNat) first_sect f

/-- The test of the byte for the security register. -/
def securesMcu (offset size : U32) (buf : U32 → Byte) : Bool :=
  offset.toNat ≤ KINETIS_FLASH_FSEC_OFFSET ∧ KINETIS_FLASH_FSEC_OFFSET < (offset + size).toNat ∧
    buf (BitVec.ofNat 32 KINETIS_FLASH_FSEC_OFFSET - offset) &&& KINETIS_FLASH_CONF_FSEC_SEC_MSK ≠
      KINETIS_FLASH_CONF_FSEC_SEC_UNSECURE

/-- `envm_write` -/
def envm_write (offset : U32) (buf : U32 → Byte) (size : U32) (f : Flash) : Flash × Outcome U32 :=
  if part.CONFIG_MEM_NVM_LEN < (offset + size).toNat then (f, .returns 0#32)
  else if securesMcu offset size buf then (f, .returns 0#32)
  else
    match kinetis_flash_program part faults buf offset size f with
    | (f, .stops) => (f, .stops)
    | (f, .returns rv) => (f, .returns (if rv < 0 then 0#32 else size))

end UBoot.Kinetis
