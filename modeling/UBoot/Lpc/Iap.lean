/-
# The internal flash of LPC microcontrollers

`envm_write` of `cpu/arm_cortexm3/lpc178x/envm.c` and `cpu/arm_cortexm3/lpc18xx/envm-lpc43xx.c`. Both
erase the sectors of a range through the IAP calls of the chip and then program it in blocks. What
differs, the search for a sector and the checks, is a `Chip`. The IAP calls do what the manual says
and succeed, so the ones that prepare sectors and the blank check leave nothing behind.
-/

import UBoot.LibGeneric.Crc32

namespace UBoot.Lpc

/-- `u32` -/
abbrev U32 := BitVec 32

def EINVAL : Int := 22
def EEXIST : Int := 17
def EAGAIN : Int := 11

/-- Memory, the sectors that were erased with their banks, and where blocks were copied to. -/
structure Flash where
  mem : U32 → Byte
  erased : List (Nat × Bool)
  copies : List U32

/-- A chip: the size of a block, `find_sector`, which has no result when it leaves its table, the
check of `envm_write`, the bank of an address, how many sectors a bank has, the check at the end of
the flash, what `envm_write` returns for an error, and where the sectors begin. -/
structure Chip where
  IAP_BLOCK_SIZE : U32
  find_sector : U32 → Bool → Option U32
  accepts : U32 → U32 → Bool
  bank : U32 → Bool
  sectors : Bool → U32
  exceeds : U32 → U32 → Bool → Bool
  failure : Int → U32
  start : Bool → Nat → Nat

variable (chip : Chip)

/-- `(size + IAP_BLOCK_MASK) & ~IAP_BLOCK_MASK` -/
def Chip.rounded (size : U32) : U32 :=
  (size + (chip.IAP_BLOCK_SIZE - 1#32)) &&& ~~~(chip.IAP_BLOCK_SIZE - 1#32)

/-- An address in a sector of a bank. -/
def Chip.InSector (s : Nat × Bool) (a : U32) : Prop :=
  chip.start s.2 s.1 ≤ a.toNat ∧ a.toNat < chip.start s.2 (s.1 + 1)

/-- The IAP call that erases the sectors from `first` to `last`. -/
def Flash.erase (f : Flash) (first last : Nat) (bank : Bool) : Flash :=
  { f with
    mem := fun a =>
      if chip.start bank first ≤ a.toNat ∧ a.toNat < chip.start bank (last + 1) then 0xff#8
      else f.mem a
    erased := f.erased ++ (List.range' first (last + 1 - first)).map (·, bank) }

/-- The IAP call that copies a block of RAM. -/
def Flash.copy (f : Flash) (dst : U32) (src : Nat → Byte) : Flash :=
  { f with
    mem := fun a =>
      if (a - dst).toNat < chip.IAP_BLOCK_SIZE.toNat then src (a - dst).toNat else f.mem a
    copies := f.copies ++ [dst] }

/-- `lpc178x_flash_erase` and `lpc43xn_flash_erase` -/
def flash_erase (f : Flash) (offset size : U32) (bank : Bool) : Option (Int × Flash) := do
  let first ← chip.find_sector offset bank
  let last ← chip.find_sector (offset + size - 1#32) bank
  return if last < first ∨ last ≥ chip.sectors bank then (-EINVAL, f)
    else (0, f.erase chip first.toNat last.toNat bank)

/-- The loop over the blocks of `lpc178x_flash_program` and `lpc43xn_flash_program`. -/
def copyLoop (dest_addr : U32) (src : Nat → Byte) (bank : Bool) : (n : Nat) → (offset : U32) →
    Flash → Option Flash
  | 0, _, f => some f
  | n + 1, offset, f => do
      let _ ← chip.find_sector (dest_addr + offset) bank
      copyLoop dest_addr src bank n (offset + chip.IAP_BLOCK_SIZE)
        (f.copy chip (dest_addr + offset) fun i => src (offset.toNat + i))

/-- `lpc178x_flash_program` and `lpc43xn_flash_program` -/
def flash_program (f : Flash) (dest_addr : U32) (src : Nat → Byte) (size : U32) :
    Option (Int × Flash) :=
  let bank := chip.bank dest_addr
  if size &&& (chip.IAP_BLOCK_SIZE - 1#32) ≠ 0#32 then some (-EINVAL, f)
  else if dest_addr &&& 0xff#32 ≠ 0#32 then some (-EINVAL, f)
  else if chip.exceeds dest_addr size bank then some (-EINVAL, f)
  else if ∃ i < size.toNat, f.mem (dest_addr + BitVec.ofNat 32 i) ≠ 0xff#8 then some (-EEXIST, f)
  else
    (copyLoop chip dest_addr src bank (size.toNat / chip.IAP_BLOCK_SIZE.toNat) 0#32 f).map fun f =>
      if ∃ i < size.toNat, f.mem (dest_addr + BitVec.ofNat 32 i) ≠ src i then (-EAGAIN, f)
      else (0, f)

/-- `envm_write` -/
def envm_write (f : Flash) (offset : U32) (buf : Nat → Byte) (size : U32) : Option (U32 × Flash) :=
  if !chip.accepts offset size then some (0#32, f)
  else do
    let (rv, f) ← flash_erase chip f offset size (chip.bank offset)
    if rv < 0 then return (chip.failure rv, f)
    let (rv, f) ← flash_program chip f offset buf (chip.rounded size)
    return if rv < 0 then (chip.failure rv, f) else (size, f)

end UBoot.Lpc

/-!
## Two chips

`find_sector` and the checks of `cpu/arm_cortexm3/lpc178x/envm.c` and
`cpu/arm_cortexm3/lpc18xx/envm-lpc43xx.c`. The table of the first has an entry for each sector and
the search stops at their number. The search in the second stops at a row without sectors, and
there is none.
-/

namespace UBoot.Lpc

/-- The begins of consecutive sectors. -/
def begins (base : Nat) (sizes : List Nat) (i : Nat) : Nat := base + (sizes.take i).sum

/-! ## LPC178x -/

namespace Lpc178x

def CONFIG_MEM_NVM_BASE : U32 := 0#32

/-- `flash_bsize` -/
def flash_bsize : List U32 := List.replicate 16 0x1000#32 ++ List.replicate 14 0x8000#32

/-- `lpc178x_iap_init`: `iap_flash_size` and `iap_num_sectors` by the part identification number. -/
def lpc178x_iap_init (val : U32) : U32 × U32 :=
  if val &&& 0x08000000#32 ≠ 0#32 then
    if val &&& 4#32 ≠ 0#32 then (0x80000#32, 30#32) else (0x40000#32, 22#32)
  else if val &&& 4#32 ≠ 0#32 then (0x80000#32, 30#32)
  else if val &&& 2#32 ≠ 0#32 then (0x40000#32, 22#32)
  else (0x20000#32, 18#32)

/-- The loop of `find_sector`, with `n` sectors left. -/
def findLoop (addr : U32) : (n : Nat) → (i : Nat) → (sect_base : U32) → Option U32
  | 0, _, _ => some (-1#32)
  | n + 1, i, sect_base =>
      match flash_bsize[i]? with
      | none => none
      | some bsize =>
          if addr ≥ sect_base ∧ addr < sect_base + bsize then some (BitVec.ofNat 32 i)
          else findLoop addr n (i + 1) (sect_base + bsize)

def find_sector (iap_num_sectors : U32) (addr : U32) : Option U32 :=
  findLoop addr iap_num_sectors.toNat 0 0#32

/-- An LPC177x or LPC178x. It has one bank, and `CONFIG_MEM_NVM_BASE + dest_addr` is `dest_addr`. -/
def chip (val : U32) : Chip where
  IAP_BLOCK_SIZE := 256#32
  find_sector addr _ := find_sector (lpc178x_iap_init val).2 addr
  accepts offset size := !(offset < CONFIG_MEM_NVM_BASE ||
    offset + size > CONFIG_MEM_NVM_BASE + (lpc178x_iap_init val).1)
  bank _ := false
  sectors _ := (lpc178x_iap_init val).2
  exceeds dest_addr size _ := dest_addr + size > (lpc178x_iap_init val).1
  failure _ := 0#32
  start _ := begins 0 (flash_bsize.map BitVec.toNat)

def lpc178x_flash_erase (val : U32) (f : Flash) (offset size : U32) : Option (Int × Flash) :=
  flash_erase (chip val) f offset size false

def lpc178x_flash_program (val : U32) (f : Flash) (dest_addr : U32) (src : Nat → Byte) (size : U32) :
    Option (Int × Flash) :=
  flash_program (chip val) f dest_addr src size

def envm_write (val : U32) (f : Flash) (offset : U32) (buf : Nat → Byte) (size : U32) :
    Option (U32 × Flash) :=
  Lpc.envm_write (chip val) f offset buf size

end Lpc178x

/-! ## LPC43xx -/

namespace Lpc43xx

def CONFIG_MEM_NVM_BASE : U32 := 0x1a000000#32
def CONFIG_MEM_NVM_LEN : U32 := 0x80000#32
def CONFIG_MEM_NVM2_BASE : U32 := 0x1b000000#32
def CONFIG_MEM_NVM2_LEN : U32 := 0x80000#32
def CONFIG_MEM_NVM_SECTORS : U32 := 15#32

/-- `flash_layout`: how many sectors of which size. -/
def flash_layout : List (Nat × U32) := [(8, 0x2000#32), (7, 0x10000#32)]

/-- `CONFIG_NVM_VALUE(bank, BASE)` -/
def base (bank : Bool) : U32 := if bank then CONFIG_MEM_NVM2_BASE else CONFIG_MEM_NVM_BASE

/-- The inner loop of `find_sector`: a sector is found, or `current` and `sector` go on. -/
def findRow (addr size : U32) : (n : Nat) → (current sector : U32) → U32 ⊕ U32 × U32
  | 0, current, sector => .inr (current, sector)
  | n + 1, current, sector =>
      if addr < current + size then .inl sector
      else findRow addr size n (current + size) (sector + 1#32)

/-- The outer loop, which reads on behind the table if nothing is found in it. -/
def findLayout (addr : U32) : (layout : List (Nat × U32)) → (current sector : U32) → Option U32
  | [], _, _ => none
  | (sectors, size) :: layout, current, sector =>
      if sectors = 0 then some (-1#32)
      else
        match findRow addr size sectors current sector with
        | .inl sector => some sector
        | .inr (current, sector) => findLayout addr layout current sector

def find_sector (addr : U32) (bank : Bool) : Option U32 :=
  findLayout addr flash_layout (base bank) 0#32

/-- An LPC435x with its two banks. -/
def chip : Chip where
  IAP_BLOCK_SIZE := 512#32
  find_sector := find_sector
  accepts offset size :=
    !((offset < CONFIG_MEM_NVM_BASE || offset + size > CONFIG_MEM_NVM_BASE + CONFIG_MEM_NVM_LEN) &&
      (offset < CONFIG_MEM_NVM2_BASE ||
        offset + size > CONFIG_MEM_NVM2_BASE + CONFIG_MEM_NVM2_LEN))
  bank offset := CONFIG_MEM_NVM2_BASE ≤ offset
  sectors _ := CONFIG_MEM_NVM_SECTORS
  exceeds _ size bank := size > if bank then CONFIG_MEM_NVM2_LEN else CONFIG_MEM_NVM_LEN
  failure rv := BitVec.ofInt 32 rv
  start bank := begins (base bank).toNat
    (flash_layout.flatMap fun row => List.replicate row.1 row.2.toNat)

def lpc43xn_flash_erase (f : Flash) (offset size : U32) (bank : Bool) : Option (Int × Flash) :=
  flash_erase chip f offset size bank

def lpc43xn_flash_program (f : Flash) (dest_addr : U32) (src : Nat → Byte) (size : U32) :
    Option (Int × Flash) :=
  flash_program chip f dest_addr src size

def envm_write (f : Flash) (offset : U32) (buf : Nat → Byte) (size : U32) : Option (U32 × Flash) :=
  Lpc.envm_write chip f offset buf size

end Lpc43xx

end UBoot.Lpc
