/-
# DataFlash chips

The AT45 family of `drivers/mtd/spi/atmel.c`, with pages of a power of two or of a 32nd more. A
write loads a piece into a buffer of the chip and programs the whole buffer into the page, so that
what earlier commands left in the buffer goes there as well. Pages that are not of a power of two
are addressed by fields that have room for one: page numbers may have no place in three bytes.
-/

import UBoot.Lib.Pages
import UBoot.Spi.Commands

namespace UBoot.Spi.Atmel

open UBoot.Lib

def CMD_READ_ARRAY_FAST : Byte := 0x0b
def CMD_AT45_ERASE_PAGE : Byte := 0x81
def CMD_AT45_LOAD_BUF1 : Byte := 0x84
def CMD_AT45_PROG_BUF1 : Byte := 0x88

def AT45_STATUS_P2_PAGE_SIZE : Byte := 1

def DF_FAMILY_AT45 : Nat := 1

/-- `struct atmel_spi_flash_params` -/
structure Params where
  idcode1 : Byte
  l2_page_size : Nat
  pages_per_block : Nat
  blocks_per_sector : Nat
  nr_sectors : Nat
deriving DecidableEq

def atmel_spi_flash_table : List Params :=
  [{ idcode1 := 0x22, l2_page_size := 8, pages_per_block := 8, blocks_per_sector := 16,
     nr_sectors := 4 },
   { idcode1 := 0x23, l2_page_size := 8, pages_per_block := 8, blocks_per_sector := 16,
     nr_sectors := 8 },
   { idcode1 := 0x24, l2_page_size := 8, pages_per_block := 8, blocks_per_sector := 32,
     nr_sectors := 8 },
   { idcode1 := 0x25, l2_page_size := 8, pages_per_block := 8, blocks_per_sector := 32,
     nr_sectors := 16 },
   { idcode1 := 0x26, l2_page_size := 9, pages_per_block := 8, blocks_per_sector := 32,
     nr_sectors := 16 },
   { idcode1 := 0x27, l2_page_size := 9, pages_per_block := 8, blocks_per_sector := 64,
     nr_sectors := 64 },
   { idcode1 := 0x28, l2_page_size := 10, pages_per_block := 8, blocks_per_sector := 32,
     nr_sectors := 32 },
   { idcode1 := 0x48, l2_page_size := 8, pages_per_block := 16, blocks_per_sector := 16,
     nr_sectors := 128 }]

/-- `family` of `spi_flash_probe_atmel` -/
def Params.family (p : Params) : Nat := p.idcode1.toNat / 32

/-- A chip of the AT45 family, and whether it has pages of a power of two. -/
structure Flash where
  params : Params
  powerOfTwo : Bool
  listed : params ∈ atmel_spi_flash_table
  family : params.family = DF_FAMILY_AT45

/-- `spi_flash_probe_atmel` for that family. -/
def spi_flash_probe_atmel (idcode1 status : Byte) : Option Flash :=
  match h : atmel_spi_flash_table.find? (·.idcode1 == idcode1) with
  | none => none
  | some params =>
      if hfamily : params.family = DF_FAMILY_AT45 then
        some ⟨params, status &&& AT45_STATUS_P2_PAGE_SIZE ≠ 0, List.mem_of_find?_eq_some h, hfamily⟩
      else none

example : (spi_flash_probe_atmel 0x22 0x81).map (fun flash => flash.powerOfTwo) = some true := by
  decide

namespace Params

variable (p : Params)

/-- The pages of a power of two. -/
def pageP2 : Nat := 1 <<< p.l2_page_size

/-- The pages with a 32nd more. -/
def pageAt45 : Nat := (1 <<< p.l2_page_size) + (1 <<< (p.l2_page_size - 5))

theorem pageP2_pos : 0 < p.pageP2 := by
  rw [pageP2, Nat.one_shiftLeft]
  exact Nat.two_pow_pos _

theorem pageAt45_pos : 0 < p.pageAt45 := Nat.add_pos_left p.pageP2_pos _

end Params

namespace Flash

variable (flash : Flash)

def page_size : Nat := if flash.powerOfTwo then flash.params.pageP2 else flash.params.pageAt45

/-- `flash.size` -/
def size : Nat := flash.page_size * flash.params.pages_per_block * flash.params.blocks_per_sector *
  flash.params.nr_sectors

/-- How many bits of an address are for the byte in a page. -/
def byteBits : Nat :=
  if flash.powerOfTwo then flash.params.l2_page_size else flash.params.l2_page_size + 1

end Flash

/-! ## The chip -/

/-- The address in a command. -/
def addressIn : List Byte → Nat
  | [a, b, c] => address a b c
  | _ => 0

namespace Flash

variable (flash : Flash) (cmd : List Byte)

/-- The page in it, the byte in the page, and the cell that this is. -/
def pageIn : Nat := addressIn cmd / 2 ^ flash.byteBits
def byteIn : Nat := addressIn cmd % 2 ^ flash.byteBits
def cellIn : Nat := flash.pageIn cmd * flash.page_size + flash.byteIn cmd

end Flash

/-- The cells of a chip, and the first of its buffers. -/
abbrev Chip := Buffered Byte

instance : HasCells Chip := ⟨Buffered.mem⟩

/-- A page is erased. -/
def erasePage (page_size : Nat) (chip : Chip) (n : Nat) : Chip :=
  { chip with mem := fun a => if a / page_size = n then 0xff else chip.mem a }

section Driver

variable (flash : Flash) (bus : Bus Chip)

/-- What a chip does on a command. -/
def command (op : Byte) (cmd data : List Byte) (chip : Chip) : Chip :=
  if op = CMD_AT45_LOAD_BUF1 then chip.load flash.page_size (flash.byteIn cmd) data
  else if op = CMD_AT45_PROG_BUF1 then chip.program (· &&& ·) flash.page_size (flash.pageIn cmd)
  else if op = CMD_AT45_ERASE_PAGE then erasePage flash.page_size chip (flash.pageIn cmd)
  else chip

/-- What a chip answers to a read: what is at the address, and behind it. -/
def response (cmd : List Byte) (len : Nat) (chip : Chip) : List Byte :=
  (List.range len).map fun k => chip.mem ((flash.cellIn cmd + k) % flash.size)

/-! ## The driver -/

/-- `at45_wait_ready`: the status is read -/
def at45_wait_ready (r : Run Chip) : Bool × Run Chip := bus.send id r

/-- The address part of a command, of a page and a byte. -/
def pageAddress (p : Params) (page_addr byte_addr : Nat) : List Byte :=
  let page_shift := p.l2_page_size + 1
  [byteOf (page_addr >>> (16 - page_shift)),
   byteOf (page_addr <<< (page_shift - 8) ||| byte_addr >>> 8),
   byteOf byte_addr]

/-- `at45_build_address` -/
def at45_build_address (p : Params) (offset : Nat) : List Byte :=
  pageAddress p (offset / p.pageAt45) (offset % p.pageAt45)

/-- The address part of a command with pages of a power of two. -/
def p2Address (addr : Nat) : List Byte := [byteOf (addr >>> 16), byteOf (addr >>> 8), byteOf addr]

/-- `spi_flash_read_common`: `none` where the command fails. -/
def readFast (cmd : List Byte) (len : Nat) (r : Run Chip) : Option (List Byte) :=
  if bus.answers r.count then some (response flash cmd len r.chip) else none

def dataflash_read_fast_p2 (offset len : Nat) (r : Run Chip) : Option (List Byte) :=
  readFast flash bus (p2Address offset) len r

def dataflash_read_fast_at45 (offset len : Nat) (r : Run Chip) : Option (List Byte) :=
  readFast flash bus (at45_build_address flash.params offset) len r

/-- Where a write is: the address, how much of the page is left, and where it goes on. -/
structure Cursor (κ : Type) where
  address : κ → List Byte
  room : κ → Nat
  room_pos : ∀ k, 0 < room k
  next : κ → Nat → κ

variable {κ : Type}

/-- The loop of the writes. -/
def writeLoop (cursor : Cursor κ) (k : κ) (buf : List Byte) (r : Run Chip) : Bool × Run Chip :=
  if buf = [] then (true, r)
  else
    let chunk_len := min buf.length (cursor.room k)
    andThen (bus.send (command flash CMD_AT45_LOAD_BUF1 (cursor.address k) (buf.take chunk_len)) r)
      fun r => andThen (bus.send (command flash CMD_AT45_PROG_BUF1 (cursor.address k) []) r)
        fun r => andThen (at45_wait_ready bus r)
          fun r => writeLoop cursor (cursor.next k chunk_len) (buf.drop chunk_len) r
termination_by buf.length
decreasing_by
  have hpos := List.length_pos_iff.mpr ‹buf ≠ []›
  have hroom := cursor.room_pos k
  rw [List.length_drop]
  omega

/-- `addr` -/
def p2Cursor (p : Params) : Cursor Nat where
  address := p2Address
  room addr := p.pageP2 - addr % p.pageP2
  room_pos _ := Nat.sub_pos_of_lt (Nat.mod_lt _ p.pageP2_pos)
  next addr chunk_len := addr + chunk_len

/-- `page_addr` and `byte_addr` -/
def at45Cursor (p : Params) : Cursor (Nat × Fin p.pageAt45) where
  address k := pageAddress p k.1 k.2
  room k := p.pageAt45 - k.2
  room_pos k := Nat.sub_pos_of_lt k.2.isLt
  next k _ := (k.1 + 1, ⟨0, p.pageAt45_pos⟩)

def dataflash_write_p2 (offset : Nat) (buf : List Byte) (r : Run Chip) : Bool × Run Chip :=
  writeLoop flash bus (p2Cursor flash.params) offset buf r

def dataflash_write_at45 (offset : Nat) (buf : List Byte) (r : Run Chip) : Bool × Run Chip :=
  let page_size := flash.params.pageAt45
  writeLoop flash bus (at45Cursor flash.params)
    (offset / page_size, ⟨offset % page_size, Nat.mod_lt _ flash.params.pageAt45_pos⟩) buf r

/-- The loop of the erase functions, over so many bytes. -/
def eraseLoop (page_size : { n : Nat // 0 < n }) (address : κ → List Byte) (next : κ → κ)
    (len actual : Nat) (k : κ) (r : Run Chip) : Bool × Run Chip :=
  if actual < len then
    andThen (bus.send (command flash CMD_AT45_ERASE_PAGE (address k) []) r)
      fun r => andThen (at45_wait_ready bus r)
        fun r => eraseLoop page_size address next len (actual + page_size) (next k) r
  else (true, r)
termination_by len - actual
decreasing_by
  have := page_size.2
  omega

def dataflash_erase_p2 (offset len : Nat) (r : Run Chip) : Bool × Run Chip :=
  let page_size := flash.params.pageP2
  if offset % page_size ≠ 0 ∨ len % page_size ≠ 0 then (false, r)
  else
    eraseLoop flash bus ⟨page_size, flash.params.pageP2_pos⟩
      (fun offset => [byteOf (offset >>> 16), byteOf (offset >>> 8), 0]) (· + page_size) len 0
      offset r

def dataflash_erase_at45 (offset len : Nat) (r : Run Chip) : Bool × Run Chip :=
  let page_size := flash.params.pageAt45
  let page_shift := flash.params.l2_page_size + 1
  if offset % page_size ≠ 0 ∨ len % page_size ≠ 0 then (false, r)
  else
    eraseLoop flash bus ⟨page_size, flash.params.pageAt45_pos⟩
      (fun page_addr =>
        [byteOf (page_addr >>> (16 - page_shift)), byteOf (page_addr <<< (page_shift - 8)), 0])
      (· + 1) len 0 (offset / page_size) r

/-- `flash.read`, `flash.write` and `flash.erase`, as `spi_flash_probe_atmel` sets them. -/
def Flash.read (offset len : Nat) (r : Run Chip) : Option (List Byte) :=
  if flash.powerOfTwo then dataflash_read_fast_p2 flash bus offset len r
  else dataflash_read_fast_at45 flash bus offset len r

def Flash.write (offset : Nat) (buf : List Byte) (r : Run Chip) : Bool × Run Chip :=
  if flash.powerOfTwo then dataflash_write_p2 flash bus offset buf r
  else dataflash_write_at45 flash bus offset buf r

def Flash.erase (offset len : Nat) (r : Run Chip) : Bool × Run Chip :=
  if flash.powerOfTwo then dataflash_erase_p2 flash bus offset len r
  else dataflash_erase_at45 flash bus offset len r

end Driver

/-! ## What should hold -/

/-- The address that is sent for a cell. -/
def Flash.addressOf (flash : Flash) (x : Nat) : List Byte :=
  if flash.powerOfTwo then p2Address x else at45_build_address flash.params x

/-- A source is written, and so many pages from one on are erased. -/
structure Request (flash : Flash) where
  offset : Nat
  buf : List Byte
  first : Nat
  count : Nat
  inside : offset + buf.length ≤ flash.size
  erased_inside : (first + count) * flash.page_size ≤ flash.size

namespace Request

variable {flash : Flash} (q : Request flash)

def Written (a : Nat) : Prop := q.offset ≤ a ∧ a < q.offset + q.buf.length

def Erased (a : Nat) : Prop :=
  q.first * flash.page_size ≤ a ∧ a < (q.first + q.count) * flash.page_size

/-- The pages are erased. -/
def erase (bus : Bus Chip) (r : Run Chip) : Bool × Run Chip :=
  flash.erase bus (q.first * flash.page_size) (q.count * flash.page_size) r

/-- The addresses are those of the cells; only what is written changes; what is there is read; the
pages are erased and nothing else; and what is written to pages that have been erased is read, while
the rest of them stays blank. -/
structure Right (r : Run Chip) : Prop where
  addresses : ∀ x, q.Written x ∨ q.Erased x → flash.cellIn (flash.addressOf x) = x
  write : ∀ bus : Bus Chip, bus.Sound → (flash.write bus q.offset q.buf r).1 = true ∧
    (flash.write bus q.offset q.buf r).2.chip.mem = blend (· &&& ·) r.chip.mem q.offset q.buf
  read : ∀ bus : Bus Chip, bus.Sound →
    flash.read bus q.offset q.buf.length r = some (slice r.chip.mem q.offset q.buf.length)
  erase : ∀ bus : Bus Chip, bus.Sound → (q.erase bus r).1 = true ∧
    ∀ a, (q.Erased a → (q.erase bus r).2.chip.mem a = 0xff) ∧
      (¬q.Erased a → (q.erase bus r).2.chip.mem a = r.chip.mem a)
  roundTrip : (∀ a, q.Written a → q.Erased a) → ∀ bus : Bus Chip, bus.Sound →
    flash.read bus q.offset q.buf.length
        (flash.write bus q.offset q.buf (q.erase bus r).2).2 = some q.buf ∧
      ∀ a, q.Erased a → ¬q.Written a →
        (flash.write bus q.offset q.buf (q.erase bus r).2).2.chip.mem a = 0xff

/-- The numbers of the pages have a place in an address. -/
def Addressable : Prop :=
  ∀ x, q.Written x ∨ q.Erased x → x / flash.page_size < 2 ^ (24 - flash.byteBits)

/-- What the buffer has for the rest of the pages that are written. -/
def Beside (r : Run Chip) (good : Nat → Byte → Prop) : Prop :=
  ∀ a, Touched flash.page_size q.offset q.buf.length a → ¬q.Written a →
    good a (stale flash.page_size r.chip.buffer q.offset q.buf a)

/-- The buffer clears nothing that is set, and has only ones if the pages are erased before. -/
structure Undisturbed (r : Run Chip) : Prop where
  kept : q.Beside r fun a b => r.chip.mem a &&& b = r.chip.mem a
  blank : (∀ a, q.Written a → q.Erased a) → q.Beside r fun _ b => b = 0xff

end Request

/-! ## Addresses -/

theorem table_spec : ∀ p ∈ atmel_spi_flash_table, p.family = DF_FAMILY_AT45 →
    p.l2_page_size = 8 ∨ p.l2_page_size = 9 ∨ p.l2_page_size = 10 := by
  decide

/-- The pages have a place in an address, but for one chip if they are not of a power of two. -/
theorem table_pages : ∀ p ∈ atmel_spi_flash_table, p.family = DF_FAMILY_AT45 →
    p.pages_per_block * p.blocks_per_sector * p.nr_sectors ≤ 2 ^ (24 - p.l2_page_size) ∧
    (p.idcode1 ≠ 0x27 → p.pages_per_block * p.blocks_per_sector * p.nr_sectors ≤
      2 ^ (24 - (p.l2_page_size + 1))) := by
  decide

theorem p2Address_in (addr : Nat) : addressIn (p2Address addr) = addr % 2 ^ 24 := by
  rw [p2Address, Nat.shiftRight_eq_div_pow, Nat.shiftRight_eq_div_pow]
  exact address_eq addr

theorem pageAddress_in {p : Params}
    (hl : p.l2_page_size = 8 ∨ p.l2_page_size = 9 ∨ p.l2_page_size = 10) (page_addr : Nat)
    {byte_addr : Nat} (hbyte : byte_addr < 2 ^ (p.l2_page_size + 1)) :
    addressIn (pageAddress p page_addr byte_addr) =
      (page_addr * 2 ^ (p.l2_page_size + 1) + byte_addr) % 2 ^ 24 := by
  have hhigh : byte_addr >>> 8 < 2 ^ (p.l2_page_size + 1 - 8) := by
    rw [Nat.shiftRight_eq_div_pow]
    refine Nat.div_lt_of_lt_mul ?_
    rw [← Nat.pow_add]
    obtain hl | hl | hl := hl <;> rw [hl] at hbyte ⊢ <;> exact hbyte
  rw [pageAddress, ← Nat.shiftLeft_add_eq_or_of_lt hhigh]
  simp only [addressIn, address, byteOf, BitVec.toNat_ofNat, Nat.shiftRight_eq_div_pow,
    Nat.shiftLeft_eq]
  obtain hl | hl | hl := hl <;> rw [hl] at hbyte ⊢ <;> omega

namespace Flash

variable (flash : Flash)

theorem l2_cases : flash.params.l2_page_size = 8 ∨ flash.params.l2_page_size = 9 ∨
    flash.params.l2_page_size = 10 := table_spec _ flash.listed flash.family

theorem page_size_pos : 0 < flash.page_size := by
  rw [page_size]
  split
  · exact flash.params.pageP2_pos
  · exact flash.params.pageAt45_pos

variable {flash} in
theorem page_size_p2 (h : flash.powerOfTwo = true) : flash.page_size = flash.params.pageP2 :=
  if_pos h

variable {flash} in
theorem page_size_at45 (h : flash.powerOfTwo = false) : flash.page_size = flash.params.pageAt45 :=
  if_neg (h ▸ Bool.false_ne_true)

/-- A byte has a place in the address. -/
theorem page_size_le : flash.page_size ≤ 2 ^ flash.byteBits := by
  rw [page_size, byteBits]
  split
  · rw [Params.pageP2, Nat.one_shiftLeft]
  · rw [Params.pageAt45]
    obtain hl | hl | hl := flash.l2_cases <;> rw [hl] <;> decide

theorem byteBits_le : flash.byteBits ≤ 24 := by
  rw [byteBits]
  obtain hl | hl | hl := flash.l2_cases <;> rw [hl] <;> split <;> decide

variable {flash} {cmd : List Byte} {x page byte : Nat}

/-- The address in three bytes of a page and a byte. -/
structure Sends (flash : Flash) (cmd : List Byte) (page byte : Nat) : Prop where
  byte_lt : byte < 2 ^ flash.byteBits
  address : addressIn cmd = (page * 2 ^ flash.byteBits + byte) % 2 ^ 24

theorem addressOf_sends (flash : Flash) (x : Nat) :
    flash.Sends (flash.addressOf x) (x / flash.page_size) (x % flash.page_size) where
  byte_lt := (Nat.mod_lt _ flash.page_size_pos).trans_le flash.page_size_le
  address := by
    have hlt := (Nat.mod_lt x flash.page_size_pos).trans_le flash.page_size_le
    rw [page_size, byteBits] at hlt ⊢
    rw [addressOf]
    split
    · next hp2 =>
        rw [p2Address_in, Params.pageP2, Nat.one_shiftLeft, Nat.div_add_mod']
    · next hp2 =>
        rw [if_neg hp2, if_neg hp2] at hlt
        exact pageAddress_in flash.l2_cases _ hlt

theorem addressOf_at45 (h : flash.powerOfTwo = false) (x : Nat) : flash.addressOf x =
    pageAddress flash.params (x / flash.page_size) (x % flash.page_size) := by
  rw [addressOf, h, page_size_at45 h]
  rfl

/-- The fields of an address, if the number of the page has a place. -/
theorem Sends.fields (h : flash.Sends cmd page byte) (hpage : page < 2 ^ (24 - flash.byteBits)) :
    flash.pageIn cmd = page ∧ flash.byteIn cmd = byte := by
  have hpos := Nat.two_pow_pos flash.byteBits
  have hlt : page * 2 ^ flash.byteBits + byte < 2 ^ 24 := by
    have hend := Nat.mul_le_mul_right (2 ^ flash.byteBits) hpage
    rw [← Nat.pow_add, Nat.sub_add_cancel flash.byteBits_le, Nat.succ_mul] at hend
    exact (Nat.add_lt_add_left h.byte_lt _).trans_le hend
  rw [pageIn, byteIn, h.address, Nat.mod_eq_of_lt hlt, Nat.mul_comm, Nat.mul_add_div hpos,
    Nat.div_eq_of_lt h.byte_lt, Nat.mul_add_mod, Nat.mod_eq_of_lt h.byte_lt]
  exact ⟨rfl, rfl⟩

/-- An address has no other pages. -/
theorem pageIn_lt (cmd : List Byte) (h : addressIn cmd < 2 ^ 24) :
    flash.pageIn cmd < 2 ^ (24 - flash.byteBits) := by
  refine Nat.div_lt_of_lt_mul ?_
  rwa [← Nat.pow_add, Nat.add_sub_cancel' flash.byteBits_le]

/-- An address is the one of its cell exactly if the number of the page has a place. -/
theorem cellIn_addressOf_iff : flash.cellIn (flash.addressOf x) = x ↔
    x / flash.page_size < 2 ^ (24 - flash.byteBits) := by
  have hsends := addressOf_sends flash x
  constructor
  · intro heq
    have hlt : addressIn (flash.addressOf x) < 2 ^ 24 := by
      rw [hsends.address]
      exact Nat.mod_lt _ (by decide)
    have hdvd : 2 ^ flash.byteBits ∣ 2 ^ 24 := Nat.pow_dvd_pow 2 flash.byteBits_le
    have hbyte : flash.byteIn (flash.addressOf x) = x % flash.page_size := by
      rw [byteIn, hsends.address, Nat.mod_mod_of_dvd _ hdvd, Nat.mul_add_mod_self_right,
        Nat.mod_eq_of_lt hsends.byte_lt]
    have hdiv := Nat.div_add_mod' x flash.page_size
    rw [cellIn, hbyte] at heq
    have hpage : flash.pageIn (flash.addressOf x) = x / flash.page_size :=
      Nat.eq_of_mul_eq_mul_right flash.page_size_pos (by omega)
    rw [← hpage]
    exact flash.pageIn_lt _ hlt
  · intro hpage
    obtain ⟨hp, hb⟩ := hsends.fields hpage
    rw [cellIn, hp, hb, Nat.div_add_mod']

end Flash

/-! ## Writes -/

section Loops

variable {flash : Flash} {bus : Bus Chip} {κ : Type}

/-- A cursor that stands at cells. -/
structure Cursor.Stands (flash : Flash) (cursor : Cursor κ) (stands : κ → Nat → Prop) : Prop where
  address : ∀ k x, stands k x →
    flash.Sends (cursor.address k) (x / flash.page_size) (x % flash.page_size)
  room : ∀ k x, stands k x → cursor.room k = flash.page_size - x % flash.page_size
  next : ∀ k x n, stands k x → x % flash.page_size + n = flash.page_size →
    stands (cursor.next k n) (x + n)

theorem p2Cursor_stands (h : flash.powerOfTwo = true) :
    (p2Cursor flash.params).Stands flash fun k x => k = x where
  address k x hk := by
    have hsends := Flash.addressOf_sends flash x
    rw [Flash.addressOf, if_pos h] at hsends
    exact hk ▸ hsends
  room k x hk := by
    rw [Flash.page_size_p2 h, hk]
    rfl
  next k x n hk _ := congrArg (· + n) hk

theorem at45Cursor_stands (h : flash.powerOfTwo = false) :
    (at45Cursor flash.params).Stands flash fun k x =>
      k.1 = x / flash.page_size ∧ k.2.1 = x % flash.page_size where
  address k x hk := by
    have haddress : (at45Cursor flash.params).address k = flash.addressOf x := by
      rw [Flash.addressOf_at45 h, ← hk.1, ← hk.2]
      rfl
    rw [haddress]
    exact Flash.addressOf_sends flash x
  room k x hk := by
    rw [Flash.page_size_at45 h] at hk ⊢
    exact congrArg (flash.params.pageAt45 - ·) hk.2
  next k x n hk hn := by
    have hdiv := Nat.div_add_mod' x flash.page_size
    have hnext : x + n = (x / flash.page_size + 1) * flash.page_size := by
      rw [Nat.succ_mul]
      omega
    rw [hnext, Nat.mul_div_cancel _ flash.page_size_pos, Nat.mul_mod_left]
    exact ⟨congrArg (· + 1) hk.1, rfl⟩

theorem writeLoop_nil (cursor : Cursor κ) (k : κ) (r : Run Chip) :
    writeLoop flash bus cursor k [] r = (true, r) := by
  rw [writeLoop, if_pos rfl]

/-- One piece is loaded and programmed. -/
theorem writeLoop_step (hbus : bus.Sound) {cursor : Cursor κ} {k : κ} {buf : List Byte}
    (r : Run Chip) (hbuf : buf ≠ []) {x : Nat}
    (hpage : flash.pageIn (cursor.address k) = x / flash.page_size)
    (hbyte : flash.byteIn (cursor.address k) = x % flash.page_size) {n : Nat}
    (hn : min buf.length (cursor.room k) = n) :
    writeLoop flash bus cursor k buf r =
      writeLoop flash bus cursor (cursor.next k n) (buf.drop n)
        ⟨(r.chip.load flash.page_size (x % flash.page_size) (buf.take n)).program (· &&& ·)
          flash.page_size (x / flash.page_size), r.count + 1 + 1 + 1⟩ := by
  rw [writeLoop, if_neg hbuf, hbus.andThen, hbus.andThen, at45_wait_ready, hbus.andThen, hn,
    ← hpage, ← hbyte]
  rfl

/-- A source is programmed page by page. -/
theorem writeLoop_programmed (hbus : bus.Sound) {cursor : Cursor κ} {stands : κ → Nat → Prop}
    (hcursor : cursor.Stands flash stands) {k : κ} {x : Nat} (hk : stands k x) (buf : List Byte)
    (r : Run Chip) (hpages : ∀ y, x ≤ y → y < x + buf.length →
      y / flash.page_size < 2 ^ (24 - flash.byteBits)) :
    (writeLoop flash bus cursor k buf r).1 = true ∧
      Programmed (· &&& ·) flash.page_size r.chip (writeLoop flash bus cursor k buf r).2.chip x
        buf := by
  have hsize := flash.page_size_pos
  induction hlen : buf.length using Nat.strong_induction_on generalizing k x buf r with
  | _ len ih =>
      by_cases hbuf : buf = []
      · rw [hbuf, writeLoop_nil]
        exact ⟨rfl, programmed_nil⟩
      · have hpos := List.length_pos_iff.mpr hbuf
        obtain ⟨hpage, hbyte⟩ := (hcursor.address k x hk).fields (hpages x le_rfl (by omega))
        have hlt := Nat.mod_lt x hsize
        rw [writeLoop_step hbus r hbuf hpage hbyte rfl, hcursor.room k x hk]
        by_cases hlast : buf.length ≤ flash.page_size - x % flash.page_size
        · -- the rest of the page has room for all of it
          rw [Nat.min_eq_left hlast, List.drop_length, List.take_length, writeLoop_nil]
          exact ⟨rfl, (programmed_piece hbuf (by omega)).2⟩
        · have hmin := Nat.min_eq_right (Nat.le_of_not_le hlast)
          generalize hn : flash.page_size - x % flash.page_size = n at hlast hmin ⊢
          rw [hmin]
          have htake : (buf.take n).length = n := List.length_take_of_le (by omega)
          have hdrop : (buf.drop n).length = buf.length - n := List.length_drop
          have hend : x % flash.page_size + n = flash.page_size := by omega
          have hne : buf.take n ≠ [] := List.length_pos_iff.mp (by omega)
          obtain ⟨hbuffer, hfirst⟩ := programmed_piece (f := (· &&& ·)) (s := r.chip) hne
            (by rw [htake, hend] : x % flash.page_size + (buf.take n).length ≤ flash.page_size)
          obtain ⟨hok, hrest⟩ := ih _ (by omega) (hcursor.next k x n hk hend) (buf.drop n) ⟨_, _⟩
            (fun y hle hlt => hpages y (by omega) (by omega)) rfl
          refine ⟨hok, ?_⟩
          have happend := hfirst.append hsize hbuffer hne (by rw [htake, hend]) (by rwa [htake])
          rwa [List.take_append_drop] at happend

/-! ## Erasing -/

/-- Where an erase function is, by the number of the page. -/
structure Walks (flash : Flash) (address : κ → List Byte) (next : κ → κ) (stands : κ → Nat → Prop) :
    Prop where
  address : ∀ k n, stands k n → flash.Sends (address k) n 0
  next : ∀ k n, stands k n → stands (next k) (n + 1)

/-- So many pages are erased, and nothing else. -/
theorem eraseLoop_sound (hbus : bus.Sound) (page_size : { n : Nat // 0 < n })
    {address : κ → List Byte} {next : κ → κ} {stands : κ → Nat → Prop}
    (hwalks : Walks flash address next stands) {k : κ} {n : Nat} (hk : stands k n)
    (count actual : Nat) (r : Run Chip)
    (hpages : ∀ m, n ≤ m → m < n + count → m < 2 ^ (24 - flash.byteBits)) :
    let r' := eraseLoop flash bus page_size address next (actual + count * page_size) actual k r
    r'.1 = true ∧ r'.2.chip.buffer = r.chip.buffer ∧ ∀ a, r'.2.chip.mem a =
      if n ≤ a / flash.page_size ∧ a / flash.page_size < n + count then 0xff
      else r.chip.mem a := by
  induction count generalizing k n actual r with
  | zero =>
      rw [Nat.zero_mul, Nat.add_zero, eraseLoop, if_neg (Nat.lt_irrefl _)]
      refine ⟨rfl, rfl, fun a => ?_⟩
      rw [if_neg (by omega)]
  | succ count ih =>
      obtain ⟨hpage, -⟩ := (hwalks.address k n hk).fields (hpages n le_rfl (by omega))
      have hpos := page_size.2
      have hstep : actual + (count + 1) * page_size.1 = actual + page_size + count * page_size := by
        rw [Nat.succ_mul]
        omega
      rw [hstep, eraseLoop, if_pos (by omega), hbus.andThen, at45_wait_ready, hbus.andThen]
      obtain ⟨hok, hbuffer, hmem⟩ := ih (hwalks.next k n hk) (actual + page_size) ⟨_, _⟩
        fun m hle hlt => hpages m (by omega) (by omega)
      refine ⟨hok, hbuffer, fun a => ?_⟩
      have hfirst : (command flash CMD_AT45_ERASE_PAGE (address k) [] r.chip).mem a =
          if a / flash.page_size = n then 0xff else r.chip.mem a := hpage ▸ rfl
      rw [hmem]
      change ite _ _ ((command flash CMD_AT45_ERASE_PAGE (address k) [] r.chip).mem a) = _
      rw [hfirst]
      by_cases ha : a / flash.page_size = n
      · rw [if_pos ha, ite_self, if_pos (by omega)]
      · rw [if_neg ha]
        exact if_congr (by omega) rfl rfl

end Loops

/-! ## The driver -/

namespace Flash

variable {flash : Flash} {bus : Bus Chip}

theorem write_programmed (hbus : bus.Sound) {offset : Nat} (buf : List Byte) (r : Run Chip)
    (hpages : ∀ y, offset ≤ y → y < offset + buf.length →
      y / flash.page_size < 2 ^ (24 - flash.byteBits)) :
    (flash.write bus offset buf r).1 = true ∧
      Programmed (· &&& ·) flash.page_size r.chip (flash.write bus offset buf r).2.chip offset
        buf := by
  rw [write]
  cases h : flash.powerOfTwo with
  | false =>
      refine writeLoop_programmed hbus (at45Cursor_stands h) ?_ buf r hpages
      rw [page_size_at45 h]
      exact ⟨rfl, rfl⟩
  | true => exact writeLoop_programmed hbus (p2Cursor_stands h) rfl buf r hpages

theorem erase_p2_walks (h : flash.powerOfTwo = true) :
    Walks flash (fun offset => [byteOf (offset >>> 16), byteOf (offset >>> 8), 0])
      (· + flash.params.pageP2) fun k n => k = n * flash.params.pageP2 where
  address k n hk := by
    have hsends := addressOf_sends flash k
    rw [addressOf, if_pos h, page_size_p2 h, hk, Nat.mul_mod_left,
      Nat.mul_div_cancel _ flash.params.pageP2_pos] at hsends
    have hle : 8 ≤ flash.params.l2_page_size := by
      obtain hl | hl | hl := flash.l2_cases <;> rw [hl] <;> decide
    have hdvd : 2 ^ 8 ∣ n * flash.params.pageP2 := by
      rw [Params.pageP2, Nat.one_shiftLeft]
      exact (Nat.pow_dvd_pow 2 hle).mul_left n
    have hlow : byteOf (n * flash.params.pageP2) = 0 := by
      refine BitVec.eq_of_toNat_eq ?_
      rw [byteOf, BitVec.toNat_ofNat, Nat.mod_eq_zero_of_dvd hdvd]
      rfl
    rw [p2Address, hlow] at hsends
    rwa [hk]
  next k n hk := by rw [hk, Nat.succ_mul]

theorem erase_at45_walks (h : flash.powerOfTwo = false) :
    Walks flash (fun page_addr => [byteOf (page_addr >>> (16 - (flash.params.l2_page_size + 1))),
        byteOf (page_addr <<< (flash.params.l2_page_size + 1 - 8)), 0])
      (· + 1) fun k n => k = n where
  address k n hk := by
    have hpos := Nat.two_pow_pos (flash.params.l2_page_size + 1)
    have haddress := pageAddress_in flash.l2_cases n hpos
    rw [pageAddress, Nat.zero_shiftRight, Nat.or_zero] at haddress
    rw [hk]
    have hbits : flash.byteBits = flash.params.l2_page_size + 1 :=
      if_neg (h ▸ Bool.false_ne_true)
    refine ⟨Nat.two_pow_pos _, ?_⟩
    rw [hbits]
    exact haddress
  next k n hk := congrArg (· + 1) hk

theorem erase_sound (hbus : bus.Sound) (first count : Nat) (r : Run Chip)
    (hpages : ∀ m, first ≤ m → m < first + count → m < 2 ^ (24 - flash.byteBits)) :
    let r' := flash.erase bus (first * flash.page_size) (count * flash.page_size) r
    r'.1 = true ∧ r'.2.chip.buffer = r.chip.buffer ∧ ∀ a, r'.2.chip.mem a =
      if first ≤ a / flash.page_size ∧ a / flash.page_size < first + count then 0xff
      else r.chip.mem a := by
  have haligned : ¬(first * flash.page_size % flash.page_size ≠ 0 ∨
      count * flash.page_size % flash.page_size ≠ 0) := by
    rw [Nat.mul_mod_left, Nat.mul_mod_left]
    simp
  rw [erase]
  cases h : flash.powerOfTwo with
  | false =>
      have hloop := eraseLoop_sound hbus ⟨_, flash.params.pageAt45_pos⟩
        (erase_at45_walks h) rfl count 0 r hpages
      rw [page_size_at45 h] at haligned hloop ⊢
      rw [Nat.zero_add] at hloop
      rw [if_neg Bool.false_ne_true, dataflash_erase_at45]
      dsimp only
      rw [if_neg haligned, Nat.mul_div_cancel _ flash.params.pageAt45_pos]
      exact hloop
  | true =>
      have hloop := eraseLoop_sound hbus ⟨_, flash.params.pageP2_pos⟩
        (erase_p2_walks h) rfl count 0 r hpages
      rw [page_size_p2 h] at haligned hloop ⊢
      rw [Nat.zero_add] at hloop
      rw [if_pos rfl, dataflash_erase_p2]
      dsimp only
      rw [if_neg haligned]
      exact hloop

theorem read_eq (hbus : bus.Sound) {offset len : Nat} (r : Run Chip)
    (hcell : 0 < len → flash.cellIn (flash.addressOf offset) = offset)
    (hsize : offset + len ≤ flash.size) :
    flash.read bus offset len r = some (slice r.chip.mem offset len) := by
  have hread : flash.read bus offset len r =
      readFast flash bus (flash.addressOf offset) len r := by
    rw [read, addressOf]
    split
    · rfl
    · rfl
  rw [hread, readFast, if_pos (hbus _), response, slice]
  refine congrArg some (List.map_congr_left fun k hk => ?_)
  rw [List.mem_range] at hk
  rw [hcell (by omega), Nat.mod_eq_of_lt (by omega)]

end Flash

/-! ## Requests -/

namespace Request

variable {flash : Flash} {q : Request flash} {r : Run Chip} {bus : Bus Chip}

theorem erased_iff {a : Nat} : q.Erased a ↔
    q.first ≤ a / flash.page_size ∧ a / flash.page_size < q.first + q.count := by
  rw [Erased, Nat.le_div_iff_mul_le flash.page_size_pos, Nat.div_lt_iff_lt_mul flash.page_size_pos]

/-- The addresses are right exactly if all pages have a place in them. -/
theorem addresses_iff : (∀ x, q.Written x ∨ q.Erased x → flash.cellIn (flash.addressOf x) = x) ↔
    q.Addressable := by
  simp only [Addressable, Flash.cellIn_addressOf_iff]

/-- The AT45DB321D has too many pages, if they are not of a power of two. -/
theorem addressable_of_not_large (h : flash.powerOfTwo = true ∨ flash.params.idcode1 ≠ 0x27) :
    q.Addressable := by
  have hpages : flash.params.pages_per_block * flash.params.blocks_per_sector *
      flash.params.nr_sectors ≤ 2 ^ (24 - flash.byteBits) := by
    obtain ⟨hp2, hat45⟩ := table_pages _ flash.listed flash.family
    rw [Flash.byteBits]
    split
    · exact hp2
    · next hnot => exact hat45 (h.resolve_left hnot)
  intro x hx
  have hlt : x < flash.size :=
    hx.elim (fun h => h.2.trans_le q.inside) fun h => h.2.trans_le q.erased_inside
  rw [Flash.size, Nat.mul_assoc, Nat.mul_assoc, ← Nat.mul_assoc flash.params.pages_per_block] at hlt
  exact (Nat.div_lt_of_lt_mul hlt).trans_le hpages

section Addressable

variable (h : q.Addressable) (hbus : bus.Sound)

include h hbus

theorem Addressable.write (r : Run Chip) : (flash.write bus q.offset q.buf r).1 = true ∧
    Programmed (· &&& ·) flash.page_size r.chip (flash.write bus q.offset q.buf r).2.chip q.offset
      q.buf :=
  Flash.write_programmed hbus q.buf r fun y hle hlt => h y (.inl ⟨hle, hlt⟩)

theorem Addressable.erase (r : Run Chip) : (q.erase bus r).1 = true ∧
    (q.erase bus r).2.chip.buffer = r.chip.buffer ∧
    ∀ a, (q.Erased a → (q.erase bus r).2.chip.mem a = 0xff) ∧
      (¬q.Erased a → (q.erase bus r).2.chip.mem a = r.chip.mem a) := by
  have hpages (m : Nat) (hle : q.first ≤ m) (hlt : m < q.first + q.count) :
      m < 2 ^ (24 - flash.byteBits) := by
    have hdiv : m * flash.page_size / flash.page_size = m :=
      Nat.mul_div_cancel _ flash.page_size_pos
    have hm := h (m * flash.page_size) (.inr (erased_iff.mpr (by rw [hdiv]; exact ⟨hle, hlt⟩)))
    rwa [hdiv] at hm
  obtain ⟨hok, hbuffer, hmem⟩ := Flash.erase_sound hbus q.first q.count r hpages
  refine ⟨hok, hbuffer, fun a => ?_⟩
  rw [erased_iff]
  exact ⟨fun ha => (hmem a).trans (if_pos ha), fun ha => (hmem a).trans (if_neg ha)⟩

theorem Addressable.read (r : Run Chip) :
    flash.read bus q.offset q.buf.length r = some (slice r.chip.mem q.offset q.buf.length) :=
  Flash.read_eq hbus r (fun hlen => addresses_iff.mpr h _ (.inl ⟨le_rfl, by omega⟩)) q.inside

end Addressable

theorem not_written_iff {a : Nat} :
    ¬q.Written a ↔ a < q.offset ∨ q.offset + q.buf.length ≤ a := by
  rw [Written]
  omega

/-- Whole pages are erased. -/
theorem erased_of_touched (hinside : ∀ a, q.Written a → q.Erased a) {a : Nat}
    (h : Touched flash.page_size q.offset q.buf.length a) : q.Erased a := by
  obtain ⟨x, hle, hlt, hdiv⟩ := h
  have hx := hinside x ⟨hle, hlt⟩
  rw [erased_iff] at hx ⊢
  rwa [← hdiv]

/-- What is left of the pages, when a source is written to pages that have been erased. -/
theorem Addressable.write_erased (h : q.Addressable) (hbus : bus.Sound) (r : Run Chip)
    (hinside : ∀ a, q.Written a → q.Erased a) {a : Nat}
    (ha : Touched flash.page_size q.offset q.buf.length a) (hout : ¬q.Written a) :
    (flash.write bus q.offset q.buf (q.erase bus r).2).2.chip.mem a =
      stale flash.page_size r.chip.buffer q.offset q.buf a := by
  obtain ⟨-, hbuffer, hmem⟩ := h.erase hbus r
  obtain ⟨-, hwritten⟩ := h.write hbus (q.erase bus r).2
  rw [hwritten.touched a ha, store_outside (not_written_iff.mp hout), hbuffer,
    (hmem a).1 (erased_of_touched hinside ha)]
  exact BitVec.allOnes_and

/-- Every command succeeds. -/
def soundBus : Bus Chip := ⟨fun _ => true, fun _ before _ => before, fun _ _ _ _ _ => rfl⟩

theorem soundBus_sound : soundBus.Sound := fun _ => rfl

theorem Right.undisturbed (h : q.Right r) : q.Undisturbed r where
  kept a ha hout := by
    have haddressable := addresses_iff.mp h.addresses
    obtain ⟨-, hwritten⟩ := haddressable.write soundBus_sound r
    exact hwritten.eq_blend_iff.mp (h.write soundBus soundBus_sound).2 a ha
      (not_written_iff.mp hout)
  blank hinside a ha hout := by
    have haddressable := addresses_iff.mp h.addresses
    obtain ⟨-, hblank⟩ := h.roundTrip hinside soundBus soundBus_sound
    rw [← haddressable.write_erased soundBus_sound r hinside ha hout]
    exact hblank a (erased_of_touched hinside ha) hout

/-- The buffer has only ones for the rest of the pages, which have been erased. -/
theorem Addressable.roundTrip (h : q.Addressable) (hbus : bus.Sound)
    (hinside : ∀ a, q.Written a → q.Erased a) (hblank : q.Beside r fun _ b => b = 0xff) :
    flash.read bus q.offset q.buf.length
        (flash.write bus q.offset q.buf (q.erase bus r).2).2 = some q.buf ∧
      ∀ a, q.Erased a → ¬q.Written a →
        (flash.write bus q.offset q.buf (q.erase bus r).2).2.chip.mem a = 0xff := by
  obtain ⟨-, hbuffer, hmem⟩ := h.erase hbus r
  obtain ⟨-, hwritten⟩ := h.write hbus (q.erase bus r).2
  constructor
  · rw [h.read hbus]
    refine congrArg some (List.ext_getElem (length_slice _ _ _) fun i hi hi' => ?_)
    have hin : q.Written (q.offset + i) := ⟨Nat.le_add_right _ _, Nat.add_lt_add_left hi' _⟩
    have hcell := hwritten.touched (q.offset + i) (.of_mem hin.1 hin.2)
    rw [(hmem _).1 (hinside _ hin), store_add (List.getElem?_eq_getElem hi')] at hcell
    simp only [slice, List.getElem_map, List.getElem_range]
    exact hcell.trans BitVec.allOnes_and
  · intro a ha hout
    by_cases htouched : Touched flash.page_size q.offset q.buf.length a
    · rw [h.write_erased hbus r hinside htouched hout, hblank a htouched hout]
    · rw [hwritten.untouched a htouched, (hmem a).1 ha]

/-- The driver does what it should exactly if the numbers of the pages have a place in an address
and the buffer disturbs nothing beside what is written. -/
theorem dataflash_right_iff {flash : Flash} (q : Request flash) (r : Run Chip) :
    q.Right r ↔ q.Addressable ∧ q.Undisturbed r := by
  constructor
  · intro h
    exact ⟨addresses_iff.mp h.addresses, h.undisturbed⟩
  · rintro ⟨haddressable, hundisturbed⟩
    refine ⟨addresses_iff.mpr haddressable, fun bus hbus => ?_, fun bus hbus => ?_,
      fun bus hbus => ?_, fun hinside bus hbus => ?_⟩
    · obtain ⟨hok, hwritten⟩ := haddressable.write hbus r
      refine ⟨hok, hwritten.eq_blend_iff.mpr fun a ha hout => ?_⟩
      exact hundisturbed.kept a ha (not_written_iff.mpr hout)
    · exact haddressable.read hbus r
    · obtain ⟨hok, -, hmem⟩ := haddressable.erase hbus r
      exact ⟨hok, hmem⟩
    · exact haddressable.roundTrip hbus hinside (hundisturbed.blank hinside)

end Request

/-- The smallest chip, with pages of a power of two. -/
def at45db011d : Flash where
  params := atmel_spi_flash_table[0]
  powerOfTwo := true
  listed := List.getElem_mem _
  family := by decide

/-- A byte is cleared at the beginning of the first page. -/
def earlier : Run Chip :=
  (at45db011d.write Request.soundBus 0 [0] ⟨⟨fun _ => 0xff, fun _ => 0xff⟩, 0⟩).2

/-- Then the second byte of the second page, which is erased before. -/
def later : Request at45db011d where
  offset := 257
  buf := [0]
  first := 1
  count := 1
  inside := by decide
  erased_inside := by decide

/-- The byte of the first page goes to the second one as well. -/
theorem not_dataflash_right : ¬later.Right earlier := by
  have hbuffer : earlier.chip.buffer 0 = 0 := by
    rw [earlier, Flash.write, if_pos (show at45db011d.powerOfTwo = true from rfl),
      dataflash_write_p2,
      writeLoop_step (x := 0) (n := 1) Request.soundBus_sound _ (by decide) (by decide) (by decide)
        (by decide), List.drop_one, List.tail_cons, writeLoop_nil]
    rfl
  intro h
  have hinside (a : Nat) (ha : later.Written a) : later.Erased a := by
    obtain ⟨hle, hlt⟩ : 257 ≤ a ∧ a < 258 := ha
    exact (⟨by omega, by omega⟩ : 256 ≤ a ∧ a < 512)
  have hblank := h.undisturbed.blank hinside 256 ⟨257, le_rfl, by decide, by decide⟩
    fun hwritten => absurd hwritten.1 (by decide)
  rw [stale_near _ (by decide)] at hblank
  exact absurd (hbuffer.symm.trans hblank) (by decide)

end UBoot.Spi.Atmel
