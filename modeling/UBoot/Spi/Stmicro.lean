/-
# STMicro and Micron flash chips

`stmicro_write`, `stmicro_read_fast` and `stmicro_erase` of `drivers/mtd/spi/stmicro.c` for the chips
of `stmicro_spi_flash_table`. A command has an address of three bytes: the driver reaches what is
below 2^24, on every chip. The erase loop erases a sector before it looks whether there is one.
-/

import UBoot.Spi.Commands
import UBoot.Lib.Masks

namespace UBoot.Spi.Stmicro

open UBoot.Lib

def CMD_M25PXX_WREN : Byte := 0x06
def CMD_M25PXX_PP : Byte := 0x02
def CMD_M25PXX_SE : Byte := 0xd8
def CMD_READ_ARRAY_FAST : Byte := 0x0b

/-- `struct stmicro_spi_flash_params` -/
structure Params where
  idcode1 : Nat
  page_size : Nat
  pages_per_sector : Nat
  nr_sectors : Nat
  page_pos : 0 < page_size := by decide
  sector_pos : 0 < page_size * pages_per_sector := by decide

def stmicro_spi_flash_table : List Params :=
  [{ idcode1 := 0x2015, page_size := 256, pages_per_sector := 256, nr_sectors := 32 },
   { idcode1 := 0x2012, page_size := 256, pages_per_sector := 256, nr_sectors := 4 },
   { idcode1 := 0x2016, page_size := 256, pages_per_sector := 256, nr_sectors := 64 },
   { idcode1 := 0x2013, page_size := 256, pages_per_sector := 256, nr_sectors := 8 },
   { idcode1 := 0x2017, page_size := 256, pages_per_sector := 256, nr_sectors := 128 },
   { idcode1 := 0x2014, page_size := 256, pages_per_sector := 256, nr_sectors := 16 },
   { idcode1 := 0x2018, page_size := 256, pages_per_sector := 1024, nr_sectors := 64 },
   { idcode1 := 0xba16, page_size := 256, pages_per_sector := 256, nr_sectors := 64 },
   { idcode1 := 0xbb16, page_size := 256, pages_per_sector := 256, nr_sectors := 64 },
   { idcode1 := 0xba17, page_size := 256, pages_per_sector := 256, nr_sectors := 128 },
   { idcode1 := 0xbb17, page_size := 256, pages_per_sector := 256, nr_sectors := 128 },
   { idcode1 := 0xba18, page_size := 256, pages_per_sector := 256, nr_sectors := 256 },
   { idcode1 := 0xbb18, page_size := 256, pages_per_sector := 256, nr_sectors := 256 },
   { idcode1 := 0xba19, page_size := 256, pages_per_sector := 256, nr_sectors := 512 },
   { idcode1 := 0xbb19, page_size := 256, pages_per_sector := 256, nr_sectors := 512 },
   { idcode1 := 0xba20, page_size := 256, pages_per_sector := 256, nr_sectors := 1024 },
   { idcode1 := 0xbb20, page_size := 256, pages_per_sector := 256, nr_sectors := 1024 },
   { idcode1 := 0xba21, page_size := 256, pages_per_sector := 256, nr_sectors := 2048 },
   { idcode1 := 0xbb21, page_size := 256, pages_per_sector := 256, nr_sectors := 2048 }]

namespace Params

variable (p : Params)

def sector_size : Nat := p.page_size * p.pages_per_sector

/-- `flash.size` -/
def size : Nat := p.page_size * p.pages_per_sector * p.nr_sectors

end Params

/-- The cells of a chip, and whether it takes the next command that changes them. -/
structure Chip where
  mem : Nat → Byte
  writeEnabled : Bool

instance : HasCells Chip := ⟨Chip.mem⟩

section Driver

variable (p : Params) (bus : Bus Chip)

/-- A sector is erased. -/
def eraseSector (mem : Nat → Byte) (addr : Nat) : Nat → Byte :=
  fun a => if a / p.sector_size = addr / p.sector_size then 0xff else mem a

/-- What a chip does on a command. A page program stays in its page, and only clears bits. -/
def command (cmd data : List Byte) (chip : Chip) : Chip :=
  match cmd with
  | [op] => if op = CMD_M25PXX_WREN then { chip with writeEnabled := true } else chip
  | [op, a, b, c] =>
      if chip.writeEnabled then
        if op = CMD_M25PXX_PP then
          ⟨writePage (· &&& ·) p.page_size chip.mem (address a b c) data, false⟩
        else if op = CMD_M25PXX_SE then ⟨eraseSector p chip.mem (address a b c), false⟩
        else chip
      else chip
  | _ => chip

/-- What a chip answers to a read: what is at the address, and behind it. -/
def response (cmd : List Byte) (len : Nat) (chip : Chip) : List Byte :=
  match cmd with
  | [op, a, b, c, _] =>
      if op = CMD_READ_ARRAY_FAST then
        (List.range len).map fun k => chip.mem ((address a b c + k) % p.size)
      else []
  | _ => []

/-- `stmicro_wait_ready`: the status is read -/
def stmicro_wait_ready (r : Run Chip) : Bool × Run Chip := bus.send id r

/-- `none` where the command fails -/
def stmicro_read_fast (offset len : Nat) (r : Run Chip) : Option (List Byte) :=
  let page_addr := offset / p.page_size
  if bus.answers r.count then
    some (response p [CMD_READ_ARRAY_FAST, byteOf (page_addr / 256), byteOf page_addr,
      byteOf (offset % p.page_size), 0] len r.chip)
  else none

/-- The loop over the pages. -/
def writeLoop (page_addr : Nat) (byte_addr : Fin p.page_size) (buf : List Byte) (r : Run Chip) :
    Bool × Run Chip :=
  if buf = [] then (true, r)
  else
    let chunk_len := min buf.length (p.page_size - byte_addr)
    andThen (bus.send (command p [CMD_M25PXX_WREN] []) r) fun r =>
      andThen (bus.send (command p [CMD_M25PXX_PP, byteOf (page_addr / 256), byteOf page_addr,
          byteOf byte_addr] (buf.take chunk_len)) r) fun r =>
        andThen (stmicro_wait_ready bus r) fun r =>
          writeLoop (page_addr + 1) ⟨0, p.page_pos⟩ (buf.drop chunk_len) r
termination_by buf.length
decreasing_by
  have hpos := List.length_pos_iff.mpr ‹buf ≠ []›
  have hlt := byte_addr.isLt
  rw [List.length_drop]
  omega

def stmicro_write (offset : Nat) (buf : List Byte) (r : Run Chip) : Bool × Run Chip :=
  writeLoop p bus (offset / p.page_size) ⟨offset % p.page_size, Nat.mod_lt _ p.page_pos⟩ buf r

/-- The loop over the sectors. -/
def eraseLoop (stop pos : Nat) (r : Run Chip) : Bool × Run Chip :=
  andThen (bus.send (command p [CMD_M25PXX_WREN] []) r) fun r =>
    andThen (bus.send (command p [CMD_M25PXX_SE, byteOf (pos / 65536), byteOf (pos / 256),
        byteOf pos] []) r) fun r =>
      andThen (stmicro_wait_ready bus r) fun r =>
        if pos + p.sector_size < stop then eraseLoop stop (pos + p.sector_size) r else (true, r)
termination_by stop - pos
decreasing_by
  have hpos : 0 < p.sector_size := p.sector_pos
  omega

/-- `x & ~(sector_size - 1)` -/
def sectorAligned (x : Nat) : Nat :=
  (BitVec.ofNat 32 x &&& ~~~BitVec.ofNat 32 (p.sector_size - 1)).toNat

def stmicro_erase (offset len : Nat) (r : Run Chip) : Bool × Run Chip :=
  eraseLoop p bus (sectorAligned p (offset + len + p.sector_size - 1)) (sectorAligned p offset) r

end Driver

/-! ## What is expected -/

/-- The sector of a cell has a byte of the range. -/
def Intersects (p : Params) (offset len a : Nat) : Prop :=
  ∃ x, offset ≤ x ∧ x < offset + len ∧ x / p.sector_size = a / p.sector_size

/-- A range of a chip is written, read and erased as it should be when every command succeeds. -/
structure Right (p : Params) (offset len : Nat) : Prop where
  write : ∀ bus : Bus Chip, bus.Sound → ∀ r buf, buf.length = len →
    (stmicro_write p bus offset buf r).1 = true ∧
      (stmicro_write p bus offset buf r).2.chip.mem = blend (· &&& ·) r.chip.mem offset buf
  read : ∀ bus : Bus Chip, bus.Sound → ∀ r,
    stmicro_read_fast p bus offset len r = some (slice r.chip.mem offset len)
  erase : ∀ bus : Bus Chip, bus.Sound → ∀ r, (stmicro_erase p bus offset len r).1 = true ∧
    ∀ a, (Intersects p offset len a → (stmicro_erase p bus offset len r).2.chip.mem a = 0xff) ∧
      (¬Intersects p offset len a →
        (stmicro_erase p bus offset len r).2.chip.mem a = r.chip.mem a)
  roundTrip : ∀ bus : Bus Chip, bus.Sound → ∀ r buf, buf.length = len →
    stmicro_read_fast p bus offset len
      (stmicro_write p bus offset buf (stmicro_erase p bus offset len r).2).2 = some buf

/-! ## The chips of the table -/

theorem table_spec : ∀ p ∈ stmicro_spi_flash_table, p.page_size = 256 ∧
    (p.sector_size = 2 ^ 16 ∨ p.sector_size = 2 ^ 18) ∧ p.size ≤ 2 ^ 27 := by
  decide

variable {p : Params} {bus : Bus Chip}

theorem sectorAligned_eq {k x : Nat} (hk : p.sector_size = 2 ^ k) (hlt : k < 32)
    (hx : x < 2 ^ 32) : sectorAligned p x = x / p.sector_size * p.sector_size := by
  have hpow : 2 ^ k < 2 ^ 32 := Nat.pow_lt_pow_right Nat.one_lt_two hlt
  have hmask : (BitVec.ofNat 32 (p.sector_size - 1)).toNat = 2 ^ k - 1 := by
    rw [BitVec.toNat_ofNat, hk, Nat.mod_eq_of_lt (by omega)]
  rw [sectorAligned, and_not_low_toNat hmask, BitVec.toNat_ofNat, Nat.mod_eq_of_lt hx, hk]

/-! ## Writes -/

/-- Page and byte address make up the address. -/
theorem address_page {page_addr byte_addr : Nat} (h : byte_addr < 256) :
    address (byteOf (page_addr / 256)) (byteOf page_addr) (byteOf byte_addr) =
      (page_addr * 256 + byte_addr) % 2 ^ 24 := by
  simp only [address, byteOf, BitVec.toNat_ofNat]
  omega

theorem writeLoop_nil (page_addr : Nat) (byte_addr : Fin p.page_size) (r : Run Chip) :
    writeLoop p bus page_addr byte_addr [] r = (true, r) := by
  rw [writeLoop, if_pos rfl]

/-- One page is programmed. -/
theorem writeLoop_step (hbus : bus.Sound) (hpage : p.page_size = 256) (page_addr : Nat)
    (byte_addr : Fin p.page_size) {buf : List Byte} (r : Run Chip) (hbuf : buf ≠ []) :
    ∃ r', r'.chip.mem = writePage (· &&& ·) p.page_size r.chip.mem
        ((page_addr * 256 + byte_addr) % 2 ^ 24)
        (buf.take (min buf.length (p.page_size - byte_addr))) ∧
      writeLoop p bus page_addr byte_addr buf r =
        writeLoop p bus (page_addr + 1) ⟨0, p.page_pos⟩
          (buf.drop (min buf.length (p.page_size - byte_addr))) r' := by
  rw [writeLoop, if_neg hbuf, hbus.andThen, hbus.andThen, stmicro_wait_ready, hbus.andThen]
  refine ⟨_, ?_, rfl⟩
  rw [← address_page (hpage ▸ byte_addr.isLt)]
  rfl

theorem writeLoop_sound (hbus : bus.Sound) (hpage : p.page_size = 256) (page_addr : Nat)
    (byte_addr : Fin p.page_size) (buf : List Byte) (r : Run Chip)
    (hend : page_addr * 256 + byte_addr + buf.length ≤ 2 ^ 24) :
    (writeLoop p bus page_addr byte_addr buf r).1 = true ∧
      (writeLoop p bus page_addr byte_addr buf r).2.chip.mem =
        blend (· &&& ·) r.chip.mem (page_addr * 256 + byte_addr) buf := by
  induction hn : buf.length using Nat.strong_induction_on
    generalizing page_addr byte_addr buf r with
  | _ n ih =>
      by_cases hbuf : buf = []
      · subst hbuf
        rw [writeLoop_nil, blend_nil]
        exact ⟨rfl, rfl⟩
      · have hpos := List.length_pos_iff.mpr hbuf
        have hbyte := byte_addr.isLt
        obtain ⟨r', hmem, hloop⟩ := writeLoop_step hbus hpage page_addr byte_addr r hbuf
        generalize hlen : min buf.length (p.page_size - byte_addr) = len at hmem hloop
        have htake : (buf.take len).length = len := by
          rw [List.length_take]
          omega
        have hdrop : (buf.drop len).length = buf.length - len := List.length_drop
        have hless : (buf.drop len).length < n := by omega
        have hmod : (page_addr * 256 + byte_addr) % p.page_size = byte_addr :=
          (congrArg ((page_addr * 256 + byte_addr : Nat) % ·) hpage).trans (by omega)
        rw [Nat.mod_eq_of_lt (by omega), writePage_eq_blend _ _ _ (by omega)] at hmem
        have hmore : (page_addr + 1) * 256 + (⟨0, p.page_pos⟩ : Fin p.page_size).1 +
            (buf.drop len).length ≤ 2 ^ 24 := by
          rw [Nat.add_zero]
          omega
        obtain ⟨hok, hrest⟩ := ih _ hless (page_addr + 1) ⟨0, p.page_pos⟩ (buf.drop len) r' hmore rfl
        rw [hloop]
        refine ⟨hok, ?_⟩
        rw [hrest, hmem]
        dsimp only
        by_cases hall : buf.length ≤ len
        · rw [List.drop_of_length_le hall, blend_nil, List.take_of_length_le hall]
        · have hnext : (page_addr + 1) * 256 + 0 =
              page_addr * 256 + byte_addr + (buf.take len).length := by
            rw [htake]
            omega
          rw [hnext, blend_append, List.take_append_drop]

/-- What is at 2^24 or behind it is not reached. -/
theorem writeLoop_outside (hbus : bus.Sound) (hpage : p.page_size = 256) (page_addr : Nat)
    (byte_addr : Fin p.page_size) (buf : List Byte) (r : Run Chip) {a : Nat} (ha : 2 ^ 24 ≤ a) :
    (writeLoop p bus page_addr byte_addr buf r).2.chip.mem a = r.chip.mem a := by
  induction hn : buf.length using Nat.strong_induction_on
    generalizing page_addr byte_addr buf r with
  | _ n ih =>
      by_cases hbuf : buf = []
      · subst hbuf
        rw [writeLoop_nil]
      · have hpos := List.length_pos_iff.mpr hbuf
        have hbyte := byte_addr.isLt
        obtain ⟨r', hmem, hloop⟩ := writeLoop_step hbus hpage page_addr byte_addr r hbuf
        have hlt := Nat.mod_lt (page_addr * 256 + byte_addr) (Nat.two_pow_pos 24)
        rw [hloop, ih _ (by rw [← hn, List.length_drop]; omega) _ _ _ _ rfl, hmem,
          writePage_outside _ _ _ p.page_pos]
        have hdiv (x : Nat) : x / p.page_size = x / 256 := congrArg (x / ·) hpage
        rw [hdiv, hdiv]
        omega

/-! ## Erasing -/

theorem eraseLoop_step (hbus : bus.Sound) (stop pos : Nat) (r : Run Chip) :
    ∃ r', r'.chip.mem = eraseSector p r.chip.mem (pos % 2 ^ 24) ∧
      eraseLoop p bus stop pos r =
        if pos + p.sector_size < stop then eraseLoop p bus stop (pos + p.sector_size) r'
        else (true, r') := by
  rw [eraseLoop, hbus.andThen, hbus.andThen, stmicro_wait_ready, hbus.andThen]
  refine ⟨_, ?_, rfl⟩
  rw [← address_eq]
  rfl

/-- The sectors from one to another are erased. -/
theorem eraseLoop_sound (hbus : bus.Sound) {first last : Nat} (r : Run Chip) (hlt : first < last)
    (hend : last * p.sector_size ≤ 2 ^ 24) :
    (eraseLoop p bus (last * p.sector_size) (first * p.sector_size) r).1 = true ∧
      ∀ a, (eraseLoop p bus (last * p.sector_size) (first * p.sector_size) r).2.chip.mem a =
        if first ≤ a / p.sector_size ∧ a / p.sector_size < last then 0xff
        else r.chip.mem a := by
  have hpos : 0 < p.sector_size := p.sector_pos
  obtain ⟨left, rfl⟩ : ∃ left, last = first + 1 + left := Nat.exists_eq_add_of_le hlt
  induction left generalizing first r with
  | zero =>
      obtain ⟨r', hmem, hloop⟩ := eraseLoop_step (p := p) hbus ((first + 1) * p.sector_size)
        (first * p.sector_size) r
      rw [Nat.succ_mul, if_neg (Nat.lt_irrefl _)] at hloop
      rw [Nat.add_zero, Nat.succ_mul] at hend ⊢
      rw [hloop, hmem, Nat.mod_eq_of_lt (by omega)]
      refine ⟨rfl, fun a => ?_⟩
      rw [eraseSector, Nat.mul_div_cancel _ hpos]
      exact if_congr (by omega) rfl rfl
  | succ left ih =>
      obtain ⟨r', hmem, hloop⟩ := eraseLoop_step (p := p) hbus
        ((first + 1 + (left + 1)) * p.sector_size) (first * p.sector_size) r
      have hmore : (first + 1) * p.sector_size < (first + 1 + (left + 1)) * p.sector_size :=
        Nat.mul_lt_mul_of_pos_right (by omega) hpos
      have hnext : first * p.sector_size + p.sector_size = (first + 1) * p.sector_size :=
        (Nat.succ_mul _ _).symm
      rw [hnext, if_pos hmore] at hloop
      have hshift : first + 1 + (left + 1) = first + 1 + 1 + left := by omega
      rw [hshift] at hend hloop hmore ⊢
      obtain ⟨hok, hrest⟩ := ih r' (by omega) hend
      rw [hloop]
      refine ⟨hok, fun a => ?_⟩
      rw [hrest, hmem, eraseSector, Nat.mod_eq_of_lt (by omega), Nat.mul_div_cancel _ hpos]
      by_cases hfirst : a / p.sector_size = first
      · rw [if_pos hfirst, ite_self, if_pos (by omega)]
      · rw [if_neg hfirst]
        exact if_congr (by omega) rfl rfl

/-- What is erased stays erased. -/
theorem eraseLoop_erased (hbus : bus.Sound) (stop pos : Nat) (r : Run Chip) {a : Nat}
    (h : r.chip.mem a = 0xff) : (eraseLoop p bus stop pos r).2.chip.mem a = 0xff := by
  have hpos : 0 < p.sector_size := p.sector_pos
  induction hn : stop - pos using Nat.strong_induction_on generalizing pos r with
  | _ n ih =>
      obtain ⟨r', hmem, hloop⟩ := eraseLoop_step (p := p) hbus stop pos r
      have hkept : r'.chip.mem a = 0xff := by
        rw [hmem, eraseSector, h, ite_self]
      rw [hloop]
      split
      · exact ih _ (by omega) (pos + p.sector_size) r' hkept rfl
      · exact hkept

/-- The first sector is erased in any case. -/
theorem eraseLoop_first (hbus : bus.Sound) (stop pos : Nat) (r : Run Chip) :
    (eraseLoop p bus stop pos r).2.chip.mem (pos % 2 ^ 24) = 0xff := by
  obtain ⟨r', hmem, hloop⟩ := eraseLoop_step (p := p) hbus stop pos r
  have herased : r'.chip.mem (pos % 2 ^ 24) = 0xff := by
    rw [hmem, eraseSector, if_pos rfl]
  rw [hloop]
  split
  · exact eraseLoop_erased hbus _ _ r' herased
  · exact herased

/-- The sectors that have a byte of the range, from the first to the last. -/
theorem intersects_iff {offset len a : Nat} (hlen : 0 < len) :
    Intersects p offset len a ↔ offset / p.sector_size ≤ a / p.sector_size ∧
      a / p.sector_size < (offset + len + p.sector_size - 1) / p.sector_size := by
  have hpos : 0 < p.sector_size := p.sector_pos
  have hlast : (offset + len + p.sector_size - 1) / p.sector_size =
      (offset + len - 1) / p.sector_size + 1 := by
    rw [show offset + len + p.sector_size - 1 = offset + len - 1 + p.sector_size by omega,
      Nat.add_div_right _ hpos]
  rw [hlast, Nat.lt_succ_iff]
  constructor
  · rintro ⟨x, hle, hlt, heq⟩
    rw [← heq]
    exact ⟨Nat.div_le_div_right hle, Nat.div_le_div_right (by omega)⟩
  · rintro ⟨hfirst, hlast⟩
    have hstart := (Nat.le_div_iff_mul_le hpos).mp hlast
    by_cases hle : offset ≤ a / p.sector_size * p.sector_size
    · exact ⟨_, hle, by omega, Nat.mul_div_cancel _ hpos⟩
    · refine ⟨offset, le_rfl, by omega, le_antisymm hfirst ?_⟩
      exact (Nat.le_div_iff_mul_le hpos).mpr (by omega)

/-! ## The driver -/

theorem stmicro_write_sound (hbus : bus.Sound) (hpage : p.page_size = 256) {offset : Nat}
    (buf : List Byte) (r : Run Chip) (hend : offset + buf.length ≤ 2 ^ 24) :
    (stmicro_write p bus offset buf r).1 = true ∧
      (stmicro_write p bus offset buf r).2.chip.mem =
        blend (· &&& ·) r.chip.mem offset buf := by
  have hsplit : offset / p.page_size * 256 + offset % p.page_size = offset := by
    rw [hpage]
    omega
  have h := writeLoop_sound hbus hpage (offset / p.page_size)
    ⟨offset % p.page_size, Nat.mod_lt _ p.page_pos⟩ buf r (by dsimp only; omega)
  dsimp only at h
  rw [hsplit] at h
  exact h

theorem stmicro_read_sound (hbus : bus.Sound) (hpage : p.page_size = 256) {offset len : Nat}
    (r : Run Chip) (hend : offset + len ≤ 2 ^ 24) (hsize : offset + len ≤ p.size) (hlen : 0 < len) :
    stmicro_read_fast p bus offset len r = some (slice r.chip.mem offset len) := by
  have haddr : address (byteOf (offset / p.page_size / 256)) (byteOf (offset / p.page_size))
      (byteOf (offset % p.page_size)) = offset := by
    rw [hpage, address_page (Nat.mod_lt _ (by decide))]
    omega
  rw [stmicro_read_fast, if_pos (hbus _), response, if_pos rfl, haddr, slice]
  refine congrArg some (List.map_congr_left fun k hk => ?_)
  rw [List.mem_range] at hk
  rw [Nat.mod_eq_of_lt (by omega)]

theorem stmicro_erase_sound (hbus : bus.Sound) {k offset len : Nat} (hk : p.sector_size = 2 ^ k)
    (hle : k ≤ 24) (r : Run Chip) (hend : offset + len ≤ 2 ^ 24) (hlen : 0 < len) :
    (stmicro_erase p bus offset len r).1 = true ∧
      ∀ a, (stmicro_erase p bus offset len r).2.chip.mem a =
        if offset / p.sector_size ≤ a / p.sector_size ∧
          a / p.sector_size < (offset + len + p.sector_size - 1) / p.sector_size then 0xff
        else r.chip.mem a := by
  have hpos : 0 < p.sector_size := p.sector_pos
  have hpow : 2 ^ k ≤ 2 ^ 24 := Nat.pow_le_pow_right Nat.two_pos hle
  have hdvd : p.sector_size ∣ 2 ^ 24 := hk ▸ Nat.pow_dvd_pow 2 hle
  obtain ⟨sectors, hsectors⟩ := hdvd
  have hlast : (offset + len + p.sector_size - 1) / p.sector_size ≤ sectors := by
    refine Nat.le_of_lt_succ ((Nat.div_lt_iff_lt_mul hpos).mpr ?_)
    rw [Nat.succ_mul, Nat.mul_comm, ← hsectors]
    omega
  have hfirst : offset / p.sector_size < (offset + len + p.sector_size - 1) / p.sector_size := by
    rw [Nat.lt_iff_add_one_le, ← Nat.add_div_right _ hpos]
    exact Nat.div_le_div_right (by omega)
  rw [stmicro_erase, sectorAligned_eq hk (by omega) (by omega),
    sectorAligned_eq hk (by omega) (by omega)]
  refine eraseLoop_sound hbus r hfirst ?_
  rw [hsectors, Nat.mul_comm p.sector_size]
  exact Nat.mul_le_mul_right _ hlast

theorem right_of_reached (hpage : p.page_size = 256) {k : Nat} (hk : p.sector_size = 2 ^ k)
    (hle : k ≤ 24) {offset len : Nat} (hsize : offset + len ≤ p.size) (hlen : 0 < len)
    (hend : offset + len ≤ 2 ^ 24) : Right p offset len where
  write bus hbus r buf hbuf := stmicro_write_sound hbus hpage buf r (by omega)
  read bus hbus r := stmicro_read_sound hbus hpage r hend hsize hlen
  erase bus hbus r := by
    obtain ⟨hok, hmem⟩ := stmicro_erase_sound hbus hk hle r hend hlen
    refine ⟨hok, fun a => ?_⟩
    rw [hmem, intersects_iff hlen]
    exact ⟨fun h => if_pos h, fun h => if_neg h⟩
  roundTrip bus hbus r buf hbuf := by
    obtain ⟨-, herased⟩ := stmicro_erase_sound hbus hk hle r hend hlen
    obtain ⟨-, hwritten⟩ := stmicro_write_sound hbus hpage buf (stmicro_erase p bus offset len r).2
      (by omega : offset + buf.length ≤ 2 ^ 24)
    rw [stmicro_read_sound hbus hpage _ hend hsize hlen, hwritten]
    refine congrArg some (List.ext_getElem (by rw [length_slice, hbuf]) fun i hi hi' => ?_)
    have hblank : (stmicro_erase p bus offset len r).2.chip.mem (offset + i) = 0xff := by
      rw [herased]
      exact if_pos ((intersects_iff hlen).mp ⟨offset + i, by omega, by omega, rfl⟩)
    simp only [slice, List.getElem_map, List.getElem_range]
    rw [blend_inside (List.getElem?_eq_getElem hi'), hblank]
    exact BitVec.allOnes_and

/-- Every command succeeds. -/
def soundBus : Bus Chip := ⟨fun _ => true, fun _ before _ => before, fun _ _ _ _ _ => rfl⟩

theorem soundBus_sound : soundBus.Sound := fun _ => rfl

theorem not_right_of_zero (p : Params) (offset : Nat) : ¬Right p offset 0 := by
  intro h
  obtain ⟨-, hmem⟩ := h.erase soundBus soundBus_sound ⟨⟨fun _ => 0, false⟩, 0⟩
  have hfirst := eraseLoop_first (p := p) soundBus_sound
    (sectorAligned p (offset + 0 + p.sector_size - 1)) (sectorAligned p offset)
    ⟨⟨fun _ => 0, false⟩, 0⟩
  have hkept := (hmem (sectorAligned p offset % 2 ^ 24)).2 fun hin => by
    obtain ⟨x, hle, hlt, -⟩ := hin
    omega
  rw [stmicro_erase, hfirst] at hkept
  exact absurd (show (0xff : Byte) = 0 from hkept) (by decide)

theorem not_right_of_far (hpage : p.page_size = 256) {offset len : Nat} (hlen : 0 < len)
    (hfar : 2 ^ 24 < offset + len) : ¬Right p offset len := by
  intro h
  obtain ⟨-, hmem⟩ := h.write soundBus soundBus_sound ⟨⟨fun _ => 0xff, false⟩, 0⟩
    (List.replicate len 0) List.length_replicate
  have hlast : (List.replicate len (0 : Byte))[len - 1]? = some 0 := by
    rw [List.getElem?_replicate, if_pos (by omega)]
  have hkept := writeLoop_outside soundBus_sound hpage (offset / p.page_size)
    ⟨offset % p.page_size, Nat.mod_lt _ p.page_pos⟩ (List.replicate len 0)
    ⟨⟨fun _ => 0xff, false⟩, 0⟩ (a := offset + (len - 1)) (by omega)
  have hwanted := congrFun hmem (offset + (len - 1))
  rw [blend_inside hlast] at hwanted
  exact absurd (show (0xff : Byte) = 0xff &&& 0 from hkept.symm.trans hwanted) (by decide)

/-- The driver is right for the ranges that are not empty and can be reached by an address of three
bytes. -/
theorem stmicro_right_iff {p : Params} (hp : p ∈ stmicro_spi_flash_table) {offset len : Nat}
    (hsize : offset + len ≤ p.size) : Right p offset len ↔ 0 < len ∧ offset + len ≤ 2 ^ 24 := by
  obtain ⟨hpage, hsector, -⟩ := table_spec p hp
  constructor
  · intro h
    have hlen : 0 < len := by
      by_contra hzero
      obtain rfl : len = 0 := by omega
      exact not_right_of_zero p offset h
    refine ⟨hlen, ?_⟩
    by_contra hfar
    exact not_right_of_far hpage hlen (Nat.lt_of_not_le hfar) h
  · rintro ⟨hlen, hend⟩
    obtain hk | hk := hsector
    · exact right_of_reached hpage hk (by decide) hsize hlen hend
    · exact right_of_reached hpage hk (by decide) hsize hlen hend

/-- The first page of the largest chip. -/
theorem right_first_page : Right stmicro_spi_flash_table[17] 0 256 :=
  (stmicro_right_iff (List.getElem_mem _) (by decide)).mpr (by decide)

/-- A sector is erased where nothing is to be erased. -/
theorem not_stmicro_right : ¬∀ p ∈ stmicro_spi_flash_table, ∀ offset len, offset + len ≤ p.size →
    Right p offset len :=
  fun h => not_right_of_zero _ 0 (h _ (List.mem_cons_self) 0 0 (by decide))

end UBoot.Spi.Stmicro
