/-
# Transfers to and from an EEPROM

`eeprom_write` and `eeprom_read` of `common/cmd_eeprom.c` over I2C. A transfer goes in transactions,
and the address counter of the device stays in the page that is written, or in the block of 256 bytes
that is read. The page is found in the low byte of the offset, which is enough for pages that are not
larger than a block.
-/

import UBoot.Lib.Pages
import UBoot.LibGeneric.Crc32

namespace UBoot.Eeprom

open UBoot.Lib

/-- `CONFIG_SYS_EEPROM_PAGE_WRITE_BITS`, `I2C_RXTX_LEN` and `CONFIG_SYS_I2C_EEPROM_ADDR_LEN` -/
structure Config where
  page_write_bits : Nat
  rxtx_len : Nat
  addr_len : Nat
  bits_lt : page_write_bits < 31
  rxtx_pos : 0 < rxtx_len

/-- `addr[0]`, `offset`, `alen - 1` and `len` of an `i2c_write` or an `i2c_read` -/
structure Transaction where
  chip : Byte
  addr : Nat
  alen : Nat
  len : Nat

/-- Which transactions succeed, what a write that fails leaves in the device, and what a read that
fails leaves in the buffer. -/
structure Bus where
  answers : Nat → Bool
  spoilt : Nat → (Nat → Byte) → Nat → Byte
  garbage : Nat → Nat → Byte

/-- The transactions so far, `rcode`, the device, and the buffer: what is left to write, or what has
been read. -/
structure State where
  log : List Transaction
  rcode : Nat
  mem : Nat → Byte
  buffer : List Byte

section Transfers

variable (c : Config) (bus : Bus) (dev_addr : Byte)

/-- `EEPROM_PAGE_SIZE` -/
def Config.page_size : Nat := 2 ^ c.page_write_bits

/-- The block offset: `offset & 0xFF` -/
def blk_off (offset : Nat) : Nat := offset % 256

/-- `maxlen` of a write: up to the end of the page, but not more than the bus takes -/
def Config.writeLimit (offset : Nat) : { n : Nat // 0 < n } :=
  ⟨min (c.page_size - blk_off offset % c.page_size) c.rxtx_len,
    Nat.lt_min.mpr ⟨Nat.sub_pos_of_lt (Nat.mod_lt _ (Nat.two_pow_pos _)), c.rxtx_pos⟩⟩

/-- `maxlen` of a read -/
def Config.readLimit (offset : Nat) : { n : Nat // 0 < n } :=
  ⟨min (256 - blk_off offset) c.rxtx_len,
    Nat.lt_min.mpr ⟨Nat.sub_pos_of_lt (Nat.mod_lt _ (by decide)), c.rxtx_pos⟩⟩

/-- The transaction for `len` bytes at `offset`. -/
def transaction (offset len : Nat) : Transaction :=
  ⟨BitVec.ofNat 8 (offset / 256 ^ c.addr_len) ||| dev_addr, offset, c.addr_len, len⟩

/-- A transaction is done: it succeeds or fails. -/
def State.record (s : State) (t : Transaction) : State :=
  { s with
    log := s.log ++ [t]
    rcode := if bus.answers s.log.length then s.rcode else 1 }

/-- `i2c_write` of the next bytes of the buffer -/
def i2c_write (offset len : Nat) (s : State) : State :=
  { s.record bus (transaction c dev_addr offset len) with
    mem :=
      if bus.answers s.log.length then
        writePage (fun _ b => b) c.page_size s.mem offset (s.buffer.take len)
      else bus.spoilt s.log.length s.mem
    buffer := s.buffer.drop len }

/-- `i2c_read` of the next bytes into the buffer -/
def i2c_read (offset len : Nat) (s : State) : State :=
  { s.record bus (transaction c dev_addr offset len) with
    buffer := s.buffer ++
      if bus.answers s.log.length then readPage 256 s.mem offset len
      else (List.range len).map (bus.garbage s.log.length) }

def eeprom_write (offset : Nat) (buffer : List Byte) (mem : Nat → Byte) : State :=
  transferLoop c.writeLimit ((offset + buffer.length) % 2 ^ 32) (i2c_write c bus dev_addr) offset
    ⟨[], 0, mem, buffer⟩

def eeprom_read (offset cnt : Nat) (mem : Nat → Byte) : State :=
  transferLoop c.readLimit ((offset + cnt) % 2 ^ 32) (i2c_read c bus dev_addr) offset
    ⟨[], 0, mem, []⟩

end Transfers

/-! ## What is expected -/

/-- The transactions are of at most so many bytes of one page, and cover the range in order. -/
structure Covers (page most offset cnt : Nat) (log : List Transaction) : Prop where
  each : ∀ t ∈ log, 0 < t.len ∧ t.len ≤ most ∧ t.addr % page + t.len ≤ page
  order : log.flatMap (fun t => List.range' t.addr t.len) = List.range' offset cnt

/-- Zero is returned exactly if every transaction succeeded. -/
def Reports (bus : Bus) (s : State) : Prop :=
  s.rcode = 0 ↔ ∀ i < s.log.length, bus.answers i = true

structure WriteRight (c : Config) (bus : Bus) (offset : Nat) (buffer : List Byte)
    (mem : Nat → Byte) (s : State) : Prop where
  covers : Covers c.page_size c.rxtx_len offset buffer.length s.log
  reports : Reports bus s
  written : s.rcode = 0 → s.mem = store mem offset buffer

structure ReadRight (c : Config) (bus : Bus) (offset cnt : Nat) (mem : Nat → Byte) (s : State) :
    Prop where
  covers : Covers 256 c.rxtx_len offset cnt s.log
  reports : Reports bus s
  read : s.rcode = 0 → s.buffer = slice mem offset cnt
  kept : s.mem = mem

/-- What is written is read again, and nothing else is changed. -/
structure Config.Right (c : Config) : Prop where
  write : ∀ bus dev_addr offset buffer mem, offset + buffer.length < 2 ^ 32 →
    WriteRight c bus offset buffer mem (eeprom_write c bus dev_addr offset buffer mem)
  read : ∀ bus dev_addr offset cnt mem, offset + cnt < 2 ^ 32 →
    ReadRight c bus offset cnt mem (eeprom_read c bus dev_addr offset cnt mem)
  roundTrip : ∀ bus bus' dev_addr offset buffer mem, offset + buffer.length < 2 ^ 32 →
    (eeprom_write c bus dev_addr offset buffer mem).rcode = 0 →
      (eeprom_read c bus' dev_addr offset buffer.length
        (eeprom_write c bus dev_addr offset buffer mem).mem).rcode = 0 →
      (eeprom_read c bus' dev_addr offset buffer.length
        (eeprom_write c bus dev_addr offset buffer mem).mem).buffer = buffer

/-! ## Transactions one behind the other -/

variable {c : Config} {bus : Bus} {dev_addr : Byte}

theorem Covers.record {page most offset cnt len : Nat} {log : List Transaction}
    (h : Covers page most offset cnt log) (hpos : 0 < len) (hmost : len ≤ most)
    (hpage : (offset + cnt) % page + len ≤ page) :
    Covers page most offset (cnt + len)
      (log ++ [transaction c dev_addr (offset + cnt) len]) := by
  refine ⟨fun t ht => ?_, ?_⟩
  · obtain hold | hnew := List.mem_append.mp ht
    · exact h.each t hold
    · rw [List.mem_singleton] at hnew
      subst hnew
      exact ⟨hpos, hmost, hpage⟩
  · rw [List.flatMap_append, h.order, List.flatMap_singleton, transaction, List.range'_append_1]

theorem Reports.record {s s' : State} (h : Reports bus s) (hlog : s'.log.length = s.log.length + 1)
    (hrcode : s'.rcode = if bus.answers s.log.length then s.rcode else 1) : Reports bus s' := by
  rw [Reports, hlog, hrcode]
  constructor
  · intro hzero i hi
    split at hzero
    · next hok =>
        obtain hlt | rfl := Nat.lt_succ_iff_lt_or_eq.mp hi
        · exact h.mp hzero i hlt
        · exact hok
    · cases hzero
  · intro hall
    rw [if_pos (hall _ (Nat.lt_succ_self _))]
    exact h.mpr fun i hi => hall i (Nat.lt_succ_of_lt hi)

/-- In a page that is not larger than a block, or byte by byte, no transaction leaves the page. -/
theorem writeLimit_inside (h : c.page_write_bits ≤ 8 ∨ c.rxtx_len = 1) (offset : Nat) :
    offset % c.page_size + c.writeLimit offset ≤ c.page_size := by
  have hpos : 0 < c.page_size := Nat.two_pow_pos _
  have hlt := Nat.mod_lt offset hpos
  change offset % c.page_size + min (c.page_size - blk_off offset % c.page_size) c.rxtx_len ≤ _
  obtain hsmall | hone := h
  · have hmod : blk_off offset % c.page_size = offset % c.page_size :=
      Nat.mod_mod_of_dvd offset (Nat.pow_dvd_pow 2 hsmall)
    rw [hmod]
    omega
  · rw [hone]
    omega

/-- What has been written up to an offset. -/
structure Written (c : Config) (bus : Bus) (start : Nat) (buffer : List Byte) (mem : Nat → Byte)
    (offset : Nat) (s : State) : Prop where
  le : start ≤ offset
  covers : Covers c.page_size c.rxtx_len start (offset - start) s.log
  reports : Reports bus s
  written : s.rcode = 0 → s.mem = store mem start (buffer.take (offset - start))
  rest : s.buffer = buffer.drop (offset - start)

theorem written_step (h : c.page_write_bits ≤ 8 ∨ c.rxtx_len = 1) {start offset : Nat}
    {buffer : List Byte} {mem : Nat → Byte} {s : State} (hlt : offset < start + buffer.length)
    (hs : Written c bus start buffer mem offset s) :
    Written c bus start buffer mem
      (offset + min (start + buffer.length - offset) (c.writeLimit offset))
      (i2c_write c bus dev_addr offset (min (start + buffer.length - offset) (c.writeLimit offset))
        s) := by
  obtain ⟨hle, hcovers, hreports, hwritten, hrest⟩ := hs
  have hinside := writeLimit_inside h offset
  have hpos := (c.writeLimit offset).2
  have hmost : (c.writeLimit offset).1 ≤ c.rxtx_len := Nat.min_le_right _ _
  obtain ⟨done, rfl⟩ := Nat.exists_eq_add_of_le hle
  generalize hlen : min (start + buffer.length - (start + done)) (c.writeLimit (start + done)) = len
  rw [Nat.add_sub_cancel_left] at hcovers hwritten hrest
  have hdone : start + done + len - start = done + len := by omega
  refine ⟨by omega, ?_, ?_, ?_, ?_⟩
  · rw [hdone]
    exact hcovers.record (by omega) (by omega) (by omega)
  · exact hreports.record (List.length_append) rfl
  · intro hzero
    rw [hdone]
    change (if bus.answers s.log.length then s.rcode else 1) = 0 at hzero
    change (if bus.answers s.log.length then _ else _) = _
    split at hzero
    · next hok =>
        rw [if_pos hok, hwritten hzero, hrest]
        have hpiece : ((buffer.drop done).take len).length ≤ len := List.length_take_le _ _
        have htake : (buffer.take done).length = done := by
          rw [List.length_take]
          omega
        rw [writePage_eq_blend _ _ _ (by omega), blend_eq_store, List.take_add, ← store_append, htake]
    · cases hzero
  · rw [hdone, i2c_write, hrest, List.drop_drop]

/-- What has been read up to an offset. -/
structure ReadSoFar (c : Config) (bus : Bus) (start : Nat) (mem : Nat → Byte) (offset : Nat)
    (s : State) : Prop where
  le : start ≤ offset
  covers : Covers 256 c.rxtx_len start (offset - start) s.log
  reports : Reports bus s
  read : s.rcode = 0 → s.buffer = slice mem start (offset - start)
  kept : s.mem = mem

theorem readSoFar_step {start offset stop : Nat} {mem : Nat → Byte} {s : State}
    (hlt : offset < stop) (hs : ReadSoFar c bus start mem offset s) :
    ReadSoFar c bus start mem (offset + min (stop - offset) (c.readLimit offset))
      (i2c_read c bus dev_addr offset (min (stop - offset) (c.readLimit offset)) s) := by
  obtain ⟨hle, hcovers, hreports, hread, hkept⟩ := hs
  have hpos := (c.readLimit offset).2
  have hmost : (c.readLimit offset).1 ≤ c.rxtx_len := Nat.min_le_right _ _
  have hblock : (c.readLimit offset).1 ≤ 256 - offset % 256 := Nat.min_le_left _ _
  have hmod := Nat.mod_lt offset (by decide : 0 < 256)
  obtain ⟨done, rfl⟩ := Nat.exists_eq_add_of_le hle
  generalize hlen : min (stop - (start + done)) (c.readLimit (start + done)) = len
  rw [Nat.add_sub_cancel_left] at hcovers hread
  have hdone : start + done + len - start = done + len := by omega
  refine ⟨by omega, ?_, ?_, ?_, hkept⟩
  · rw [hdone]
    exact hcovers.record (by omega) (by omega) (by omega)
  · exact hreports.record (List.length_append) rfl
  · intro hzero
    rw [hdone]
    change (if bus.answers s.log.length then s.rcode else 1) = 0 at hzero
    split at hzero
    · next hok =>
        rw [i2c_read, if_pos hok, hread hzero, hkept, readPage_eq_slice mem (by omega),
          slice_append]
    · cases hzero

theorem covers_nil (page most start : Nat) : Covers page most start 0 [] :=
  ⟨nofun, rfl⟩

theorem reports_start (bus : Bus) (mem : Nat → Byte) (buffer : List Byte) :
    Reports bus ⟨[], 0, mem, buffer⟩ := iff_of_true rfl nofun

theorem write_right (h : c.page_write_bits ≤ 8 ∨ c.rxtx_len = 1) (bus : Bus) (dev_addr : Byte)
    {offset : Nat} {buffer : List Byte} (mem : Nat → Byte)
    (hwrap : offset + buffer.length < 2 ^ 32) :
    WriteRight c bus offset buffer mem (eeprom_write c bus dev_addr offset buffer mem) := by
  have hstart : Written c bus offset buffer mem offset ⟨[], 0, mem, buffer⟩ := by
    refine ⟨le_rfl, ?_, reports_start bus mem buffer, fun _ => ?_, ?_⟩
    · rw [Nat.sub_self]
      exact covers_nil _ _ _
    · rw [Nat.sub_self, List.take_zero, store_nil]
    · rw [Nat.sub_self, List.drop_zero]
  have hend := transferLoop_rule (i2c_write c bus dev_addr)
    (Written c bus offset buffer mem) (fun _ _ hlt hs => written_step h hlt hs)
    (Nat.le_add_right _ _) hstart
  rw [eeprom_write, Nat.mod_eq_of_lt hwrap]
  have hcovers := hend.covers
  have hwritten := hend.written
  rw [Nat.add_sub_cancel_left] at hcovers hwritten
  exact ⟨hcovers, hend.reports, fun hzero => by rw [hwritten hzero, List.take_length]⟩

theorem read_right (c : Config) (bus : Bus) (dev_addr : Byte) {offset cnt : Nat}
    (mem : Nat → Byte) (hwrap : offset + cnt < 2 ^ 32) :
    ReadRight c bus offset cnt mem (eeprom_read c bus dev_addr offset cnt mem) := by
  have hstart : ReadSoFar c bus offset mem offset ⟨[], 0, mem, []⟩ := by
    refine ⟨le_rfl, ?_, reports_start bus mem [], fun _ => ?_, rfl⟩
    · rw [Nat.sub_self]
      exact covers_nil _ _ _
    · rw [Nat.sub_self]
      rfl
  have hend := transferLoop_rule (i2c_read c bus dev_addr)
    (ReadSoFar c bus offset mem) (fun _ _ hlt hs => readSoFar_step hlt hs)
    (Nat.le_add_right _ cnt) hstart
  rw [eeprom_read, Nat.mod_eq_of_lt hwrap]
  have hcovers := hend.covers
  have hread := hend.read
  rw [Nat.add_sub_cancel_left] at hcovers hread
  exact ⟨hcovers, hend.reports, hread, hend.kept⟩

/-! ## Pages that are larger than a block -/

/-- Every transaction succeeds. -/
def soundBus : Bus := ⟨fun _ => true, fun _ m => m, fun _ _ => 0⟩

/-- Two bytes at the end of a page go in one transaction. -/
theorem write_across (hbits : 8 < c.page_write_bits) (hrxtx : c.rxtx_len ≠ 1) (mem : Nat → Byte) :
    (eeprom_write c soundBus 0 (c.page_size - 1) [0, 0] mem).log =
      [transaction c 0 (c.page_size - 1) 2] := by
  have hlow : 2 ^ 9 ≤ c.page_size := Nat.pow_le_pow_right (by decide) hbits
  have hhigh : c.page_size ≤ 2 ^ 30 := Nat.pow_le_pow_right (by decide) (by have := c.bits_lt; omega)
  have hdvd : 256 ∣ c.page_size := Nat.pow_dvd_pow 2 hbits.le
  have hrxtx₂ : 2 ≤ c.rxtx_len := by have := c.rxtx_pos; omega
  have hblk : blk_off (c.page_size - 1) = 255 := by
    rw [blk_off]
    omega
  have hlimit : (c.writeLimit (c.page_size - 1)).1 = min (c.page_size - 255) c.rxtx_len := by
    change min (c.page_size - blk_off (c.page_size - 1) % c.page_size) c.rxtx_len = _
    rw [hblk, Nat.mod_eq_of_lt (by omega)]
  have hstop : (c.page_size - 1 + 2) % 2 ^ 32 = c.page_size - 1 + 2 := Nat.mod_eq_of_lt (by omega)
  have hlen : min (c.page_size - 1 + 2 - (c.page_size - 1)) (c.writeLimit (c.page_size - 1)).1 =
      2 := by
    rw [hlimit]
    omega
  rw [eeprom_write, List.length_cons, List.length_singleton, hstop, transferLoop, if_pos (by omega),
    hlen, transferLoop, if_neg (by omega)]
  rfl

/-- The transfers are right for pages of up to 256 bytes, and byte by byte. -/
theorem Config.eeprom_right_iff (c : Config) : c.Right ↔ c.page_write_bits ≤ 8 ∨ c.rxtx_len = 1 := by
  constructor
  · intro h
    by_contra hnot
    rw [not_or, Nat.not_le] at hnot
    have hlow : 2 ^ 9 ≤ c.page_size := Nat.pow_le_pow_right (by decide) hnot.1
    have hhigh : c.page_size ≤ 2 ^ 30 :=
      Nat.pow_le_pow_right (by decide) (by have := c.bits_lt; omega)
    have hcovers := (h.write soundBus 0 (c.page_size - 1) [0, 0] (fun _ => 0) (by
      rw [List.length_cons, List.length_singleton]
      omega)).covers
    rw [write_across hnot.1 hnot.2] at hcovers
    have hinside := (hcovers.each _ (List.mem_singleton_self _)).2.2
    change (c.page_size - 1) % c.page_size + 2 ≤ c.page_size at hinside
    rw [Nat.mod_eq_of_lt (by omega)] at hinside
    omega
  · intro h
    refine ⟨fun bus dev_addr offset buffer mem => write_right h bus dev_addr mem,
      fun bus dev_addr offset cnt mem => read_right c bus dev_addr mem, ?_⟩
    intro bus bus' dev_addr offset buffer mem hwrap hwrite hread
    have hwritten := (write_right h bus dev_addr mem hwrap).written hwrite
    have hbuffer := (read_right c bus' dev_addr
      (eeprom_write c bus dev_addr offset buffer mem).mem hwrap).read hread
    rw [hbuffer, hwritten]
    exact slice_store_same rfl

/-- Pages of 512 bytes. -/
def largePages : Config := ⟨9, 128, 2, by decide, by decide⟩

/-- The second byte goes to the start of the page. -/
theorem not_eeprom_right : ¬∀ c : Config, c.Right := by
  intro h
  have hcovers := ((h largePages).write soundBus 0 511 [0, 0] (fun _ => 0) (by decide)).covers
  have hlog : (eeprom_write largePages soundBus 0 511 [0, 0] fun _ => 0).log =
      [transaction largePages 0 511 2] := write_across (c := largePages) (by decide) (by decide) _
  rw [hlog] at hcovers
  have hinside := (hcovers.each _ (List.mem_singleton_self _)).2.2
  exact absurd hinside (by decide)

end UBoot.Eeprom
