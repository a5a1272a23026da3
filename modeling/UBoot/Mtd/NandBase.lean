/-
# NAND flash behind a page buffer

`nand_read`, `nand_write` and `nand_erase` of `drivers/mtd/nand/nand_base.c` with software error
correction. Between two calls a page may stand in a buffer, and every bit of the flash may change.

Beside the flash goes what is known of it: for each step of 256 bytes the data that was written since
the block was erased, unless it was written twice, hit by two changed bits or by a command that failed.
The invariant is that a known step differs by at most one bit from its data with its code, and that a
page in the buffer agrees with what is known of it.
-/

import UBoot.Lib.Run
import UBoot.Lib.Memory
import UBoot.Mtd.NandPage

namespace UBoot.NandBase

open UBoot.Lib UBoot.NandEcc UBoot.NandPage

/-- `struct nand_chip` and `struct mtd_info`, as far as they do not change. -/
structure Chip where
  smc : Bool
  layout : Layout
  busw : Nat
  page_shift : Nat
  phys_erase_shift : Nat
  chip_shift : Nat
  numchips : Nat
  subpage_writes : Bool
  wp : Bool
  checkbad : Nat → Bool
  bus : busw = 1 ∨ busw = 2
  page_size : layout.steps * eccsize = 2 ^ page_shift
  page_le : page_shift ≤ phys_erase_shift
  erase_le : phys_erase_shift ≤ chip_shift
  size_le : numchips * 2 ^ chip_shift ≤ 2 ^ 31

namespace Chip

variable (chip : Chip)

/-- `mtd->writesize` -/
def writesize : Nat := 2 ^ chip.page_shift

/-- `mtd->size` -/
def size : Nat := chip.numchips * 2 ^ chip.chip_shift

/-- The pages of a chip: `chip->pagemask` is one less. -/
def pages : Nat := 2 ^ (chip.chip_shift - chip.page_shift)

/-- The pages of a block. -/
def pages_per_block : Nat := 2 ^ (chip.phys_erase_shift - chip.page_shift)

/-- `mtd->subpage_sft` -/
def subpage_sft : Nat :=
  if chip.subpage_writes then
    match chip.layout.steps with
    | 2 => 1
    | 4 | 8 | 16 => 2
    | _ => 0
  else 0

/-- `chip->subpagesize` -/
def subpagesize : Nat := chip.writesize >>> chip.subpage_sft

/-- `NAND_SUBPAGE_READ` -/
def subpage_read : Bool := 9 < chip.page_shift

end Chip

/-- The flash, the page buffer and the statistics. -/
structure Nand where
  cells : Nat → Nat → Page
  pagebuf : Option Nat
  databuf : Nat → Byte
  oob_poi : Nat → Byte
  stats : Stats
  commands : Nat

/-- The commands that fail, and what they leave. -/
structure Faults where
  fails : Nat → Bool
  torn : Nat → Page → Page

def EIO : Int := 5
def EINVAL : Int := 22
def EUCLEAN : Int := 117

/-- Bits are only cleared. -/
def Page.program (old new : Page) : Page :=
  ⟨fun i => old.dat i &&& new.dat i, fun i => old.oob i &&& new.oob i⟩

/-- A page of an erased block. -/
def erasedPage : Page := ⟨fun _ => 0xff, fun _ => 0xff⟩

section Calls

variable (chip : Chip) (faults : Faults)

/-! ## Reading -/

/-- A page, or a part of it, comes from the flash or from the buffer. -/
def readPiece (chipnr realpage page col bytes : Nat) (dev : Nand) : List Byte × Nand :=
  if dev.pagebuf ≠ some realpage then
    if bytes = chip.writesize then
      let r := nand_read_page_swecc chip.smc chip.layout (dev.cells chipnr page) dev.stats
      (slice r.buf 0 bytes, { dev with oob_poi := r.oob_poi, stats := r.stats })
    else if chip.subpage_read then
      let r := nand_read_subpage chip.smc chip.layout chip.busw (dev.cells chipnr page) col bytes
        dev.databuf dev.oob_poi dev.stats
      (slice r.buf col bytes,
        { dev with databuf := r.buf, oob_poi := r.oob_poi, stats := r.stats })
    else
      let r := nand_read_page_swecc chip.smc chip.layout (dev.cells chipnr page) dev.stats
      (slice r.buf col bytes,
        { dev with
          databuf := r.buf, oob_poi := r.oob_poi, stats := r.stats, pagebuf := some realpage })
  else (slice dev.databuf col bytes, dev)

/-- The loop of `nand_do_read_ops`, with as many rounds as there are bytes at most. -/
def readLoop : Nat → Nat → Nat → Nat → Nat → Nat → Nand → List Byte × Nand
  | 0, _, _, _, _, _, dev => ([], dev)
  | fuel + 1, chipnr, realpage, page, col, readlen, dev =>
      let bytes := min (chip.writesize - col) readlen
      let (piece, dev) := readPiece chip chipnr realpage page col bytes dev
      let readlen := readlen - bytes
      if readlen = 0 then (piece, dev)
      else
        let realpage := realpage + 1
        let page := realpage % chip.pages
        let chipnr := if page = 0 then chipnr + 1 else chipnr
        let (rest, dev) := readLoop fuel chipnr realpage page 0 readlen dev
        (piece ++ rest, dev)

/-- What the statistics say about a read. -/
def readResult (before after : Stats) : Int :=
  if after.failed - before.failed ≠ 0 then EBADMSG
  else if after.corrected - before.corrected ≠ 0 then - EUCLEAN
  else 0

/-- `nand_do_read_ops` -/
def nand_do_read_ops (start len : Nat) (dev : Nand) : Int × List Byte × Nand :=
  let chipnr := start >>> chip.chip_shift
  let realpage := start >>> chip.page_shift
  let (bytes, dev') := readLoop chip len chipnr realpage (realpage % chip.pages)
    (start % chip.writesize) len dev
  (readResult dev.stats dev'.stats, bytes, dev')

/-- `nand_read`: the result, and the bytes that are read. -/
def nand_read (start len : Nat) (dev : Nand) : Int × List Byte × Nand :=
  if start + len > chip.size then (- EINVAL, [], dev)
  else if len = 0 then (0, [], dev)
  else nand_do_read_ops chip start len dev

/-! ## Writing -/

/-- `nand_write_page` -/
def nand_write_page (buf : Nat → Byte) (chipnr page : Nat) (dev : Nand) : Int × Nand :=
  let new := nand_write_page_swecc chip.smc chip.layout buf dev.oob_poi
  let old := dev.cells chipnr page
  let fails := faults.fails dev.commands
  let cell := if fails then faults.torn dev.commands old else Page.program old new
  (if fails then - EIO else 0,
    { dev with
      oob_poi := new.oob
      commands := dev.commands + 1
      cells := Function.update dev.cells chipnr (Function.update (dev.cells chipnr) page cell) })

/-- `Partial page write ?`: how many bytes are written, and what to the page. -/
def stage (buf : Nat → Byte) (column bufpos writelen : Nat) (dev : Nand) :
    Nat × (Nat → Byte) × Nand :=
  if column ≠ 0 ∨ writelen < chip.writesize - 1 then
    let bytes := min (chip.writesize - column) writelen
    let databuf := store (fun _ => 0xff) column (slice buf bufpos bytes)
    (bytes, databuf, { dev with pagebuf := none, databuf := databuf })
  else (chip.writesize, fun i => buf (bufpos + i), dev)

/-- The loop of `nand_do_write_ops` over the bytes `buf`, from `bufpos` on: the result, and how much
is left to be written. -/
def writeLoop (buf : Nat → Byte) :
    Nat → Nat → Nat → Nat → Nat → Nat → Nat → Nand → Int × Nat × Nand
  | 0, _, _, _, _, _, writelen, dev => (0, writelen, dev)
  | fuel + 1, chipnr, realpage, page, column, bufpos, writelen, dev =>
      let (bytes, wbuf, dev) := stage chip buf column bufpos writelen dev
      let (ret, dev) := nand_write_page chip faults wbuf chipnr page dev
      if ret ≠ 0 then (ret, writelen, dev)
      else
        let writelen := writelen - bytes
        if writelen = 0 then (0, writelen, dev)
        else
          let realpage := realpage + 1
          let page := realpage % chip.pages
          let chipnr := if page = 0 then chipnr + 1 else chipnr
          writeLoop buf fuel chipnr realpage page 0 (bufpos + bytes) writelen dev

/-- The page in the buffer begins in the range that is written. -/
def Hits (start len : Nat) (pagebuf : Option Nat) : Prop :=
  ∃ page, pagebuf = some page ∧ start ≤ page <<< chip.page_shift ∧
    page <<< chip.page_shift < start + len

instance (start len : Nat) : (pagebuf : Option Nat) → Decidable (Hits chip start len pagebuf)
  | none => .isFalse fun h => by
      obtain ⟨page, hpage, -⟩ := h
      cases hpage
  | some page =>
      decidable_of_iff (start ≤ page <<< chip.page_shift ∧ page <<< chip.page_shift < start + len)
        ⟨fun h => ⟨page, rfl, h⟩, fun h => by
          obtain ⟨page', hpage, h⟩ := h
          cases hpage
          exact h⟩

/-- `nand_do_write_ops`: the result, and `retlen`. -/
def nand_do_write_ops (start len : Nat) (buf : Nat → Byte) (dev : Nand) : Int × Nat × Nand :=
  if len = 0 then (0, 0, dev)
  else if start % chip.subpagesize ≠ 0 ∨ len % chip.subpagesize ≠ 0 then (- EINVAL, 0, dev)
  else if chip.wp then (- EIO, 0, dev)
  else
    let chipnr := start >>> chip.chip_shift
    let realpage := start >>> chip.page_shift
    let dev := if Hits chip start len dev.pagebuf then { dev with pagebuf := none } else dev
    let dev := { dev with oob_poi := fun _ => 0xff }
    let (ret, writelen, dev) := writeLoop chip faults buf len chipnr realpage
      (realpage % chip.pages) (start % chip.writesize) 0 len dev
    (ret, len - writelen, dev)

/-- `nand_write` -/
def nand_write (start len : Nat) (buf : Nat → Byte) (dev : Nand) : Int × Nat × Nand :=
  if start + len > chip.size then (- EINVAL, 0, dev)
  else if len = 0 then (0, 0, dev)
  else nand_do_write_ops chip faults start len buf dev

/-! ## Erasing -/

/-- The page in the buffer is in the block that is erased. -/
def forget (page : Nat) (pagebuf : Option Nat) : Option Nat :=
  pagebuf.filter fun cached => ¬(page ≤ cached ∧ cached < page + chip.pages_per_block)

/-- `chip->erase_cmd` and the status after it. -/
def eraseBlock (chipnr page : Nat) (dev : Nand) : Bool × Nand :=
  let fails := faults.fails dev.commands
  let first := page / chip.pages_per_block * chip.pages_per_block
  let cells := fun row =>
    if first ≤ row ∧ row < first + chip.pages_per_block then
      if fails then faults.torn dev.commands (dev.cells chipnr row) else erasedPage
    else dev.cells chipnr row
  (!fails,
    { dev with
      commands := dev.commands + 1, cells := Function.update dev.cells chipnr cells })

/-- The loop of `nand_erase_nand`: whether it comes to the end. -/
def eraseLoop : Nat → Nat → Nat → Nat → Nand → Bool × Nand
  | 0, _, _, _, dev => (false, dev)
  | fuel + 1, chipnr, page, len, dev =>
      if len = 0 then (true, dev)
      else if chip.checkbad (page <<< chip.page_shift) then (false, dev)
      else
        let dev := { dev with pagebuf := forget chip page dev.pagebuf }
        let (ok, dev) := eraseBlock chip faults chipnr (page % chip.pages) dev
        if ok then
          let len := len - 2 ^ chip.phys_erase_shift
          let page := page + chip.pages_per_block
          let chipnr := if len ≠ 0 ∧ page % chip.pages = 0 then chipnr + 1 else chipnr
          eraseLoop fuel chipnr page len dev
        else (false, dev)

/-- `nand_erase_nand` -/
def nand_erase_nand (addr len : Nat) (dev : Nand) : Int × Nand :=
  if addr % 2 ^ chip.phys_erase_shift ≠ 0 then (- EINVAL, dev)
  else if len % 2 ^ chip.phys_erase_shift ≠ 0 then (- EINVAL, dev)
  else if len + addr > chip.size then (- EINVAL, dev)
  else if chip.wp then (- EIO, dev)
  else
    let (done, dev) := eraseLoop chip faults (len + 1) (addr >>> chip.chip_shift)
      (addr >>> chip.page_shift) len dev
    (if done then 0 else - EIO, dev)

end Calls

end UBoot.NandBase
