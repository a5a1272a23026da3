/-
# Writing to CFI flash

`write_buff` of `drivers/mtd/cfi_flash.c` with what it calls. A cell that is programmed
becomes `old AND new`, and the chip reports no error. So the status checks are left out,
as are the command sequences in front of them.
-/

import Mathlib.Data.List.Basic
import Mathlib.Data.BitVec

namespace UBoot.CfiFlash

/-- `uchar` -/
abbrev UChar := BitVec 8

/-- The content of the flash. -/
abbrev Content := Nat → UChar

/-- The byte order of the processor. -/
inductive ByteOrder
  | little
  | big
  deriving DecidableEq

def ERR_NOT_ERASED : Int := 2

/-- What `write_buff` uses of `flash_info_t`. Widths are in bytes. -/
structure CfiInfo where
  portwidth : Nat
  chipwidth : Nat
  buffer_size : Nat
  port : ∃ k ≤ 3, portwidth = 2 ^ k
  chip : ∃ k, chipwidth = 2 ^ k ∧ chipwidth ≤ portwidth
  buffer : ∃ k, buffer_size = 2 ^ k ∧ (chipwidth ≤ buffer_size ∨ buffer_size = 1)

/-! ## Words -/

section Words

variable {n : Nat} (order : ByteOrder)

/-- Where the byte with an index stands in a word. -/
def lane (n j : Nat) : Nat :=
  match order with
  | .little => j
  | .big => n - 1 - j

/-- The byte of a word that is at an index in memory. -/
def byteOf (w : BitVec (8 * n)) (j : Nat) : UChar := w.extractLsb' (8 * lane order n j) 8

/-- `flash_read8`, `flash_read16`, `flash_read32` and `flash_read64` -/
def flash_read (n : Nat) (m : Content) (addr : Nat) : BitVec (8 * n) :=
  (List.range n).foldl
    (fun w j => w ||| (m (addr + j)).setWidth (8 * n) <<< (8 * lane order n j)) 0#(8 * n)

/-- `flash_write8` and so on, at the end of which the cells are programmed. -/
def flash_write (w : BitVec (8 * n)) (m : Content) (addr : Nat) : Content := fun a =>
  if addr ≤ a ∧ a < addr + n then m a &&& byteOf order w (a - addr) else m a

/-- `flash_add_byte` -/
def flash_add_byte (cword : BitVec (8 * n)) (c : UChar) : BitVec (8 * n) :=
  match order with
  | .little => cword >>> 8 ||| c.setWidth (8 * n) <<< (8 * (n - 1))
  | .big => cword <<< 8 ||| c.setWidth (8 * n)

/-- `flash_write_cfiword` -/
def flash_write_cfiword (m : Content) (dest : Nat) (cword : BitVec (8 * n)) : Int × Content :=
  if flash_read order n m dest &&& cword = cword then (0, flash_write order cword m dest)
  else (ERR_NOT_ERASED, m)

end Words

/-- Memory that begins with the source. -/
def sourceAt (src : List UChar) : Content := fun i => src.getD i 0#8

/-! ## Buffers -/

section Buffers

variable (order : ByteOrder) (n : Nat)

/-- `__flash_check_flag`: the loop ends at the first word that can be programmed. -/
def flash_check_flag (m : Content) (src : List UChar) (dst : Nat) : Nat → Bool
  | 0 => false
  | cnt + 1 =>
      let word := flash_read order n (sourceAt src) 0
      if flash_read order n m dst &&& word = word then true
      else flash_check_flag m (src.drop n) (dst + n) cnt

/-- `__flash_write_buffer` -/
def flash_write_buffer (src : List UChar) (dst : Nat) (cnt : Nat) (m : Content) : Content :=
  match cnt with
  | 0 => m
  | cnt + 1 =>
      flash_write_buffer (src.drop n) (dst + n) cnt
        (flash_write order (flash_read order n (sourceAt src) 0) m dst)

/-- `flash_write_cfibuffer`: `len >> shift` is a division. -/
def flash_write_cfibuffer (m : Content) (dest : Nat) (cp : List UChar) (len : Nat) :
    Int × Content :=
  let cnt := len / n
  if flash_check_flag order n m cp dest cnt then (0, flash_write_buffer order n cp dest cnt m)
  else (ERR_NOT_ERASED, m)

end Buffers

/-! ## write_buff -/

section WriteBuff

variable (info : CfiInfo) (order : ByteOrder)

/-- Bytes of the flash are added to a word. -/
def addFlash (m : Content) (p : Nat) (i count : Nat) (cword : BitVec (8 * info.portwidth)) :
    BitVec (8 * info.portwidth) :=
  (List.range' i count).foldl (fun cword i => flash_add_byte order cword (m (p + i))) cword

/-- Bytes of the source are added to a word. -/
def addSource (src : List UChar) (cword : BitVec (8 * info.portwidth)) :
    BitVec (8 * info.portwidth) :=
  src.foldl (flash_add_byte order) cword

/-- Unaligned tail bytes. -/
def writeTail (m : Content) (wp : Nat) (src : List UChar) : Int × Content :=
  if src.length = 0 then (0, m)
  else
    let cword := addSource info order src 0
    let cword := addFlash info order m wp src.length (info.portwidth - src.length) cword
    flash_write_cfiword order m wp cword

/-- `buffered_size` -/
def buffered_size : Nat := info.portwidth / info.chipwidth * info.buffer_size

/-- One turn of the loop of the aligned part: the bytes of the source that it takes, and what
comes of writing them. `buffered` stands for `CONFIG_SYS_FLASH_USE_BUFFER_WRITE`. -/
def writeAligned (buffered : Bool) (m : Content) (wp : Nat) (src : List UChar) :
    Nat × Int × Content :=
  if buffered ∧ info.buffer_size ≠ 1 then
    let i := min (buffered_size info - wp % buffered_size info) src.length
    (i - i % info.portwidth, flash_write_cfibuffer order info.portwidth m wp src i)
  else
    (info.portwidth,
      flash_write_cfiword order m wp (addSource info order (src.take info.portwidth) 0))

/-- The aligned part, and the tail. -/
def writeBody (buffered : Bool) :
    Nat → Content → Nat → List UChar → Option (Int × Content)
  | 0, _, _, _ => none
  | fuel + 1, m, wp, src =>
      if info.portwidth ≤ src.length then
        let (i, rc, m) := writeAligned info order buffered m wp src
        if rc ≠ 0 then some (rc, m) else writeBody buffered fuel m (wp + i) (src.drop i)
      else some (writeTail info order m wp src)

/-- `write_buff`, where the source has the length `cnt`. -/
def write_buff (buffered : Bool) (m : Content) (src : List UChar) (addr : Nat) :
    Option (Int × Content) :=
  let aln := addr % info.portwidth
  let wp := addr - aln
  if aln ≠ 0 then
    let first := src.take (info.portwidth - aln)
    let rest := src.drop (info.portwidth - aln)
    let i := aln + first.length
    let cword := addSource info order first (addFlash info order m wp 0 aln 0)
    let cword :=
      if rest.length = 0 then addFlash info order m wp i (info.portwidth - i) cword else cword
    let i := if rest.length = 0 then info.portwidth else i
    let (rc, m) := flash_write_cfiword order m wp cword
    if rc ≠ 0 then some (rc, m)
    else writeBody info order buffered (rest.length + 1) m (wp + i) rest
  else writeBody info order buffered (src.length + 1) m wp src

end WriteBuff

end UBoot.CfiFlash
