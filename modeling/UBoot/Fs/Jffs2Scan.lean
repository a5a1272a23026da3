/-
# The scan of a JFFS2 partition

`jffs2_1pass_build_lists` of `fs/jffs2/jffs2_1pass.c` without summaries. The scan is a machine: its
state is what the variables hold at one of three places of the loops, and a step leads to the next
such place. Offsets count from the start of the partition. A `size_t` has more than 32 bits; sums of
two `u32` wrap.
-/

import UBoot.Lib.Memory
import UBoot.LibGeneric.Crc32

namespace UBoot.Jffs2Scan

open UBoot.Lib

/-! ## Nodes -/

def JFFS2_MAGIC_BITMASK : Nat := 0x1985
def JFFS2_NODETYPE_DIRENT : Nat := 0xe001
def JFFS2_NODETYPE_INODE : Nat := 0xe002

/-- A word of erased flash. -/
def erased : Nat := 0xffffffff

/-- The sum and the difference of two `u32`. -/
def add (a b : Nat) : Nat := (a + b) % 2 ^ 32
def sub (a b : Nat) : Nat := (a + 2 ^ 32 - b) % 2 ^ 32

/-- The number in bytes, the first of which counts most. -/
def value (bytes : List Byte) : Nat := bytes.foldl (fun v b => v * 256 + b.toNat) 0

section Fields

variable (big : Bool) (m : Nat → Byte) (k : Nat)

/-- The number in the `n` bytes from `k` on, as a host with this byte order has it. -/
def field (k n : Nat) : Nat := value (if big then slice m k n else (slice m k n).reverse)

def magic : Nat := field big m k 2
def nodetype : Nat := field big m (k + 2) 2
def totlen : Nat := field big m (k + 4) 4

/-- `nsize` of a `jffs2_raw_dirent` -/
def nsize : Nat := (m (k + 28)).toNat

def crc (k n : Nat) : Nat := (Crc32.crc32NoComp 0 0 (slice m k n)).toNat

/-- `hdr_crc`, `inode_crc`, `dirent_crc` and `dirent_name_crc` -/
def hdr_crc : Prop := field big m (k + 8) 4 = crc m k 8
def inode_crc : Prop := field big m (k + 64) 4 = crc m k 60
def dirent_crc : Prop := field big m (k + 32) 4 = crc m k 32
def dirent_name_crc : Prop := field big m (k + 36) 4 = crc m (k + 40) (nsize m k)

instance : Decidable (hdr_crc big m k) := inferInstanceAs (Decidable (_ = _))
instance : Decidable (inode_crc big m k) := inferInstanceAs (Decidable (_ = _))
instance : Decidable (dirent_crc big m k) := inferInstanceAs (Decidable (_ = _))
instance : Decidable (dirent_name_crc big m k) := inferInstanceAs (Decidable (_ = _))

end Fields

/-! ## The partition -/

/-- What the scan uses of `struct part_info`: whole sectors. -/
structure Part where
  offset : Nat
  size : Nat
  sector_size : Nat
  sectors : sector_size ∣ size
  aligned : 4 ∣ sector_size
  positive : 0 < sector_size
  size_lt : size < 2 ^ 32
  end_le : offset + size ≤ 2 ^ 32

/-- The flash device behind `get_fl_mem`. What a read does that goes beyond its end is left open. -/
structure Device where
  flash : Nat → Byte
  size : Nat
  get_fl_mem : (off size : Nat) → (ext_buf : Nat → Byte) → Nat → Byte
  inside : ∀ off len buf k, off + len ≤ size →
    get_fl_mem off len buf k = if k < len then flash (off + k) else buf k

/-- A host and a partition on a device. The list nodes come from `malloc`: `alloc` says for each of
them whether there is memory. -/
structure Setup where
  big : Bool
  part : Part
  dev : Device
  alloc : Nat → Bool
  inside : part.offset + part.size ≤ dev.size

/-- `DEFAULT_EMPTY_SCAN_SIZE`, which is also `buf_size` -/
def bufSize : Nat := 4096

/-- The places of the scan: where a sector begins, `scan_more`, the words from `more_empty` on, and
the end with its result. -/
inductive Control
  | sector
  | scan
  | empty (scan_end : Nat)
  | done (ok : Bool)
  deriving DecidableEq

/-- The variables, the offsets in the two lists in the order of their insertion, and every read that
was requested from the device. `buf` is the memory from the buffer on. -/
structure State where
  control : Control
  i : Nat
  ofs : Nat
  prevofs : Nat
  buf_ofs : Nat
  buf_len : Nat
  buf : Nat → Byte
  frag : List Nat
  dir : List Nat
  max_totlen : Nat
  requests : List (Nat × Nat)

section Scan

variable (e : Setup)

/-- `nr_sectors` -/
def Setup.nr_sectors : Nat := e.part.size / e.part.sector_size

/-- `EMPTY_SCAN_SIZE(part->sector_size)` -/
def Setup.emptyScanSize : Nat :=
  if e.part.sector_size < bufSize then e.part.sector_size else bufSize

/-- `sector_ofs` -/
def Setup.sectorOfs (i : Nat) : Nat := i * e.part.sector_size

/-- `sector_ofs + part->sector_size` -/
def Setup.sectorEnd (i : Nat) : Nat := e.sectorOfs i + e.part.sector_size

/-- A read to the buffer, which then begins at `ofs`. -/
def State.fetch (s : State) (ofs len : Nat) : State :=
  { s with
    buf := e.dev.get_fl_mem (add e.part.offset ofs) len s.buf
    buf_ofs := ofs
    buf_len := len
    requests := s.requests ++ [(add e.part.offset ofs, len)] }

/-- `continue` of the loop over the sectors -/
def nextSector (s : State) : State :=
  { s with
    i := s.i + 1
    control := if s.i + 1 < e.nr_sectors then .sector else .done true }

/-- The loop over erased words at the start of a sector. -/
def erasedBytes (m : Nat → Byte) : (words ofs : Nat) → Nat
  | 0, ofs => ofs
  | words + 1, ofs =>
      if field e.big m ofs 4 = erased then erasedBytes m words (ofs + 4) else ofs

/-- The start of a sector. -/
def sectorStep (s : State) : State :=
  let s := s.fetch e (e.sectorOfs s.i) e.emptyScanSize
  let ofs := erasedBytes e s.buf (e.emptyScanSize / 4) 0
  if ofs = e.emptyScanSize then nextSector e s
  else
    { s with
      ofs := add ofs (e.sectorOfs s.i)
      prevofs := sub (add ofs (e.sectorOfs s.i)) 1
      control := .scan }

/-- `ofs - buf_ofs` -/
def State.inbuf_ofs (s : State) : Nat := sub s.ofs s.buf_ofs

/-- `min_t(uint32_t, buf_size, sector_ofs + part->sector_size - ofs)` -/
def State.ahead (s : State) : Nat := min bufSize (sub (e.sectorEnd s.i) s.ofs)

/-- An erased word, or the end of the buffer, from `more_empty` on. -/
def emptyStep (scan_end : Nat) (s : State) : State :=
  if s.inbuf_ofs < scan_end then
    if field e.big s.buf s.inbuf_ofs 4 ≠ erased then { s with control := .scan }
    else { s with ofs := add s.ofs 4 }
  else if s.ahead e = 0 then nextSector e s
  else { s.fetch e s.ofs (s.ahead e) with control := .empty (s.ahead e) }

/-- The header of a node is in the buffer, or is read to it. -/
def header (s : State) : State :=
  if add s.buf_ofs s.buf_len < s.ofs + 12 then s.fetch e s.ofs (s.ahead e) else s

/-- The rest of a node is in the buffer, or is read to it: with the length that the buffer has. -/
def body (need : Nat) (s : State) : State :=
  if add s.buf_ofs s.buf_len < s.ofs + need then s.fetch e s.ofs s.buf_len else s

/-- The checks of a header. -/
def Accepted (s : State) : Prop :=
  magic e.big s.buf s.inbuf_ofs = JFFS2_MAGIC_BITMASK ∧ hdr_crc e.big s.buf s.inbuf_ofs ∧
    add s.ofs (totlen e.big s.buf s.inbuf_ofs) ≤ e.sectorEnd s.i

instance (s : State) : Decidable (Accepted e s) := inferInstanceAs (Decidable (_ ∧ _ ∧ _))

/-- `(totlen + 3) & ~3` -/
def roundUp (totlen : Nat) : Nat := add totlen 3 / 4 * 4

/-- `ofs += ((node->totlen + 3) & ~3)` -/
def passOver (s : State) : State :=
  { s with ofs := add s.ofs (roundUp (totlen e.big s.buf s.inbuf_ofs)) }

/-- `malloc` for one more list node. -/
def room (s : State) : Bool := e.alloc (s.frag.length + s.dir.length)

def inodeStep (s : State) : State :=
  let s := body e 68 s
  if ¬inode_crc e.big s.buf s.inbuf_ofs then passOver e s
  else if ¬room e s then { s with control := .done false }
  else
    passOver e { s with
      frag := s.frag ++ [add e.part.offset s.ofs]
      max_totlen := max s.max_totlen (totlen e.big s.buf s.inbuf_ofs) }

def direntStep (s : State) : State :=
  let s := body e (40 + nsize s.buf s.inbuf_ofs) s
  if ¬dirent_crc e.big s.buf s.inbuf_ofs ∨ ¬dirent_name_crc e.big s.buf s.inbuf_ofs then
    passOver e s
  else if ¬room e s then { s with control := .done false }
  else
    passOver e { s with
      dir := s.dir ++ [add e.part.offset s.ofs]
      max_totlen := max s.max_totlen (totlen e.big s.buf s.inbuf_ofs) }

/-- A place whose header is in the buffer. -/
def nodeStep (s : State) : State :=
  if field e.big s.buf s.inbuf_ofs 4 = erased then
    { s with
      ofs := add s.ofs 4
      control := .empty (min (e.emptyScanSize / 8) s.buf_len) }
  else if ¬Accepted e s then { s with ofs := add s.ofs 4 }
  else if nodetype e.big s.buf s.inbuf_ofs = JFFS2_NODETYPE_INODE then inodeStep e s
  else if nodetype e.big s.buf s.inbuf_ofs = JFFS2_NODETYPE_DIRENT then direntStep e s
  else passOver e s

/-- The loop from `scan_more` on. -/
def scanStep (s : State) : State :=
  if ¬s.ofs < e.sectorEnd s.i then nextSector e s
  else if s.ofs = s.prevofs then { s with ofs := add s.ofs 4 }
  else if e.sectorEnd s.i < s.ofs + 12 then nextSector e { s with prevofs := s.ofs }
  else nodeStep e (header e { s with prevofs := s.ofs })

def step (s : State) : State :=
  match s.control with
  | .sector => sectorStep e s
  | .scan => scanStep e s
  | .empty scan_end => emptyStep e scan_end s
  | .done _ => s

/-- The start, with whatever is in the memory from the buffer on. -/
def start (buf : Nat → Byte) : State :=
  ⟨if 0 < e.nr_sectors then .sector else .done true, 0, 0, 0, 0, 0, buf, [], [], 0, []⟩

end Scan

end UBoot.Jffs2Scan
