/-
# The `nand` command

`arg_off_size` and what `do_nand` of `common/cmd_nand.c` does for `nand read`, `write`, `erase` and
`scrub`, with the partitions of `common/cmd_mtdparts.c`, the loops of `nand_util.c` and the checks of
`nand_base.c`, on a 32 bit machine. The device of a partition is copied over the current one, so
that the operation acts on it; what was in the table for the current device is lost.
-/

import UBoot.LibGeneric.Strtoul
import UBoot.Mtd.NandUtil

namespace UBoot.CmdNand

/-- `ulong`, `size_t` and `u32` -/
abbrev U32 := BitVec 32

/-! ## Devices and partitions -/

/-- `nand_info_t`. Sizes are powers of two, blocks are made of pages and the device is made of
blocks. `priv` is the chip, by its number. -/
structure MtdInfo where
  eraseshift : Nat
  writeshift : Nat
  blocks : Nat
  oobsize : Nat
  oobavail : Nat
  priv : Nat
  writeshift_le : writeshift ≤ eraseshift
  eraseshift_lt : eraseshift < 32

namespace MtdInfo

variable (nand : MtdInfo)

def erasesize : Nat := 2 ^ nand.eraseshift
def writesize : Nat := 2 ^ nand.writeshift
def size : Nat := nand.blocks * nand.erasesize

end MtdInfo

/-- `MTD_DEV_TYPE_NAND` and the others. -/
inductive DevType
  | nor
  | nand
  | onenand
deriving DecidableEq

/-- `struct part_info` -/
structure PartInfo where
  name : List Byte
  size : U32
  offset : U32

/-- `struct mtd_device` with its id. -/
structure MtdDevice where
  type : DevType
  num : Nat
  parts : List PartInfo

def comma : Byte := 0x2C#8

/-- `isdigit` -/
def isdigit (c : Byte) : Prop := 0x30#8 ≤ c ∧ c ≤ 0x39#8

instance (c : Byte) : Decidable (isdigit c) := inferInstanceAs (Decidable (_ ∧ _))

/-- The type in front of an id, and what is behind it. -/
def typeOf (id : List Byte) : Option (DevType × List Byte) :=
  if ascii "nand" <+: id then some (.nand, id.drop 4)
  else if ascii "nor" <+: id then some (.nor, id.drop 3)
  else if ascii "onenand" <+: id then some (.onenand, id.drop 7)
  else none

/-- `mtd_id_parse` -/
def mtd_id_parse (id : List Byte) : Option (DevType × Nat × List Byte) :=
  (typeOf id).bind fun (type, p) =>
    if ∃ c ∈ p.head?, isdigit c then
      let (dev_num, ret_id) := simple_strtoul p 0
      some (type, dev_num.toNat % 256, ret_id)
    else none

/-- The end of `find_dev_and_part`, for an id. -/
def findById (devices : List MtdDevice) (id : List Byte) : Option (MtdDevice × PartInfo) :=
  (mtd_id_parse id).bind fun (type, dnum, p) =>
    if p.head? = some comma ∧ p.tail ≠ [] then
      let (pnum, rest) := simple_strtoul p.tail 0
      if rest = [] then
        (devices.find? fun dev => dev.type = type ∧ dev.num = dnum).bind fun dev =>
          dev.parts[pnum.toNat % 256]?.map fun part => (dev, part)
      else none
    else none

/-- `find_dev_and_part` -/
def find_dev_and_part (devices : List MtdDevice) (id : List Byte) :
    Option (MtdDevice × PartInfo) :=
  let byName := devices.findSome? fun dev =>
    (dev.parts.find? fun part => part.name = id).map fun part => (dev, part)
  byName.or (findById devices id)

/-- What is behind `priv`: which blocks are bad, and what the chip answers to what is inside of it. A
chip that is write protected is not written to and not erased. -/
structure Chip where
  bad : Nat → Bool
  write_protected : Bool
  erase : Nat → Int
  read : Nat → Nat → Int
  write : Nat → Nat → Int
  oob : Nat → Nat → Int

/-- The devices with their chips, one of them the current one, and the partitions if
`mtdparts_init` succeeds. They are made of whole blocks, and inside of their devices. -/
structure System where
  chips : Nat → Chip
  nand_info : Nat → MtdInfo
  nand_curr_device : Nat
  devices : Option (List MtdDevice)
  own : ∀ n, (nand_info n).priv = n
  parts_inside : ∀ devs ∈ devices, ∀ dev ∈ devs, dev.type = .nand → ∀ part ∈ dev.parts,
    (nand_info dev.num).erasesize ∣ part.offset.toNat ∧
      (nand_info dev.num).erasesize ∣ part.size.toNat ∧
      part.offset.toNat + part.size.toNat ≤ (nand_info dev.num).size

/-! ## Arguments -/

/-- `str2long` -/
def str2long (p : List Byte) : Option U32 :=
  let (num, endptr) := simple_strtoul p 16
  if p ≠ [] ∧ endptr = [] then some num else none

/-- Up to the next page: `(*size + nand->writesize - 1) & ~(nand->writesize - 1)` -/
def MtdInfo.roundUp (nand : MtdInfo) (size : U32) : U32 :=
  (size + BitVec.ofNat 32 nand.writesize - 1) &&& ~~~(BitVec.ofNat 32 nand.writesize - 1)

/-- What is to be done something with. -/
structure Range where
  off : U32
  size : U32

namespace System

variable (sys : System)

/-- The partition of an argument that is no number. -/
def partition (arg : List Byte) : Option (MtdDevice × PartInfo) :=
  if str2long arg = none then sys.devices.bind fun devices => find_dev_and_part devices arg
  else none

/-- The current device in the table. -/
def current : MtdInfo := sys.nand_info sys.nand_curr_device

/-- `arg_off_size`: the table, and the range unless it fails. -/
def arg_off_size (argv : List (List Byte)) : (Nat → MtdInfo) × Option Range :=
  match argv with
  | [] =>
      let size := BitVec.ofNat 32 sys.current.size
      (sys.nand_info, some ⟨0, sys.current.roundUp size⟩)
  | arg :: rest =>
      match sys.partition arg with
      | some (dev, part) =>
          if dev.type ≠ .nand then (sys.nand_info, none)
          else
            let size := match rest.head? with
              | some arg =>
                  (str2long arg).map fun size => if size > part.size then part.size else size
              | none => some part.size
            match size with
            | some size =>
                let nand := sys.nand_info dev.num
                (Function.update sys.nand_info sys.nand_curr_device nand,
                  some ⟨part.offset, nand.roundUp size⟩)
            | none => (sys.nand_info, none)
      | none =>
          match str2long arg with
          | some off =>
              let size := match rest.head? with
                | some arg => str2long arg
                | none => some (BitVec.ofNat 32 sys.current.size - off)
              (sys.nand_info, size.map fun size => ⟨off, sys.current.roundUp size⟩)
          | none => (sys.nand_info, none)

end System

/-- What a command does with its range. -/
inductive Op
  | erase (scrub clean : Bool)
  | transfer (read : Bool)
  | oob (read : Bool)
  | unknown

/-- The suffix of `read` and `write`. -/
def suffixOp (read : Bool) (cmd : List Byte) : Op :=
  let s := cmd.dropWhile (· ≠ 0x2E#8)
  if s = [] ∨ s = ascii ".jffs2" ∨ s = ascii ".e" ∨ s = ascii ".i" then .transfer read
  else if s = ascii ".oob" then .oob read
  else .unknown

/-- How `do_nand` reads a command, with the arguments of `arg_off_size`. -/
def parse (argv : List (List Byte)) : Option (Op × List (List Byte)) :=
  match argv with
  | _ :: cmd :: args =>
      if cmd = ascii "erase" ∨ cmd = ascii "scrub" then
        let clean := args.head? = some (ascii "clean")
        some (.erase (cmd = ascii "scrub") clean, if clean then args.tail else args)
      else if ascii "read" <+: cmd ∨ ascii "write" <+: cmd then
        if args.length < 2 then none
        else some (suffixOp (ascii "read" <+: cmd) cmd, args.tail)
      else none
  | _ => none

/-! ## Operations -/

/-- Bytes of a chip that something was done with. -/
structure Touch where
  start : Nat
  len : Nat

/-- A return value, and what was touched. -/
structure Result where
  ret : Int
  touched : List Touch

def EINVAL : Int := -22
def EIO : Int := -5
def EROFS : Int := -30
def EUCLEAN : Int := -117

section Operations

variable (nand : MtdInfo) (chip : Chip)

/-- `nand_block_isbad`: in the end, whether it is not 0. -/
def isbad (offs : Nat) : Bool := decide (nand.size < offs) || chip.bad offs

/-- `nand_erase_nand` for one block. -/
def nand_erase (addr : Nat) : Result :=
  if addr % nand.erasesize ≠ 0 then ⟨EINVAL, []⟩
  else if nand.size < nand.erasesize + addr then ⟨EINVAL, []⟩
  else if chip.write_protected then ⟨ EIO, []⟩
  else ⟨chip.erase addr, [⟨addr, nand.erasesize⟩]⟩

/-- `erase_length` -/
def eraseLength (length : Nat) : Nat := if length < nand.erasesize then nand.erasesize else length

/-- A block that is erased, with its clean marker. -/
def eraseBlock (clean : Bool) (addr : Nat) : List Touch :=
  let result := nand_erase nand chip addr
  if result.ret = 0 ∧ clean = true ∧ 8 ≤ nand.oobavail then
    result.touched ++ [⟨addr, nand.writesize⟩]
  else result.touched

/-- The loop of `nand_erase_opts`, over the blocks from `addr` up to `stop`. -/
def eraseLoop (scrub clean : Bool) (stop addr : Nat) : Result :=
  if addr < stop then
    if scrub = false ∧ nand.size < addr then ⟨-1, []⟩
    else
      let touched :=
        if scrub = false ∧ chip.bad addr = true then [] else eraseBlock nand chip clean addr
      let rest := eraseLoop scrub clean stop (addr + nand.erasesize)
      ⟨rest.ret, touched ++ rest.touched⟩
  else ⟨0, []⟩
termination_by stop - addr
decreasing_by
  have : 0 < nand.erasesize := Nat.two_pow_pos _
  omega

/-- `nand_erase_opts`. The end of the range has 32 bits. -/
def nand_erase_opts (scrub clean : Bool) (offset length : Nat) : Result :=
  eraseLoop nand chip scrub clean ((offset + eraseLength nand length) % 2 ^ 32) offset

/-- `nand_read` and `nand_write` of `nand_base.c`. -/
def nand_transfer (read : Bool) (addr len : Nat) : Result :=
  if nand.size < addr + len then ⟨EINVAL, []⟩
  else if len = 0 then ⟨0, []⟩
  else if read then ⟨chip.read addr len, [⟨addr, len⟩]⟩
  else if chip.write_protected then ⟨ EIO, []⟩
  else ⟨chip.write addr len, [⟨addr, len⟩]⟩

/-- The device as `nand_util.c` sees it. -/
def MtdInfo.util : NandInfo := ⟨nand.eraseshift, nand.writeshift, nand.blocks, isbad nand chip⟩

/-- `rval && rval != -EUCLEAN` when reading, `rval != 0` when writing. -/
def failed (read : Bool) (rval : Int) : Prop := rval ≠ 0 ∧ ¬(read = true ∧ rval = EUCLEAN)

instance (read : Bool) (rval : Int) : Decidable (failed read rval) :=
  inferInstanceAs (Decidable (_ ∧ _))

/-- The loop of `nand_read_skip_bad` and `nand_write_skip_bad`, unless it takes more rounds. -/
def skipBad (read : Bool) : Nat → Nat → Nat → Option Result
  | _, _, 0 => some ⟨0, []⟩
  | 0, _, _ + 1 => none
  | fuel + 1, offset, left + 1 =>
      if (nand.util chip).checkBad offset then
        skipBad read fuel (offset + (nand.util chip).blockLen offset) (left + 1)
      else
        let size := min (left + 1) ((nand.util chip).blockLen offset)
        let result := nand_transfer nand chip read offset size
        if failed read result.ret then some result
        else (skipBad read fuel (offset + size) (left + 1 - size)).map fun rest =>
          ⟨rest.ret, result.touched ++ rest.touched⟩

/-- `nand_read_skip_bad` and `nand_write_skip_bad`, which rejects what is not made of pages. -/
def skip_bad (read : Bool) (fuel offset length : Nat) : Option Result :=
  let len_incl_bad := (nand.util chip).get_len_incl_bad offset length
  if read = false ∧ (offset % nand.writesize ≠ 0 ∨ length % nand.writesize ≠ 0) then
    some ⟨EINVAL, []⟩
  else if nand.size < offset + len_incl_bad then some ⟨EINVAL, []⟩
  else if len_incl_bad = length then
    let result := nand_transfer nand chip read offset length
    some ⟨if failed read result.ret then result.ret else 0, result.touched⟩
  else skipBad nand chip read fuel offset length

/-- The pages from that of `addr` on have so much out-of-band data. -/
def OobInside (addr ooblen : Nat) : Prop :=
  addr < nand.size ∧
    ooblen ≤ (nand.size / nand.writesize - addr / nand.writesize) * nand.oobsize

instance (addr ooblen : Nat) : Decidable (OobInside nand addr ooblen) :=
  inferInstanceAs (Decidable (_ ∧ _))

/-- `nand_read_oob` and `nand_write_oob` in raw mode. What is written is of one page. -/
def nand_oob (read : Bool) (addr ooblen : Nat) : Result :=
  let page := addr / nand.writesize * nand.writesize
  if read = false ∧ nand.oobsize < ooblen then ⟨EINVAL, []⟩
  else if nand.oobsize = 0 ∨ ¬OobInside nand addr ooblen then ⟨EINVAL, []⟩
  else if read then
    ⟨chip.oob addr ooblen, [⟨page, max 1 ((ooblen + nand.oobsize - 1) / nand.oobsize) *
      nand.writesize⟩]⟩
  else if chip.write_protected then ⟨EROFS, []⟩
  else ⟨chip.oob addr ooblen, [⟨page, nand.writesize⟩]⟩

/-- What `do_nand` does with a range, and returns. With `scrub` it asks first. -/
def perform (fuel : Nat) (confirmed : Bool) (op : Op) (range : Range) : Option Result :=
  let off := range.off.toNat
  let size := range.size.toNat
  let outcome (result : Result) : Result := ⟨if result.ret = 0 then 0 else 1, result.touched⟩
  match op with
  | .erase scrub clean =>
      if scrub = true ∧ confirmed = false then some ⟨-1, []⟩
      else some (outcome (nand_erase_opts nand chip scrub clean off size))
  | .transfer read => (skip_bad nand chip read fuel off size).map outcome
  | .oob read => some (outcome (nand_oob nand chip read off size))
  | .unknown => some ⟨1, []⟩

end Operations

/-- `do_nand`: the table afterwards, and what is done unless it takes more rounds. -/
def System.do_nand (sys : System) (fuel : Nat) (confirmed : Bool) (argv : List (List Byte)) :
    (Nat → MtdInfo) × Option Result :=
  match parse argv with
  | none => (sys.nand_info, some ⟨1, []⟩)
  | some (op, args) =>
      match sys.arg_off_size args with
      | (nand_info, none) => (nand_info, some ⟨1, []⟩)
      | (nand_info, some range) =>
          let nand := nand_info sys.nand_curr_device
          (nand_info, perform nand (sys.chips nand.priv) fuel confirmed op range)

/-! ## What should hold -/

/-- The range that an operation is for is inside of the device. -/
def Inside (nand : MtdInfo) (op : Op) (range : Range) : Prop :=
  match op with
  | .erase _ _ => range.off.toNat + eraseLength nand range.size.toNat ≤ nand.size
  | .oob _ => OobInside nand range.off.toNat range.size.toNat
  | .transfer _ | .unknown => range.off.toNat + range.size.toNat ≤ nand.size

/-- What a command is for: a range, and the device that is then the current one in the table. -/
structure Acts (sys : System) (argv : List (List Byte)) (op : Op) (args : List (List Byte))
    (nand : MtdInfo) (range : Range) : Prop where
  parsed : parse argv = some (op, args)
  range : (sys.arg_off_size args).2 = some range
  current : (sys.arg_off_size args).1 sys.nand_curr_device = nand

/-- An offset and a size that are given as numbers. A name that can be read as a number is one. -/
def Numbers (args : List (List Byte)) : Prop :=
  2 ≤ args.length ∧ ∀ arg ∈ args.head?, (str2long arg).isSome

/-- The table is as before. For a partition the operation is for its device, from its beginning and
not past its end. For two numbers the range is inside of the device, or the command fails and has
touched nothing. Nothing is touched outside of the device. -/
structure Right (sys : System) (confirmed : Bool) (argv : List (List Byte)) : Prop where
  unchanged : ∀ fuel, (sys.do_nand fuel confirmed argv).1 = sys.nand_info
  partition : ∀ op args nand range, Acts sys argv op args nand range → ∀ arg ∈ args.head?,
    ∀ dev part, sys.partition arg = some (dev, part) →
      nand.priv = dev.num ∧ range.off = part.offset ∧ range.size ≤ part.size
  numbers : ∀ op args nand range, Acts sys argv op args nand range → Numbers args →
    Inside nand op range ∨ ∃ fuel result, (sys.do_nand fuel confirmed argv).2 = some result ∧
      result.ret ≠ 0 ∧ result.touched = []
  device : ∀ op args nand range, Acts sys argv op args nand range → ∀ fuel result,
    (sys.do_nand fuel confirmed argv).2 = some result →
      ∀ touch ∈ result.touched, touch.start + touch.len ≤ nand.size

/-- How a range that is not inside of the device is refused. A block that begins behind the end stops
an erase; it must be reached by blocks that are bad or cannot be erased. A transfer begins behind the
end, or comes to no good block of the device, but to one that looks good behind its end. -/
def Refused (nand : MtdInfo) (chip : Chip) (confirmed : Bool) (op : Op) (range : Range) : Prop :=
  let off := range.off.toNat
  match op with
  | .erase scrub _ =>
      if scrub then confirmed = false
      else
        let stop := off + eraseLength nand range.size.toNat
        stop < 2 ^ 32 ∧
          (∃ k, nand.size < off + k * nand.erasesize ∧ off + k * nand.erasesize < stop) ∧
          (chip.write_protected = true ∨ ¬nand.erasesize ∣ off ∨
            ∀ a, off ≤ a → a < nand.size → nand.erasesize ∣ a → chip.bad a = true)
  | .transfer read =>
      (read = false ∧ ¬nand.writesize ∣ off) ∨ nand.size ≤ off ∨
        (((read = false ∧ chip.write_protected = true) ∨
            ∀ a, off ≤ a → a < nand.size → (nand.util chip).checkBad a = true) ∧
          ∃ a, off ≤ a ∧ (nand.util chip).checkBad a = false)
  | .oob _ | .unknown => True

/-- A partition that is named is on the current device, or what follows it is no number. Two numbers
are a range of the device, or one that is refused. -/
structure Suits (sys : System) (confirmed : Bool) (argv : List (List Byte)) : Prop where
  stays : ∀ op args, parse argv = some (op, args) → ∀ arg ∈ args.head?, ∀ dev part,
    sys.partition arg = some (dev, part) → dev.type = .nand →
      (∀ arg ∈ args.tail.head?, (str2long arg).isSome) → dev.num = sys.nand_curr_device
  refused : ∀ op args nand range, Acts sys argv op args nand range → Numbers args →
    Inside nand op range ∨ Refused nand (sys.chips nand.priv) confirmed op range

end UBoot.CmdNand
