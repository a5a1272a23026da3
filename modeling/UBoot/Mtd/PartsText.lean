/-
# The text of MTD partitions

How `common/cmd_mtdparts.c` reads the list of devices and partitions from the variable
`mtdparts`, and how it writes it. Sizes are written with a suffix where one fits, an offset
only where there is a gap, and a name only where one was given.
-/

import UBoot.Mtd.Parts
import UBoot.LibGeneric.Strtoul

namespace UBoot.Mtd

/-! ## Numbers -/

/-- The character of a digit. -/
def digitChar (d : Nat) : Byte := BitVec.ofNat 8 (if d < 10 then 0x30 + d else 0x57 + d)

/-- `%u`, with so many digits at most. -/
def decimal : Nat → Nat → List Byte
  | 0, _ => []
  | digits + 1, n => if n < 10 then [digitChar n] else decimal digits (n / 10) ++ [digitChar (n % 10)]

/-- `0x%08lx` -/
def hex8 (x : U32) : List Byte :=
  ascii "0x" ++ (List.range 8).map fun i => digitChar (x.toNat / 16 ^ (7 - i) % 16)

/-- `memsize_parse` -/
def memsize_parse (p : List Byte) : U32 × List Byte :=
  let (ret, p) := simple_strtoul p 0
  match p with
  | c :: rest =>
      if c = 0x47#8 ∨ c = 0x67#8 then (ret <<< 30, rest)
      else if c = 0x4d#8 ∨ c = 0x6d#8 then (ret <<< 20, rest)
      else if c = 0x4b#8 ∨ c = 0x6b#8 then (ret <<< 10, rest)
      else (ret, p)
  | [] => (ret, p)

/-- `memsize_format` -/
def memsize_format (size : U32) : List Byte :=
  let size := size.toNat
  if size % 2 ^ 30 = 0 then decimal 10 (size / 2 ^ 30) ++ [0x67#8]
  else if size % 2 ^ 20 = 0 then decimal 10 (size / 2 ^ 20) ++ [0x6d#8]
  else if size % 2 ^ 10 = 0 then decimal 10 (size / 2 ^ 10) ++ [0x6b#8]
  else decimal 10 size

/-! ## Partitions and devices -/

deriving instance DecidableEq for EraseRegion, MtdInfo, MtdIds

/-- `struct part_info`, with what its text says. -/
structure NamedPart where
  size : U32
  offset : U32
  name : List Byte
  auto_name : Bool
  ro : Bool
  deriving DecidableEq

/-- `struct mtdids` -/
structure NamedIds where
  type : Byte
  num : Byte
  mtd_id : List Byte
  ids : MtdIds
  deriving DecidableEq

/-- `struct mtd_device` -/
structure NamedDevice where
  id : NamedIds
  parts : List NamedPart
  deriving DecidableEq

/-- `OFFSET_NOT_SPECIFIED` -/
def OFFSET_NOT_SPECIFIED : U32 := 0xffffffff#32

/-- `MIN_PART_SIZE` -/
def MIN_PART_SIZE : U32 := 4096#32

/-- A name in the form of size@offset. -/
def autoName (size offset : U32) : List Byte := hex8 size ++ ascii "@" ++ hex8 offset

/-- `part_validate` of a partition with a name. -/
def NamedPart.validate (id : NamedIds) (part : NamedPart) : Int × NamedPart :=
  let (rc, info) := part_validate id.ids ⟨0, part.size, part.offset⟩
  (rc, { part with size := info.size })

/-! ## Reading -/

/-- The size of a partition. -/
def sizeParse : List Byte → Option (U32 × List Byte)
  | [] => none
  | c :: p =>
      if c = 0x2d#8 then some (SIZE_REMAINING, p)
      else
        let (size, p) := memsize_parse (c :: p)
        if size < MIN_PART_SIZE then none else some (size, p)

/-- The offset of a partition, if there is one. -/
def offsetParse : List Byte → U32 × List Byte
  | [] => (OFFSET_NOT_SPECIFIED, [])
  | c :: p => if c = 0x40#8 then memsize_parse p else (OFFSET_NOT_SPECIFIED, c :: p)

/-- The name of a partition, if there is one. -/
def nameParse : List Byte → Option (Option (List Byte) × List Byte)
  | [] => some (none, [])
  | c :: p =>
      if c = 0x28#8 then
        let name := p.takeWhile (· ≠ 0x29#8)
        if name.length = p.length then none
        else if name = [] then none
        else some (some name, p.drop (name.length + 1))
      else some (none, c :: p)

/-- The option `ro`. -/
def roParse : List Byte → Bool × List Byte
  | c :: c' :: p => if c = 0x72#8 ∧ c' = 0x6f#8 then (true, p) else (false, c :: c' :: p)
  | p => (false, p)

/-- What follows a partition: the text behind a comma, or the end. -/
def nextParse (size : U32) : List Byte → Option (List Byte)
  | [] => some []
  | c :: p =>
      if c = 0x2c#8 then if size = SIZE_REMAINING then none else some p
      else if c = 0x3b#8 then some (c :: p)
      else none

/-- `part_parse` -/
def part_parse (partdef : List Byte) : Option (NamedPart × List Byte) := do
  let (size, p) ← sizeParse partdef
  let (offset, p) := offsetParse p
  let (name, p) ← nameParse p
  let (ro, p) := roParse p
  let p ← nextParse size p
  return (⟨size, offset, name.getD (autoName size offset), name.isNone, ro⟩, p)

/-- The loop of `device_parse` over the partitions: each is validated. `some` begins with one
partition at least. -/
def partsParse (id : NamedIds) : Nat → U32 → List Byte → Option (List NamedPart × List Byte)
  | 0, _, _ => none
  | fuel + 1, offset, p =>
      if p = [] ∨ p.head? = some 0x3b#8 then some ([], p)
      else do
        let (part, p) ← part_parse p
        let part := if part.offset = OFFSET_NOT_SPECIFIED then { part with offset := offset } else part
        let (rc, part) := part.validate id
        if rc ≠ 0 then none
        else do
          let (parts, p) ← partsParse id fuel (part.offset + part.size) p
          return (part :: parts, p)

/-- The loop of `part_sort_add`. -/
def sortAdd (part : NamedPart) : List NamedPart → Option (List NamedPart)
  | [] => some [part]
  | pi :: parts =>
      if part.offset = pi.offset ∧ pi.offset = 0#32 then none
      else if part.offset ≤ pi.offset then some (part :: pi :: parts)
      else (sortAdd part parts).map (pi :: ·)

/-- `device_find` -/
def device_find (devices : List NamedDevice) (type num : Byte) : Option NamedDevice :=
  devices.find? fun dev => dev.id.type = type ∧ dev.id.num = num

/-- Where the partitions of a device begin that have no offset. -/
def NamedDevice.next (dev : NamedDevice) : U32 :=
  (dev.parts.getLast?.map fun part => part.offset + part.size).getD 0#32

/-- `device_parse` -/
def device_parse (mtdids : List NamedIds) (devices : List NamedDevice) (mtd_dev : List Byte) :
    Option (NamedDevice × List Byte) := do
  let mtd_id := mtd_dev.takeWhile (· ≠ 0x3a#8)
  if mtd_id.length = mtd_dev.length then none
  else do
    let id ← mtdids.find? (·.mtd_id = mtd_id)
    let offset := ((device_find devices id.type id.num).map NamedDevice.next).getD 0#32
    let p := mtd_dev.drop (mtd_id.length + 1)
    let (parts, p) ← partsParse id (p.length + 1) offset p
    if parts = [] then none
    else do
      let parts ← parts.foldlM (fun list part => sortAdd part list) []
      return (⟨id, parts⟩, p.drop 1)

/-- The loop of `parse_mtdparts`. -/
def devicesParse (mtdids : List NamedIds) :
    Nat → List NamedDevice → List Byte → Option (List NamedDevice)
  | 0, _, _ => none
  | fuel + 1, devices, p =>
      if p = [] then some devices
      else do
        let (dev, p) ← device_parse mtdids devices p
        if (device_find devices dev.id.type dev.id.num).isSome then none
        else devicesParse mtdids fuel (devices ++ [dev]) p

/-- `parse_mtdparts` -/
def parse_mtdparts (mtdids : List NamedIds) (mtdparts : List Byte) : Option (List NamedDevice) :=
  if mtdparts.take 9 ≠ ascii "mtdparts=" then none
  else
    let p := mtdparts.drop 9
    if p = [] then none else devicesParse mtdids (p.length + 1) [] p

/-! ## Writing -/

/-- An offset is written only when there is a gap. -/
def gap (prev_part : Option NamedPart) (part : NamedPart) : Bool :=
  match prev_part with
  | none => part.offset ≠ 0#32
  | some prev => prev.offset + prev.size ≠ part.offset

/-- The text of a partition. -/
def NamedPart.text (prev_part : Option NamedPart) (part : NamedPart) : List Byte :=
  memsize_format part.size ++
    (if gap prev_part part then 0x40#8 :: memsize_format part.offset else []) ++
    (if part.auto_name then [] else 0x28#8 :: (part.name ++ [0x29#8])) ++
    (if part.ro then ascii "ro" else [])

/-- The text of the partitions of a device. -/
def partsText (prev_part : Option NamedPart) : List NamedPart → List Byte
  | [] => []
  | [part] => part.text prev_part
  | part :: parts => part.text prev_part ++ 0x2c#8 :: partsText (some part) parts

/-- The text of a device. -/
def NamedDevice.text (dev : NamedDevice) : List Byte :=
  dev.id.mtd_id ++ 0x3a#8 :: partsText none dev.parts

/-- The text of the devices. -/
def devicesText : List NamedDevice → List Byte
  | [] => []
  | [dev] => dev.text
  | dev :: devices => dev.text ++ 0x3b#8 :: devicesText devices

/-- `generate_mtdparts`: each piece is checked against what is left of the buffer, in which
`mtdparts=` is not counted. -/
def generate_mtdparts (devices : List NamedDevice) (buflen : U32) : Option (List Byte) :=
  if devices.isEmpty then some []
  else if (devicesText devices).length ≤ (buflen - 1#32).toNat then
    some (ascii "mtdparts=" ++ devicesText devices)
  else none

/-! ## The commands -/

/-- What changes the list of devices. -/
inductive TextEvent
  /-- The variable `mtdparts` is read. -/
  | parse (mtdparts : List Byte)
  /-- A partition is added, as the text behind the name of a device says. -/
  | add (id : NamedIds) (text : List Byte)
  /-- A partition is deleted. -/
  | del (type num : Byte) (index : Nat)

/-- `mtdparts add` -/
def mtdpartsAdd (mtdids : List NamedIds) (devices : List NamedDevice) (id : NamedIds)
    (text : List Byte) : List NamedDevice :=
  match device_parse mtdids devices (id.mtd_id ++ 0x3a#8 :: text) with
  | none => devices
  | some (dev, _) =>
      match device_find devices dev.id.type dev.id.num, dev.parts with
      | some _, part :: _ =>
          devices.map fun dev_tmp =>
            if dev_tmp.id.type = dev.id.type ∧ dev_tmp.id.num = dev.id.num then
              let (rc, part) := part.validate dev_tmp.id
              if rc ≠ 0 then dev_tmp
              else { dev_tmp with parts := (sortAdd part dev_tmp.parts).getD dev_tmp.parts }
            else dev_tmp
      | _, _ => devices ++ [dev]

/-- `mtdparts del` -/
def mtdpartsDel (devices : List NamedDevice) (type num : Byte) (index : Nat) : List NamedDevice :=
  devices.filterMap fun dev =>
    if dev.id.type = type ∧ dev.id.num = num ∧ index < dev.parts.length then
      if dev.parts.length = 1 then none else some { dev with parts := dev.parts.eraseIdx index }
    else some dev

/-- One step. When `mtdparts` cannot be read, no device is left. -/
def textStep (mtdids : List NamedIds) (devices : List NamedDevice) : TextEvent → List NamedDevice
  | .parse mtdparts => (parse_mtdparts mtdids mtdparts).getD []
  | .add id text => mtdpartsAdd mtdids devices id text
  | .del type num index => mtdpartsDel devices type num index

end UBoot.Mtd
