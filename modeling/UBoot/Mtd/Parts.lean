/-
# MTD partitions

The lists of devices and partitions of `common/cmd_mtdparts.c`, and the current partition,
which is kept as a device and an index. Structures in memory have an address, and the lists
are lists of these structures. What is printed, and the environment variables that repeat
the current partition, are left out.
-/

import UBoot.Lib.Run
import UBoot.LibGeneric.Crc32
import Mathlib.Data.BitVec

namespace UBoot.Mtd

/-- `u32` -/
abbrev U32 := BitVec 32

/-- `struct mtd_erase_region_info` -/
structure EraseRegion where
  offset : U32
  erasesize : U32
  numblocks : Nat

/-- `struct mtd_info` -/
structure MtdInfo where
  erasesize : U32
  eraseregions : List EraseRegion

/-- `struct mtdids`, with what `get_mtd_device_nm` finds for the device. -/
structure MtdIds where
  size : U32
  mtd : Option MtdInfo

/-- `struct part_info` at an address. -/
structure PartInfo where
  ptr : Nat
  size : U32
  offset : U32

/-- `struct mtd_device` at an address. -/
structure MtdDevice where
  ptr : Nat
  id : MtdIds
  num_parts : BitVec 16
  parts : List PartInfo

/-- `devices`, `current_mtd_dev` and `current_mtd_partnum` -/
structure MtdParts where
  devices : List MtdDevice
  current_mtd_dev : Option Nat
  current_mtd_partnum : BitVec 8

/-! ## Validation -/

/-- `SIZE_REMAINING` -/
def SIZE_REMAINING : U32 := 0xffffffff#32

/-- The addresses where the blocks of a region begin. -/
def EraseRegion.starts (region : EraseRegion) : List U32 :=
  (List.range region.numblocks).map fun j => region.offset + BitVec.ofNat 32 j * region.erasesize

/-- The address behind the last region. -/
def lastSector (regions : List EraseRegion) : U32 :=
  (regions.getLast?.map fun region =>
    region.offset + BitVec.ofNat 32 region.numblocks * region.erasesize).getD 0#32

/-- `part_validate_eraseblock`, which returns 0 if the partition is valid. -/
def part_validate_eraseblock (id : MtdIds) (part : PartInfo) : Int :=
  match id.mtd with
  | none => 1
  | some mtd =>
      if mtd.eraseregions = [] then
        if part.offset % mtd.erasesize ≠ 0#32 then 1
        else if part.size % mtd.erasesize ≠ 0#32 then 1
        else 0
      else if part.offset ∉ mtd.eraseregions.flatMap EraseRegion.starts then 1
      else if part.offset + part.size ∈ mtd.eraseregions.flatMap EraseRegion.starts then 0
      else if part.offset + part.size = lastSector mtd.eraseregions then 0
      else 1

/-- `part_validate`: the return value and the partition, whose size may be set. -/
def part_validate (id : MtdIds) (part : PartInfo) : Int × PartInfo :=
  let part := if part.size = SIZE_REMAINING then { part with size := id.size - part.offset } else part
  if part.offset > id.size then (1, part)
  else if part.offset + part.size ≤ part.offset then (1, part)
  else if part.offset + part.size > id.size then (1, part)
  else (part_validate_eraseblock id part, part)

/-! ## Lists -/

/-- `mtd_part_info` -/
def mtd_part_info (dev : MtdDevice) (part_num : Nat) : Option PartInfo :=
  if part_num ≥ dev.num_parts.toNat then none else dev.parts[part_num]?

/-- The loop of `part_sort_add`: the list with the new partition, and the partition in front
of which it was put. -/
def insertPart (part : PartInfo) : List PartInfo → Option (List PartInfo × Option PartInfo)
  | [] => some ([part], none)
  | pi :: parts =>
      if part.offset = pi.offset ∧ pi.offset = 0#32 then none
      else if part.offset ≤ pi.offset then some (part :: pi :: parts, some pi)
      else (insertPart part parts).map fun result => (pi :: result.1, result.2)

namespace MtdParts

variable (s : MtdParts)

/-- The device at an address. -/
def device (ptr : Nat) : Option MtdDevice := s.devices.find? (·.ptr = ptr)

/-- A device has changed. -/
def setDevice (dev : MtdDevice) : MtdParts :=
  { s with devices := s.devices.map fun d => if d.ptr = dev.ptr then dev else d }

/-- The current partition, if `dev` is the current device. -/
def curr_pi (dev : MtdDevice) : Option PartInfo :=
  if s.current_mtd_dev = some dev.ptr then mtd_part_info dev s.current_mtd_partnum.toNat else none

/-- `part_sort_add`, unless it fails. -/
def part_sort_add (dev : MtdDevice) (part : PartInfo) : Option (MtdParts × MtdDevice) :=
  (insertPart part dev.parts).map fun (parts, pi) =>
    let dev' := { dev with parts := parts, num_parts := dev.num_parts + 1#16 }
    let partnum :=
      match pi, s.curr_pi dev with
      | some pi, some curr_pi =>
          if pi.offset ≤ curr_pi.offset then s.current_mtd_partnum + 1#8 else s.current_mtd_partnum
      | _, _ => s.current_mtd_partnum
    ({ s with current_mtd_partnum := partnum }, dev')

/-- `part_add`: the return value, and what is left. -/
def part_add (dev : MtdDevice) (part : PartInfo) : Int × MtdParts :=
  let (rc, part) := part_validate dev.id part
  if rc ≠ 0 then (1, s)
  else
    match s.part_sort_add dev part with
    | none => (1, s)
    | some (s', dev') => (0, s'.setDevice dev')

/-- `device_del` -/
def device_del (dev : MtdDevice) : MtdParts :=
  let devices := s.devices.filter (·.ptr ≠ dev.ptr)
  if s.current_mtd_dev = some dev.ptr then
    match devices with
    | [] => { s with devices := devices, current_mtd_dev := none }
    | first :: _ =>
        { devices := devices, current_mtd_dev := some first.ptr, current_mtd_partnum := 0#8 }
  else { s with devices := devices }

/-- `part_del` -/
def part_del (dev : MtdDevice) (part : PartInfo) : MtdParts :=
  if dev.num_parts = 1#16 then s.device_del dev
  else
    let partnum :=
      match s.curr_pi dev with
      | some curr_pi =>
          if curr_pi.ptr = part.ptr then 0#8
          else if part.offset ≤ curr_pi.offset then s.current_mtd_partnum - 1#8
          else s.current_mtd_partnum
      | none => s.current_mtd_partnum
    { s with current_mtd_partnum := partnum }.setDevice
      { dev with parts := dev.parts.filter (·.ptr ≠ part.ptr), num_parts := dev.num_parts - 1#16 }

/-- `device_add` -/
def device_add (dev : MtdDevice) : MtdParts :=
  let s' : MtdParts :=
    if s.devices.isEmpty then { s with current_mtd_dev := some dev.ptr, current_mtd_partnum := 0#8 }
    else s
  { s' with devices := s.devices ++ [dev] }

/-- How `device_parse` fills a new device: the partitions are validated, and then moved to
it one by one. -/
def device_fill (dev : MtdDevice) : List PartInfo → Option MtdDevice
  | [] => some dev
  | part :: parts =>
      if (part_validate dev.id part).1 ≠ 0 then none
      else do
        let (_, dev) ← s.part_sort_add dev (part_validate dev.id part).2
        device_fill dev parts

/-! ## Steps -/

/-- The addresses in use. -/
def ptrs : List Nat := s.devices.flatMap fun dev => dev.ptr :: dev.parts.map PartInfo.ptr

end MtdParts

/-- What the commands do with the lists. -/
inductive Event
  /-- A partition is added to a device. -/
  | part_add (dev : Nat) (part : PartInfo)
  /-- A partition is deleted. -/
  | part_del (dev part : Nat)
  /-- A device with partitions is added. -/
  | device_add (dev : Nat) (id : MtdIds) (parts : List PartInfo)
  /-- A device is deleted. -/
  | device_del (dev : Nat)
  /-- The current partition is changed. -/
  | chpart (dev : Nat) (pnum : BitVec 8)

namespace MtdParts

variable (s : MtdParts)

/-- One step. Devices and partitions to work on are looked up, and new ones come from
`malloc`. -/
def step : Event → Option MtdParts
  | .part_add ptr part => do
      let dev ← s.device ptr
      guard (part.ptr ∉ s.ptrs)
      return (s.part_add dev part).2
  | .part_del ptr part => do
      let dev ← s.device ptr
      let part ← dev.parts.find? (·.ptr = part)
      return s.part_del dev part
  | .device_add ptr id parts => do
      guard (parts ≠ [] ∧ (ptr :: parts.map PartInfo.ptr ++ s.ptrs).Nodup)
      match s.device_fill ⟨ptr, id, 0#16, []⟩ parts with
      | some dev => return s.device_add dev
      | none => return s
  | .device_del ptr => do
      let dev ← s.device ptr
      return s.device_del dev
  | .chpart ptr pnum => do
      let dev ← s.device ptr
      let _ ← mtd_part_info dev pnum.toNat
      return { s with current_mtd_dev := some ptr, current_mtd_partnum := pnum }

/-- Nothing is there at first. -/
def initial : MtdParts := ⟨[], none, 0#8⟩

end MtdParts

end UBoot.Mtd
