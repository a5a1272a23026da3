/-
# DOS partition tables

`disk/part_dos.c`: the walk over the master boot record and the chain of extended boot records
that finds one partition, and the walk that prints all of them. Sectors and sizes are 32 bit
numbers, which the printed lines show with a sign. A walk has as many steps as `fuel` says.
-/

import UBoot.LibGeneric.Crc32

namespace UBoot.Disk

/-- `int`, as it is computed with, and `lbaint_t` -/
abbrev Sector := BitVec 32

/-- The bytes of a sector. -/
abbrev Buffer := Nat → Byte

/-- `IF_TYPE_*` -/
inductive IfType
  | IDE | SCSI | ATAPI | USB | DOC | MMC | SD | SATA
  deriving DecidableEq

/-- `block_dev_desc_t`: a sector that cannot be read is `none`. -/
structure BlockDev where
  if_type : IfType
  dev : Nat
  lba : Sector
  block_read : Sector → Option Buffer

/-- `dos_partition_t` -/
structure DosPartition where
  boot_ind : Byte
  sys_ind : Byte
  start4 : Sector
  size4 : Sector
  deriving DecidableEq

/-- `disk_partition_t` -/
structure DiskPartition where
  blksz : Nat
  start : Sector
  size : Sector
  name : String
  type : String
  deriving DecidableEq

def DOS_PART_TBL_OFFSET : Nat := 0x1be
def DOS_PART_MAGIC_OFFSET : Nat := 0x1fe
def DOS_PBR_FSTYPE_OFFSET : Nat := 0x36
def DOS_PBR_MEDIA_TYPE_OFFSET : Nat := 0x15

/-- `le32_to_int` -/
def le32_to_int (buffer : Buffer) (i : Nat) : Sector :=
  (buffer (i + 3)).setWidth 32 <<< 24 + (buffer (i + 2)).setWidth 32 <<< 16 +
    (buffer (i + 1)).setWidth 32 <<< 8 + (buffer i).setWidth 32

/-- `is_extended` -/
def is_extended (part_type : Byte) : Bool :=
  part_type = 0x5#8 ∨ part_type = 0xf#8 ∨ part_type = 0x85#8

/-- An entry of the partition table. -/
def dosPartition (buffer : Buffer) (i : Nat) : DosPartition :=
  let pt := DOS_PART_TBL_OFFSET + 16 * i
  { boot_ind := buffer pt
    sys_ind := buffer (pt + 4)
    start4 := le32_to_int buffer (pt + 8)
    size4 := le32_to_int buffer (pt + 12) }

/-- The four entries. -/
def partitionTable (buffer : Buffer) : List DosPartition := (List.range 4).map (dosPartition buffer)

/-- The signature is there. -/
def signature (buffer : Buffer) : Bool :=
  buffer DOS_PART_MAGIC_OFFSET = 0x55#8 ∧ buffer (DOS_PART_MAGIC_OFFSET + 1) = 0xaa#8

/-- What `test_block_type` takes for the boot record of a FAT file system. -/
def isPbr (buffer : Buffer) : Bool :=
  buffer DOS_PBR_FSTYPE_OFFSET = 0x46#8 ∧ buffer (DOS_PBR_FSTYPE_OFFSET + 1) = 0x41#8 ∧
    buffer (DOS_PBR_FSTYPE_OFFSET + 2) = 0x54#8

/-- The partition number after an entry: `fdisk`'s rule. -/
def nextPartNum (ext_part_sector : Sector) (pt : DosPartition) (part_num : Int) : Int :=
  if ext_part_sector = 0#32 ∨ (pt.sys_ind ≠ 0#8 ∧ ¬ is_extended pt.sys_ind) then part_num + 1
  else part_num

/-! ## Finding a partition -/

variable (dev_desc : BlockDev)

/-- The name of a partition. -/
def partitionName (part_num : Int) : String :=
  (match dev_desc.if_type with
    | .IDE | .SATA | .ATAPI => "hd"
    | .SCSI => "sd"
    | .USB => "usbd"
    | .DOC => "docd"
    | _ => "xx") ++ (Char.ofNat (97 + dev_desc.dev)).toString ++ toString part_num

/-- What is returned for an entry. -/
def partitionInfo (ext_part_sector : Sector) (part_num : Int) (pt : DosPartition) : DiskPartition where
  blksz := 512
  start := ext_part_sector + pt.start4
  size := pt.size4
  name := partitionName dev_desc part_num
  type := "U-Boot"

/-- The loop over the entries: what it finds, or else the number behind them. -/
def findPartition (ext_part_sector : Sector) (which_part : Int) :
    List DosPartition → Int → DiskPartition ⊕ Int
  | [], part_num => .inr part_num
  | pt :: rest, part_num =>
      if pt.boot_ind &&& 0x7f#8 = 0#8 ∧ pt.sys_ind ≠ 0#8 ∧ part_num = which_part ∧
          ¬ is_extended pt.sys_ind then
        .inl (partitionInfo dev_desc ext_part_sector part_num pt)
      else findPartition ext_part_sector which_part rest (nextPartNum ext_part_sector pt part_num)

/-- `get_partition_info_extended`: nothing if the walk is not finished, and else the partition if
the return value is 0. -/
def get_partition_info_extended (which_part : Int) :
    Nat → Sector → Sector → Int → Option (Option DiskPartition)
  | 0, _, _, _ => none
  | fuel + 1, ext_part_sector, relative, part_num =>
      match dev_desc.block_read ext_part_sector with
      | none => some none
      | some buffer =>
          if ¬ signature buffer then some none
          else
            match findPartition dev_desc ext_part_sector which_part (partitionTable buffer) part_num with
            | .inl info => some (some info)
            | .inr part_num =>
                match (partitionTable buffer).find? fun pt => is_extended pt.sys_ind with
                | none => some none
                | some pt =>
                    let lba_start := pt.start4 + relative
                    get_partition_info_extended which_part fuel lba_start
                      (if ext_part_sector = 0#32 then lba_start else relative) part_num

/-- `get_partition_info_dos` -/
def get_partition_info_dos (fuel : Nat) (part : Int) : Option (Option DiskPartition) :=
  get_partition_info_extended dev_desc part fuel 0#32 0#32 1

/-! ## Printing the partitions -/

/-- What is printed on a line: a partition, the boot record of a file system, or what is wrong
with a sector. -/
inductive Line
  | partition (part_num lba_start lba_size : Int) (sys_ind : Byte) (extd : Bool)
  | pbr (lba : Sector) (media : Byte)
  | badSignature (first second : Byte)
  | unreadable (sector : Sector)
  deriving DecidableEq

/-- `print_one_part` -/
def print_one_part (p : DosPartition) (ext_part_sector : Sector) (part_num : Int) : Line :=
  .partition part_num (ext_part_sector + p.start4).toInt p.size4.toInt p.sys_ind
    (is_extended p.sys_ind)

/-- The loop that prints the entries, with the number behind them. -/
def printEntries (ext_part_sector : Sector) : List DosPartition → Int → List Line × Int
  | [], part_num => ([], part_num)
  | pt :: rest, part_num =>
      let (lines, last) := printEntries ext_part_sector rest (nextPartNum ext_part_sector pt part_num)
      if pt.sys_ind ≠ 0#8 ∧ (ext_part_sector = 0#32 ∨ ¬ is_extended pt.sys_ind) then
        (print_one_part pt ext_part_sector part_num :: lines, last)
      else (lines, last)

/-- `print_partition_extended`: nothing if the walk is not finished. -/
def print_partition_extended : Nat → Sector → Sector → Int → Option (List Line)
  | 0, _, _, _ => none
  | fuel + 1, ext_part_sector, relative, part_num =>
      match dev_desc.block_read ext_part_sector with
      | none => some [.unreadable ext_part_sector]
      | some buffer =>
          if ¬ signature buffer then
            some [.badSignature (buffer DOS_PART_MAGIC_OFFSET) (buffer (DOS_PART_MAGIC_OFFSET + 1))]
          else if isPbr buffer then
            some [.pbr dev_desc.lba (buffer DOS_PBR_MEDIA_TYPE_OFFSET)]
          else
            let (lines, part_num) := printEntries ext_part_sector (partitionTable buffer) part_num
            let extended := (partitionTable buffer).filter fun pt => is_extended pt.sys_ind
            (extended.mapM fun pt =>
              let lba_start := pt.start4 + relative
              print_partition_extended fuel lba_start
                (if ext_part_sector = 0#32 then lba_start else relative) part_num).map
              fun rest => lines ++ rest.flatten

/-- `print_part_dos`, without its title. -/
def print_part_dos (fuel : Nat) : Option (List Line) :=
  print_partition_extended dev_desc fuel 0#32 0#32 1

end UBoot.Disk
