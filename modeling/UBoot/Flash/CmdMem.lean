/-
# The cp command

`do_mem_cp` of `common/cmd_mem.c` and `cmd_get_data_size` of `common/command.c`. The
destination decides where a copy goes: to `flash_write`, to one of the devices with a
driver (SPIFI and the internal eNVM), or to the loop that stores units. The drivers write
what they are told to, and say so in their own ways.
-/

import UBoot.Flash.FlashWrite
import UBoot.Lib.Spans
import UBoot.LibGeneric.Strtoul

namespace UBoot.CmdMem

open UBoot.Flash UBoot.Lib

/-- What the addresses read as. -/
abbrev Memory := ULong → Byte

/-! ## Drivers -/

/-- What writes to a part of the address space. -/
inductive Name
  | flash
  | spifi
  | envm
  deriving DecidableEq

/-- What is returned when `cnt` bytes have been written: `envm_write` returns their number,
`flash_write` and `spifi_write` return 0. -/
def Name.success : Name → ULong → ULong
  | .flash, _ => 0#32
  | .spifi, _ => 0#32
  | .envm, cnt => cnt

/-- A driver on some addresses, called with the memory, the source, the destination and the
number of bytes: what it returns and the memory it leaves. It writes to the destination only,
and reports success when the destination has the bytes of the source. -/
structure Driver (name : Name) (addresses : Set ULong) where
  write : Memory → ULong → ULong → ULong → ULong × Memory
  frame : ∀ m src dst cnt x, x ∉ span dst cnt.toNat → (write m src dst cnt).2 x = m x
  tells : ∀ m src dst cnt, cnt ≠ 0#32 → span dst cnt.toNat ⊆ addresses →
    Disjoint (span src cnt.toNat) (span dst cnt.toNat) →
    ((write m src dst cnt).1 = name.success cnt ↔
      SameBytes (write m src dst cnt).2 dst src cnt.toNat)

/-- The constants of a device: `CONFIG_SPIFI_BASE` and `CONFIG_SPIFI_SIZE`, or
`CONFIG_SYS_ENVM_BASE` and `CONFIG_SYS_ENVM_LEN`. -/
structure Region where
  base : ULong
  len : ULong
  fits : base.toNat + len.toNat ≤ 2 ^ 32

namespace Region

variable (r : Region)

/-- The addresses of the device. -/
def addresses : Set ULong :=
  { x | r.base.toNat ≤ x.toNat ∧ x.toNat < r.base.toNat + r.len.toNat }

/-- `spifi_addr` and `envm_addr` -/
def hasAddr (addr : ULong) : Bool :=
  decide (addr ≥ r.base) && decide (addr < r.base + r.len)

end Region

/-- A device with its driver. -/
structure Device (name : Name) extends Region where
  driver : Driver name toRegion.addresses

/-- The addresses of the known banks. -/
def bankAddresses (flash_info : List FlashInfo) : Set ULong :=
  { x | ∃ info ∈ flash_info, info.known = true ∧ x.toNat ∈ info.addresses }

/-- `flash_write` also refuses what is not in the banks. -/
structure FlashDriver (flash_info : List FlashInfo) extends
    Driver .flash (bankAddresses flash_info) where
  refuses : ∀ m src dst cnt, ¬ span dst cnt.toNat ⊆ bankAddresses flash_info →
    (write m src dst cnt).1 ≠ 0#32 ∧ (write m src dst cnt).2 = m

/-- A board: where stores have an effect, its flash banks and its devices. -/
structure Board where
  base_address : ULong
  ram : ULong → Bool
  flash_info : List FlashInfo
  flash_write : FlashDriver flash_info
  spifi : Option (Device .spifi)
  envm : Option (Device .envm)

namespace Board

variable (board : Board)

/-- The part of the address space that a device takes. -/
def region : Name → Option Region
  | .flash => none
  | .spifi => board.spifi.map (·.toRegion)
  | .envm => board.envm.map (·.toRegion)

/-- The banks and the devices have no addresses in common. -/
structure Apart : Prop where
  banks : ∀ name, ∀ r ∈ board.region name, Disjoint (bankAddresses board.flash_info) r.addresses
  devices : ∀ name name', name ≠ name' → ∀ r ∈ board.region name, ∀ r' ∈ board.region name',
    Disjoint r.addresses r'.addresses

end Board

/-! ## The command -/

/-- `cmd_get_data_size` -/
def cmd_get_data_size (arg : List Byte) (default_size : Int) : Int :=
  match arg.reverse with
  | c :: dot :: _ :: _ =>
      if dot = 0x2e#8 then
        if c = 0x62#8 then 1
        else if c = 0x77#8 then 2
        else if c = 0x6c#8 then 4
        else if c = 0x73#8 then -2
        else -1
      else default_size
  | _ => default_size

/-- What is copied: `count` units of `size` bytes. -/
structure Request where
  addr : ULong
  dest : ULong
  count : ULong
  size : Nat
  deriving DecidableEq

/-- The number of bytes. -/
def Request.len (req : Request) : Nat := req.count.toNat * req.size

/-- The arguments of the command, unless one of them is refused. -/
def request (base_address : ULong) (argv : List CString) : Option Request :=
  match argv with
  | [name, addr, dest, count] =>
      let size := cmd_get_data_size name.val 4
      if size < 0 then none
      else
        let addr := (simple_strtoul addr.val 16).1 + base_address
        let dest := (simple_strtoul dest.val 16).1 + base_address
        let count := (simple_strtoul count.val 16).1
        if count = 0#32 then none
        else some ⟨addr, dest, count, size.toNat⟩
  | _ => none

/-- A call of a driver. -/
structure Call where
  name : Name
  src : ULong
  dst : ULong
  cnt : ULong
  deriving DecidableEq

/-- What the command returns, the memory it leaves and the calls of drivers. -/
structure Outcome where
  rc : ULong
  memory : Memory
  calls : List Call

/-- The block of a device: the copy ends in it, or the device is not concerned. -/
def deviceCopy {name : Name} (device : Option (Device name)) (m : Memory) (req : Request) :
    Option Outcome :=
  match device with
  | none => none
  | some d =>
      if d.hasAddr req.dest || d.hasAddr (req.dest + req.count) then
        if d.hasAddr req.addr || d.hasAddr (req.addr + req.count) then some ⟨1#32, m, []⟩
        else if !d.hasAddr req.dest || !d.hasAddr (req.dest + req.count) then some ⟨1#32, m, []⟩
        else
          let written := d.driver.write m req.addr req.dest req.count
          some ⟨written.1, written.2, [⟨name, req.addr, req.dest, req.count⟩]⟩
      else none

/-- One unit is loaded and stored: a word, a halfword or a byte. -/
def copyUnit (ram : ULong → Bool) (size : Nat) (dest addr : ULong) (m : Memory) : Memory :=
  if size = 4 then copySpan ram dest addr 4 m
  else if size = 2 then copySpan ram dest addr 2 m
  else copySpan ram dest addr 1 m

/-- The loop over the units. -/
def copyUnits (ram : ULong → Bool) (size : Nat) : Nat → ULong → ULong → Memory → Memory
  | 0, _, _, m => m
  | count + 1, dest, addr, m =>
      copyUnits ram size count (dest + BitVec.ofNat 32 size) (addr + BitVec.ofNat 32 size)
        (copyUnit ram size dest addr m)

/-- The copy of a request. -/
def copy (board : Board) (m : Memory) (req : Request) : Outcome :=
  if (addr2info board.flash_info req.dest).isSome then
    let cnt := req.count * BitVec.ofNat 32 req.size
    let written := board.flash_write.write m req.addr req.dest cnt
    let calls := [⟨.flash, req.addr, req.dest, cnt⟩]
    if written.1 ≠ 0#32 then ⟨1#32, written.2, calls⟩ else ⟨0#32, written.2, calls⟩
  else
    match deviceCopy board.spifi m req with
    | some outcome => outcome
    | none =>
        match deviceCopy board.envm m req with
        | some outcome => outcome
        | none =>
            ⟨0#32, copyUnits board.ram req.size req.count.toNat req.dest req.addr m, []⟩

/-- `do_mem_cp` -/
def do_mem_cp (board : Board) (argv : List CString) (m : Memory) : Outcome :=
  match request board.base_address argv with
  | none => ⟨1#32, m, []⟩
  | some req => copy board m req

/-! ## What is meant -/

namespace Request

variable (req : Request)

/-- The addresses that are read. -/
def source : Set ULong := span req.addr req.len

/-- The addresses that are written. -/
def destination : Set ULong := span req.dest req.len

/-- Neither range wraps around, and they have no address in common. -/
structure Proper : Prop where
  source_le : req.addr.toNat + req.len ≤ 2 ^ 32
  destination_le : req.dest.toNat + req.len ≤ 2 ^ 32
  apart : Disjoint req.source req.destination

/-- The destination is in the device, and the source is not. -/
def Into (r : Region) : Prop := req.destination ⊆ r.addresses ∧ Disjoint req.source r.addresses

/-- The destination meets the device, and is not inside it or the source meets it too. -/
def Across (r : Region) : Prop :=
  ¬ Disjoint req.destination r.addresses ∧
    (¬ req.destination ⊆ r.addresses ∨ ¬ Disjoint req.source r.addresses)

end Request

/-- The command tells the truth, a range inside a device is written through its driver, and
one that is partly inside, or copied from the device to itself, is rejected before anything
is written. -/
structure Truthful (board : Board) (m : Memory) (req : Request) (outcome : Outcome) : Prop where
  tells : outcome.rc = 0#32 ↔ SameBytes outcome.memory req.dest req.addr req.len
  written : ∀ name, ∀ r ∈ board.region name, req.Into r →
    outcome.calls = [⟨name, req.addr, req.dest, BitVec.ofNat 32 req.len⟩]
  rejected : ∀ name, ∀ r ∈ board.region name, req.Across r →
    outcome.rc ≠ 0#32 ∧ outcome.memory = m ∧ ∀ call ∈ outcome.calls, call.name = .flash

end UBoot.CmdMem
