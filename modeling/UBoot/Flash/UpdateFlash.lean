/-
# Flashing an update

`update_flash_protect` and `update_flash` of `common/update.c`, and `flash_sect_roundb` of
`common/cmd_flash.c`. The drivers of the board are parameters, and the state is the table of
the banks with their protection flags. What is touched is recorded: sectors that are to be
erased, and calls of `write_buff`.
-/

import UBoot.Flash.FlashWrite
import UBoot.Flash.SectRanges

namespace UBoot.Flash

/-- The drivers of a board. -/
structure Drivers where
  flash_erase : FlashInfo → Nat → Nat → Int
  write_buff : Call → Int
  flash_real_protect : FlashInfo → Nat → Int → Int

/-- A bank with other protection flags. -/
def FlashInfo.withProtect (info : FlashInfo) (protect : Nat → Bool) : FlashInfo :=
  { info with protect }

/-- What is touched: sectors of a bank, or the bytes of a call. -/
inductive Touch
  | erase (info : FlashInfo) (s_first s_last : Nat)
  | write (call : Call)

/-- The addresses that are touched. -/
def Touch.addresses : Touch → Set Nat
  | .erase info s_first s_last => info.sectorsBetween s_first s_last
  | .write call => { x | ∃ k < call.len.toNat, x = (call.addr + BitVec.ofNat 32 k).toNat }

/-- The end of a sector that has an address. -/
def FlashInfo.roundb (info : FlashInfo) (addr : ULong) (i : Nat) : Option ULong :=
  let sector_end_addr := info.sectorEnd i
  if addr ≤ sector_end_addr ∧ addr ≥ info.start i then
    if addr < sector_end_addr then some sector_end_addr else some addr
  else none

/-- `flash_sect_roundb`, which fails when no sector has the address. -/
def flash_sect_roundb (flash_info : List FlashInfo) (addr : ULong) : Option ULong :=
  flash_info.findSome? fun info => (List.range info.sector_count).findSome? (info.roundb addr)

/-! ## Protection -/

/-- The loop of `update_flash_protect` over the sectors of a bank: whether it goes on, and the
bank. -/
def protectLoop (flash_real_protect : FlashInfo → Nat → Int → Int) (prot : Bool)
    (sp_info : Nat → Bool) : List Nat → FlashInfo → Bool × FlashInfo
  | [], info => (true, info)
  | i :: sectors, info =>
      if sp_info i then
        if flash_real_protect info i (if prot then 1 else 0) ≠ 0 then (false, info)
        else
          protectLoop flash_real_protect prot sp_info sectors
            (info.withProtect (Function.update info.protect i prot))
      else protectLoop flash_real_protect prot sp_info sectors info

/-- `update_flash_protect` from a bank on: whether it succeeds, the banks, and
`saved_prot_info`. Without `CONFIG_SYS_FLASH_PROTECTION` the flags are set, which does not
fail. -/
def update_flash_protect (flash_real_protect : FlashInfo → Nat → Int → Int) (prot : Bool) :
    List FlashInfo → List (Nat → Bool) → ULong → ULong →
      Bool × List FlashInfo × List (Nat → Bool)
  | [], _, _, _ => (true, [], [])
  | info :: banks, saved, addr_first, addr_last =>
      if info.sector_count = 0 then (true, info :: banks, saved)
      else
        let bank_last := info.start 0 + info.size - 1#32
        let addr_last := if addr_last > bank_last then bank_last else addr_last
        let addr_first := if addr_first < info.start 0 then info.start 0 else addr_first
        let sp_info := if prot then saved.headD fun _ => false
          else fun i => decide (info.start i ≥ addr_first) && decide (info.start i ≤ addr_last) &&
            info.protect i
        let here :=
          protectLoop flash_real_protect prot sp_info (List.range info.sector_count) info
        if here.1 then
          let rest := update_flash_protect flash_real_protect prot banks saved.tail addr_first addr_last
          (rest.1, here.2 :: rest.2.1, sp_info :: rest.2.2)
        else (false, here.2 :: banks, sp_info :: saved.tail)

/-! ## An update -/

/-- What `update_flash` comes to. -/
structure Flashed where
  rc : Int
  flash_info : List FlashInfo
  touches : List Touch

/-- `update_flash` -/
def update_flash (drivers : Drivers) (flash_info : List FlashInfo)
    (addr_source addr_first size : ULong) : Flashed :=
  match flash_sect_roundb flash_info (addr_first + size - 1#32) with
  | none => ⟨1, flash_info, []⟩
  | some addr_last =>
      if addr_first ≥ addr_last then ⟨1, flash_info, []⟩
      else
        let unprotected := update_flash_protect drivers.flash_real_protect false flash_info []
          addr_first addr_last
        let banks := unprotected.2.1
        if unprotected.1 = false then ⟨1, banks, []⟩
        else
          let erased := flash_sect_erase banks drivers.flash_erase addr_first addr_last
          let erases := erased.2.map fun t => .erase t.1 t.2.1 t.2.2
          if erased.1 > 0 then ⟨1, banks, erases⟩
          else
            let written := flash_write banks drivers.write_buff addr_source addr_first size
            let touches := erases ++ written.2.map .write
            if written.1 > 0 then ⟨1, banks, touches⟩
            else
              let reprotected := update_flash_protect drivers.flash_real_protect true banks
                unprotected.2.2 addr_first addr_last
              if reprotected.1 = false then ⟨1, reprotected.2.1, touches⟩
              else ⟨0, reprotected.2.1, touches⟩

/-! ## What is meant -/

/-- The sectors that have a byte of a range. -/
def sectorsOf (flash_info : List FlashInfo) (first size : ULong) : Set Nat :=
  { x | ∃ info ∈ flash_info, ∃ i < info.sector_count, x ∈ info.sector i ∧
    ∃ y ∈ info.sector i, first.toNat ≤ y ∧ y < first.toNat + size.toNat }

/-- The sectors of the target end with the last address of the address space, and a bank begins
with the first one. -/
def FollowedAround (flash_info : List FlashInfo) (first size : ULong) : Prop :=
  flash_sect_roundb flash_info (first + size - 1#32) = some 0xffffffff#32 ∧
    ∃ info ∈ flash_info, info.known = true ∧ info.base = 0

/-- What `flash_sect_erase` is to erase for an update. -/
def toErase (flash_info : List FlashInfo) (first size : ULong) : Set Nat :=
  match flash_sect_roundb flash_info (first + size - 1#32) with
  | none => ∅
  | some last =>
      let planned := flash_fill_sect_ranges flash_info first last
      { x | first < last ∧ planned.s_count ≠ 0 ∧ planned.rcode = 0 ∧
        x ∈ selected (flash_info.zip planned.ranges) }

end UBoot.Flash
