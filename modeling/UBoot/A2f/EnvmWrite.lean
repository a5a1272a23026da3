/-
# Writes to the SmartFusion eNVM

`envm_write` of `cpu/arm_cortexm3/a2f/envm.c`. One loop over the bytes opens a page at the first
byte and at every begin of a page, and commits it at the last byte and at every end of a page.
Which commands fail is a parameter: the status register when the n-th command has finished. The
request is refused by its offset alone, and how far it goes is not looked at.
-/

import UBoot.LibGeneric.Crc32
import UBoot.Lib.Memory

namespace UBoot.A2f

open UBoot.Lib

/-- `u32` and addresses. -/
abbrev U32 := BitVec 32

def MSS_ENVM_BASE : U32 := 0x60000000#32
def MSS_ENVM_FLASH_SIZE : U32 := 0x40000#32
def MSS_ENVM_PAGE_OFFSET_MASK : U32 := 127#32
def MSS_ENVM_PAGE_ADDR_MASK : U32 := 0xfff80#32
def MSS_ENVM_STATUS_ERROR_MASK : U32 := 0x3000300#32

/-! ## The eNVM -/

/-- `MSS_ENVM_CONTROL_CC_UNPROTECT` and `MSS_ENVM_CONTROL_CC_PROGRAM` -/
inductive Command
  | unprotect
  | program
  deriving DecidableEq

/-- An open page: where it begins, and the array with what was stored to the page. -/
structure Page where
  start : Nat
  image : Nat → Byte

/-- The committed array by its offsets, the open page, the addresses of all commands and stores,
the number of commands, and whether one of them failed. -/
structure Envm where
  array : Nat → Byte
  page : Option Page
  issued : List U32
  commands : Nat
  failed : Bool

/-- The offset of an address in the array. -/
def offsetOf (addr : U32) : Nat := (addr - MSS_ENVM_BASE).toNat

/-- A command is given to the controller. -/
def Envm.issue (e : Envm) (addr : U32) : Envm :=
  { e with issued := e.issued ++ [addr], commands := e.commands + 1 }

/-- What a command does to the page that begins at an offset: it is opened, or the page that is
open is committed. -/
def Envm.execute (e : Envm) (start : Nat) : Command → Envm
  | .unprotect => { e with page := some ⟨start, e.array⟩ }
  | .program =>
      match e.page with
      | some page =>
          if page.start = start then
            { e with
              array := fun j => if start ≤ j ∧ j < start + 128 then page.image j else e.array j
              page := none }
          else e
      | none => e

/-- `*(unsigned char *)addr = c`: it changes the image of the open page. -/
def Envm.store (e : Envm) (addr : U32) (c : Byte) : Envm :=
  { e with
    issued := e.issued ++ [addr]
    page := e.page.map fun page =>
      if page.start ≤ offsetOf addr ∧ offsetOf addr < page.start + 128 then
        { page with image := Function.update page.image (offsetOf addr) c }
      else page }

/-! ## The code -/

section Code

variable (status : Nat → U32) (buf : Nat → Byte)

/-- `mss_envm_exec_cmd`. A status with the bits `0x180` is taken for success. -/
def mss_envm_exec_cmd (e : Envm) (addr : U32) (cmd : Command) : Int × Envm :=
  let page := addr &&& MSS_ENVM_PAGE_ADDR_MASK
  let st := status e.commands
  let e := e.issue addr
  if st &&& MSS_ENVM_STATUS_ERROR_MASK ≠ 0#32 then
    if st &&& 0x180#32 = 0x180#32 then (0, e.execute page.toNat cmd)
    else (-1, { e with failed := true })
  else (0, e.execute page.toNat cmd)

/-- The begin of an iteration: the page is opened at its first byte. -/
def openPage (i : Nat) (e : Envm) (addr : U32) : Int × Envm :=
  if i = 0 ∨ addr &&& MSS_ENVM_PAGE_OFFSET_MASK = 0#32 then
    mss_envm_exec_cmd status e addr .unprotect
  else (0, e)

/-- The loop of `envm_write`, with `n` bytes left of `size`. -/
def writeLoop (size : Nat) : (n : Nat) → (i : Nat) → (addr : U32) → (written : Nat) → Envm →
    Nat × Envm
  | 0, _, _, written, e => (written, e)
  | n + 1, i, addr, written, e =>
      let (ret, e) := openPage status i e addr
      if ret < 0 then (written, e)
      else
        let e := e.store addr (buf i)
        let addr := addr + 1#32
        if i = size - 1 ∨ addr &&& MSS_ENVM_PAGE_OFFSET_MASK = 0#32 then
          let (ret, e) := mss_envm_exec_cmd status e (addr - 1#32) .program
          if ret < 0 then (written, e)
          else writeLoop size n (i + 1) addr (i + 1) e
        else writeLoop size n (i + 1) addr written e

/-- `envm_write` -/
def envm_write (e : Envm) (offset size : U32) : Nat × Envm :=
  if offset > MSS_ENVM_FLASH_SIZE then (0, e)
  else writeLoop status buf size.toNat size.toNat 0 (MSS_ENVM_BASE + offset) 0 e

end Code

end UBoot.A2f
