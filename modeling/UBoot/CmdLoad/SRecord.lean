/-
# S-records

`srec_decode` of `common/s_record.c`, and `read_record`, `load_serial` and `save_serial` of
`common/cmd_load.c`. The console is a list of characters. Nobody presses control-C.
-/

import UBoot.LibGeneric.Strtoul
import UBoot.Lib.Memory
import Mathlib.Data.Nat.Log

namespace UBoot.CmdLoad

open UBoot.Lib

/-- `ulong` -/
abbrev ULong := BitVec 32

/-! ## Decoding -/

def SREC_START : Int := 0
def SREC_DATA2 : Int := 1
def SREC_DATA3 : Int := 2
def SREC_DATA4 : Int := 3
def SREC_COUNT : Int := 5
def SREC_END4 : Int := 7
def SREC_END3 : Int := 8
def SREC_END2 : Int := 9
def SREC_EMPTY : Int := 10
def SREC_E_BADTYPE : Int := -1
def SREC_E_NOSREC : Int := -2
def SREC_E_BADCHKS : Int := -3

/-- `hex1_bin` -/
def hex1_bin (c : Byte) : Int :=
  if 0x30#8 ≤ c ∧ c ≤ 0x39#8 then c.toNat - 0x30
  else if 0x61#8 ≤ c ∧ c ≤ 0x66#8 then c.toNat + 10 - 0x61
  else if 0x41#8 ≤ c ∧ c ≤ 0x46#8 then c.toNat + 10 - 0x41
  else -1

/-- `hex2_bin` of a string, which ends with a NUL. -/
def hex2_bin (s : List Byte) : Int :=
  let i := hex1_bin (s.headD 0#8)
  if i < 0 then -1
  else
    let j := hex1_bin (s.tail.headD 0#8)
    if j < 0 then -1 else i * 16 + j

/-- What `srec_decode` finds in a record. -/
structure Srec where
  type : Int
  count : Int
  addr : ULong
  data : List Byte

/-- Reads a number of bytes and adds them to the checksum. -/
def readBytes : Nat → List Byte → Byte → Except Int (List Byte × List Byte × Byte)
  | 0, input, chksum => .ok ([], input, chksum)
  | n + 1, input, chksum =>
      let v := hex2_bin input
      if v < 0 then .error SREC_E_NOSREC
      else do
        let b := BitVec.ofInt 8 v
        let (bytes, input, chksum) ← readBytes n (input.drop 2) (chksum + b)
        return (b :: bytes, input, chksum)

/-- The type of a record, the number of its bytes that are not data, and the size of its
address. -/
def recordType (v : Byte) : Except Int (Int × Int × Nat) :=
  if v = 0x30#8 then .ok (SREC_START, 3, 2)
  else if v = 0x31#8 then .ok (SREC_DATA2, 3, 2)
  else if v = 0x32#8 then .ok (SREC_DATA3, 4, 3)
  else if v = 0x33#8 then .ok (SREC_DATA4, 5, 4)
  else if v = 0x35#8 then .ok (SREC_COUNT, 0, 2)
  else if v = 0x37#8 then .ok (SREC_END4, 5, 4)
  else if v = 0x38#8 then .ok (SREC_END3, 4, 3)
  else if v = 0x39#8 then .ok (SREC_END2, 3, 2)
  else .error SREC_E_BADTYPE

/-- `*addr <<= 8; *addr += v` for the bytes of the address. -/
def addrOf (bytes : List Byte) : ULong :=
  bytes.foldl (fun addr v => addr <<< 8 + v.setWidth 32) 0#32

/-- `srec_decode`. A return value without a record is an error, or `SREC_EMPTY`. -/
def srec_decode (input : List Byte) : Except Int Srec :=
  match (input.dropWhile (· ≠ 0x53#8)).tail with
  | [] => .error SREC_EMPTY
  | v :: input => do
      let count := hex2_bin input
      if count < 0 then .error SREC_E_NOSREC
      else
        let (type, other, size) ← recordType v
        let count' := if v = 0x35#8 then 0 else count - other
        let (address, input, chksum) ← readBytes size (input.drop 2) (BitVec.ofInt 8 count)
        let (data, input, chksum) ← readBytes count'.toNat input chksum
        let v := hex2_bin input
        if v < 0 then .error SREC_E_NOSREC
        else if BitVec.ofInt 8 v ≠ ~~~chksum then .error SREC_E_BADCHKS
        else return ⟨type, count', addrOf address, data⟩

/-! ## Loading -/

def SREC_MAXRECLEN : Nat := 512 + 4

/-- The loop of `read_record`, with room for so many characters. Without result when the
console has no more characters, and without a record when one of them ends the download. -/
def readRecord : Nat → List Byte → List Byte → Option (Option (List Byte) × List Byte)
  | 0, buf, console => some (some buf, console)
  | _ + 1, _, [] => none
  | room + 1, buf, c :: console =>
      if c = 0x0d#8 ∨ c = 0x0a#8 then some (some buf, console)
      else if c = 0#8 ∨ c = 3#8 then some (none, console)
      else readRecord room (buf ++ [c]) console

/-- `read_record(buf, len)` -/
def read_record (console : List Byte) (len : Nat) : Option (Option (List Byte) × List Byte) :=
  readRecord (len - 1) [] console

theorem readRecord_length {room : Nat} {buf console rest : List Byte} {record : Option (List Byte)}
    (h : readRecord room buf console = some (record, rest)) :
    rest.length + min room 1 ≤ console.length := by
  induction room generalizing buf console with
  | zero =>
      simp only [readRecord, Option.some.injEq, Prod.mk.injEq] at h
      simp [h.2]
  | succ room ih =>
      cases console with
      | nil => exact absurd h (by simp [readRecord])
      | cons c console =>
          rw [readRecord] at h
          rw [List.length_cons]
          split at h
          · simp only [Option.some.injEq, Prod.mk.injEq] at h
            rw [← h.2]
            omega
          · split at h
            · simp only [Option.some.injEq, Prod.mk.injEq] at h
              rw [← h.2]
              omega
            · have := ih h
              omega

/-- The flash of the board: whether an address is in it, and what a write to it returns and
leaves in memory. -/
structure FlashDriver where
  addr2info : ULong → Bool
  flash_write : (Nat → Byte) → List Byte → ULong → Int × (Nat → Byte)

/-- What `load_serial` returns, the memory it leaves, and what it sets `filesize` to. -/
structure Loaded where
  addr : ULong
  memory : Nat → Byte
  filesize : Option ULong

/-- The loop of `load_serial`. It has no result when it waits for more characters, or
copies a negative number of bytes. -/
def loadRecords (flash : FlashDriver) (offset : ULong) (console : List Byte) (memory : Nat → Byte)
    (start_addr end_addr : ULong) : Option Loaded :=
  match h : read_record console (SREC_MAXRECLEN + 1) with
  | none => none
  | some (none, _) => some ⟨~~~0#32, memory, none⟩
  | some (some record, rest) =>
      have : rest.length < console.length := readRecord_length h
      match srec_decode record with
      | .error type =>
          if type < 0 then some ⟨~~~0#32, memory, none⟩
          else loadRecords flash offset rest memory start_addr end_addr
      | .ok srec =>
          if srec.type = SREC_DATA2 ∨ srec.type = SREC_DATA3 ∨ srec.type = SREC_DATA4 then
            let store_addr := srec.addr + offset
            let last := store_addr + BitVec.ofInt 32 srec.count - 1#32
            let start_addr := if store_addr < start_addr then store_addr else start_addr
            let end_addr := if last > end_addr then last else end_addr
            if flash.addr2info store_addr then
              let written := flash.flash_write memory srec.data store_addr
              if written.1 ≠ 0 then some ⟨~~~0#32, written.2, none⟩
              else loadRecords flash offset rest written.2 start_addr end_addr
            else if srec.count < 0 then none
            else
              loadRecords flash offset rest (store memory store_addr.toNat srec.data) start_addr
                end_addr
          else if srec.type = SREC_END2 ∨ srec.type = SREC_END3 ∨ srec.type = SREC_END4 then
            some ⟨srec.addr, memory, some (end_addr - start_addr + 1#32)⟩
          else loadRecords flash offset rest memory start_addr end_addr
termination_by console.length

/-- `load_serial` -/
def load_serial (flash : FlashDriver) (offset : ULong) (console : List Byte)
    (memory : Nat → Byte) : Option Loaded :=
  loadRecords flash offset console memory (~~~0#32) 0#32

/-! ## Saving -/

def SREC3_START : List Byte := ascii "S0030000FC\n"
def SREC3_END : List Byte := ascii "S70500000000FA\n"
def SREC_BYTES_PER_RECORD : Nat := 16

/-- `hex[d]` -/
def hexDigit (d : Nat) : Byte := (ascii "0123456789ABCDEF").getD d 0#8

/-- The digits of a number, as many as asked for. -/
def hexDigits : Nat → Nat → List Byte
  | 0, _ => []
  | n + 1, v => hexDigits n (v / 16) ++ [hexDigit (v % 16)]

/-- `%0nX` -/
def formatX (n v : Nat) : List Byte := hexDigits (max n (Nat.log 16 v + 1)) v

/-- `sprintf(record, SREC3_FORMAT, length, address, data, checksum)` -/
def formatRecord (length : Nat) (address : ULong) (data : List Byte) (checksum : BitVec 32) :
    List Byte :=
  ascii "S3" ++ formatX 2 length ++ formatX 8 address.toNat ++ data ++ formatX 2 checksum.toNat ++
    ascii "\n"

/-- The checksum of a record, from that of its data. -/
def recordChecksum (length : Nat) (address : ULong) (checksum : BitVec 32) : BitVec 32 :=
  let checksum := (List.range 2).foldl
    (fun checksum i => checksum + (BitVec.ofNat 32 length >>> (8 * i) &&& 0xff#32)) checksum
  let checksum := (List.range 4).foldl
    (fun checksum i => checksum + (address >>> (8 * i) &&& 0xff#32)) checksum
  ~~~checksum &&& 0xff#32

/-- The loop of `save_serial`: the characters it writes. -/
def saveBytes (memory : Nat → Byte) : Nat → ULong → Nat → BitVec 32 → List Byte → List Byte
  | 0, _, _, _, _ => []
  | count + 1, address, reclen, checksum, data =>
      let c := memory (address + BitVec.ofNat 32 reclen).toNat
      let checksum := checksum + c.setWidth 32
      let data := data ++ [hexDigit (c.toNat / 16), hexDigit (c.toNat % 16)]
      let reclen := reclen + 1
      if reclen = SREC_BYTES_PER_RECORD ∨ count = 0 then
        let length := 4 + reclen + 1
        formatRecord length address data (recordChecksum length address checksum) ++
          saveBytes memory count (address + BitVec.ofNat 32 reclen) 0 0#32 []
      else saveBytes memory count address reclen checksum data

/-- `save_serial`: the characters written to the console. -/
def save_serial (memory : Nat → Byte) (address count : ULong) : List Byte :=
  SREC3_START ++ saveBytes memory count.toNat address 0 0#32 [] ++ SREC3_END

end UBoot.CmdLoad
