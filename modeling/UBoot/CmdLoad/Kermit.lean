/-
# Kermit

`k_recv` of `common/cmd_load.c`, with the escape translation of `k_data_char`. Data is
written to memory before the checksum of its packet is read. To undo that, and for packets
that come a second time, the address and the escape state are saved with each new sequence
number. The acknowledgements that are sent are left out, except for what they take over of
the parameters of the sender.
-/

import UBoot.Lib.Serial
import UBoot.LibGeneric.Crc32

namespace UBoot.CmdLoad

open UBoot.Lib

def START_CHAR : Byte := 0x01#8
def ETX_CHAR : Byte := 0x03#8
def END_CHAR : Byte := 0x0d#8
def SPACE : Byte := 0x20#8
def K_ESCAPE : Byte := 0x23#8
def SEND_TYPE : Byte := 0x53#8
def DATA_TYPE : Byte := 0x44#8
def BREAK_TYPE : Byte := 0x42#8

/-- `untochar` -/
def untochar (x : Byte) : Nat := (x - SPACE).toNat

/-- `tochar ((sum + ((sum >> 6) & 0x03)) & 0x3f)` -/
def checkChar (sum : Nat) : Byte := BitVec.ofNat 8 ((sum + sum / 64 % 4) % 64) + SPACE

/-- `ktrans` -/
def ktrans (c : Byte) : Byte :=
  if c &&& 0x60#8 = 0x40#8 then c &&& ~~~0x40#8
  else if c &&& 0x7f#8 = 0x3f#8 then c ||| 0x40#8
  else c

/-- What is saved and restored: `os_data_addr`, from `bin_start_address` on, and
`k_data_escape`. -/
structure Checkpoint where
  addr : Nat
  escape : Bool
  deriving DecidableEq

/-- The state of the receiver. Memory begins at `bin_start_address`. -/
structure Kermit where
  memory : Nat → Byte
  cur : Checkpoint
  saved : Checkpoint
  last_n : Option Nat
  his_quote : Byte
  send_parms : List Byte

namespace Kermit

/-- `k_data_char` -/
def k_data_char (k : Kermit) (new_char : Byte) : Kermit :=
  if k.cur.escape then
    { k with
      memory := fun i => if i = k.cur.addr then ktrans new_char else k.memory i
      cur := ⟨k.cur.addr + 1, false⟩ }
  else if new_char = k.his_quote then { k with cur := ⟨k.cur.addr, true⟩ }
  else
    { k with
      memory := fun i => if i = k.cur.addr then new_char else k.memory i
      cur := ⟨k.cur.addr + 1, false⟩ }

/-- What is done with a character of the data of a packet. The last place of the buffer for
the parameters is not used. -/
def dataChar (k_state : Byte) (k : Kermit) (new_char : Byte) : Kermit :=
  if k_state = DATA_TYPE then k.k_data_char new_char
  else if k_state = SEND_TYPE then
    if k.send_parms.length < 19 then { k with send_parms := k.send_parms ++ [new_char] } else k
  else k

/-- The sequence number is looked at: a retried packet, or a new one. -/
def checkpoint (k : Kermit) (n : Nat) : Kermit :=
  if k.last_n = some n then { k with cur := k.saved }
  else { k with last_n := some n, saved := k.cur }

/-- `packet_error` -/
def packet_error (k : Kermit) : Kermit := { k with cur := k.saved }

/-- `handle_send_packet`, as far as data is concerned. -/
def handle_send_packet (k : Kermit) : Kermit :=
  let bytes := if k.send_parms.length = 19 then 18 else k.send_parms.length
  { k with his_quote := if 6 ≤ bytes then k.send_parms.getD 5 0#8 else K_ESCAPE }

end Kermit

/-! ## A packet -/

/-- A character that is not a control character. -/
def getField : Serial Kermit Byte Byte := do
  let new_char ← Serial.getc
  if new_char &&& 0xe0#8 = 0#8 then Serial.fail else return new_char

/-- The loop that brings in the rest of the packet. -/
def packetData (k_state : Byte) : Nat → Nat → Serial Kermit Byte Nat
  | 0, sum => return sum
  | length + 1, sum => do
      let new_char ← getField
      Serial.modify fun k => k.dataChar k_state new_char
      packetData k_state length (sum + new_char.toNat)

/-- The extended length and the checksum of the header. -/
def extendedLength (sum : Nat) : Serial Kermit Byte (Int × Nat) := do
  let hi ← getField
  let lo ← getField
  let sum := sum + hi.toNat + lo.toNat
  let check ← getField
  if check ≠ checkChar sum then Serial.fail
  else return (untochar hi * 95 + untochar lo, sum + check.toNat)

/-- The data of a packet, its checksum and its end. -/
def packetRest (k_state : Byte) (length : Int) (sum : Nat) : Serial Kermit Byte Byte := do
  let sum ← packetData k_state (length - 1).toNat sum
  let check ← getField
  if check ≠ checkChar sum then Serial.fail
  else do
    let last ← Serial.getc
    if last ≠ END_CHAR then Serial.fail else return k_state

/-- A packet behind its sequence number. -/
def packetBody (length : Int) (sum : Nat) : Serial Kermit Byte Byte := do
  let k_state ← getField
  if length - 1 = -2 then do
    let (length, sum) ← extendedLength (sum + k_state.toNat)
    packetRest k_state length sum
  else packetRest k_state (length - 1) (sum + k_state.toNat)

/-- The beginning of a packet: its length, with the sum, and its sequence number. -/
def packetHeader : Serial Kermit Byte (Int × Nat × Nat) := do
  let len ← getField
  let seq ← getField
  return (untochar len - 1, len.toNat + seq.toNat, untochar seq)

/-- A packet behind `START_CHAR`. -/
def packet : Serial Kermit Byte Byte := do
  let (length, sum, n) ← packetHeader
  Serial.modify fun k => k.checkpoint n
  packetBody length sum

/-- Waits for the beginning of a packet, or for ^C. -/
def waitStart : List Byte → Option (Bool × List Byte)
  | [] => none
  | c :: rest =>
      if c = START_CHAR then some (true, rest)
      else if c = ETX_CHAR then some (false, rest)
      else waitStart rest

/-- What comes of one round of the loop of `k_recv`. -/
inductive Round where
  /-- The stream ends. -/
  | wait
  /-- ^C -/
  | abort
  /-- A negative acknowledge is sent. -/
  | nack (k : Kermit) (rest : List Byte)
  /-- A packet is acknowledged. -/
  | ack (k_state : Byte) (k : Kermit) (rest : List Byte)

/-- One round of the loop of `k_recv`. -/
def round (k : Kermit) (stream : List Byte) : Round :=
  match waitStart stream with
  | none => .wait
  | some (false, _) => .abort
  | some (true, stream) =>
      match packet { k with send_parms := [] } stream with
      | .wait => .wait
      | .fail k rest => .nack k.packet_error rest
      | .ok k_state k rest =>
          .ack k_state (if k_state = SEND_TYPE then k.handle_send_packet else k) rest

/-- `k_recv` before its first packet. -/
def k_start (memory : Nat → Byte) : Kermit :=
  ⟨memory, ⟨0, false⟩, ⟨0, false⟩, none, K_ESCAPE, []⟩

/-- The loop of `k_recv` for so many rounds: the length that is returned, and the memory. -/
def recvLoop : Nat → Kermit → List Byte → Option (Nat × (Nat → Byte))
  | 0, _, _ => none
  | rounds + 1, k, stream =>
      match round k stream with
      | .wait => none
      | .abort => some (0, k.memory)
      | .nack k rest => recvLoop rounds k rest
      | .ack k_state k rest =>
          if k_state = BREAK_TYPE then some (k.cur.addr, k.memory) else recvLoop rounds k rest

/-- `k_recv`: each round takes a character at least. -/
def k_recv (memory : Nat → Byte) (stream : List Byte) : Option (Nat × (Nat → Byte)) :=
  recvLoop stream.length (k_start memory) stream

end UBoot.CmdLoad
