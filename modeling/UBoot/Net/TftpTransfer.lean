/-
# TFTP transfers

A server that conforms to the protocol, and runs of a transfer: the server's packets
and the client's acknowledgments are lost, duplicated and delayed in any order. The
server sends a block when it receives an acknowledgment that carries the number of
the block before, and block numbers have 16 bits on both ways.
-/

import UBoot.Net.Tftp
import UBoot.Lib.Run

namespace UBoot

open UBoot.Lib

namespace Tftp

/-! ## The server -/

/-- A decimal number in an option. -/
structure Decimal where
  digits : List (Fin 10)

namespace Decimal

def value (v : Decimal) : Nat := v.digits.foldl (fun n (d : Fin 10) => 10 * n + d.1) 0

def bytes (v : Decimal) : List Byte := v.digits.map fun (d : Fin 10) => BitVec.ofNat 8 (0x30 + d.1)

end Decimal

/-- The options the client asks for, as a server acknowledges them. -/
inductive TftpOption
  | timeout (seconds : Decimal)
  | tsize (size : Decimal)
  | blksize (size : Decimal)

namespace TftpOption

def bytes : TftpOption → List Byte
  | timeout v => strings [ascii "timeout", v.bytes]
  | tsize v => strings [ascii "tsize", v.bytes]
  | blksize v => strings [ascii "blksize", v.bytes]

/-- The block size after an option. -/
def size (old : Nat) : TftpOption → Nat
  | blksize v => v.value
  | _ => old

end TftpOption

/-- The server's side of a transfer. It acknowledges options or does not. -/
structure TftpServer where
  file : List Byte
  port : Nat
  options : Option (List TftpOption)
  sizes : ∀ opts, options = some opts → ∀ v, .blksize v ∈ opts → 0 < v.value ∧ v.value < 2 ^ 16

/-- A packet of the server. Blocks are counted from 1, without wrapping. -/
inductive ServerPacket
  | oack
  | data (k : Nat)

namespace TftpServer

variable (s : TftpServer)

/-- The negotiated block size. -/
def blksize : Nat := (s.options.getD []).foldl TftpOption.size TFTP_BLOCK_SIZE.toNat

/-- The contents of a block. -/
def block (k : Nat) : List Byte := (s.file.drop ((k - 1) * s.blksize)).take s.blksize

/-- The number of the last block, the first that is not full. -/
def blocks : Nat := s.file.length / s.blksize + 1

/-- The block that answers the request: block 1, or none if options are
acknowledged first. -/
def first : Nat := if s.options.isSome then 0 else 1

/-- The payload of a packet. -/
def bytes : ServerPacket → List Byte
  | .oack => htons TFTP_OACK ++ ((s.options.getD []).map TftpOption.bytes).flatten
  | .data k => htons TFTP_DATA ++ (htons (BitVec.ofNat 16 k) ++ s.block k)

end TftpServer

/-- The acknowledgment of a block. -/
def ack (k : Nat) : List Byte := htons TFTP_ACK ++ htons (BitVec.ofNat 16 k)

/-! ## Runs -/

/-- Client and server, with the number of blocks the client has received in order. -/
structure TftpWorld where
  client : Tftp
  last : Nat
  received : Nat

namespace TftpWorld

/-- What happens: the client receives a copy of a packet, in a buffer with something
behind it, the server receives a copy of the acknowledgment it waits for, or the
client's timer expires. -/
inductive Event
  | deliver (p : ServerPacket) (behind : List Byte)
  | acknowledge
  | timeout

variable (s : TftpServer) (cfg : TftpConfig)

/-- After `TftpStart`, and the server has answered. -/
def initial (t : Tftp) (serverPort ourPort : Nat) : TftpWorld :=
  ⟨t.TftpStart cfg serverPort ourPort, s.first, 0⟩

/-- The packets the server has sent so far. -/
def Sent (w : TftpWorld) : ServerPacket → Bool
  | .oack => s.options.isSome
  | .data k => 1 ≤ k ∧ k ≤ w.last

/-- The network loop still hands packets to the client. -/
def Listening (t : Tftp) : Prop := t.NetHandler = .TftpHandler ∧ t.NetState ≠ .fail

instance instDecidableListening (t : Tftp) : Decidable (Listening t) :=
  inferInstanceAs (Decidable (_ ∧ _))

/-- The blocks received in order, after a packet. -/
def count (received : Nat) : ServerPacket → Nat
  | .oack => received
  | .data k => if k = received + 1 then k else received

/-- The client receives a copy of a packet. -/
def deliver (w : TftpWorld) (p : ServerPacket) (behind : List Byte) : TftpWorld :=
  { w with
    client := w.client.TftpHandler cfg (s.bytes p ++ behind) w.client.TftpOurPort s.port
      (s.bytes p).length
    received := count w.received p }

/-- One event. -/
def step (w : TftpWorld) : Event → Option TftpWorld
  | .deliver p behind =>
      if Listening w.client ∧ w.Sent s p then some (w.deliver s cfg p behind) else none
  | .acknowledge =>
      if ack w.last ∈ w.client.sent ∧ w.last < s.blocks then some { w with last := w.last + 1 }
      else none
  | .timeout =>
      if Listening w.client then some { w with client := w.client.TftpTimeout cfg } else none

/-- The data packets that keep the transfer in order. While data is received, a block
received before does not carry the number 0, and it is from the same round of the block
numbers or carries the number of the last block. After an acknowledgment of options the
number 1 does not come when the block numbers have wrapped around. -/
def SafeData (w : TftpWorld) (k : Nat) : Prop :=
  if w.client.TftpState = .data then
    k ≤ w.received → k % 2 ^ 16 ≠ 0 ∧
      (k / 2 ^ 16 = w.received / 2 ^ 16 ∨ w.client.TftpLastBlock.toNat = k % 2 ^ 16)
  else k % 2 ^ 16 = 1 → w.received < 2 ^ 16

/-- The events that keep the transfer in order. The acknowledgment the server receives
is for the block it has sent, not for one with the same number. -/
def SafeStep (w : TftpWorld) : Event → Prop
  | .deliver .oack _ => True
  | .deliver (.data k) _ => w.SafeData k
  | .acknowledge => w.last ≤ w.received
  | .timeout => True

/-- The file is in memory, with its length. -/
def Loaded (t : Tftp) : Prop :=
  (∀ i, (h : i < s.file.length) → t.memory (cfg.load_addr.toNat + i) = s.file[i]) ∧
    t.NetBootFileXferSize.toNat = s.file.length

end TftpWorld

/-! ## Options -/

theorem cstring_append {str : List Byte} (h : 0#8 ∉ str) (rest : List Byte) :
    cstring (str ++ 0#8 :: rest) = str := by
  induction str with
  | nil => simp [cstring]
  | cons c str ih =>
      rw [List.mem_cons, not_or] at h
      have hc : c ≠ 0#8 := fun hc => h.1 hc.symm
      rw [cstring, List.cons_append, List.takeWhile_cons_of_pos (by simpa using hc)]
      exact congrArg _ (ih h.2)

/-- The rounds that start in a string that does not end in the option's name. -/
theorem blksizeOption_skip {str : List Byte} (h : 0#8 ∉ str)
    (hno : ¬ ascii "blksize" <:+ str) (rest : List Byte) (n : Nat) (size : BitVec 16) :
    blksizeOption n (str ++ 0#8 :: rest) size = blksizeOption (n - (str.length + 1)) rest size := by
  induction str generalizing n with
  | nil =>
      cases n with
      | zero => simp [blksizeOption]
      | succ n =>
          have : cstring ([] ++ 0#8 :: rest) ≠ ascii "blksize" := by
            rw [cstring_append h]
            decide
          rw [blksizeOption, if_neg this]
          simp
  | cons c str ih =>
      cases n with
      | zero => simp [blksizeOption]
      | succ n =>
          have : cstring (c :: str ++ 0#8 :: rest) ≠ ascii "blksize" := by
            rw [cstring_append h]
            rintro heq
            exact hno (heq ▸ List.suffix_rfl)
          rw [blksizeOption, if_neg this, List.cons_append, List.tail_cons,
            ih (fun h' => h (List.mem_cons_of_mem _ h'))
              fun h' => hno (h'.trans (List.suffix_cons c str))]
          congr 1
          simp only [List.length_cons]
          omega

namespace Decimal

theorem xdigit_byte (d : Fin 10) : xdigit (BitVec.ofNat 8 (0x30 + d)) = some d.1 := by
  revert d
  decide

theorem byte_ne (d : Fin 10) : BitVec.ofNat 8 (0x30 + d) ≠ 0#8 ∧
    BitVec.ofNat 8 (0x30 + d) ≠ 0x62#8 ∧ BitVec.ofNat 8 (0x30 + d) ≠ 0x78#8 := by
  revert d
  decide

theorem zero_notMem (v : Decimal) : 0#8 ∉ v.bytes := by
  rw [bytes, List.mem_map]
  rintro ⟨d, -, h⟩
  exact (byte_ne d).1 h

theorem not_suffix (v : Decimal) : ¬ ascii "blksize" <:+ v.bytes := by
  intro h
  have mem : 0x62#8 ∈ v.bytes := h.subset (by decide)
  rw [bytes, List.mem_map] at mem
  obtain ⟨d, -, hd⟩ := mem
  exact (byte_ne d).2.1 hd

theorem strtoulDigits_bytes (digits : List (Fin 10)) (rest : List Byte) (n : Nat) :
    (strtoulDigits 10 (BitVec.ofNat 32 n) (bytes ⟨digits⟩ ++ 0#8 :: rest)).1 =
      BitVec.ofNat 32 (digits.foldl (fun n (d : Fin 10) => 10 * n + d.1) n) := by
  induction digits generalizing n with
  | nil => simp [bytes, strtoulDigits, xdigit]
  | cons d digits ih =>
      have next : BitVec.ofNat 32 n * BitVec.ofNat 32 10 + BitVec.ofNat 32 d.1 =
          BitVec.ofNat 32 (10 * n + d.1) := by
        rw [← BitVec.ofNat_mul, ← BitVec.ofNat_add, Nat.mul_comm]
      rw [bytes, List.map_cons, List.cons_append, strtoulDigits, xdigit_byte]
      simp only [d.2, if_true, next, List.foldl_cons]
      exact ih _

/-- A number is read back, whatever stands behind its terminator. -/
theorem simple_strtoul_bytes (v : Decimal) (rest : List Byte) :
    (simple_strtoul (v.bytes ++ 0#8 :: rest) 10).1 = BitVec.ofNat 32 v.value := by
  obtain ⟨digits⟩ := v
  have whole := strtoulDigits_bytes digits rest 0
  rw [simple_strtoul]
  cases digits with
  | nil => simpa [bytes, value] using whole
  | cons d digits =>
      split
      · -- a leading zero is skipped
        next hzero =>
          have hd : d.1 = 0 := by
            have : xdigit (BitVec.ofNat 8 (0x30 + d)) = xdigit 0x30#8 := by
              congr 1
              simpa [bytes] using hzero
            rw [xdigit_byte] at this
            simpa [xdigit] using this
          have nox : hexMark (bytes ⟨d :: digits⟩ ++ 0#8 :: rest).tail = false := by
            cases digits with
            | nil => cases rest <;> simp [bytes, hexMark]
            | cons e digits =>
                have := (byte_ne e).2.2
                cases hmore : (bytes ⟨digits⟩ ++ 0#8 :: rest) with
                | nil => simp at hmore
                | cons c more =>
                    have : (bytes ⟨d :: e :: digits⟩ ++ 0#8 :: rest).tail =
                        BitVec.ofNat 8 (0x30 + e) :: c :: more := by
                      rw [← hmore]
                      rfl
                    rw [this]
                    simp [hexMark, (byte_ne e).2.2]
          have short := strtoulDigits_bytes digits rest 0
          rw [if_neg (by simp [nox]), if_neg (by decide)]
          simpa [value, hd, bytes] using short
      · rw [if_neg (by decide)]
        exact whole

end Decimal

/-- The rounds that start in an option. -/
theorem blksizeOption_option (o : TftpOption) (rest : List Byte) (n size : Nat) :
    blksizeOption (o.bytes.length + n - 8) (o.bytes ++ rest) (BitVec.ofNat 16 size) =
      blksizeOption (n - 8) rest (BitVec.ofNat 16 (o.size size)) := by
  -- an option of another name
  have other : ∀ (name : List Byte) (v : Decimal), 0#8 ∉ name →
      ¬ ascii "blksize" <:+ name →
      blksizeOption ((strings [name, v.bytes]).length + n - 8) (strings [name, v.bytes] ++ rest)
        (BitVec.ofNat 16 size) = blksizeOption (n - 8) rest (BitVec.ofNat 16 size) := by
    intro name v hzero hno
    have split : strings [name, v.bytes] ++ rest =
        name ++ 0#8 :: (v.bytes ++ 0#8 :: rest) := by simp [strings]
    rw [split, blksizeOption_skip hzero hno, blksizeOption_skip v.zero_notMem v.not_suffix]
    congr 1
    simp only [strings, List.map_cons, List.map_nil, List.flatten_cons, List.flatten_nil,
      List.append_nil, List.length_append, List.length_cons, List.length_nil]
    omega
  cases o with
  | timeout v => exact other _ v (by decide) (by decide)
  | tsize v => exact other _ v (by decide) (by decide)
  | blksize v =>
      have split : strings [ascii "blksize", v.bytes] ++ rest =
          0x62#8 :: (ascii "lksize" ++ 0#8 :: (v.bytes ++ 0#8 :: rest)) := by
        simp [strings, ascii]
      have name : cstring (0x62#8 :: (ascii "lksize" ++ 0#8 :: (v.bytes ++ 0#8 :: rest))) =
          ascii "blksize" :=
        @cstring_append (ascii "blksize") (by decide) _
      have rounds : (strings [ascii "blksize", v.bytes]).length + n - 8 = (v.bytes.length + n) + 1 := by
        simp [strings, ascii]
        omega
      have hdrop : (0x62#8 :: (ascii "lksize" ++ 0#8 :: (v.bytes ++ 0#8 :: rest))).drop 8 =
          v.bytes ++ 0#8 :: rest := by
        simp [ascii]
      rw [TftpOption.bytes, split, rounds, blksizeOption, if_pos name, hdrop,
        v.simple_strtoul_bytes, List.tail_cons, blksizeOption_skip (by decide) (by decide),
        blksizeOption_skip v.zero_notMem v.not_suffix, TftpOption.size]
      congr 1
      · simp [ascii]
        omega
      · rw [BitVec.setWidth_ofNat_of_le (by decide)]

end Tftp

end UBoot
