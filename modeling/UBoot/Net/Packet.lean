/-
# Packets

Byte order, the checksum and the Internet Protocol header of `net/net.c` and
`include/net.h`, on a little-endian machine. A packet is the list of its bytes.
-/

import UBoot.LibGeneric.Crc32
import UBoot.Lib.Needs
import UBoot.Lib.Memory

namespace UBoot

/-- `htons` -/
def htons (x : BitVec 16) : List Byte := [(x >>> 8).setWidth 8, x.setWidth 8]

/-- `ntohs` of two bytes. -/
def ntohs (hi lo : Byte) : BitVec 16 := hi.setWidth 16 <<< 8 ||| lo.setWidth 16

@[simp]
theorem ntohs_htons (x : BitVec 16) : ntohs ((x >>> 8).setWidth 8) (x.setWidth 8) = x := by
  ext i hi
  simp only [ntohs, BitVec.getElem_or, BitVec.getElem_shiftLeft, BitVec.getElem_setWidth]
  by_cases h : i < 8
  · simp [h, ← BitVec.getLsbD_eq_getElem]
  · simp only [h, decide_false, Bool.not_false, Bool.true_and]
    have := BitVec.getLsbD_eq_getElem hi (x := x)
    simp only [BitVec.getLsbD_setWidth, BitVec.getLsbD_ushiftRight]
    rw [show 8 + (i - 8) = i by omega, show decide (i - 8 < 8) = true by simp; omega,
      show decide (i < 8) = false by simp; omega, ← this]
    simp

/-- The 16 bit field at an offset, in host order. -/
def field16 (pkt : List Byte) (i : Nat) : BitVec 16 := ntohs (pkt.getD i 0) (pkt.getD (i + 1) 0)

/-- `NetReadIP` at an offset. An address is the number its bytes spell. -/
def NetReadIP (pkt : List Byte) (i : Nat) : BitVec 32 :=
  field16 pkt i ++ field16 pkt (i + 2)

/-! ## The checksum -/

/-- `xsum += *p++`, a number of times. -/
def cksumWords : Nat → List Byte → BitVec 32
  | n + 1, b₀ :: b₁ :: p => (ntohs b₁ b₀).setWidth 32 + cksumWords n p
  | _, _ => 0

/-- `xsum = (xsum & 0xffff) + (xsum >> 16)` -/
def foldCarry (xsum : BitVec 32) : BitVec 32 := (xsum &&& 0xffff#32) + (xsum >>> 16)

/-- `NetCksum` of `len` words. -/
def NetCksum (ptr : List Byte) (len : Nat) : BitVec 32 :=
  foldCarry (foldCarry (cksumWords len ptr)) &&& 0xffff#32

/-- `NetCksumOk` -/
def NetCksumOk (ptr : List Byte) (len : Nat) : Bool :=
  (NetCksum ptr len + 1) &&& 0xfffe#32 = 0

/-! ## The Internet Protocol header -/

/-- `IP_HDR_SIZE_NO_UDP` -/
def IP_HDR_SIZE_NO_UDP : Nat := 20

/-- `IP_HDR_SIZE` -/
def IP_HDR_SIZE : Nat := 28

/-- `IP_OFFS` -/
def IP_OFFS : BitVec 16 := 0x1fff

/-- `IP_FLAGS_MFRAG` -/
def IP_FLAGS_MFRAG : BitVec 16 := 0x2000

def ip_hl_v (ip : List Byte) : Byte := ip.getD 0 0
def ip_len (ip : List Byte) : BitVec 16 := field16 ip 2
def ip_id (ip : List Byte) : BitVec 16 := field16 ip 4
def ip_off (ip : List Byte) : BitVec 16 := field16 ip 6
def ip_p (ip : List Byte) : Byte := ip.getD 9 0

/-- What `NetReceive` checks before it looks at fragments, of a packet from the header
to the end of the frame. -/
def ipAccepted (NetOurIP : BitVec 32) (ip : List Byte) : Bool :=
  IP_HDR_SIZE ≤ ip.length ∧ (ip_len ip).toNat ≤ ip.length ∧ ip_hl_v ip &&& 0xf0 = 0x40 ∧
    ip_hl_v ip &&& 0x0f ≤ 0x05 ∧ NetCksumOk ip (IP_HDR_SIZE_NO_UDP / 2) ∧
    (NetOurIP = 0 ∨ NetReadIP ip 16 = NetOurIP ∨ NetReadIP ip 16 = 0xffffffff)

end UBoot

/-!
## Payloads as bytes

What a handler reads of the payload that it is given, on a little-endian machine: shorts, words and
pieces. There is no result where a byte behind the payload is read.
-/

namespace UBoot.PacketBytes

open UBoot.Lib

/-- `ntohs` of the two bytes at an index. -/
def short (pkt : List Byte) (i : Nat) : Option (BitVec 16) := do
  let hi ← pkt[i]?
  let lo ← pkt[i + 1]?
  return ntohs hi lo

/-- `ntohl` of the word at an index. -/
def word (pkt : List Byte) (i : Nat) : Option (BitVec 32) := do
  let b₀ ← pkt[i]?
  let b₁ ← pkt[i + 1]?
  let b₂ ← pkt[i + 2]?
  let b₃ ← pkt[i + 3]?
  return b₀ ++ b₁ ++ b₂ ++ b₃

/-- The word at an index, with zeros for what is not there. -/
def wordAt (pkt : List Byte) (i : Nat) : BitVec 32 :=
  pkt.getD i 0 ++ pkt.getD (i + 1) 0 ++ pkt.getD (i + 2) 0 ++ pkt.getD (i + 3) 0

variable {pkt : List Byte}

theorem needs_short (pkt : List Byte) (i : Nat) :
    Needs pkt.length (short pkt i) (i + 2) (field16 pkt i) := by
  have hlo (hi : Byte) : Needs pkt.length (pkt[i + 1]? >>= fun lo => some (ntohs hi lo))
      (max (i + 1 + 1) 0) (ntohs hi (pkt.getD (i + 1) 0)) :=
    (needs_cell pkt (i + 1) 0).bind (Needs.pure _)
  have hread : Needs pkt.length (short pkt i) (max (i + 1) (max (i + 1 + 1) 0)) _ :=
    (needs_cell pkt i 0).bind (hlo _)
  rwa [show max (i + 1) (max (i + 1 + 1) 0) = i + 2 by omega] at hread

theorem needs_word (pkt : List Byte) (i : Nat) :
    Needs pkt.length (word pkt i) (i + 4) (wordAt pkt i) := by
  have hmax : i + 4 = max (i + 1) (max (i + 1 + 1) (max (i + 2 + 1) (max (i + 3 + 1) 0))) := by
    omega
  rw [hmax]
  refine (needs_cell pkt i 0).bind ?_
  refine (needs_cell pkt (i + 1) 0).bind ?_
  refine (needs_cell pkt (i + 2) 0).bind ?_
  exact (needs_cell pkt (i + 3) 0).bind (Needs.pure _)

theorem take_drop_eq_slice {i n : Nat} (h : i + n ≤ pkt.length) :
    (pkt.drop i).take n = slice (fun k => pkt.getD k 0) i n := by
  apply List.ext_getElem
  · rw [List.length_take, List.length_drop, length_slice]
    omega
  · intro k hk hk'
    rw [length_slice] at hk'
    have hlt : i + k < pkt.length := by omega
    simp only [slice, List.getElem_take, List.getElem_drop, List.getElem_map, List.getElem_range]
    rw [List.getD_eq_getElem?_getD, List.getElem?_eq_getElem hlt]
    rfl

theorem wordAt_take {i n : Nat} (h : i + 4 ≤ n) : wordAt (pkt.take n) i = wordAt pkt i := by
  have hcell (k : Nat) (hk : k < n) : (pkt.take n).getD k 0 = pkt.getD k 0 := by
    rw [List.getD_eq_getElem?_getD, List.getElem?_take_of_lt hk, List.getD_eq_getElem?_getD]
  unfold wordAt
  rw [hcell i (by omega), hcell (i + 1) (by omega), hcell (i + 2) (by omega),
    hcell (i + 3) (by omega)]

end UBoot.PacketBytes
