/-
# DNS responses

`DnsHandler` of `net/dns.c` on a little-endian machine. The payload is the list of its bytes, and
there is no result where a byte behind it is read. The owner of an answer is skipped by its first
byte: a pointer into the first 256 bytes has two bytes, and any other name ends with the first zero.
What is printed is left out.
-/

import UBoot.Net.Packet

namespace UBoot.Dns

open UBoot.Lib UBoot.PacketBytes

/-- `enum dns_query_type` -/
def DNS_A_RECORD : BitVec 16 := 1
def DNS_CNAME_RECORD : BitVec 16 := 5

/-- `ip_to_string`, for the bytes of an address. -/
def ip_to_string (x : List Byte) : String := ".".intercalate (x.map fun b => toString b.toNat)

/-- A call of `setenv`, and the local variables it is made from. -/
structure Stored where
  NetDNSenvvar : String
  dlen : Nat
  IPAddress : List Byte
  deriving DecidableEq

def Stored.IPStr (s : Stored) : String := ip_to_string s.IPAddress

/-- The response is not looked at, or `NetState` is set to `NETLOOP_SUCCESS`. -/
inductive Outcome where
  | ignored
  | success (setenv : Option Stored)
  deriving DecidableEq

section

variable (pkt : List Byte)

/-- `for (p = s; p < e && *p != '\0'; p++)` -/
def skipHostName (p : Nat) : Nat :=
  if p < pkt.length ∧ pkt[p]? ≠ some 0#8 then skipHostName (p + 1) else p
termination_by pkt.length - p

/-- `while (*p && &p[12] < e) p++` -/
def skipName (p : Nat) : Option Nat :=
  match pkt[p]? with
  | none => none
  | some b => if b ≠ 0#8 ∧ p + 12 < pkt.length then skipName (p + 1) else some p
termination_by pkt.length - p

/-- The beginning of a turn, up to the type: it is two bytes behind the result. -/
def skipOwner (p : Nat) : Option Nat :=
  match pkt[p]? with
  | none => none
  | some b => if b ≠ 0xc0#8 then (skipName pkt p).map (· - 1) else some p

variable {pkt}

theorem le_of_skipName {p q : Nat} (h : skipName pkt p = some q) : p ≤ q := by
  fun_induction skipName pkt p with
  | case1 => cases h
  | case2 p b _ _ ih => exact (Nat.le_succ p).trans (ih h)
  | case3 => exact (Option.some.inj h).le

/-- A turn steps back by a byte at most. -/
theorem le_of_skipOwner {p q : Nat} (h : skipOwner pkt p = some q) : p ≤ q + 1 := by
  unfold skipOwner at h
  split at h
  · cases h
  · split at h
    · obtain ⟨z, hz, rfl⟩ := Option.map_eq_some_iff.mp h
      have hle := le_of_skipName hz
      omega
    · exact (Option.some.inj h) ▸ Nat.le_succ p

variable (pkt)

/-- The loop over the answers: where it ends, and `found`. -/
def answerLoop (p : Nat) : Option (Nat × Bool) :=
  if p + 12 < pkt.length then
    match _h : skipOwner pkt p with
    | none => none
    | some q => do
        let type ← short pkt (q + 2)
        if type = DNS_CNAME_RECORD then
          let dlen ← short pkt (q + 10)
          answerLoop (q + (12 + dlen.toNat))
        else return (q, type = DNS_A_RECORD)
  else return (p, false)
termination_by pkt.length - p
decreasing_by
  have hle := le_of_skipOwner _h
  omega

/-- What follows the loop. -/
def copyAnswer (NetDNSenvvar : Option String) (p : Nat) (found : Bool) : Option Outcome :=
  if found ∧ p + 12 < pkt.length then do
    let dlen ← short pkt (p + 10)
    let IPAddress ← cells pkt (p + 12) 4
    if p + 12 + dlen.toNat ≤ pkt.length then
      return .success (NetDNSenvvar.map fun var => ⟨var, dlen.toNat, IPAddress⟩)
    else return .success none
  else return .success none

/-- `DnsHandler` behind the loop that prints the packet. -/
def DnsHandler (DnsOurPort : Nat) (NetDNSenvvar : Option String) (dest : Nat) : Option Outcome :=
  if dest ≠ DnsOurPort then return .ignored
  else do
    let nqueries ← short pkt 4
    if nqueries ≠ 1#16 then return .ignored
    else
      let nanswers ← short pkt 6
      if nanswers = 0#16 then return .success none
      else
        let p := skipHostName pkt 12
        let type ← short pkt (p + 1)
        if pkt.length < p + 5 ∨ type ≠ DNS_A_RECORD then return .success none
        else
          let (p, found) ← answerLoop pkt (p + 5)
          copyAnswer pkt NetDNSenvvar p found

/-- The loop that prints the packet ends: `i` is `u16`, and `len` is not. -/
def DumpEnds : Prop := ∃ k, pkt.length ≤ ((· + 4#16)^[k] 0#16).toNat

/-- What is done comes to its end, and if an address is stored it has four bytes. -/
def EndsWell (handled : Option Outcome) : Prop :=
  ∃ out, handled = some out ∧ ∀ s, out = .success (some s) → s.dlen = 4

/-- The handler comes to its end within the payload, and stores addresses of four bytes only. -/
def HandledInBounds (DnsOurPort : Nat) (NetDNSenvvar : Option String) : Prop :=
  DumpEnds pkt ∧ EndsWell (DnsHandler pkt DnsOurPort NetDNSenvvar DnsOurPort)

end

/-! ## Bytes -/

/-- Where the first zero from an index on is, or the end. -/
def zeroFrom (pkt : List Byte) (p : Nat) : Nat := p + ((pkt.drop p).takeWhile (· ≠ 0#8)).length

theorem zeroFrom_of_ne {pkt : List Byte} {p : Nat} {b : Byte} (h : pkt[p]? = some b)
    (hb : b ≠ 0#8) : zeroFrom pkt p = zeroFrom pkt (p + 1) := by
  obtain ⟨hlt, hcell⟩ := List.getElem?_eq_some_iff.mp h
  rw [zeroFrom, List.drop_eq_getElem_cons hlt, hcell,
    List.takeWhile_cons_of_pos (by simpa using hb), List.length_cons, zeroFrom]
  omega

theorem zeroFrom_of_eq {pkt : List Byte} {p : Nat} (h : pkt[p]? = some 0#8) :
    zeroFrom pkt p = p := by
  obtain ⟨hlt, hcell⟩ := List.getElem?_eq_some_iff.mp h
  rw [zeroFrom, List.drop_eq_getElem_cons hlt, hcell, List.takeWhile_cons_of_neg (by simp)]
  rfl

theorem zeroFrom_of_le {pkt : List Byte} {p : Nat} (h : pkt.length ≤ p) : zeroFrom pkt p = p := by
  rw [zeroFrom, List.drop_eq_nil_of_le h]
  rfl

theorem skipHostName_eq (pkt : List Byte) (p : Nat) : skipHostName pkt p = zeroFrom pkt p := by
  fun_induction skipHostName pkt p with
  | case1 p h ih =>
      have hcell := List.getElem?_eq_getElem h.1
      rw [ih, zeroFrom_of_ne hcell]
      intro hzero
      rw [hzero] at hcell
      exact h.2 hcell
  | case2 p h =>
      rw [not_and_or, Nat.not_lt, not_not] at h
      rcases h with hle | hzero
      · exact (zeroFrom_of_le hle).symm
      · exact (zeroFrom_of_eq hzero).symm

end UBoot.Dns
