/-
# CDP packets

`CDPHandler` and `CDP_compute_csum` of `net/net.c`, on the bytes of a payload. There is no result
where a byte behind the payload is read, and the loop over the TLVs has a number of turns, so that
a handler that returns is one that has a result in some number of turns. The length that a TLV
gives is compared with what is left, but never with the four bytes of its own header.
-/

import UBoot.Net.Packet
import UBoot.Net.SetIP

namespace UBoot.Cdp

open UBoot.Lib UBoot.PacketBytes

def CDP_NATIVE_VLAN_TLV : BitVec 16 := 0x000a
def CDP_APPLIANCE_VLAN_TLV : BitVec 16 := 0x000e

def CDP_SNAP_hdr : List Byte := [0xAA, 0xAA, 0x03, 0x00, 0x00, 0x0C, 0x20, 0x00]

/-- The machine and its configuration. -/
structure Config where
  /-- the machine is big-endian -/
  big : Bool
  /-- a payload is at an odd address -/
  odd : Bool
  CONFIG_CDP_APPLIANCE_VLAN_TYPE : Option Byte

/-- A `ushort` at an index, as the machine reads it. -/
def ushortAt (big : Bool) (pkt : List Byte) (i : Nat) : Option (BitVec 16) := do
  let b₀ ← pkt[i]?
  let b₁ ← pkt[i + 1]?
  return if big then ntohs b₀ b₁ else ntohs b₁ b₀

/-! ## The checksum -/

/-- The words from an index on, with what is left of the length. -/
def csumWords (big : Bool) (buff : List Byte) :
    Nat → Nat → BitVec 32 → Option (BitVec 32 × Nat × Nat)
  | i, len + 2, result => do
      let word ← ushortAt big buff i
      let result := result + word.setWidth 32
      let result := if result &&& 0x80000000 = 0 then result else foldCarry result
      csumWords big buff (i + 2) len result
  | i, len, result => some (result, i, len)

/-- The first byte of an odd address. -/
def csumFirst (odd : Bool) (buff : List Byte) (len : Nat) : Option (BitVec 32 × Nat × Nat) :=
  if odd then do
    let first ← buff[0]?
    return (first.setWidth 32 <<< 8, 1, len - 1)
  else some (0, 0, len)

/-- The last byte, which is sign-extended. -/
def csumLast (buff : List Byte) (i len : Nat) (result : BitVec 32) : Option (BitVec 32) :=
  if len = 0 then some result else do
    let last ← buff[i]?
    let leftover : BitVec 16 := last.signExtend 16
    return result &&& 0xffff0000 ||| ((result + leftover.setWidth 32) &&& 0x0000ffff)

theorem foldCarry_lt {result : BitVec 32} (h : result >>> 16 ≠ 0) :
    (foldCarry result).toNat < result.toNat := by
  have hne : (result >>> 16).toNat ≠ 0 := fun hzero => h (BitVec.eq_of_toNat_eq hzero)
  rw [BitVec.toNat_ushiftRight, Nat.shiftRight_eq_div_pow] at hne
  rw [foldCarry_toNat]
  omega

/-- `while (result >> 16)` -/
def foldAll (result : BitVec 32) : BitVec 32 :=
  if _h : result >>> 16 = 0 then result else foldAll (foldCarry result)
termination_by result.toNat
decreasing_by exact foldCarry_lt ‹_›

/-- The bytes of the sum are the other way round at an odd address. -/
def turned (odd : Bool) (result : BitVec 32) : BitVec 32 :=
  if odd then ((result >>> 8) &&& 0xff) ||| ((result &&& 0xff) <<< 8) else result

/-- The sum of so many bytes. -/
def csumOf (c : Config) (buff : List Byte) (len : Nat) : Option (BitVec 32) :=
  if len = 0 then some 0 else do
    let (result, i, len) ← csumFirst c.odd buff len
    let (result, i, len) ← csumWords c.big buff i len result
    let result ← csumLast buff i len result
    return turned c.odd (foldAll result)

/-- `CDP_compute_csum` -/
def CDP_compute_csum (c : Config) (buff : List Byte) (len : BitVec 16) : Option (BitVec 16) := do
  let result ← csumOf c buff len.toNat
  let csum := ~~~ (foldCarry (foldCarry (foldCarry result))).setWidth 16
  return if csum ≠ SetIP.htons c.big csum then SetIP.htons c.big csum else csum

/-! ## The handler -/

/-- What `CDPHandler` does before it looks at the TLVs: whether it goes on to them. -/
def accepts (c : Config) (pkt : List Byte) : Option Bool :=
  if pkt.length < 12 then some false else do
    let hdr ← cells pkt 0 8
    if hdr ≠ CDP_SNAP_hdr then some false else do
      let version ← pkt[8]?
      if version < 0x02 then some false else do
        let ttl ← pkt[9]?
        if ttl = 0 then some false else do
          let csum ← CDP_compute_csum c (pkt.drop 8) (BitVec.ofNat 16 (pkt.length - 8))
          return csum = 0

/-- `vlan` and `nvlan` -/
structure Vlans where
  vlan : BitVec 16
  nvlan : BitVec 16

/-- The VLAN of an entry of a list, if there is one of its kind to be looked for. -/
def applianceVlan (c : Config) (pkt : List Byte) (t : Nat) (applid : Byte) (vlan : BitVec 16) :
    Option (BitVec 16) :=
  match c.CONFIG_CDP_APPLIANCE_VLAN_TYPE with
  | some type => if applid = type then ushortAt c.big pkt (t + 1) else some vlan
  | none => short pkt (t + 1)

/-- The loop over the appliance VLANs. There is no VLAN if the list is too short. -/
def applianceLoop (c : Config) (pkt : List Byte) :
    Nat → Nat → BitVec 16 → Option (Option (BitVec 16))
  | _, 0, vlan => some (some vlan)
  | t, tlen + 3, vlan => do
      let applid ← pkt[t]?
      let vlan ← applianceVlan c pkt t applid vlan
      applianceLoop c pkt (t + 3) tlen vlan
  | _, _, _ => some none

/-- The type and the length of the TLV in front. -/
def type (pkt : List Byte) : BitVec 16 := field16 pkt 0
def tlen (pkt : List Byte) : BitVec 16 := field16 pkt 2

/-- What the TLV in front says, if it is not too short. Other types say nothing. -/
def tlv (c : Config) (type tlen : BitVec 16) (pkt : List Byte) (v : Vlans) :
    Option (Option Vlans) :=
  if type = CDP_NATIVE_VLAN_TLV then do
    let nvlan ← ushortAt c.big pkt 4
    return some { v with nvlan }
  else if type = CDP_APPLIANCE_VLAN_TLV then do
    let vlan ← applianceLoop c pkt 4 (tlen - 4).toNat v.vlan
    return vlan.map fun vlan => { v with vlan }
  else some (some v)

/-- The loop over the TLVs in a number of turns. There are no VLANs if the packet is too short. -/
def tlvLoop (c : Config) : Nat → List Byte → Vlans → Option (Option Vlans)
  | 0, _, _ => none
  | turns + 1, pkt, v =>
      if pkt.length = 0 then some (some v)
      else if pkt.length < 4 then some none
      else do
        let type ← short pkt 0
        let tlen ← short pkt 2
        if pkt.length < tlen.toNat then some none else do
          let read ← tlv c type tlen pkt v
          read.elim (some none) (tlvLoop c turns (pkt.drop tlen.toNat))

/-- `CDPHandler` in a number of turns: the VLANs it sets, if it sets any. -/
def CDPHandler (c : Config) (turns : Nat) (pkt : List Byte) : Option (Option Vlans) := do
  if ← accepts c pkt then tlvLoop c turns (pkt.drop 12) ⟨0xffff, 0xffff⟩ else return none

/-! ## What the handler has to do -/

/-- The loop over the TLVs takes one of this length from what is left. -/
inductive Takes (c : Config) (n : Nat) : List Byte → Vlans → Prop where
  | front {pkt : List Byte} {v : Vlans} (header : 4 ≤ pkt.length)
      (inside : (tlen pkt).toNat ≤ pkt.length) (length : (tlen pkt).toNat = n) : Takes c n pkt v
  | later {pkt : List Byte} {v v' : Vlans} (header : 4 ≤ pkt.length)
      (inside : (tlen pkt).toNat ≤ pkt.length)
      (value : tlv c (type pkt) (tlen pkt) pkt v = some (some v'))
      (rest : Takes c n (pkt.drop (tlen pkt).toNat) v') : Takes c n pkt v

/-- The loop comes to an end without a byte behind what is left, and takes at least the header of
each TLV. -/
structure LoopRight (c : Config) (pkt : List Byte) (v : Vlans) : Prop where
  returns : ∃ turns r, tlvLoop c turns pkt v = some r
  consumes : ∀ n, Takes c n pkt v → 4 ≤ n

/-- The handler comes to an end without a byte behind the payload, and takes at least the header of
each TLV. -/
structure HandlesRight (c : Config) (pkt : List Byte) : Prop where
  returns : ∃ turns r, CDPHandler c turns pkt = some r
  consumes : accepts c pkt = some true → ∀ n, Takes c n (pkt.drop 12) ⟨0xffff, 0xffff⟩ → 4 ≤ n

/-- The TLVs up to the end, or to the first one that is too long or has an incomplete list of
appliance VLANs, are at least as long as their header, and a native VLAN has two bytes behind its
header. -/
inductive TlvsRight : List Byte → Prop where
  | short {pkt : List Byte} (h : pkt.length < 4) : TlvsRight pkt
  | long {pkt : List Byte} (h : pkt.length < (tlen pkt).toNat) : TlvsRight pkt
  | incomplete {pkt : List Byte} (header : 4 ≤ (tlen pkt).toNat)
      (inside : (tlen pkt).toNat ≤ pkt.length) (appliance : type pkt = CDP_APPLIANCE_VLAN_TLV)
      (list : ¬3 ∣ (tlen pkt).toNat - 4) : TlvsRight pkt
  | next {pkt : List Byte} (header : 4 ≤ (tlen pkt).toNat)
      (inside : (tlen pkt).toNat ≤ pkt.length)
      (native : type pkt = CDP_NATIVE_VLAN_TLV → 6 ≤ pkt.length)
      (rest : TlvsRight (pkt.drop (tlen pkt).toNat)) : TlvsRight pkt

/-! ## Reads -/

theorem needs_ushortAt (big : Bool) (pkt : List Byte) (i : Nat) :
    ∃ x, Needs pkt.length (ushortAt big pkt i) (i + 2) x := by
  have hsecond (b₀ : Byte) : Needs pkt.length (pkt[i + 1]? >>= fun b₁ =>
      some (if big then ntohs b₀ b₁ else ntohs b₁ b₀)) (i + 2) _ := (needs_cell pkt (i + 1) 0).map _
  have hread : Needs pkt.length (ushortAt big pkt i) (max (i + 1) (i + 2)) _ :=
    (needs_cell pkt i 0).bind (hsecond _)
  rw [max_eq_right (by omega)] at hread
  exact ⟨_, hread⟩

theorem ushortAt_inside (big : Bool) {pkt : List Byte} {i : Nat} (h : i + 2 ≤ pkt.length) :
    ∃ x, ushortAt big pkt i = some x := by
  obtain ⟨x, hx⟩ := needs_ushortAt big pkt i
  exact ⟨x, hx.eq_some h⟩

theorem csumWords_inside (big : Bool) {buff : List Byte} {i len : Nat} (result : BitVec 32)
    (h : i + len ≤ buff.length) :
    ∃ result' i' len', csumWords big buff i len result = some (result', i', len') ∧
      i' + len' ≤ buff.length := by
  fun_induction csumWords big buff i len result with
  | case1 i len result ih =>
      obtain ⟨word, hword⟩ := ushortAt_inside big (by omega : i + 2 ≤ buff.length)
      obtain ⟨result', i', len', heq, hle⟩ := ih word (by omega)
      refine ⟨result', i', len', ?_, hle⟩
      rw [hword]
      exact heq
  | case2 i len result hshort => exact ⟨result, i, len, rfl, h⟩

theorem csumFirst_inside (odd : Bool) {buff : List Byte} {len : Nat} (hpos : 0 < len)
    (h : len ≤ buff.length) : ∃ result i len', csumFirst odd buff len = some (result, i, len') ∧
      i + len' ≤ buff.length := by
  rw [csumFirst]
  split
  · rw [List.getElem?_eq_getElem (by omega)]
    exact ⟨_, _, _, rfl, by omega⟩
  · exact ⟨_, _, _, rfl, by omega⟩

theorem csumLast_inside {buff : List Byte} {i len : Nat} (result : BitVec 32)
    (h : i + len ≤ buff.length) : ∃ result', csumLast buff i len result = some result' := by
  rw [csumLast]
  split
  · exact ⟨result, rfl⟩
  · rw [List.getElem?_eq_getElem (by omega)]
    exact ⟨_, rfl⟩

theorem csumOf_inside (c : Config) {buff : List Byte} {len : Nat} (h : len ≤ buff.length) :
    ∃ result, csumOf c buff len = some result := by
  rw [csumOf]
  split
  · exact ⟨_, rfl⟩
  · next hne =>
      obtain ⟨result, i, rest, hfirst, hle⟩ := csumFirst_inside c.odd (Nat.pos_of_ne_zero hne) h
      obtain ⟨result', i', rest', hwords, hle'⟩ := csumWords_inside c.big result hle
      obtain ⟨result'', hlast⟩ := csumLast_inside result' hle'
      rw [hfirst]
      dsimp only [Option.bind_eq_bind, Option.bind_some]
      rw [hwords]
      dsimp only [Option.bind_some]
      rw [hlast]
      exact ⟨_, rfl⟩

/-- The checksum is one of the bytes that it is given. -/
theorem csum_inside (c : Config) {buff : List Byte} {len : BitVec 16}
    (h : len.toNat ≤ buff.length) : ∃ csum, CDP_compute_csum c buff len = some csum := by
  obtain ⟨result, hresult⟩ := csumOf_inside c h
  rw [CDP_compute_csum, hresult]
  exact ⟨_, rfl⟩

theorem accepts_inside (c : Config) (pkt : List Byte) : ∃ b, accepts c pkt = some b := by
  rw [accepts]
  split
  · exact ⟨false, rfl⟩
  · next hlength =>
      have hle : (BitVec.ofNat 16 (pkt.length - 8)).toNat ≤ (pkt.drop 8).length := by
        rw [BitVec.toNat_ofNat, List.length_drop]
        exact Nat.mod_le _ _
      obtain ⟨csum, hcsum⟩ := csum_inside c hle
      rw [(needs_cells pkt 0 8).eq_some (by omega), List.getElem?_eq_getElem (by omega),
        List.getElem?_eq_getElem (by omega), hcsum]
      dsimp only [Option.bind_eq_bind, Option.bind_some]
      split_ifs <;> exact ⟨_, rfl⟩

/-! ## The loop over the TLVs -/

theorem applianceVlan_inside (c : Config) {pkt : List Byte} {t : Nat} (applid : Byte)
    (vlan : BitVec 16) (h : t + 3 ≤ pkt.length) :
    ∃ vlan', applianceVlan c pkt t applid vlan = some vlan' := by
  rw [applianceVlan]
  split
  · split
    · exact ushortAt_inside c.big h
    · exact ⟨vlan, rfl⟩
  · exact ⟨_, (needs_short pkt (t + 1)).eq_some h⟩

theorem applianceLoop_inside (c : Config) {pkt : List Byte} {t tlen : Nat} (vlan : BitVec 16)
    (h : t + tlen ≤ pkt.length) :
    ∃ r, applianceLoop c pkt t tlen vlan = some r ∧ (r = none ↔ ¬3 ∣ tlen) := by
  fun_induction applianceLoop c pkt t tlen vlan with
  | case1 t vlan => exact ⟨some vlan, rfl, iff_of_false nofun (not_not.mpr (Nat.dvd_zero 3))⟩
  | case2 t tlen vlan ih =>
      obtain ⟨vlan', hvlan⟩ := applianceVlan_inside c pkt[t] vlan (by omega : t + 3 ≤ pkt.length)
      obtain ⟨r, hr, hnone⟩ := ih vlan' (by omega)
      refine ⟨r, ?_, hnone.trans (not_congr (Nat.dvd_add_left (Nat.dvd_refl 3)).symm)⟩
      rw [List.getElem?_eq_getElem (by omega)]
      exact (congrArg (Option.bind · _) hvlan).trans hr
  | case3 t tlen vlan hpos hshort =>
      refine ⟨none, rfl, iff_of_true rfl fun ⟨k, hk⟩ => ?_⟩
      cases k with
      | zero => exact hpos hk
      | succ k => exact hshort (3 * k) hk

variable {c : Config} {pkt : List Byte} {v : Vlans}

/-- A TLV that has its header, and a native VLAN the two bytes behind it. -/
theorem tlv_inside (c : Config) (hheader : 4 ≤ (tlen pkt).toNat) (hinside : (tlen pkt).toNat ≤ pkt.length)
    (hnative : type pkt = CDP_NATIVE_VLAN_TLV → 6 ≤ pkt.length) (v : Vlans) :
    ∃ r, tlv c (type pkt) (tlen pkt) pkt v = some r ∧
      (r = none ↔ type pkt = CDP_APPLIANCE_VLAN_TLV ∧ ¬3 ∣ (tlen pkt).toNat - 4) := by
  have hsub : (tlen pkt - 4).toNat = (tlen pkt).toNat - 4 := by bv_omega
  rw [tlv, hsub]
  split
  · next heq =>
      obtain ⟨x, hx⟩ := ushortAt_inside c.big (hnative heq)
      rw [hx, heq]
      exact ⟨_, rfl, iff_of_false nofun fun h => absurd h.1 (by decide)⟩
  · split
    · next heq =>
        obtain ⟨r, hr, hnone⟩ := applianceLoop_inside c v.vlan
          (by omega : 4 + ((tlen pkt).toNat - 4) ≤ pkt.length)
        rw [hr]
        refine ⟨_, rfl, ?_⟩
        rw [Option.map_eq_none_iff, hnone, and_iff_right heq]
    · next hne => exact ⟨_, rfl, iff_of_false nofun fun h => hne h.1⟩

theorem tlvLoop_empty (turns : Nat) (v : Vlans) : tlvLoop c (turns + 1) [] v = some (some v) := rfl

theorem tlvLoop_short (hpos : pkt.length ≠ 0) (hshort : pkt.length < 4) (turns : Nat) :
    tlvLoop c (turns + 1) pkt v = some none := by
  rw [tlvLoop, if_neg hpos, if_pos hshort]

/-- A turn at a TLV with its header. -/
theorem tlvLoop_turn (h : 4 ≤ pkt.length) (turns : Nat) : tlvLoop c (turns + 1) pkt v =
    if pkt.length < (tlen pkt).toNat then some none else
      tlv c (type pkt) (tlen pkt) pkt v >>= fun r =>
        r.elim (some none) (tlvLoop c turns (pkt.drop (tlen pkt).toNat)) := by
  rw [tlvLoop, if_neg (by omega), if_neg (by omega), (needs_short pkt 0).eq_some (by omega),
    (needs_short pkt 2).eq_some h]
  rfl

theorem Takes.cases {n : Nat} (h : Takes c n pkt v) : 4 ≤ pkt.length ∧
    (tlen pkt).toNat ≤ pkt.length ∧ ((tlen pkt).toNat = n ∨
      ∃ v', tlv c (type pkt) (tlen pkt) pkt v = some (some v') ∧
        Takes c n (pkt.drop (tlen pkt).toNat) v') := by
  cases h with
  | front header inside length => exact ⟨header, inside, .inl length⟩
  | later header inside value rest => exact ⟨header, inside, .inr ⟨_, value, rest⟩⟩

/-- The loop stops in front of a TLV that is not there, or that is too long. -/
theorem loop_stops (v : Vlans) (h : pkt.length < 4 ∨ pkt.length < (tlen pkt).toNat) :
    LoopRight c pkt v := by
  have hnot (n : Nat) (htakes : Takes c n pkt v) : 4 ≤ n := by
    obtain ⟨header, inside, -⟩ := htakes.cases
    omega
  refine ⟨⟨1, ?_⟩, hnot⟩
  by_cases hzero : pkt.length = 0
  · obtain rfl := List.eq_nil_of_length_eq_zero hzero
    exact ⟨_, tlvLoop_empty 0 v⟩
  · by_cases hshort : pkt.length < 4
    · exact ⟨_, tlvLoop_short hzero hshort 0⟩
    · rw [tlvLoop_turn (by omega), if_pos (h.resolve_left hshort)]
      exact ⟨_, rfl⟩

/-- The loop stops in a TLV. -/
theorem loop_ends {v : Vlans} (header : 4 ≤ (tlen pkt).toNat)
    (inside : (tlen pkt).toNat ≤ pkt.length)
    (hread : tlv c (type pkt) (tlen pkt) pkt v = some none) : LoopRight c pkt v := by
  refine ⟨⟨1, none, ?_⟩, fun n htakes => ?_⟩
  · rw [tlvLoop_turn (by omega), if_neg (by omega), hread]
    rfl
  · obtain ⟨-, -, rfl | ⟨v', hv, -⟩⟩ := htakes.cases
    · exact header
    · exact nomatch hread.symm.trans hv

theorem TlvsRight.loop (h : TlvsRight pkt) (v : Vlans) : LoopRight c pkt v := by
  induction h generalizing v with
  | short h => exact loop_stops v (.inl h)
  | long h => exact loop_stops v (.inr h)
  | incomplete header inside appliance list =>
      obtain ⟨r, hr, hnone⟩ := tlv_inside c header inside
        (fun heq => absurd (heq.symm.trans appliance) (by decide)) v
      obtain rfl := hnone.mpr ⟨appliance, list⟩
      exact loop_ends header inside hr
  | next header inside native rest ih =>
      obtain ⟨r, hr, -⟩ := tlv_inside c header inside native v
      cases r with
      | none => exact loop_ends header inside hr
      | some v' =>
          obtain ⟨turns, r, hreturn⟩ := (ih v').returns
          refine ⟨⟨turns + 1, r, ?_⟩, fun n htakes => ?_⟩
          · rw [tlvLoop_turn (by omega), if_neg (by omega), hr]
            exact hreturn
          · obtain ⟨-, -, rfl | ⟨v'', hv, hlater⟩⟩ := htakes.cases
            · exact header
            · obtain rfl := Option.some.inj (Option.some.inj (hr.symm.trans hv))
              exact (ih v').consumes n hlater

/-- A native VLAN that is read is there. -/
theorem native_inside {r : Option Vlans} (htype : type pkt = CDP_NATIVE_VLAN_TLV)
    (hread : tlv c (type pkt) (tlen pkt) pkt v = some r) : 6 ≤ pkt.length := by
  obtain ⟨x, hx⟩ := needs_ushortAt c.big pkt 4
  rw [tlv, if_pos htype, Option.bind_eq_bind, Option.bind_eq_some_iff] at hread
  obtain ⟨x', hx', -⟩ := hread
  exact (hx.eq_some_iff.mp hx').1

theorem LoopRight.tlvs (h : LoopRight c pkt v) : TlvsRight pkt := by
  induction hn : pkt.length using Nat.strong_induction_on generalizing pkt v with
  | _ n ih =>
      by_cases hshort : pkt.length < 4
      · exact .short hshort
      · by_cases hlong : pkt.length < (tlen pkt).toNat
        · exact .long hlong
        · rw [Nat.not_lt] at hshort hlong
          have hheader : 4 ≤ (tlen pkt).toNat := h.consumes _ (.front hshort hlong rfl)
          obtain ⟨turns, r, hreturn⟩ := h.returns
          cases turns with
          | zero => exact nomatch hreturn
          | succ turns =>
              rw [tlvLoop_turn hshort, if_neg (Nat.not_lt.mpr hlong), Option.bind_eq_bind,
                Option.bind_eq_some_iff] at hreturn
              obtain ⟨read, hread, hrest⟩ := hreturn
              have hnative (htype : type pkt = CDP_NATIVE_VLAN_TLV) : 6 ≤ pkt.length :=
                native_inside htype hread
              obtain ⟨read', hread', hnone⟩ := tlv_inside c hheader hlong hnative v
              obtain rfl := Option.some.inj (hread'.symm.trans hread)
              cases read' with
              | none =>
                  obtain ⟨appliance, list⟩ := hnone.mp rfl
                  exact .incomplete hheader hlong appliance list
              | some v' =>
                  have hlength : (pkt.drop (tlen pkt).toNat).length < n := by
                    rw [List.length_drop]
                    omega
                  exact .next hheader hlong hnative (ih _ hlength ⟨⟨turns, r, hrest⟩,
                    fun n htakes => h.consumes n (.later hshort hlong hread htakes)⟩ rfl)

theorem loopRight_iff (c : Config) (pkt : List Byte) (v : Vlans) :
    LoopRight c pkt v ↔ TlvsRight pkt := ⟨LoopRight.tlvs, fun h => h.loop v⟩

/-! ## The handler -/

theorem CDPHandler_accepted (h : accepts c pkt = some true) (turns : Nat) :
    CDPHandler c turns pkt = tlvLoop c turns (pkt.drop 12) ⟨0xffff, 0xffff⟩ := by
  rw [CDPHandler, h]
  rfl

/-- The handler comes to an end in bounds, taking four bytes or more for each TLV, exactly if it
does not go on to the TLVs or they are as long as what is read of them. -/
theorem handlesRight_iff (c : Config) (pkt : List Byte) :
    HandlesRight c pkt ↔ (accepts c pkt = some true → TlvsRight (pkt.drop 12)) := by
  obtain ⟨accepted, haccepts⟩ := accepts_inside c pkt
  cases accepted with
  | false =>
      refine iff_of_true ⟨⟨0, none, ?_⟩, fun h => nomatch haccepts.symm.trans h⟩
        fun h => nomatch haccepts.symm.trans h
      rw [CDPHandler, haccepts]
      rfl
  | true =>
      rw [← loopRight_iff c (pkt.drop 12) ⟨0xffff, 0xffff⟩]
      constructor
      · intro h _
        obtain ⟨turns, r, hreturn⟩ := h.returns
        rw [CDPHandler_accepted haccepts] at hreturn
        exact ⟨⟨turns, r, hreturn⟩, h.consumes haccepts⟩
      · intro h
        obtain ⟨turns, r, hreturn⟩ := (h haccepts).returns
        rw [← CDPHandler_accepted haccepts] at hreturn
        exact ⟨⟨turns, r, hreturn⟩, fun _ => (h haccepts).consumes⟩

/-- A TLV of length zero. -/
def endless : List Byte :=
  CDP_SNAP_hdr ++ [0x02, 0xB4, 0xFD, 0x4A] ++ [0x00, 0x01, 0x00, 0x00]

theorem accepts_endless : accepts ⟨false, false, none⟩ endless = some true := by
  have hfold : foldAll 0xffff = 0xffff := by
    rw [foldAll]
    exact dif_pos rfl
  have hsum : csumOf ⟨false, false, none⟩ (endless.drop 8) 8 = some 0xffff := by
    have hwords : csumWords false (endless.drop 8) 0 8 0 = some (0xffff, 8, 0) := by decide
    rw [csumOf, if_neg (by decide), csumFirst, if_neg Bool.false_ne_true]
    dsimp only [Option.bind_eq_bind, Option.bind_some]
    rw [hwords]
    dsimp only [Option.bind_some]
    rw [csumLast, if_pos rfl]
    dsimp only [Option.bind_some]
    rw [hfold]
    rfl
  have hcsum : CDP_compute_csum ⟨false, false, none⟩ (endless.drop 8) 8 = some 0 := by
    rw [CDP_compute_csum, show (8 : BitVec 16).toNat = 8 from rfl, hsum]
    decide
  have hlength : BitVec.ofNat 16 (endless.length - 8) = 8 := by decide
  rw [accepts, hlength, hcsum]
  decide

/-- The handler does not come back from a TLV of length zero. -/
theorem not_handlesRight : ¬HandlesRight ⟨false, false, none⟩ endless := by
  intro h
  obtain ⟨turns, r, hreturn⟩ := h.returns
  rw [CDPHandler_accepted accepts_endless] at hreturn
  induction turns with
  | zero => exact nomatch hreturn
  | succ turns ih => exact ih hreturn

end UBoot.Cdp
