/-
# Well formed replies

A reply of `NetReceive` is well formed if it is framed for the sender of the request, its body
is the request with the addresses swapped, and its checksums are right. That is so exactly for
the requests that suit the place the reply is built in.
-/

import UBoot.Net.Reply

namespace UBoot.NetReceive

open UBoot.Lib

variable (cfg : NetConfig) (NetOurEther : EtherAddr) (inpkt : List Byte)

/-! ## The body of an echo reply -/

/-- The IP packet of a reply to an echo request. -/
structure EchoBody (req body : List Byte) : Prop where
  length : body.length = req.length
  whole : IP_HDR_SIZE ≤ body.length
  start : body.take 6 = req.take 6
  unfragmented : field16 body 6 &&& (IP_OFFS ||| IP_FLAGS_MFRAG) = 0
  middle : (body.drop 8).take 2 = (req.drop 8).take 2
  src : (body.drop 12).take 4 = (req.drop 16).take 4
  dest : (body.drop 16).take 4 = (req.drop 12).take 4
  type : (body.drop 20).take 1 = [ICMP_ECHO_REPLY]
  code : (body.drop 21).take 1 = (req.drop 21).take 1
  payload : body.drop 24 = req.drop 24
  header_sum : NetCksumOk (body.take 20) 10
  icmp_sum : NetCksumOk (padded (body.drop 20)) ((padded (body.drop 20)).length / 2)

section Echo

variable (m : Nat → Byte) (ip : Nat)

/-- The fields of the IP header of a reply. -/
theorem slice_echoHeader :
    slice (echoHeader cfg m ip) ip 6 = slice m ip 6 ∧
    slice (echoHeader cfg m ip) (ip + 6) 2 = [0, 0] ∧
    slice (echoHeader cfg m ip) (ip + 8) 2 = slice m (ip + 8) 2 ∧
    slice (echoHeader cfg m ip) (ip + 12) 4 = ipBytes cfg.NetOurIP ∧
    slice (echoHeader cfg m ip) (ip + 16) 4 = slice m (ip + 12) 4 := by
  have len (x : BitVec 32) : (ipBytes x).length = 4 ∧ (hostBytes x).length = 2 := ⟨rfl, rfl⟩
  refine ⟨?_, ?_, ?_, ?_, ?_⟩
  all_goals simp only [echoHeader]
  · repeat rw [slice_store_beside (by simp)]
  · rw [slice_store_beside (by simp [len]), slice_store_beside (by simp [len]),
      slice_store_beside (by simp)]
    exact slice_store_same rfl
  · repeat rw [slice_store_beside (by simp)]
  · rw [slice_store_beside (by simp [len])]
    exact slice_store_same rfl
  · rw [slice_store_beside (by simp [len]), slice_store_beside (by simp [len]),
      slice_store_same (length_slice _ _ _)]
    repeat rw [slice_store_beside (by simp)]

theorem slice_echoHeader_behind {j : Nat} (h : 20 ≤ j) (n : Nat) :
    slice (echoHeader cfg m ip) (ip + j) n = slice m (ip + j) n := by
  simp only [echoHeader]
  repeat rw [slice_store_beside (by simp [hostBytes, ipBytes, htons]; omega)]

theorem echoHeader_sum : 65535 ∣ wordSum (slice (echoHeader cfg m ip) ip 20) := by
  refine @dvd_store_checksum _ ip 10 10 (by decide) (by decide) (by decide) ?_
  rw [slice_store_beside (by simp [ipBytes, htons]), slice_store_beside (by simp),
    slice_store_beside (by simp)]
  exact slice_store_same rfl

/-- The fields of the ICMP header of a reply. -/
theorem slice_echoIcmp (words : Nat) :
    slice (echoIcmp m ip words) ip 20 = slice m ip 20 ∧
    slice (echoIcmp m ip words) (ip + 20) 1 = [ICMP_ECHO_REPLY] ∧
    slice (echoIcmp m ip words) (ip + 21) 1 = slice m (ip + 21) 1 ∧
    ∀ n, slice (echoIcmp m ip words) (ip + 24) n = slice m (ip + 24) n := by
  have len (x : BitVec 32) : (hostBytes x).length = 2 := rfl
  refine ⟨?_, ?_, ?_, fun n => ?_⟩
  all_goals simp only [echoIcmp]
  · repeat rw [slice_store_beside (by simp)]
  · rw [slice_store_beside (by simp), slice_store_beside (by simp)]
    exact slice_store_same rfl
  · repeat rw [slice_store_beside (by simp)]
  · repeat rw [slice_store_beside (by simp [len])]

theorem echoIcmp_sum {words : Nat} (room : 4 ≤ 2 * words) (small : words ≤ 65536) :
    65535 ∣ wordSum (slice (echoIcmp m ip words) (ip + 20) (2 * words)) := by
  refine @dvd_store_checksum _ (ip + 20) 2 words (by decide) room small ?_
  exact slice_store_same rfl

/-- The bytes behind the IP header of a reply add up to the odd byte that was left out. -/
theorem echoIcmp_sum_iff {len : Nat} (room : IP_HDR_SIZE ≤ len) (small : len ≤ 65535) :
    65535 ∣ wordSum (slice (echoIcmp m ip ((len - 20) / 2)) (ip + 20) (len - 20)) ↔
      2 ∣ len ∨ m (ip + (len - 1)) = 0#8 := by
  rw [IP_HDR_SIZE] at room
  have sum := @echoIcmp_sum m ip ((len - 20) / 2) (by omega) (by omega)
  rcases Nat.mod_two_eq_zero_or_one len with even | odd
  · rw [show len - 20 = 2 * ((len - 20) / 2) by omega, Nat.mul_div_cancel_left _ (by decide)]
    exact iff_of_true sum (Or.inl (Nat.dvd_of_mod_eq_zero even))
  · have data := (slice_echoIcmp m ip ((len - 20) / 2)).2.2.2 (len - 24)
    have last : echoIcmp m ip ((len - 20) / 2) (ip + (len - 1)) = m (ip + (len - 1)) := by
      have at_end := congrArg (fun p : List Byte => p.getD (len - 25) 0) data
      simp only [getD_slice _ (show len - 25 < len - 24 by omega) (0 : Byte)] at at_end
      rwa [show ip + 24 + (len - 25) = ip + (len - 1) by omega] at at_end
    have cut : slice (echoIcmp m ip ((len - 20) / 2)) (ip + 20) (len - 20) =
        slice (echoIcmp m ip ((len - 20) / 2)) (ip + 20) (2 * ((len - 20) / 2)) ++
          [m (ip + (len - 1))] := by
      rw [← last, show ip + (len - 1) = ip + 20 + 2 * ((len - 20) / 2) by omega]
      exact (congrArg _ (by omega : len - 20 = 2 * ((len - 20) / 2) + 1)).trans (slice_append _ _ _ _)
    have byte := (m (ip + (len - 1))).isLt
    rw [cut, wordSum_append (by simp), wordSum, Nat.dvd_add_right sum]
    constructor
    · intro whole
      refine Or.inr (BitVec.eq_of_toNat_eq ?_)
      have := Nat.eq_zero_of_dvd_of_lt whole (by omega)
      simpa using this
    · rintro (even | zero)
      · omega
      · simp [zero]

/-- The body of the reply is what it should be, unless the request was sent to another address,
or an odd byte at the end is left out of the checksum. -/
theorem echoBody_iff {len : Nat} (room : IP_HDR_SIZE ≤ len) (small : len ≤ 65535) :
    EchoBody (slice m ip len)
        (slice (echoIcmp (echoHeader cfg m ip) ip ((len - 20) / 2)) ip len) ↔
      slice m (ip + 16) 4 = ipBytes cfg.NetOurIP ∧ (2 ∣ len ∨ m (ip + (len - 1)) = 0#8) := by
  have sum := echoIcmp_sum_iff (echoHeader cfg m ip) ip room small
  rw [IP_HDR_SIZE] at room
  obtain ⟨start, off, middle, src, dest⟩ := slice_echoHeader cfg m ip
  obtain ⟨header, type, code, data⟩ :=
    slice_echoIcmp (echoHeader cfg m ip) ip ((len - 20) / 2)
  generalize reply : echoIcmp (echoHeader cfg m ip) ip ((len - 20) / 2) = m' at sum header type code data ⊢
  have field : ∀ j k, j + k ≤ 20 →
      ((slice m' ip len).drop j).take k = slice (echoHeader cfg m ip) (ip + j) k := by
    intro j k hjk
    rw [slice_slice (by omega), ← slice_slice (m := m') (n := 20) hjk, header, slice_slice hjk]
  have last : echoHeader cfg m ip (ip + (len - 1)) = m (ip + (len - 1)) := by
    have := congrArg List.head? (slice_echoHeader_behind cfg m ip (j := len - 1) (by omega) 1)
    simpa [slice] using this
  rw [last] at sum
  have offset : field16 (slice m' ip len) 6 = 0 := by
    have bytes := (field 6 2 (by decide)).trans off
    rw [slice_slice (by omega), slice_two] at bytes
    obtain ⟨hi, lo⟩ := by simpa using bytes
    rw [field16, getD_slice _ (by omega), getD_slice _ (by omega), hi, show ip + (6 + 1) = ip + 6 + 1 by omega, lo]
    rfl
  have icmp : NetCksumOk (padded ((slice m' ip len).drop 20))
      ((padded ((slice m' ip len).drop 20)).length / 2) = true ↔
        2 ∣ len ∨ m (ip + (len - 1)) = 0#8 := by
    rw [NetCksumOk_padded (by simp; omega), slice_drop (by omega)]
    exact sum
  have swapped : ((slice m' ip len).drop 12).take 4 = ((slice m ip len).drop 16).take 4 ↔
      slice m (ip + 16) 4 = ipBytes cfg.NetOurIP := by
    rw [field 12 4 (by decide), src, slice_slice (by omega)]
    exact eq_comm
  refine ⟨fun ok => ⟨swapped.1 ok.src, icmp.1 ok.icmp_sum⟩, ?_⟩
  rintro ⟨address, even⟩
  refine ⟨by simp, by simpa [IP_HDR_SIZE] using room, ?_, by rw [offset]; decide, ?_,
    swapped.2 address, ?_, ?_, ?_, ?_, ?_, icmp.2 even⟩
  · exact (field 0 6 (by decide)).trans (start.trans (slice_slice (m := m) (j := 0) (by omega)).symm)
  · rw [field 8 2 (by decide), middle, slice_slice (by omega)]
  · rw [field 16 4 (by decide), dest, slice_slice (by omega)]
  · rw [slice_slice (by omega), type]
  · rw [slice_slice (by omega), code, slice_slice (by omega),
      slice_echoHeader_behind cfg m ip (by decide)]
  · rw [slice_drop (by omega), slice_drop (by omega), data,
      slice_echoHeader_behind cfg m ip (by decide)]
  · have whole : (slice m' ip len).take 20 = slice (echoHeader cfg m ip) ip 20 :=
      field 0 20 (by decide)
    rw [whole]
    exact (NetCksumOk_iff (n := 10) (by simp) (by decide)).2 (echoHeader_sum cfg m ip)

end Echo

/-! ## Frames -/

theorem htons_ntohs (hi lo : Byte) : htons (ntohs hi lo) = [hi, lo] := by
  have hi_lt := hi.isLt
  have lo_lt := lo.isLt
  have value := toNat_ntohs hi lo
  have first : ((ntohs hi lo) >>> 8).setWidth 8 = hi := BitVec.eq_of_toNat_eq (by
    rw [BitVec.toNat_setWidth, BitVec.toNat_ushiftRight, Nat.shiftRight_eq_div_pow, value]
    omega)
  have second : (ntohs hi lo).setWidth 8 = lo := BitVec.eq_of_toNat_eq (by
    rw [BitVec.toNat_setWidth, value]
    omega)
  rw [htons, first, second]

theorem htons_inj {x y : BitVec 16} : htons x = htons y ↔ x = y := by
  refine ⟨fun h => ?_, congrArg htons⟩
  rw [htons, htons] at h
  obtain ⟨first, second⟩ := by simpa using h
  rw [← ntohs_htons x, ← ntohs_htons y, first, second]

theorem ipBytes_inj {x y : BitVec 32} : ipBytes x = ipBytes y ↔ x = y := by
  refine ⟨fun h => ?_, congrArg ipBytes⟩
  obtain ⟨high, low⟩ := List.append_inj h rfl
  have high := congrArg BitVec.toNat (htons_inj.1 high)
  have low := congrArg BitVec.toNat (htons_inj.1 low)
  have := x.isLt
  have := y.isLt
  simp only [BitVec.toNat_setWidth, BitVec.toNat_ushiftRight, Nat.shiftRight_eq_div_pow] at high low
  exact BitVec.eq_of_toNat_eq (by omega)

/-- The receive buffer as memory. -/
def memory : Nat → Byte := fun i => inpkt.getD i 0

theorem slice_memory_two (i : Nat) : slice (memory inpkt) i 2 = htons (field16 inpkt i) :=
  (htons_ntohs _ _).symm

theorem toNat_NetReadIP (i : Nat) :
    (NetReadIP inpkt i).toNat = 65536 * (field16 inpkt i).toNat + (field16 inpkt (i + 2)).toNat := by
  rw [NetReadIP, BitVec.toNat_append, Nat.shiftLeft_eq, Nat.mul_comm,
    ← Nat.two_pow_add_eq_or_of_lt (field16 inpkt (i + 2)).isLt]

theorem slice_memory_four (i : Nat) : slice (memory inpkt) i 4 = ipBytes (NetReadIP inpkt i) := by
  have value := toNat_NetReadIP inpkt i
  have first := (field16 inpkt i).isLt
  have second := (field16 inpkt (i + 2)).isLt
  have high : ((NetReadIP inpkt i) >>> 16).setWidth 16 = field16 inpkt i :=
    BitVec.eq_of_toNat_eq (by
      rw [BitVec.toNat_setWidth, BitVec.toNat_ushiftRight, Nat.shiftRight_eq_div_pow, value]
      omega)
  have low : (NetReadIP inpkt i).setWidth 16 = field16 inpkt (i + 2) :=
    BitVec.eq_of_toNat_eq (by
      rw [BitVec.toNat_setWidth, value]
      omega)
  rw [ipBytes, high, low, ← slice_memory_two, ← slice_memory_two]
  exact slice_append _ i 2 2

theorem field16_drop (ip i : Nat) : field16 (inpkt.drop ip) i = field16 inpkt (ip + i) := by
  simp [field16, List.getD_eq_getElem?_getD, Nat.add_assoc]

theorem field16_slice {i n k : Nat} (h : k + 1 < n) :
    field16 (slice (memory inpkt) i n) k = field16 inpkt (i + k) := by
  rw [field16, getD_slice _ (by omega), getD_slice _ h]
  rfl

/-- A frame with a body: without a tag, with the tag of a VLAN, or with a length. -/
inductive Framed (dest src : List Byte) (vlan prot : BitVec 16) (body : List Byte) :
    List Byte → Prop
  | untagged : Framed dest src vlan prot body (dest ++ (src ++ (htons prot ++ body)))
  | tagged (tag : BitVec 16) (h : tag &&& VLAN_IDMASK = vlan) : Framed dest src vlan prot body
      (dest ++ (src ++ (htons PROT_VLAN ++ (htons tag ++ (htons prot ++ body)))))
  | e802 (snap : List Byte) (h : snap.length = 6) : Framed dest src vlan prot body
      (dest ++ (src ++ (htons (BitVec.ofNat 16 (body.length + 8)) ++ (snap ++ (htons prot ++ body)))))

/-- What the length of a frame says about it. -/
theorem Framed.cases {dest src body : List Byte} {vlan prot : BitVec 16} {m : Nat → Byte} {n : Nat}
    (hdest : dest.length = 6) (hsrc : src.length = 6)
    (h : Framed dest src vlan prot body (slice m 0 n)) :
    (n = 14 + body.length ∧ slice m 12 2 = htons prot ∧ slice m 14 (n - 14) = body) ∨
      (n = 18 + body.length ∧ slice m 12 2 = htons PROT_VLAN ∧ slice m 18 (n - 18) = body) ∨
      n = 22 + body.length := by
  generalize sent : slice m 0 n = frame at h
  have length : frame.length = n := by rw [← sent, length_slice]
  have type : 14 ≤ n → slice m 12 2 = (frame.drop 12).take 2 := fun room => by
    rw [← sent, slice_slice (by omega), Nat.zero_add]
  have rest : ∀ k, k ≤ n → slice m k (n - k) = frame.drop k := fun k room => by
    rw [← sent, slice_drop room, Nat.zero_add]
  have behind : ∀ tail : List Byte, (dest ++ (src ++ tail)).drop 12 = tail := fun tail => by
    rw [← List.append_assoc]
    exact List.drop_left' (by simp [hdest, hsrc])
  cases h with
  | untagged =>
      have size : n = 14 + body.length := by
        rw [← length]
        simp [hdest, hsrc, htons]
        omega
      refine Or.inl ⟨size, ?_, ?_⟩
      · rw [type (by omega), behind]
        rfl
      · rw [rest 14 (by omega), show (14 : Nat) = 12 + 2 from rfl, ← List.drop_drop, behind]
        rfl
  | tagged tag htag =>
      have size : n = 18 + body.length := by
        rw [← length]
        simp [hdest, hsrc, htons]
        omega
      refine Or.inr (Or.inl ⟨size, ?_, ?_⟩)
      · rw [type (by omega), behind]
        rfl
      · rw [rest 18 (by omega), show (18 : Nat) = 12 + 6 from rfl, ← List.drop_drop, behind]
        rfl
  | e802 snap hsnap =>
      refine Or.inr (Or.inr ?_)
      rw [← length]
      simp [hdest, hsrc, hsnap, htons]
      omega

/-- The framing that a request came in. -/
theorem framing_cases {len : Nat} {f : Framing} (h : framing cfg inpkt len = some f) :
    (f.ip = 14 ∧ field16 inpkt 12 = f.x) ∨
      (f.ip = 18 ∧ field16 inpkt 12 = PROT_VLAN ∧ cfg.NetOurVLAN &&& VLAN_IDMASK ≠ VLAN_NONE ∧
        field16 inpkt 16 = f.x) ∨
      (f.ip = 22 ∧ field16 inpkt 12 < 1514#16 ∧ field16 inpkt 20 = f.x) := by
  rw [framing] at h
  split_ifs at h with short plain room vlan
  · obtain rfl := Option.some.inj h
    exact Or.inr (Or.inr ⟨rfl, short, rfl⟩)
  · obtain rfl := Option.some.inj h
    exact Or.inl ⟨rfl, rfl⟩
  · obtain rfl := Option.some.inj h
    exact Or.inr (Or.inl ⟨rfl, not_not.1 plain, vlan, rfl⟩)

/-- An IP packet without a tag. -/
theorem ip_of_isProto {len : Nat} {f : Framing} (found : framing cfg inpkt len = some f)
    (isProto : field16 inpkt 12 = PROT_IP) : f.ip = 14 := by
  rcases framing_cases cfg inpkt found with ⟨h, -⟩ | ⟨-, h, -⟩ | ⟨-, h, -⟩
  · exact h
  · rw [isProto] at h
    exact absurd h (by decide)
  · rw [isProto] at h
    exact absurd h (by decide)

/-! ## Headers -/

section Headers

variable (m : Nat → Byte) (addr : List Byte) (prot : BitVec 16)

theorem NetSetEther_size : (NetSetEther cfg NetOurEther m addr prot).2 = NetEthHdrSize cfg := by
  rw [NetSetEther, NetEthHdrSize]
  split <;> rfl

theorem slice_NetSetEther_behind (haddr : addr.length = 6) {i : Nat} (h : NetEthHdrSize cfg ≤ i)
    (n : Nat) : slice (NetSetEther cfg NetOurEther m addr prot).1 i n = slice m i n := by
  rw [NetEthHdrSize, ETHER_HDR_SIZE, VLAN_ETHER_HDR_SIZE] at h
  rw [NetSetEther]
  have ether := NetOurEther.2
  split
  · next none =>
      rw [if_pos none] at h
      repeat rw [slice_store_beside (by simp [htons, haddr, ether]; omega)]
  · next vlan =>
      rw [if_neg vlan] at h
      repeat rw [slice_store_beside (by simp [htons, haddr, ether]; omega)]

theorem slice_NetSetEther (haddr : addr.length = 6) :
    slice (NetSetEther cfg NetOurEther m addr prot).1 0 6 = addr ∧
      slice (NetSetEther cfg NetOurEther m addr prot).1 6 6 = NetOurEther.1 ∧
      (cfg.NetOurVLAN &&& VLAN_IDMASK = VLAN_NONE →
        slice (NetSetEther cfg NetOurEther m addr prot).1 12 2 = htons prot) ∧
      (cfg.NetOurVLAN &&& VLAN_IDMASK ≠ VLAN_NONE →
        slice (NetSetEther cfg NetOurEther m addr prot).1 12 2 = htons PROT_VLAN ∧
          slice (NetSetEther cfg NetOurEther m addr prot).1 14 2 =
            htons (cfg.NetOurVLAN &&& VLAN_IDMASK) ∧
          slice (NetSetEther cfg NetOurEther m addr prot).1 16 2 = htons prot) := by
  have ether := NetOurEther.2
  rw [NetSetEther]
  split
  · next none =>
      refine ⟨?_, ?_, fun _ => slice_store_same rfl, fun vlan => absurd none vlan⟩
      · rw [slice_store_beside (by simp), slice_store_beside (by simp)]
        exact slice_store_same haddr
      · rw [slice_store_beside (by simp)]
        exact slice_store_same ether
  · next vlan =>
      refine ⟨?_, ?_, fun none => absurd none vlan, fun _ => ⟨?_, ?_, slice_store_same rfl⟩⟩
      · rw [slice_store_beside (by simp), slice_store_beside (by simp), slice_store_beside (by simp),
          slice_store_beside (by simp)]
        exact slice_store_same haddr
      · rw [slice_store_beside (by simp), slice_store_beside (by simp), slice_store_beside (by simp)]
        exact slice_store_same ether
      · rw [slice_store_beside (by simp), slice_store_beside (by simp)]
        exact slice_store_same rfl
      · rw [slice_store_beside (by simp)]
        exact slice_store_same rfl

/-- Below the operation the packet is not changed. -/
theorem slice_arpChange_below {ip i n : Nat} (h : i + n ≤ ip + 6) :
    slice (arpChange cfg NetOurEther m ip) i n = slice m i n := by
  simp only [arpChange]
  repeat rw [slice_store_beside (by omega)]

/-- The body of the reply to an ARP request: the addresses have changed places. -/
def arpBody (m : Nat → Byte) (ip : Nat) : List Byte :=
  slice m ip 6 ++ (htons ARPOP_REPLY ++ (NetOurEther.1 ++ (slice m (ip + 24) 4 ++
    (slice m (ip + 8) 6 ++ slice m (ip + 14) 4))))

theorem arpBody_hrd (ip : Nat) : (arpBody NetOurEther m ip).take 2 = slice m ip 2 := by
  rw [arpBody, List.take_append_of_le_length (by simp)]
  exact slice_slice (m := m) (j := 0) (by decide)

theorem arpBody_op (ip : Nat) :
    ((arpBody NetOurEther m ip).drop 6).take 2 = htons ARPOP_REPLY := by
  rw [arpBody, List.drop_left' (length_slice _ _ _)]
  exact List.take_left' rfl

theorem slice_arpChange {ip : Nat} (ours : slice m (ip + 24) 4 = ipBytes cfg.NetOurIP) :
    slice (arpChange cfg NetOurEther m ip) ip 28 = arpBody NetOurEther m ip := by
  have ether := NetOurEther.2
  have cut : ∀ m : Nat → Byte, slice m ip 28 = slice m ip 6 ++ (slice m (ip + 6) 2 ++
      (slice m (ip + 8) 6 ++ (slice m (ip + 14) 4 ++ (slice m (ip + 18) 6 ++ slice m (ip + 24) 4)))) := by
    intro m
    have last : slice m (ip + 18) 10 = _ := slice_append m (ip + 18) 6 4
    have fourth : slice m (ip + 14) 14 = _ := slice_append m (ip + 14) 4 10
    have third : slice m (ip + 8) 20 = _ := slice_append m (ip + 8) 6 14
    have second : slice m (ip + 6) 22 = _ := slice_append m (ip + 6) 2 20
    have first : slice m ip 28 = _ := slice_append m ip 6 22
    rw [first, second, third, fourth, last]
  have op : slice (arpChange cfg NetOurEther m ip) (ip + 6) 2 = htons ARPOP_REPLY := by
    simp only [arpChange]
    rw [slice_store_beside (by simp), slice_store_beside (by simp), slice_store_beside (by simp),
      slice_store_beside (by simp)]
    exact slice_store_same rfl
  have source : slice (arpChange cfg NetOurEther m ip) (ip + 8) 6 = NetOurEther.1 := by
    simp only [arpChange]
    rw [slice_store_beside (by simp)]
    exact slice_store_same ether
  have source_ip : slice (arpChange cfg NetOurEther m ip) (ip + 14) 4 = ipBytes cfg.NetOurIP :=
    slice_store_same rfl
  have target : slice (arpChange cfg NetOurEther m ip) (ip + 18) 6 = slice m (ip + 8) 6 := by
    simp only [arpChange]
    rw [slice_store_beside (by simp [ipBytes, htons]), slice_store_beside (by simp [ether]),
      slice_store_beside (by simp), slice_store_same (length_slice _ _ _),
      slice_store_beside (by simp [htons])]
  have target_ip : slice (arpChange cfg NetOurEther m ip) (ip + 24) 4 = slice m (ip + 14) 4 := by
    simp only [arpChange]
    rw [slice_store_beside (by simp [ipBytes, htons]), slice_store_beside (by simp [ether]),
      slice_store_same (length_slice _ _ _), slice_store_beside (by simp),
      slice_store_beside (by simp [htons])]
  rw [cut, slice_arpChange_below cfg NetOurEther m (Nat.le_refl _), op, source, source_ip, target,
    target_ip, arpBody, ours]

end Headers

/-! ## Replies -/

/-- What is sent is a reply to the request: it is framed like a frame from us to the sender of
the frame that came last, and its body is the reply to the body of the request. -/
def IsReply (r : Request) (sent : List Byte) : Prop :=
  match r with
  | .arp ip =>
      Framed (slice (memory inpkt) 6 6) NetOurEther.1 (cfg.NetOurVLAN &&& VLAN_IDMASK) PROT_ARP
        (arpBody NetOurEther (memory inpkt) ip) sent
  | .echo ip => ∃ body, EchoBody (slice (memory inpkt) ip (ip_len (inpkt.drop ip)).toNat) body ∧
      Framed (slice (memory inpkt) 6 6) NetOurEther.1 (cfg.NetOurVLAN &&& VLAN_IDMASK) PROT_IP
        body sent
  | .assembled pkt len => ∃ body, EchoBody (slice pkt 0 len) body ∧
      Framed (slice (memory inpkt) 6 6) NetOurEther.1 (cfg.NetOurVLAN &&& VLAN_IDMASK) PROT_IP
        body sent

/-- A request that is answered well. -/
def Suits (r : Request) : Prop :=
  match r with
  | .arp ip => ip = NetEthHdrSize cfg
  | .echo ip =>
      ip = ETHER_HDR_SIZE ∧ IP_HDR_SIZE ≤ (ip_len (inpkt.drop ip)).toNat ∧
        NetReadIP inpkt (ip + 16) = cfg.NetOurIP ∧
        (2 ∣ (ip_len (inpkt.drop ip)).toNat ∨
          inpkt.getD (ip + ((ip_len (inpkt.drop ip)).toNat - 1)) 0 = 0)
  | .assembled _ _ => False

/-- What is known of a request that is answered. -/
theorem request_cases {len : Nat} {d : Option ((Nat → Byte) × Nat)} {r : Request}
    (h : request cfg inpkt len d = some r) :
    ∃ f, framing cfg inpkt len = some f ∧
      match r with
      | .arp ip => f.ip = ip ∧ f.x = PROT_ARP ∧ arpRequest cfg inpkt ip (len - ip)
      | .echo ip => f.ip = ip ∧ f.x = PROT_IP
      | .assembled _ _ => f.x = PROT_IP ∧ isFragment (inpkt.drop f.ip) := by
  unfold request at h
  split at h
  · simp at h
  · split at h
    · simp at h
    · next f found =>
        refine ⟨f, found, ?_⟩
        split_ifs at h with _ isArp arp isIp checks fragment icmp
        · obtain rfl := Option.some.inj h
          exact ⟨rfl, isArp, arp⟩
        · split at h
          · simp at h
          · split_ifs at h
            obtain rfl := Option.some.inj h
            exact ⟨isIp, fragment⟩
        · obtain rfl := Option.some.inj h
          exact ⟨rfl, isIp⟩

theorem slice_swapEther (m : Nat → Byte) :
    slice (swapEther NetOurEther m) 0 6 = slice m 6 6 ∧
      slice (swapEther NetOurEther m) 6 6 = NetOurEther.1 ∧
      ∀ i n, 12 ≤ i → slice (swapEther NetOurEther m) i n = slice m i n := by
  have ether := NetOurEther.2
  refine ⟨?_, slice_store_same ether, fun i n h => ?_⟩
  · rw [swapEther, slice_store_beside (by simp)]
    exact slice_store_same (length_slice _ _ _)
  · rw [swapEther, slice_store_beside (by simp [ether]; omega), slice_store_beside (by simp; omega)]

/-- Before the packet nothing is changed. -/
theorem slice_echo_before (m : Nat → Byte) {ip words i n : Nat} (h : i + n ≤ ip) :
    slice (echoIcmp (echoHeader cfg m ip) ip words) i n = slice m i n := by
  simp only [echoIcmp, echoHeader]
  repeat rw [slice_store_beside (by omega)]

theorem slice_frame (m : Nat → Byte) (n : Nat) :
    slice m 0 (14 + n) = slice m 0 6 ++ (slice m 6 6 ++ (slice m 12 2 ++ slice m 14 n)) := by
  have third : slice m 12 (2 + n) = _ := slice_append m 12 2 n
  have second : slice m 6 (6 + (2 + n)) = _ := slice_append m 6 6 (2 + n)
  have first : slice m 0 (6 + (6 + (2 + n))) = _ := slice_append m 0 6 (6 + (2 + n))
  rw [show 14 + n = 6 + (6 + (2 + n)) by omega, first, Nat.zero_add, second, third]

theorem echo_isReply_iff {len : Nat} {f : Framing} (found : framing cfg inpkt len = some f)
    (isIp : f.x = PROT_IP) :
    IsReply cfg NetOurEther inpkt (.echo f.ip) (reply cfg NetOurEther inpkt (.echo f.ip)) ↔
      Suits cfg inpkt (.echo f.ip) := by
  have ether := NetOurEther.2
  obtain ⟨swap_dest, swap_src, swap_rest⟩ := slice_swapEther NetOurEther (memory inpkt)
  have small := (ip_len (inpkt.drop f.ip)).isLt
  have ip_ge : 14 ≤ f.ip := by
    rcases framing_cases cfg inpkt found with ⟨h, -⟩ | ⟨h, -⟩ | ⟨h, -⟩ <;> omega
  have address : slice (memory inpkt) (f.ip + 16) 4 = ipBytes cfg.NetOurIP ↔
      NetReadIP inpkt (f.ip + 16) = cfg.NetOurIP := by
    rw [slice_memory_four, ipBytes_inj]
  have body : IP_HDR_SIZE ≤ (ip_len (inpkt.drop f.ip)).toNat →
      (EchoBody (slice (memory inpkt) f.ip (ip_len (inpkt.drop f.ip)).toNat)
        (slice (echoIcmp (echoHeader cfg (swapEther NetOurEther (memory inpkt)) f.ip) f.ip
          (echoWords (inpkt.drop f.ip))) f.ip (ip_len (inpkt.drop f.ip)).toNat) ↔
        NetReadIP inpkt (f.ip + 16) = cfg.NetOurIP ∧ (2 ∣ (ip_len (inpkt.drop f.ip)).toNat ∨
          inpkt.getD (f.ip + ((ip_len (inpkt.drop f.ip)).toNat - 1)) 0 = 0)) := by
    intro room
    have iff := echoBody_iff cfg (swapEther NetOurEther (memory inpkt)) f.ip room (by omega)
    have last := congrArg List.head?
      (swap_rest (f.ip + ((ip_len (inpkt.drop f.ip)).toNat - 1)) 1 (by omega))
    have last : swapEther NetOurEther (memory inpkt)
        (f.ip + ((ip_len (inpkt.drop f.ip)).toNat - 1)) =
          inpkt.getD (f.ip + ((ip_len (inpkt.drop f.ip)).toNat - 1)) 0 := by
      simpa [slice, memory] using last
    rw [swap_rest _ _ (by omega), swap_rest _ _ (by omega), address, last, ← echoWords_eq (Nat.le_trans (by decide) room)] at iff
    exact iff
  have proto : slice (echoIcmp (echoHeader cfg (swapEther NetOurEther (memory inpkt)) f.ip) f.ip
      (echoWords (inpkt.drop f.ip))) 12 2 = htons (field16 inpkt 12) := by
    rw [slice_echo_before cfg _ (by omega), swap_rest 12 2 (by decide), slice_memory_two]
  have sent : reply cfg NetOurEther inpkt (.echo f.ip) =
      slice (echoIcmp (echoHeader cfg (swapEther NetOurEther (memory inpkt)) f.ip) f.ip
        (echoWords (inpkt.drop f.ip))) 0 (14 + (ip_len (inpkt.drop f.ip)).toNat) := rfl
  rw [sent]
  constructor
  · rintro ⟨b, ok, framed⟩
    have length : b.length = (ip_len (inpkt.drop f.ip)).toNat := by simpa using ok.length
    rcases framed.cases (length_slice _ _ _) ether with ⟨size, type, rest⟩ | ⟨size, -, -⟩ | size
    · have isProto : field16 inpkt 12 = PROT_IP := htons_inj.1 (proto.symm.trans type)
      have first := ip_of_isProto cfg inpkt found isProto
      rw [Nat.add_sub_cancel_left] at rest
      have room := ok.whole
      rw [length] at room
      rw [← rest, ← first] at ok
      obtain ⟨ours, even⟩ := (body room).1 ok
      exact ⟨first, room, ours, even⟩
    · omega
    · omega
  · rintro ⟨first, room, ours, even⟩
    refine ⟨_, (body room).2 ⟨ours, even⟩, ?_⟩
    have isProto : field16 inpkt 12 = PROT_IP := by
      rw [ETHER_HDR_SIZE] at first
      rcases framing_cases cfg inpkt found with ⟨-, h⟩ | ⟨h, -⟩ | ⟨h, -⟩
      · exact h.trans isIp
      · omega
      · omega
    have dest := @slice_echo_before cfg (swapEther NetOurEther (memory inpkt)) f.ip
      (echoWords (inpkt.drop f.ip)) 0 6 (by omega)
    have src := @slice_echo_before cfg (swapEther NetOurEther (memory inpkt)) f.ip
      (echoWords (inpkt.drop f.ip)) 6 6 (by omega)
    rw [slice_frame, dest, src, proto, isProto, swap_dest, swap_src, ← show f.ip = 14 from first]
    exact Framed.untagged

theorem assembled_isReply {len n : Nat} {f : Framing} (found : framing cfg inpkt len = some f)
    (fragment : isFragment (inpkt.drop f.ip)) (pkt : Nat → Byte) :
    ¬ IsReply cfg NetOurEther inpkt (.assembled pkt n)
      (reply cfg NetOurEther inpkt (.assembled pkt n)) := by
  have ether := NetOurEther.2
  obtain ⟨-, -, swap_rest⟩ := slice_swapEther NetOurEther (memory inpkt)
  have sent : reply cfg NetOurEther inpkt (.assembled pkt n) =
      slice (swapEther NetOurEther (memory inpkt)) 0 (14 + n) := rfl
  rw [sent]
  rintro ⟨b, ok, framed⟩
  have length : b.length = n := by simpa using ok.length
  have room := ok.whole
  rw [IP_HDR_SIZE, length] at room
  rcases framed.cases (length_slice _ _ _) ether with ⟨size, type, rest⟩ | ⟨size, -, -⟩ | size
  · rw [swap_rest 12 2 (by decide), slice_memory_two] at type
    have isProto : field16 inpkt 12 = PROT_IP := htons_inj.1 type
    have first := ip_of_isProto cfg inpkt found isProto
    -- what is sent is still a fragment
    have flags := ok.unfragmented
    rw [Nat.add_sub_cancel_left, swap_rest 14 n (by decide)] at rest
    rw [← rest, field16_slice inpkt (by omega)] at flags
    rw [isFragment, ip_off, field16_drop, first] at fragment
    simp [flags] at fragment
  · omega
  · omega

/-! ## ARP -/

theorem arp_isReply_iff {len : Nat} {f : Framing} (found : framing cfg inpkt len = some f)
    (isArp : f.x = PROT_ARP) (accepted : arpRequest cfg inpkt f.ip (len - f.ip)) :
    IsReply cfg NetOurEther inpkt (.arp f.ip) (reply cfg NetOurEther inpkt (.arp f.ip)) ↔
      Suits cfg inpkt (.arp f.ip) := by
  have ether := NetOurEther.2
  have haddr := length_slice (memory inpkt) 6 6
  simp only [arpRequest, decide_eq_true_eq] at accepted
  obtain ⟨-, hrd, pro, hln, pln, -, ours, -⟩ := accepted
  obtain ⟨head_dest, head_src, head_plain, head_vlan⟩ :=
    slice_NetSetEther cfg NetOurEther (memory inpkt) (slice (memory inpkt) 6 6) PROT_ARP haddr
  have behind := @slice_NetSetEther_behind cfg NetOurEther (memory inpkt) (slice (memory inpkt) 6 6)
    PROT_ARP haddr
  have size := NetSetEther_size cfg NetOurEther (memory inpkt) (slice (memory inpkt) 6 6) PROT_ARP
  have sent : reply cfg NetOurEther inpkt (.arp f.ip) =
      slice (arpChange cfg NetOurEther (NetSetEther cfg NetOurEther (memory inpkt)
        (slice (memory inpkt) 6 6) PROT_ARP).1 f.ip) 0
        ((NetSetEther cfg NetOurEther (memory inpkt) (slice (memory inpkt) 6 6) PROT_ARP).2 + 28) := rfl
  rw [sent, size]
  generalize (NetSetEther cfg NetOurEther (memory inpkt) (slice (memory inpkt) 6 6) PROT_ARP).1 = m at *
  have below := fun i n => @slice_arpChange_below cfg NetOurEther m f.ip i n
  have body_length : (arpBody NetOurEther (memory inpkt) f.ip).length = 28 := by
    simp [arpBody, htons, ether]
  have cases := framing_cases cfg inpkt found
  rw [IsReply, Suits]
  constructor
  · intro framed
    by_contra misplaced
    rcases Framed.cases haddr ether framed with ⟨short, -, rest⟩ | ⟨tagged, -, rest⟩ | long
    · -- without a VLAN the end of the 802.3 header is where the ARP header should be
      have size : NetEthHdrSize cfg = 14 := by omega
      rw [size, Nat.add_sub_cancel_left] at rest
      have plain : cfg.NetOurVLAN &&& VLAN_IDMASK = VLAN_NONE := by
        by_contra vlan
        rw [NetEthHdrSize, if_neg vlan] at size
        exact absurd size (by decide)
      rcases cases with ⟨ip, -⟩ | ⟨-, -, vlan, -⟩ | ⟨ip, -, proto⟩
      · exact misplaced (ip.trans size.symm)
      · exact vlan plain
      · have op := arpBody_op NetOurEther (memory inpkt) f.ip
        rw [← rest, slice_slice (by decide), below 20 2 (by omega), behind (by omega),
          slice_memory_two, proto, isArp] at op
        exact absurd op (by decide)
    · have size : NetEthHdrSize cfg = 18 := by omega
      rw [size, Nat.add_sub_cancel_left] at rest
      rcases cases with ⟨ip, -⟩ | ⟨ip, -⟩ | ⟨ip, -⟩
      · -- the tag is written over the beginning of the ARP header
        have first := arpBody_hrd NetOurEther (memory inpkt) f.ip
        have start : (slice (arpChange cfg NetOurEther m f.ip) 18 28).take 2 =
            slice (arpChange cfg NetOurEther m f.ip) 18 2 := slice_slice (j := 0) (by decide)
        rw [← rest, start, below 18 2 (by omega), behind (by omega), slice_memory_two,
          slice_memory_two, hrd, htons_inj, field16, ← show f.ip + 4 = 18 by omega, hln,
          show f.ip + 4 + 1 = f.ip + 5 from rfl, pln] at first
        exact absurd first (by decide)
      · exact misplaced (ip.trans size.symm)
      · have op := arpBody_op NetOurEther (memory inpkt) f.ip
        rw [← rest, slice_slice (by decide), below 24 2 (by omega), behind (by omega),
          slice_memory_two, ← show f.ip + 2 = 24 by omega, pro] at op
        exact absurd op (by decide)
    · rw [body_length, NetEthHdrSize] at long
      split at long <;> simp [ETHER_HDR_SIZE, VLAN_ETHER_HDR_SIZE] at long
  · intro place
    have sender : slice m (f.ip + 24) 4 = ipBytes cfg.NetOurIP := by
      rw [behind (by omega), slice_memory_four, ours]
    have same : arpBody NetOurEther m f.ip = arpBody NetOurEther (memory inpkt) f.ip := by
      simp only [arpBody]
      rw [behind (by omega), behind (by omega), behind (by omega), behind (by omega)]
    have body := (slice_arpChange cfg NetOurEther m sender).trans same
    have dest := (below 0 6 (by omega)).trans head_dest
    have src := (below 6 6 (by rw [place, NetEthHdrSize]; split <;> decide)).trans head_src
    by_cases plain : cfg.NetOurVLAN &&& VLAN_IDMASK = VLAN_NONE
    · have size : NetEthHdrSize cfg = 14 := if_pos plain
      have type := (below 12 2 (by omega)).trans (head_plain plain)
      have body : slice (arpChange cfg NetOurEther m f.ip) 14 28 =
          arpBody NetOurEther (memory inpkt) f.ip := by
        rw [← show f.ip = 14 by omega]
        exact body
      rw [size, slice_frame, body, dest, src, type]
      exact Framed.untagged
    · have size : NetEthHdrSize cfg = 18 := if_neg plain
      obtain ⟨head_type, head_tag, head_prot⟩ := head_vlan plain
      have type := (below 12 2 (by omega)).trans head_type
      have tag := (below 14 2 (by omega)).trans head_tag
      have prot := (below 16 2 (by omega)).trans head_prot
      have third : slice (arpChange cfg NetOurEther m f.ip) 16 (2 + 28) = _ := slice_append _ 16 2 28
      have second : slice (arpChange cfg NetOurEther m f.ip) 14 (2 + (2 + 28)) = _ :=
        slice_append _ 14 2 (2 + 28)
      have first : slice (arpChange cfg NetOurEther m f.ip) 0 (18 + 28) = _ :=
        slice_frame _ (2 + (2 + 28))
      have body : slice (arpChange cfg NetOurEther m f.ip) 18 28 =
          arpBody NetOurEther (memory inpkt) f.ip := by
        rw [← show f.ip = 18 by omega]
        exact body
      rw [size, first, second, third, body, dest, src, type, tag, prot]
      refine Framed.tagged _ ?_
      rw [BitVec.and_assoc, BitVec.and_self]

/-- The reply to a request is what it should be exactly if the request suits. -/
theorem reply_isReply_iff (cfg : NetConfig) (NetOurEther : EtherAddr) (inpkt : List Byte) (len : Nat)
    (defragmented : Option ((Nat → Byte) × Nat)) (r : Request)
    (h : request cfg inpkt len defragmented = some r) :
    IsReply cfg NetOurEther inpkt r (reply cfg NetOurEther inpkt r) ↔ Suits cfg inpkt r := by
  obtain ⟨f, found, kind⟩ := request_cases cfg inpkt h
  cases r with
  | arp ip =>
      obtain ⟨rfl, isArp, accepted⟩ := kind
      exact arp_isReply_iff cfg NetOurEther inpkt found isArp accepted
  | echo ip =>
      obtain ⟨rfl, isIp⟩ := kind
      exact echo_isReply_iff cfg NetOurEther inpkt found isIp
  | assembled pkt n =>
      exact iff_of_false (assembled_isReply cfg NetOurEther inpkt found kind.2 pkt) id

/-- An Ethernet address of ours, and a configuration with the address 10.0.0.1 and no VLAN. -/
def ourEther : EtherAddr := ⟨[0x02#8, 0x00#8, 0x00#8, 0x00#8, 0x00#8, 0x01#8], rfl⟩

def ourNet : NetConfig :=
  ⟨true, false, false, false, 0x0a000001#32, 0xffff#16, 0xffff#16, 0#32, none⟩

/-- An echo request from 10.0.0.2 with some data. -/
def echoFrame (ip_len : Byte) (ip_sum : BitVec 16) (data : List Byte) : List Byte :=
  List.replicate 6 0x01#8 ++ List.replicate 6 0x03#8 ++ [0x08#8, 0x00#8] ++
    [0x45#8, 0x00#8, 0x00#8, ip_len, 0x00#8, 0x00#8, 0x00#8, 0x00#8, 0x40#8, 0x01#8] ++
    htons ip_sum ++ [0x0a#8, 0x00#8, 0x00#8, 0x02#8, 0x0a#8, 0x00#8, 0x00#8, 0x01#8] ++
    [0x08#8, 0x00#8, 0x00#8, 0x00#8, 0x12#8, 0x34#8, 0x00#8, 0x01#8] ++ data

/-- Where an echo request is in the frame. -/
def Request.echoAt : Request → Option Nat
  | .echo ip => some ip
  | _ => none

theorem Request.echoAt_eq_some {r : Option Request} {ip : Nat} (h : r.bind Request.echoAt = some ip) :
    r = some (.echo ip) := by
  obtain ⟨r, rfl, h⟩ := Option.bind_eq_some_iff.1 h
  cases r with
  | arp _ => simp [Request.echoAt] at h
  | echo _ => simpa [Request.echoAt] using h
  | assembled _ _ => simp [Request.echoAt] at h

theorem reply_isReply_even :
    IsReply ourNet ourEther (echoFrame 30#8 0x66dd#16 [0x61#8, 0x62#8]) (.echo 14)
      (reply ourNet ourEther (echoFrame 30#8 0x66dd#16 [0x61#8, 0x62#8]) (.echo 14)) :=
  (reply_isReply_iff ourNet ourEther (echoFrame 30#8 0x66dd#16 [0x61#8, 0x62#8]) 44 none (.echo 14)
    (Request.echoAt_eq_some (by decide))).mpr
      ⟨rfl, by decide, by decide, Or.inl (by decide)⟩

/-- The last byte of an odd number of bytes is not in the checksum of the reply. -/
theorem reply_not_isReply_odd :
    request ourNet (echoFrame 29#8 0x66de#16 [0x61#8]) 43 none = some (.echo 14) ∧
      ¬ IsReply ourNet ourEther (echoFrame 29#8 0x66de#16 [0x61#8]) (.echo 14)
        (reply ourNet ourEther (echoFrame 29#8 0x66de#16 [0x61#8]) (.echo 14)) := by
  have accepted : request ourNet (echoFrame 29#8 0x66de#16 [0x61#8]) 43 none = some (.echo 14) :=
    Request.echoAt_eq_some (by decide)
  refine ⟨accepted, ?_⟩
  obtain ⟨f, found, ip, isIp⟩ := request_cases _ _ accepted
  have iff := echo_isReply_iff ourNet ourEther _ found isIp
  rw [ip] at iff
  rw [iff]
  rintro ⟨-, -, -, even | zero⟩
  · exact absurd even (by decide)
  · exact absurd zero (by decide)

end UBoot.NetReceive
