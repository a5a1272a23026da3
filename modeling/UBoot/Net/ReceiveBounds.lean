/-
# What a frame may contain

`NetReceive` stays inside the received frame exactly if the frame `Fits`: one in the 802.3
framing holds the whole header, an echo request has the header of an IP packet at least, and
the length of a UDP packet is that of its header at least, and of the IP packet at most.
-/

import UBoot.Net.Receive

namespace UBoot.NetReceive

/-! ## Accesses -/

/-- An access stays inside a frame of so many bytes. The payload for a handler is not longer
than the IP packet. -/
def Access.Inside (len : Nat) : Access → Prop
  | .read offset count => offset + count ≤ len
  | .handler none n _ => n = 0#32
  | .handler (some payload) n ip_len => payload + n.toNat ≤ len ∧ n.toNat ≤ ip_len

instance Access.instDecidableInside (len : Nat) : (a : Access) → Decidable (a.Inside len)
  | .read _ _ => inferInstanceAs (Decidable (_ ≤ _))
  | .handler none _ _ => inferInstanceAs (Decidable (_ = _))
  | .handler (some _) _ _ => inferInstanceAs (Decidable (_ ∧ _))

/-- All accesses stay inside. -/
def AllInside (len : Nat) (accesses : List Access) : Prop := ∀ a ∈ accesses, a.Inside len

instance instDecidableAllInside (len : Nat) (accesses : List Access) :
    Decidable (AllInside len accesses) :=
  inferInstanceAs (Decidable (∀ a ∈ accesses, a.Inside len))

variable {len : Nat}

@[simp] theorem allInside_nil : AllInside len [] := by simp [AllInside]

@[simp] theorem allInside_cons {a : Access} {accesses : List Access} :
    AllInside len (a :: accesses) ↔ a.Inside len ∧ AllInside len accesses := by simp [AllInside]

@[simp] theorem allInside_append {accesses accesses' : List Access} :
    AllInside len (accesses ++ accesses') ↔ AllInside len accesses ∧ AllInside len accesses' := by
  simp only [AllInside, List.mem_append]
  exact ⟨fun h => ⟨fun a ha => h a (Or.inl ha), fun a ha => h a (Or.inr ha)⟩,
    fun h a ha => ha.elim (h.1 a) (h.2 a)⟩

@[simp] theorem allInside_ite {c : Prop} [Decidable c] {accesses accesses' : List Access} :
    AllInside len (if c then accesses else accesses') ↔
      (c → AllInside len accesses) ∧ (¬c → AllInside len accesses') := by
  by_cases h : c <;> simp [h]

@[simp] theorem allInside_check {offset count : Nat} {passes : Bool} {next : List Access} :
    AllInside len (check offset count passes next) ↔
      offset + count ≤ len ∧ (passes → AllInside len next) := by
  cases passes <;> simp [check, Access.Inside]

@[simp] theorem inside_read {offset count : Nat} :
    (Access.read offset count).Inside len ↔ offset + count ≤ len := Iff.rfl

theorem check_inside {offset count : Nat} (h : offset + count ≤ len) {passes : Bool}
    {next : List Access} (hnext : AllInside len next) :
    AllInside len (check offset count passes next) :=
  allInside_check.2 ⟨h, fun _ => hnext⟩

variable (cfg : NetConfig) (inpkt : List Byte)

/-! ## ARP and RARP -/

theorem receiveArp_inside (hlen : ETHER_HDR_SIZE ≤ len) (ip : Nat) :
    AllInside len (receiveArp cfg inpkt ip (len - ip)) := by
  rw [ETHER_HDR_SIZE] at hlen
  rw [receiveArp, ARP_HDR_SIZE]
  split
  · exact allInside_nil
  · refine check_inside (by omega) (check_inside (by omega) (check_inside (by omega)
      (check_inside (by omega) ?_)))
    split
    · exact allInside_nil
    · refine check_inside (by omega) (allInside_cons.2 ⟨inside_read.2 (by omega), ?_⟩)
      split
      · simp only [allInside_cons, inside_read, allInside_nil, and_true]
        omega
      · split
        · split
          · exact allInside_nil
          · refine allInside_append.2 ⟨?_, check_inside (by omega) (allInside_cons.2 ⟨?_, ?_⟩)⟩
            · split
              · simp only [allInside_cons, inside_read, allInside_nil, and_true]
                omega
              · exact allInside_nil
            · exact inside_read.2 (by omega)
            · split <;> simp [Access.Inside]
        · exact allInside_nil

theorem receiveRarp_inside (ip : Nat) :
    AllInside len (receiveRarp cfg inpkt ip (len - ip)) := by
  rw [receiveRarp, ARP_HDR_SIZE]
  split
  · exact allInside_nil
  · refine check_inside (by omega) (check_inside (by omega) (check_inside (by omega)
      (check_inside (by omega) (check_inside (by omega) ?_))))
    refine allInside_append.2 ⟨allInside_append.2 ⟨?_, ?_⟩, ?_⟩
    · simp only [allInside_cons, inside_read, allInside_nil, and_true]
      omega
    · split
      · simp only [allInside_cons, inside_read, allInside_nil, and_true]
        omega
      · exact allInside_nil
    · simp only [allInside_cons, allInside_nil, and_true, Access.Inside]
      exact ⟨by omega, rfl⟩

/-! ## IP -/

/-- The length of an echo request is large enough for the header. -/
def EchoFits (pkt : List Byte) : Prop :=
  cfg.CONFIG_CMD_PING → pkt.getD 20 0 = ICMP_ECHO_REQUEST → IP_HDR_SIZE_NO_UDP ≤ (ip_len pkt).toNat

/-- For a reply the checksum covers the packet, if there is one. -/
theorem echoWords_le {pkt : List Byte} (h : IP_HDR_SIZE_NO_UDP ≤ (ip_len pkt).toNat) :
    20 + 2 * echoWords pkt ≤ (ip_len pkt).toNat := by
  rw [echoWords_eq h]
  rw [IP_HDR_SIZE_NO_UDP] at h
  omega

/-- Otherwise the length wraps around. -/
theorem le_echoWords {pkt : List Byte} (h : (ip_len pkt).toNat < IP_HDR_SIZE_NO_UDP) :
    2 ^ 31 ≤ 20 + 2 * echoWords pkt := by
  rw [IP_HDR_SIZE_NO_UDP] at h
  rw [echoWords, IP_HDR_SIZE_NO_UDP, BitVec.toNat_ushiftRight, BitVec.toNat_sub,
    BitVec.toNat_ofNat, BitVec.toNat_ofNat, Nat.shiftRight_eq_div_pow]
  omega

theorem receiveIcmp_inside_iff {ip : Nat} (hhdr : ip + 28 ≤ len)
    (hip : ip + (ip_len (inpkt.drop ip)).toNat ≤ len) (hlen : len < 2 ^ 31)
    (heth : ETHER_HDR_SIZE ≤ len) :
    AllInside len (receiveIcmp cfg inpkt ip) ↔ EchoFits cfg (inpkt.drop ip) := by
  rw [ETHER_HDR_SIZE] at heth
  rw [receiveIcmp, allInside_cons, inside_read, EchoFits]
  have type : ip + 20 + 1 ≤ len := by omega
  simp only [type, true_and]
  split
  · next redirect =>
      have other : (inpkt.drop ip).getD 20 0 ≠ ICMP_ECHO_REQUEST := by
        rw [redirect]
        decide
      refine iff_of_true (check_inside (by omega) ?_) fun _ h => absurd h other
      simp only [allInside_cons, inside_read, allInside_nil, and_true]
      omega
  · split
    · next reply =>
        have other : (inpkt.drop ip).getD 20 0 ≠ ICMP_ECHO_REQUEST := by
          rw [reply.2]
          decide
        refine iff_of_true ?_ fun _ h => absurd h other
        simp only [allInside_cons, allInside_nil, and_true, Access.Inside]
        exact ⟨by simpa using (by omega : ip ≤ len), Nat.zero_le _⟩
    · split
      · next request =>
          simp only [allInside_cons, inside_read, allInside_nil, and_true, request.1, request.2,
            forall_const, IP_HDR_SIZE_NO_UDP]
          constructor
          · intro reads
            by_contra short
            have wraps := @le_echoWords (inpkt.drop ip) (by
              rw [IP_HDR_SIZE_NO_UDP]
              omega)
            omega
          · intro long
            have covers := @echoWords_le (inpkt.drop ip) (by
              rw [IP_HDR_SIZE_NO_UDP]
              exact long)
            omega
      · next others => exact iff_of_true allInside_nil fun ping h => absurd ⟨ping, h⟩ others

/-- The lengths of a UDP packet agree. A checksum covers what the packet says, and when the
packet is passed on, its payload lies inside the frame and is not longer than the IP packet. -/
structure UdpFits (len : Nat) (cfg : NetConfig) (inpkt : List Byte) (ip : Nat) : Prop where
  summed : cfg.CONFIG_UDP_CHECKSUM → udp_xsum (inpkt.drop ip) ≠ 0#16 →
    ip + 20 + (udp_len (inpkt.drop ip)).toNat ≤ len
  passed : (cfg.CONFIG_UDP_CHECKSUM → udp_xsum (inpkt.drop ip) ≠ 0#16 →
      udpChecksumOk (inpkt.drop ip)) →
    8 ≤ (udp_len (inpkt.drop ip)).toNat ∧ ip + 20 + (udp_len (inpkt.drop ip)).toNat ≤ len ∧
      (udp_len (inpkt.drop ip)).toNat - 8 ≤ (ip_len (inpkt.drop ip)).toNat

theorem udpHandlers_inside_iff {ip : Nat} (hhdr : ip + 28 ≤ len) (hlen : len < 2 ^ 31) :
    AllInside len (udpHandlers cfg inpkt ip) ↔
      8 ≤ (udp_len (inpkt.drop ip)).toNat ∧ ip + 20 + (udp_len (inpkt.drop ip)).toNat ≤ len ∧
        (udp_len (inpkt.drop ip)).toNat - 8 ≤ (ip_len (inpkt.drop ip)).toNat := by
  have lt := (udp_len (inpkt.drop ip)).isLt
  have payload : ((udp_len (inpkt.drop ip)).setWidth 32 - 8#32).toNat =
      if 8 ≤ (udp_len (inpkt.drop ip)).toNat then (udp_len (inpkt.drop ip)).toNat - 8
      else 2 ^ 32 - 8 + (udp_len (inpkt.drop ip)).toNat := by
    rw [BitVec.toNat_sub, BitVec.toNat_setWidth]
    split <;> simp <;> omega
  have read : ip + 20 + 6 ≤ len := by omega
  have call : AllInside len (udpHandlers cfg inpkt ip) ↔
      (Access.handler (some (ip + IP_HDR_SIZE))
        ((udp_len (inpkt.drop ip)).setWidth 32 - 8#32) (ip_len (inpkt.drop ip)).toNat).Inside len := by
    rw [udpHandlers]
    cases cfg.CONFIG_NETCONSOLE <;> simp [read]
  rw [call, Access.Inside, payload, IP_HDR_SIZE]
  split <;> omega

theorem receiveUdp_inside_iff {ip : Nat} (hhdr : ip + 28 ≤ len) (hlen : len < 2 ^ 31) :
    AllInside len (receiveUdp cfg inpkt ip) ↔ UdpFits len cfg inpkt ip := by
  have passes := udpHandlers_inside_iff cfg inpkt hhdr hlen
  rw [receiveUdp]
  cases option : cfg.CONFIG_UDP_CHECKSUM with
  | false =>
      simp only [Bool.false_eq_true, if_false]
      rw [passes]
      exact ⟨fun h => ⟨by simp [option], fun _ => h⟩, fun h => h.passed (by simp [option])⟩
  | true =>
      have xsum : ip + 26 + 2 ≤ len := by omega
      have fields : ip + 24 + 2 ≤ len ∧ ip + 12 + 8 ≤ len := by omega
      simp only [if_true, allInside_cons, inside_read, xsum, true_and]
      by_cases used : udp_xsum (inpkt.drop ip) = 0#16
      · rw [if_neg (not_not_intro used), passes]
        exact ⟨fun h => ⟨fun _ h' => absurd used h', fun _ => h⟩,
          fun h => h.passed fun _ h' => absurd used h'⟩
      · rw [if_pos used]
        simp only [allInside_cons, inside_read, fields, true_and, allInside_check, passes]
        exact ⟨fun h => ⟨fun _ _ => h.1, fun ok => h.2 (ok option used)⟩,
          fun h => ⟨h.summed option used, fun ok => h.passed fun _ _ => ok⟩⟩

/-- What the checks of an IP packet with so many bytes behind its beginning amount to. -/
def ipPasses (pkt : List Byte) (len : Int) : Bool :=
  (ip_len pkt).toNat ≤ len ∧ (ip_hl_v pkt &&& 0xf0 = 0x40 ∧ ip_hl_v pkt &&& 0x0f ≤ 0x05) ∧
    NetCksumOk pkt (IP_HDR_SIZE_NO_UDP / 2) ∧
    (cfg.NetOurIP = 0 ∨ NetReadIP pkt 16 = cfg.NetOurIP ∨ NetReadIP pkt 16 = 0xffffffff) ∧
    ip_off pkt &&& (IP_OFFS ||| IP_FLAGS_MFRAG) = 0

theorem receiveIp_inside_iff {ip : Nat} (hip : ip ≤ len) (hlen : len < 2 ^ 31)
    (heth : ETHER_HDR_SIZE ≤ len) :
    AllInside len (receiveIp cfg inpkt ip (len - ip)) ↔
      (ip + IP_HDR_SIZE ≤ len → ipPasses cfg (inpkt.drop ip) (len - ip) →
        (ip_p (inpkt.drop ip) = IPPROTO_ICMP → EchoFits cfg (inpkt.drop ip)) ∧
          (ip_p (inpkt.drop ip) = IPPROTO_UDP → UdpFits len cfg inpkt ip)) := by
  have unsigned : BitVec.ofInt 32 ((len : Int) - ip) < BitVec.ofNat 32 IP_HDR_SIZE ↔
      ¬ ip + IP_HDR_SIZE ≤ len := by
    rw [show ((len : Int) - ip) = ((len - ip : Nat) : Int) by omega, BitVec.ofInt_natCast,
      BitVec.lt_def, BitVec.toNat_ofNat, BitVec.toNat_ofNat, IP_HDR_SIZE]
    omega
  rw [receiveIp]
  by_cases room : ip + IP_HDR_SIZE ≤ len
  · rw [if_neg (fun h => unsigned.1 h room)]
    rw [IP_HDR_SIZE] at room
    have reads : ip + 2 + 2 ≤ len ∧ ip + 1 ≤ len ∧ ip + IP_HDR_SIZE_NO_UDP ≤ len ∧
        ip + 16 + 4 ≤ len ∧ ip + 6 + 2 ≤ len ∧ ip + 9 + 1 ≤ len := by
      rw [IP_HDR_SIZE_NO_UDP]
      omega
    simp only [allInside_check, allInside_cons, inside_read, reads, true_and, IP_HDR_SIZE, room,
      forall_const, ipPasses, decide_eq_true_eq, and_imp]
    refine forall_congr' fun fits => forall_congr' fun _ => forall_congr' fun _ =>
      forall_congr' fun _ => forall_congr' fun _ => forall_congr' fun _ => ?_
    have echo := receiveIcmp_inside_iff cfg inpkt room (by omega) hlen heth
    have udp := receiveUdp_inside_iff cfg inpkt room hlen
    by_cases icmp : ip_p (inpkt.drop ip) = IPPROTO_ICMP
    · simp [icmp, echo, show IPPROTO_ICMP ≠ IPPROTO_UDP by decide]
    · by_cases isUdp : ip_p (inpkt.drop ip) = IPPROTO_UDP
      · rw [if_neg icmp, if_pos isUdp, udp]
        exact ⟨fun h => ⟨fun h' => absurd h' icmp, fun _ => h⟩, fun h => h.2 isUdp⟩
      · simp [icmp, isUdp]
  · rw [if_pos (unsigned.2 room)]
    exact iff_of_true allInside_nil fun h => absurd h room

/-! ## The frame -/

/-- Where the IP packet begins that the frame is accepted for. -/
def accepted (len : Nat) : Option Nat :=
  match framing cfg inpkt len with
  | none => none
  | some f =>
      if vlanMatches cfg f.vlanid ∧ f.x = PROT_IP ∧ f.ip + IP_HDR_SIZE ≤ len ∧
          ipPasses cfg (inpkt.drop f.ip) (len - f.ip) then some f.ip
      else none

/-- The frame says nothing about lengths that it does not keep. -/
structure Fits (len : Nat) (cfg : NetConfig) (inpkt : List Byte) : Prop where
  header : ETHER_HDR_SIZE ≤ len → et_protlen inpkt < 1514#16 → E802_HDR_SIZE ≤ len
  echo : ∀ ip, accepted cfg inpkt len = some ip → ip_p (inpkt.drop ip) = IPPROTO_ICMP →
    EchoFits cfg (inpkt.drop ip)
  udp : ∀ ip, accepted cfg inpkt len = some ip → ip_p (inpkt.drop ip) = IPPROTO_UDP →
    UdpFits len cfg inpkt ip

theorem framingReads_inside_iff (heth : ETHER_HDR_SIZE ≤ len) :
    AllInside len (framingReads cfg inpkt len) ↔
      (et_protlen inpkt < 1514#16 → E802_HDR_SIZE ≤ len) := by
  rw [ETHER_HDR_SIZE] at heth
  have protlen : 12 + 2 ≤ len := heth
  rw [framingReads, allInside_cons, inside_read]
  simp only [protlen, true_and]
  split
  · next short => simp [short, E802_HDR_SIZE]
  · next long =>
      refine iff_of_true ?_ fun h => absurd h long
      split
      · exact allInside_nil
      · split
        · exact allInside_nil
        · next room =>
            split
            · exact allInside_nil
            · rw [VLAN_ETHER_HDR_SIZE] at room
              simp only [allInside_cons, inside_read, allInside_nil, and_true]
              omega

/-- The packet begins inside the frame, if the frame has the whole header. -/
theorem framing_ip_le (heth : ETHER_HDR_SIZE ≤ len)
    (header : et_protlen inpkt < 1514#16 → E802_HDR_SIZE ≤ len) {f : Framing}
    (h : framing cfg inpkt len = some f) : f.ip ≤ len := by
  rw [framing] at h
  split_ifs at h with short tagged room
  · obtain rfl := Option.some.inj h
    exact header short
  · obtain rfl := Option.some.inj h
    exact heth
  · obtain rfl := Option.some.inj h
    exact Nat.le_of_not_lt room

theorem receivePacket_inside_iff (hlen : len < 2 ^ 31) (heth : ETHER_HDR_SIZE ≤ len)
    (header : et_protlen inpkt < 1514#16 → E802_HDR_SIZE ≤ len) {f : Framing}
    (h : framing cfg inpkt len = some f) :
    AllInside len (receivePacket cfg inpkt f (len - f.ip)) ↔
      ∀ ip, accepted cfg inpkt len = some ip →
        (ip_p (inpkt.drop ip) = IPPROTO_ICMP → EchoFits cfg (inpkt.drop ip)) ∧
          (ip_p (inpkt.drop ip) = IPPROTO_UDP → UdpFits len cfg inpkt ip) := by
  have inside := framing_ip_le cfg inpkt heth header h
  rw [accepted, h, receivePacket]
  simp only []
  by_cases vlan : vlanMatches cfg f.vlanid
  · rw [if_neg (not_not_intro vlan)]
    by_cases isIp : f.x = PROT_IP
    · rw [isIp, if_neg (by decide), if_neg (by decide), if_pos rfl,
        receiveIp_inside_iff cfg inpkt inside hlen heth]
      by_cases passes : f.ip + IP_HDR_SIZE ≤ len ∧ ipPasses cfg (inpkt.drop f.ip) (len - f.ip)
      · rw [if_pos ⟨vlan, rfl, passes⟩]
        exact ⟨fun fits ip hip => Option.some.inj hip ▸ fits passes.1 passes.2,
          fun fits _ _ => fits f.ip rfl⟩
      · rw [if_neg fun all => passes all.2.2]
        exact iff_of_true (fun room checks => absurd ⟨room, checks⟩ passes) nofun
    · rw [if_neg (c := vlanMatches cfg f.vlanid ∧ f.x = PROT_IP ∧ _) fun all => isIp all.2.1,
        if_neg isIp]
      refine iff_of_true ?_ nofun
      split
      · exact receiveArp_inside cfg inpkt heth f.ip
      · split
        · exact receiveRarp_inside cfg inpkt f.ip
        · exact allInside_nil
  · rw [if_pos vlan, if_neg fun all => vlan all.1]
    exact iff_of_true allInside_nil nofun

/-- `NetReceive` reads bytes of the frame only, and passes on payloads that are part of it,
exactly if the frame fits. -/
theorem NetReceive_inside_iff (cfg : NetConfig) (inpkt : List Byte) (len : Nat)
    (hlen : len < 2 ^ 31) : AllInside len (NetReceive cfg inpkt len) ↔ Fits len cfg inpkt := by
  rw [NetReceive]
  by_cases heth : ETHER_HDR_SIZE ≤ len
  · rw [if_neg (Nat.not_lt.2 heth), allInside_append, framingReads_inside_iff cfg inpkt heth]
    by_cases header : et_protlen inpkt < 1514#16 → E802_HDR_SIZE ≤ len
    · cases found : framing cfg inpkt len with
      | none =>
          have rejected : accepted cfg inpkt len = none := by rw [accepted, found]
          exact iff_of_true ⟨header, allInside_nil⟩
            ⟨fun _ => header, by simp [rejected], by simp [rejected]⟩
      | some f =>
          have packet := receivePacket_inside_iff cfg inpkt hlen heth header found
          constructor
          · rintro ⟨-, inside⟩
            exact ⟨fun _ => header, fun ip hip => (packet.1 inside ip hip).1,
              fun ip hip => (packet.1 inside ip hip).2⟩
          · intro fits
            exact ⟨header, packet.2 fun ip hip => ⟨fits.echo ip hip, fits.udp ip hip⟩⟩
    · exact iff_of_false (fun h => header h.1) fun h => header (h.header heth)
  · rw [if_pos (Nat.not_le.1 heth)]
    have rejected : accepted cfg inpkt len = none := by
      rw [accepted]
      cases framing cfg inpkt len with
      | none => rfl
      | some f =>
          have small : ¬ f.ip + IP_HDR_SIZE ≤ len := by
            rw [ETHER_HDR_SIZE] at heth
            rw [IP_HDR_SIZE]
            omega
          exact if_neg fun all => small all.2.2.1
    exact iff_of_true allInside_nil ⟨fun h => absurd h heth, by simp [rejected], by simp [rejected]⟩

/-- The address is 10.0.0.1, and there are no VLANs. -/
def ourConfig : NetConfig :=
  ⟨true, false, false, false, 0x0a000001#32, 0xffff#16, 0xffff#16, 0#32, none⟩

/-- A frame with a UDP packet that has no payload, and says that it has a length. -/
def udpFrame (udp_len : BitVec 16) : List Byte :=
  List.replicate 12 0x02#8 ++ [0x08#8, 0x00#8] ++
    [0x45#8, 0x00#8, 0x00#8, 0x1c#8, 0x00#8, 0x00#8, 0x00#8, 0x00#8, 0x40#8, 0x11#8, 0x66#8, 0xcf#8,
      0x0a#8, 0x00#8, 0x00#8, 0x02#8, 0x0a#8, 0x00#8, 0x00#8, 0x01#8] ++
    [0x00#8, 0x45#8, 0x04#8, 0x00#8] ++ htons udp_len ++ [0x00#8, 0x00#8]

theorem NetReceive_inside_udp :
    accepted ourConfig (udpFrame 8) 42 = some 14 ∧ Fits 42 ourConfig (udpFrame 8) :=
  ⟨by decide, (NetReceive_inside_iff ourConfig (udpFrame 8) 42 (by decide)).mp
    (by decide)⟩

/-- A packet whose length is less than that of its header is passed on with a length that
wraps around. -/
theorem not_NetReceive_inside : ¬ AllInside 42 (NetReceive ourConfig (udpFrame 0) 42) := by
  decide

end UBoot.NetReceive
