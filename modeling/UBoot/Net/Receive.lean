/-
# Receiving a frame

`NetReceive` of `net/net.c`, as far as it looks at the received frame: which bytes of the
receive buffer are read, in the order of the code, and what the packet handler is given.
What is printed, written and sent is left out, and so are the options `CONFIG_API`,
`CONFIG_CMD_CDP` and `CONFIG_MCAST_TFTP`. Fragments are dropped here.

The receive buffer is the list of its bytes. Behind the frame it holds whatever was there
before.
-/

import UBoot.Net.Packet

namespace UBoot.NetReceive

def ETHER_HDR_SIZE : Nat := 14
def E802_HDR_SIZE : Nat := 22
def VLAN_ETHER_HDR_SIZE : Nat := 18
def ARP_HDR_SIZE : Nat := 28

def PROT_IP : BitVec 16 := 0x0800
def PROT_ARP : BitVec 16 := 0x0806
def PROT_RARP : BitVec 16 := 0x8035
def PROT_VLAN : BitVec 16 := 0x8100

def VLAN_NONE : BitVec 16 := 4095
def VLAN_IDMASK : BitVec 16 := 0x0fff

def ARP_ETHER : BitVec 16 := 1
def ARPOP_REQUEST : BitVec 16 := 1
def ARPOP_REPLY : BitVec 16 := 2
def RARPOP_REPLY : BitVec 16 := 4

def IPPROTO_ICMP : Byte := 1
def IPPROTO_UDP : Byte := 17
def ICMP_ECHO_REPLY : Byte := 0
def ICMP_REDIRECT : Byte := 5
def ICMP_ECHO_REQUEST : Byte := 8
def ICMP_REDIR_HOST : Byte := 1

/-- The options and the variables that are read, in host order. `arpWait` holds
`NetArpWaitPacketIP` and `NetArpWaitReplyIP` while a reply is awaited. -/
structure NetConfig where
  CONFIG_CMD_PING : Bool
  CONFIG_UDP_CHECKSUM : Bool
  CONFIG_NETCONSOLE : Bool
  CONFIG_KEEP_SERVERADDR : Bool
  NetOurIP : BitVec 32
  NetOurVLAN : BitVec 16
  NetOurNativeVLAN : BitVec 16
  NetServerIP : BitVec 32
  arpWait : Option (BitVec 32 × BitVec 32)

/-- What is done with the received frame. -/
inductive Access
  /-- Bytes are read. -/
  | read (offset count : Nat)
  /-- A handler is given a payload and its length. An IP packet of so many bytes was
  received. -/
  | handler (payload : Option Nat) (len : BitVec 32) (ip_len : Nat)

/-- The bytes are looked at, and what follows is done only if they pass. -/
def check (offset count : Nat) (passes : Bool) (next : List Access) : List Access :=
  .read offset count :: if passes then next else []

variable (cfg : NetConfig) (inpkt : List Byte)

/-! ## ARP and RARP -/

/-- `case PROT_ARP` -/
def receiveArp (ip : Nat) (len : Int) : List Access :=
  if len < ARP_HDR_SIZE then []
  else
    check ip 2 (field16 inpkt ip = ARP_ETHER) <|
    check (ip + 2) 2 (field16 inpkt (ip + 2) = PROT_IP) <|
    check (ip + 4) 1 (inpkt.getD (ip + 4) 0 = 6) <|
    check (ip + 5) 1 (inpkt.getD (ip + 5) 0 = 4) <|
    if cfg.NetOurIP = 0 then []
    else
      check (ip + 24) 4 (NetReadIP inpkt (ip + 24) = cfg.NetOurIP) <|
      .read (ip + 6) 2 ::
        if field16 inpkt (ip + 6) = ARPOP_REQUEST then
          [.read 6 6, .read (ip + 8) 6, .read (ip + 14) 4]
        else if field16 inpkt (ip + 6) = ARPOP_REPLY then
          match cfg.arpWait with
          | none => []
          | some (NetArpWaitPacketIP, NetArpWaitReplyIP) =>
              (if cfg.CONFIG_KEEP_SERVERADDR ∧ cfg.NetServerIP = NetArpWaitPacketIP then
                [.read (ip + 8) 6] else []) ++
                check (ip + 14) 4 (NetReadIP inpkt (ip + 14) = NetArpWaitReplyIP)
                  (.read (ip + 8) 6 ::
                    if cfg.CONFIG_NETCONSOLE then [.handler none 0 0] else [])
        else []

/-- `case PROT_RARP` -/
def receiveRarp (ip : Nat) (len : Int) : List Access :=
  if len < ARP_HDR_SIZE then []
  else
    check (ip + 6) 2 (field16 inpkt (ip + 6) = RARPOP_REPLY) <|
    check ip 2 (field16 inpkt ip = ARP_ETHER) <|
    check (ip + 2) 2 (field16 inpkt (ip + 2) = PROT_IP) <|
    check (ip + 4) 1 (inpkt.getD (ip + 4) 0 = 6) <|
    check (ip + 5) 1 (inpkt.getD (ip + 5) 0 = 4) <|
    [.read (ip + 24) 4] ++ (if cfg.NetServerIP = 0 then [.read (ip + 14) 4] else []) ++
      [.read (ip + 8) 6, .handler none 0 0]

/-! ## IP -/

/-- The words that `NetCksum` is told to add for a reply to an echo request: the length is
unsigned. -/
def echoWords (pkt : List Byte) : Nat :=
  ((BitVec.ofNat 32 (ip_len pkt).toNat - BitVec.ofNat 32 IP_HDR_SIZE_NO_UDP) >>> 1).toNat

theorem echoWords_eq {pkt : List Byte} (h : IP_HDR_SIZE_NO_UDP ≤ (ip_len pkt).toNat) :
    echoWords pkt = ((ip_len pkt).toNat - 20) / 2 := by
  have lt := (ip_len pkt).isLt
  rw [IP_HDR_SIZE_NO_UDP] at h
  rw [echoWords, IP_HDR_SIZE_NO_UDP, BitVec.toNat_ushiftRight, BitVec.toNat_sub_of_le (by
    rw [BitVec.le_def, BitVec.toNat_ofNat, BitVec.toNat_ofNat]
    omega), BitVec.toNat_ofNat, BitVec.toNat_ofNat, Nat.shiftRight_eq_div_pow]
  omega

/-- The case of `IPPROTO_ICMP`. -/
def receiveIcmp (ip : Nat) : List Access :=
  let pkt := inpkt.drop ip
  .read (ip + 20) 1 ::
    if pkt.getD 20 0 = ICMP_REDIRECT then
      check (ip + 21) 1 (pkt.getD 21 0 = ICMP_REDIR_HOST) [.read (ip + 24) 4]
    else if cfg.CONFIG_CMD_PING ∧ pkt.getD 20 0 = ICMP_ECHO_REPLY then
      [.handler (some ip) 0 (ip_len pkt).toNat]
    else if cfg.CONFIG_CMD_PING ∧ pkt.getD 20 0 = ICMP_ECHO_REQUEST then
      [.read 6 6, .read (ip + 12) 4, .read ip IP_HDR_SIZE_NO_UDP, .read (ip + 20) (2 * echoWords pkt)]
    else []

def udp_len (pkt : List Byte) : BitVec 16 := field16 pkt 24
def udp_xsum (pkt : List Byte) : BitVec 16 := field16 pkt 26

/-- The loop over `sumlen` bytes. An odd byte at the end is the high half of a word. -/
def udpWords : Nat → List Byte → BitVec 32
  | n + 2, b₀ :: b₁ :: p => (ntohs b₀ b₁).setWidth 32 + udpWords n p
  | 1, b₀ :: _ => (ntohs b₀ 0).setWidth 32
  | _, _ => 0

/-- The test of the UDP checksum. The carry is folded in until there is none, which takes
two rounds at most. -/
def udpChecksumOk (pkt : List Byte) : Bool :=
  let xsum := (ip_p pkt).setWidth 32 + (udp_len pkt).setWidth 32 +
    (field16 pkt 12).setWidth 32 + (field16 pkt 14).setWidth 32 +
    (field16 pkt 16).setWidth 32 + (field16 pkt 18).setWidth 32 +
    udpWords (udp_len pkt).toNat (pkt.drop 20)
  foldCarry (foldCarry xsum) = 0#32 ∨ foldCarry (foldCarry xsum) = 0xffff#32

/-- The payload is passed on, to `nc_input_packet` and to the packet handler. -/
def udpHandlers (ip : Nat) : List Access :=
  let pkt := inpkt.drop ip
  let call := Access.handler (some (ip + IP_HDR_SIZE)) ((udp_len pkt).setWidth 32 - 8#32)
    (ip_len pkt).toNat
  .read (ip + 20) 6 :: if cfg.CONFIG_NETCONSOLE then [call, call] else [call]

/-- The case of `IPPROTO_UDP`. -/
def receiveUdp (ip : Nat) : List Access :=
  let pkt := inpkt.drop ip
  if cfg.CONFIG_UDP_CHECKSUM then
    .read (ip + 26) 2 ::
      if udp_xsum pkt ≠ 0#16 then
        .read (ip + 24) 2 :: .read (ip + 12) 8 ::
          check (ip + 20) (udp_len pkt).toNat (udpChecksumOk pkt) (udpHandlers cfg inpkt ip)
      else udpHandlers cfg inpkt ip
  else udpHandlers cfg inpkt ip

/-- `case PROT_IP`. The first comparison is one of unsigned numbers. -/
def receiveIp (ip : Nat) (len : Int) : List Access :=
  let pkt := inpkt.drop ip
  if BitVec.ofInt 32 len < BitVec.ofNat 32 IP_HDR_SIZE then []
  else
    check (ip + 2) 2 ((ip_len pkt).toNat ≤ len) <|
    check ip 1 (ip_hl_v pkt &&& 0xf0 = 0x40 ∧ ip_hl_v pkt &&& 0x0f ≤ 0x05) <|
    check ip IP_HDR_SIZE_NO_UDP (NetCksumOk pkt (IP_HDR_SIZE_NO_UDP / 2)) <|
    check (ip + 16) 4
      (cfg.NetOurIP = 0 ∨ NetReadIP pkt 16 = cfg.NetOurIP ∨ NetReadIP pkt 16 = 0xffffffff) <|
    check (ip + 6) 2 (ip_off pkt &&& (IP_OFFS ||| IP_FLAGS_MFRAG) = 0) <|
    .read (ip + 9) 1 ::
      if ip_p pkt = IPPROTO_ICMP then receiveIcmp cfg inpkt ip
      else if ip_p pkt = IPPROTO_UDP then receiveUdp cfg inpkt ip
      else []

/-! ## Framing -/

/-- The protocol, where the packet begins, and the VLAN it came from. -/
structure Framing where
  x : BitVec 16
  ip : Nat
  vlanid : BitVec 16

def et_protlen : BitVec 16 := field16 inpkt 12

/-- The framing of a frame of so many bytes, unless it is dropped. -/
def framing (len : Nat) : Option Framing :=
  if et_protlen inpkt < 1514#16 then some ⟨field16 inpkt 20, E802_HDR_SIZE, VLAN_NONE⟩
  else if et_protlen inpkt ≠ PROT_VLAN then some ⟨et_protlen inpkt, ETHER_HDR_SIZE, VLAN_NONE⟩
  else if len < VLAN_ETHER_HDR_SIZE then none
  else if cfg.NetOurVLAN &&& VLAN_IDMASK = VLAN_NONE then none
  else some ⟨field16 inpkt 16, VLAN_ETHER_HDR_SIZE, field16 inpkt 14 &&& VLAN_IDMASK⟩

/-- What is read to find it. -/
def framingReads (len : Nat) : List Access :=
  .read 12 2 ::
    if et_protlen inpkt < 1514#16 then [.read 20 2]
    else if et_protlen inpkt ≠ PROT_VLAN then []
    else if len < VLAN_ETHER_HDR_SIZE then []
    else if cfg.NetOurVLAN &&& VLAN_IDMASK = VLAN_NONE then []
    else [.read 14 4]

/-- The VLAN is the right one. -/
def vlanMatches (vlanid : BitVec 16) : Bool :=
  let myvlanid := cfg.NetOurVLAN &&& VLAN_IDMASK
  let vlanid := if vlanid = VLAN_NONE then cfg.NetOurNativeVLAN &&& VLAN_IDMASK else vlanid
  myvlanid = VLAN_NONE ∨ vlanid = myvlanid

/-- The test of the VLAN, and the switch over the protocol. -/
def receivePacket (f : Framing) (len : Int) : List Access :=
  if ¬ vlanMatches cfg f.vlanid then []
  else if f.x = PROT_ARP then receiveArp cfg inpkt f.ip len
  else if f.x = PROT_RARP then receiveRarp cfg inpkt f.ip len
  else if f.x = PROT_IP then receiveIp cfg inpkt f.ip len
  else []

/-- `NetReceive` -/
def NetReceive (len : Nat) : List Access :=
  if len < ETHER_HDR_SIZE then []
  else
    framingReads cfg inpkt len ++
      match framing cfg inpkt len with
      | none => []
      | some f => receivePacket cfg inpkt f (len - f.ip)

end UBoot.NetReceive
