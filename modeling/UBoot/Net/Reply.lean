/-
# Replies to requests

What `NetReceive` of `net/net.c` sends when it answers an ARP request or an ICMP echo
request. The reply is built in the receive buffer, or in the buffer of the fragments if the
request came in several, and what is sent begins with the frame that was received last.
-/

import UBoot.Net.Receive
import UBoot.Net.Checksum

namespace UBoot.NetReceive

open UBoot.Lib

/-- An Ethernet address. -/
abbrev EtherAddr := { addr : List Byte // addr.length = 6 }

/-- A 32 bit address as it is stored. -/
def ipBytes (x : BitVec 32) : List Byte := htons ((x >>> 16).setWidth 16) ++ htons (x.setWidth 16)

variable (cfg : NetConfig) (NetOurEther : EtherAddr)

/-- `NetEthHdrSize` -/
def NetEthHdrSize : Nat :=
  if cfg.NetOurVLAN &&& VLAN_IDMASK = VLAN_NONE then ETHER_HDR_SIZE else VLAN_ETHER_HDR_SIZE

/-- `NetSetEther`, which returns the size of the header. -/
def NetSetEther (xet : Nat → Byte) (addr : List Byte) (prot : BitVec 16) : (Nat → Byte) × Nat :=
  let m := store (store xet 0 addr) 6 NetOurEther.1
  if cfg.NetOurVLAN &&& VLAN_IDMASK = VLAN_NONE then (store m 12 (htons prot), ETHER_HDR_SIZE)
  else
    (store (store (store m 12 (htons PROT_VLAN)) 14 (htons (cfg.NetOurVLAN &&& VLAN_IDMASK))) 16
      (htons prot), VLAN_ETHER_HDR_SIZE)

/-! ## Requests -/

/-- A request that is answered: an ARP request or an echo request in the frame, and an echo
request in the buffer of the fragments. -/
inductive Request
  | arp (ip : Nat)
  | echo (ip : Nat)
  | assembled (pkt : Nat → Byte) (len : Nat)

variable (inpkt : List Byte)

/-- An ARP request for our address. -/
def arpRequest (ip : Nat) (len : Int) : Bool :=
  ARP_HDR_SIZE ≤ len ∧ field16 inpkt ip = ARP_ETHER ∧ field16 inpkt (ip + 2) = PROT_IP ∧
    inpkt.getD (ip + 4) 0 = 6 ∧ inpkt.getD (ip + 5) 0 = 4 ∧ cfg.NetOurIP ≠ 0 ∧
    NetReadIP inpkt (ip + 24) = cfg.NetOurIP ∧ field16 inpkt (ip + 6) = ARPOP_REQUEST

/-- What is checked before fragments are put together. -/
def ipChecks (pkt : List Byte) (len : Int) : Bool :=
  IP_HDR_SIZE ≤ len ∧ (ip_len pkt).toNat ≤ len ∧ ip_hl_v pkt &&& 0xf0 = 0x40 ∧
    ip_hl_v pkt &&& 0x0f ≤ 0x05 ∧ NetCksumOk pkt (IP_HDR_SIZE_NO_UDP / 2) ∧
    (cfg.NetOurIP = 0 ∨ NetReadIP pkt 16 = cfg.NetOurIP ∨ NetReadIP pkt 16 = 0xffffffff)

/-- The packet is a fragment. -/
def isFragment (pkt : List Byte) : Bool := ip_off pkt &&& (IP_OFFS ||| IP_FLAGS_MFRAG) ≠ 0

/-- The request that is answered, if there is one. `defragmented` is what `__NetDefragment`
returns for a fragment: the packet and its length. -/
def request (len : Nat) (defragmented : Option ((Nat → Byte) × Nat)) : Option Request :=
  if len < ETHER_HDR_SIZE then none
  else
    match framing cfg inpkt len with
    | none => none
    | some f =>
        if ¬ vlanMatches cfg f.vlanid then none
        else if f.x = PROT_ARP then
          if arpRequest cfg inpkt f.ip (len - f.ip) then some (.arp f.ip) else none
        else if f.x = PROT_IP then
          if ¬ ipChecks cfg (inpkt.drop f.ip) (len - f.ip) then none
          else if isFragment (inpkt.drop f.ip) then
            match defragmented with
            | none => none
            | some (pkt, len) =>
                if cfg.CONFIG_CMD_PING ∧ pkt 9 = IPPROTO_ICMP ∧ pkt 20 = ICMP_ECHO_REQUEST then
                  some (.assembled pkt len)
                else none
          else if cfg.CONFIG_CMD_PING ∧ ip_p (inpkt.drop f.ip) = IPPROTO_ICMP ∧
              (inpkt.drop f.ip).getD 20 0 = ICMP_ECHO_REQUEST then some (.echo f.ip)
          else none
        else none

/-! ## Replies -/

/-- The change of the ARP packet. -/
def arpChange (m : Nat → Byte) (ip : Nat) : Nat → Byte :=
  let m := store m (ip + 6) (htons ARPOP_REPLY)
  let m := store m (ip + 18) (slice m (ip + 8) 6)
  let m := store m (ip + 24) (slice m (ip + 14) 4)
  let m := store m (ip + 8) NetOurEther.1
  store m (ip + 14) (ipBytes cfg.NetOurIP)

/-- `case ARPOP_REQUEST` -/
def arpReply (m : Nat → Byte) (ip : Nat) : List Byte :=
  let (m, size) := NetSetEther cfg NetOurEther m (slice m 6 6) PROT_ARP
  slice (arpChange cfg NetOurEther m ip) 0 (size + ARP_HDR_SIZE)

/-- The change of the Ethernet addresses for an echo reply. -/
def swapEther (m : Nat → Byte) : Nat → Byte := store (store m 0 (slice m 6 6)) 6 NetOurEther.1

/-- The change of the IP header for an echo reply. -/
def echoHeader (m : Nat → Byte) (ip : Nat) : Nat → Byte :=
  let m := store m (ip + 10) [0, 0]
  let m := store m (ip + 6) [0, 0]
  let m := store m (ip + 16) (slice m (ip + 12) 4)
  let m := store m (ip + 12) (ipBytes cfg.NetOurIP)
  store m (ip + 10) (hostBytes (~~~ NetCksum (slice m ip 20) 10))

/-- The change of the ICMP header for an echo reply. -/
def echoIcmp (m : Nat → Byte) (ip words : Nat) : Nat → Byte :=
  let m := store m (ip + 20) [ICMP_ECHO_REPLY]
  let m := store m (ip + 22) [0, 0]
  store m (ip + 22) (hostBytes (~~~ NetCksum (slice m (ip + 20) (2 * words)) words))

/-- What is sent for a request. An assembled packet is changed in its own buffer. -/
def reply : Request → List Byte
  | .arp ip => arpReply cfg NetOurEther (fun i => inpkt.getD i 0) ip
  | .echo ip =>
      let m := swapEther NetOurEther fun i => inpkt.getD i 0
      slice (echoIcmp (echoHeader cfg m ip) ip (echoWords (inpkt.drop ip))) 0
        (ETHER_HDR_SIZE + (ip_len (inpkt.drop ip)).toNat)
  | .assembled _ len => slice (swapEther NetOurEther fun i => inpkt.getD i 0) 0 (ETHER_HDR_SIZE + len)

end UBoot.NetReceive
