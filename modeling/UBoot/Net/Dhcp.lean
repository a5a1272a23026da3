/-
# DHCP

The client of `net/bootp.c` between DISCOVER and BOUND, and the servers on its link. What a
server has sent stays in flight: it may be delivered any number of times, in any order, or never.
Options are parsed by `DhcpOptionsProcess`, which writes into the parameters in use.
-/

import UBoot.Net.BootpOrder
import UBoot.Lib.Run

namespace UBoot.Dhcp

open UBoot.Lib UBoot.Bootp

/-- A 32 bit number as it is sent: an address, or a transaction. -/
abbrev U32 := BitVec 32

/-- A packet for a BOOTP port, with its option field. -/
structure Packet where
  dest : Nat
  src : Nat
  len : Nat
  bp_op : Byte
  bp_htype : Byte
  bp_hlen : Byte
  bp_id : U32
  bp_yiaddr : U32
  bp_siaddr : U32
  bp_file : List Byte
  items : List Item

/-- `dhcp_state` -/
inductive DhcpState
  | INIT
  | SELECTING
  | REQUESTING
  | BOUND
  deriving DecidableEq

/-- The client. -/
structure Client where
  dhcp_state : DhcpState
  BootpID : U32
  params : Params
  NetOurIP : U32
  NetServerIP : U32
  BootFile : List Byte

/-- A REQUEST: its transaction, server identifier and requested address. -/
structure Request where
  xid : U32
  serverId : U32
  requested : U32
  deriving DecidableEq

def PORT_BOOTPS : Nat := 67
def PORT_BOOTPC : Nat := 68
def OP_BOOTREQUEST : Byte := 1
def OP_BOOTREPLY : Byte := 2
def HWT_ETHER : Byte := 1
def HWL_ETHER : Byte := 6
def DHCP_OFFER : Byte := 2
def DHCP_ACK : Byte := 5
def DHCP_NAK : Byte := 6

/-- `BootpCheckPkt` returns 0. -/
def BootpCheckPkt (p : Packet) (BootpID : U32) : Bool :=
  p.dest = PORT_BOOTPC ∧ p.src = PORT_BOOTPS ∧ BOOTP_HDR_SIZE - OPT_SIZE ≤ p.len ∧
    p.bp_op ∈ [OP_BOOTREQUEST, OP_BOOTREPLY, DHCP_OFFER, DHCP_ACK, DHCP_NAK] ∧
    p.bp_htype = HWT_ETHER ∧ p.bp_hlen = HWL_ETHER ∧ p.bp_id = BootpID

/-- The parameters after the options of a packet. The name of a file in them is put into the
packet. -/
def readOptions (cfg : Config) (p : Packet) (params : Params) : Params :=
  let params := { params with bp_file := p.bp_file }
  if readLong (packetOf p.items) 0 = BOOTP_VENDOR_MAGIC then
    DhcpOptionsProcess cfg (packetOf p.items) 4 params
  else params

/-- `BootpCopyNetParams`, with the file name as the options have left it. -/
def BootpCopyNetParams (p : Packet) (c : Client) : Client :=
  { c with
    NetOurIP := p.bp_yiaddr
    NetServerIP := if p.bp_siaddr = 0#32 then c.NetServerIP else p.bp_siaddr
    BootFile := if Bootp.isEmpty c.params.bp_file then c.BootFile else c.params.bp_file }

/-- `DhcpSendRequestPkt` -/
def DhcpSendRequestPkt (p : Packet) (c : Client) : Request :=
  ⟨p.bp_id, c.params.NetDHCPServerIP, p.bp_yiaddr⟩

/-- What `DhcpHandler` does with a packet: it is not for this client, or read as an offer, or as
an acknowledgement. -/
inductive Handled
  | ignored
  | offer (c : Client) (request : Request)
  | bound (c : Client)

/-- `DhcpHandler`, up to what is loaded then. `CONFIG_SYS_BOOTFILE_PREFIX` may be empty. The walk
that looks for the message type has as many steps as there are bytes in the option field. -/
def DhcpHandler (cfg : Config) (CONFIG_SYS_BOOTFILE_PREFIX : List Byte) (p : Packet) (c : Client) :
    Handled :=
  if ¬ BootpCheckPkt p c.BootpID then .ignored
  else
    match c.dhcp_state with
    | .SELECTING =>
        if p.bp_file.take CONFIG_SYS_BOOTFILE_PREFIX.length = CONFIG_SYS_BOOTFILE_PREFIX then
          let c := { c with dhcp_state := .REQUESTING, params := readOptions cfg p c.params }
          .offer c (DhcpSendRequestPkt p c)
        else .ignored
    | .REQUESTING =>
        if DhcpMessageType (packetOf p.items) (encode p.items).length 0 =
            some (DHCP_ACK.toNat : Int) then
          .bound { BootpCopyNetParams p { c with params := readOptions cfg p c.params } with
            dhcp_state := .BOUND }
        else .ignored
    | _ => .ignored

/-- `BootpRequest`, with the four bytes of the Ethernet address that the transaction is made of,
and the time. -/
def BootpRequest (ether now : U32) (c : Client) : Client :=
  { c with dhcp_state := .SELECTING, BootpID := ether + now }

/-! ## The link -/

/-- What a server has sent, and the REQUEST that it answers; an offer answers none. -/
structure Sent where
  server : U32
  packet : Packet
  answers : Option Request

/-- The client, what it has sent and what the servers have sent; and the packets whose options it
has read, in order. -/
structure Link where
  client : Client
  discovers : List U32
  requests : List Request
  sent : List Sent
  accepted : List Sent

/-- What happens on a link. -/
inductive Event
  | restart (now : U32)
  | offer (server : U32) (p : Packet)
  | answer (server : U32) (r : Request) (p : Packet)
  | deliver (m : Sent)

/-- A packet has this message type in its options. -/
def Packet.HasType (p : Packet) (type : Byte) : Prop := find (options p.items) 53#8 = some [type]

variable (cfg : Config) (CONFIG_SYS_BOOTFILE_PREFIX : List Byte) (ether : U32)

/-- A step. Servers conform: there is at most one offer for a DISCOVER, a REQUEST with the
server's own identifier is answered, once, with an ACK or a NAK, and any other is not. -/
inductive Step : Link → Event → Link → Prop
  | restart {l : Link} {now : U32} (unbound : l.client.dhcp_state ≠ .BOUND) :
      Step l (.restart now) { l with
        client := BootpRequest ether now l.client
        discovers := l.discovers ++ [ether + now] }
  | offer {l : Link} {server : U32} {p : Packet} (known : p.bp_id ∈ l.discovers)
      (once : ∀ m ∈ l.sent, m.answers = none → m.server = server → m.packet.bp_id ≠ p.bp_id)
      (type : p.HasType DHCP_OFFER) :
      Step l (.offer server p) { l with sent := l.sent ++ [⟨server, p, none⟩] }
  | answer {l : Link} {server : U32} {r : Request} {p : Packet} (known : r ∈ l.requests)
      (own : r.serverId = server) (nonzero : server ≠ 0#32) (xid : p.bp_id = r.xid)
      (once : ∀ m ∈ l.sent, m.answers = some r → m.server ≠ server)
      (type : p.HasType DHCP_ACK ∨ p.HasType DHCP_NAK) :
      Step l (.answer server r p) { l with sent := l.sent ++ [⟨server, p, some r⟩] }
  | ignored {l : Link} {m : Sent} (sent : m ∈ l.sent)
      (handled : DhcpHandler cfg CONFIG_SYS_BOOTFILE_PREFIX m.packet l.client = .ignored) :
      Step l (.deliver m) l
  | request {l : Link} {m : Sent} {c : Client} {r : Request} (sent : m ∈ l.sent)
      (handled : DhcpHandler cfg CONFIG_SYS_BOOTFILE_PREFIX m.packet l.client = .offer c r) :
      Step l (.deliver m) { l with
        client := c, requests := l.requests ++ [r], accepted := l.accepted ++ [m] }
  | bound {l : Link} {m : Sent} {c : Client} (sent : m ∈ l.sent)
      (handled : DhcpHandler cfg CONFIG_SYS_BOOTFILE_PREFIX m.packet l.client = .bound c) :
      Step l (.deliver m) { l with client := c, accepted := l.accepted ++ [m] }

end UBoot.Dhcp
