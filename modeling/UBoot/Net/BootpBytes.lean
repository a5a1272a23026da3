/-
# BOOTP and DHCP replies as bytes

`BootpHandler` and `DhcpHandler` of `net/bootp.c` on the payload that they are given. There is no
result where a byte behind the payload is read. What an option sets is what it sets in memory that
begins with the payload; how far it is read is said beside it. The packet is written to in `bp_file`
only, which no option is in: the bytes from it on are kept apart.
-/

import UBoot.Env.CmdNvedit
import UBoot.Net.Dhcp
import UBoot.Net.Packet

namespace UBoot.BootpBytes

open UBoot.Lib UBoot.Bootp UBoot.Dhcp UBoot.PacketBytes

/-- Where `bp_file` and `bp_vend` are in a packet, and the options behind the magic. -/
def BP_FILE : Nat := 108
def BP_VEND : Nat := 236
def OPTIONS : Nat := 240

/-- `sizeof(BootFile)` -/
def BOOT_FILE_SIZE : Nat := 128

/-- Memory that begins with the payload. -/
def mem (pkt : List Byte) (i : Nat) : Byte := pkt.getD i 0

section

variable (cfg : Config) (pkt : List Byte)

/-- `BootpCheckPkt` returns 0. -/
def BootpCheckPkt (dest src : Nat) (BootpID : U32) : Option Bool :=
  if dest ≠ PORT_BOOTPC ∨ src ≠ PORT_BOOTPS then return false
  else if pkt.length < BOOTP_HDR_SIZE - OPT_SIZE then return false
  else do
    let bp_op ← pkt[0]?
    let bp_htype ← pkt[1]?
    let bp_hlen ← pkt[2]?
    let bp_id ← word pkt 4
    return bp_op ∈ [OP_BOOTREQUEST, OP_BOOTREPLY, DHCP_OFFER, DHCP_ACK, DHCP_NAK] ∧
      bp_htype = HWT_ETHER ∧ bp_hlen = HWL_ETHER ∧ bp_id = BootpID

/-- A string, up to its zero. -/
def cstring (s : List Byte) : Option (List Byte) :=
  if 0#8 ∈ s then some (s.takeWhile (· ≠ 0#8)) else none

/-- `BootpCopyNetParams`, with the bytes from `bp_file` on. -/
def BootpCopyNetParams (file : List Byte) (c : Client) : Option Client := do
  let bp_yiaddr ← word pkt 16
  let bp_siaddr ← word pkt 20
  let bp_file ← cstring file
  return { c with
    NetOurIP := bp_yiaddr
    NetServerIP := if bp_siaddr ≠ 0#32 then bp_siaddr else c.NetServerIP
    BootFile := if 0 < bp_file.length then Env.copy_filename bp_file BOOT_FILE_SIZE
      else c.BootFile }

/-! ## Without DHCP -/

/-- How many bytes `BootpVendorFieldProcess` reads behind the length of an option. -/
def vendorReads (ext : Nat) (p : Params) : Nat :=
  let size := (mem pkt (ext + 1)).toNat
  if mem pkt ext = 1#8 then
    if p.NetOurSubnetMask = 0#32 then 4 else 0
  else if mem pkt ext = 3#8 then
    if p.NetOurGatewayIP = 0#32 then 4 else 0
  else if mem pkt ext = 6#8 then
    if cfg.CONFIG_BOOTP_DNS2 ∧ p.NetOurDNS2IP = 0#32 ∧ 4 < size then 8
    else if p.NetOurDNSIP = 0#32 then 4 else 0
  else if mem pkt ext = 12#8 then
    if isEmpty p.NetOurHostName then truncate_sz HOST_NAME_SIZE size else 0
  else if mem pkt ext = 13#8 then
    if size = 2 then 2 else if size = 4 then 4 else 0
  else if mem pkt ext = 17#8 then
    if isEmpty p.NetOurRootPath then truncate_sz ROOT_PATH_SIZE size else 0
  else if mem pkt ext = 40#8 then
    if isEmpty p.NetOurNISDomain then truncate_sz NIS_DOMAIN_SIZE size else 0
  else 0

/-- The loop of `BootpVendorProcess`. -/
def vendorLoop (fin ext : Nat) (p : Params) : Option Params :=
  if ext < fin then
    match _h : pkt[ext]? with
    | none => none
    | some code =>
        if code = 0xff#8 then some p
        else if code = 0#8 then vendorLoop fin (ext + 1) p
        else do
          let size ← pkt[ext + 1]?
          let next := ext + (size.toNat + 2)
          if next ≤ fin then
            if ext + 2 + vendorReads cfg pkt ext p ≤ pkt.length then
              vendorLoop fin next (BootpVendorFieldProcess cfg (mem pkt) ext p)
            else none
          else vendorLoop fin next p
  else some p
termination_by pkt.length - ext
decreasing_by
  all_goals
    have hlt := (List.getElem?_eq_some_iff.mp _h).1
    omega

/-- `BootpHandler`, up to what is loaded then. The walk is given the length of the payload from the
options on. -/
def BootpHandler (dest src : Nat) (c : Client) : Option Client := do
  let accepted ← BootpCheckPkt pkt dest src c.BootpID
  if ¬ accepted then return c
  else
    let c ← BootpCopyNetParams pkt (pkt.drop BP_FILE) c
    let magic ← word pkt BP_VEND
    if magic = BOOTP_VENDOR_MAGIC then
      let params ← vendorLoop cfg pkt (OPTIONS + pkt.length) OPTIONS c.params
      return { c with params := params }
    else return c

/-! ## With DHCP -/

/-- The parameters, and the bytes of the packet from `bp_file` on. -/
structure Options where
  params : Params
  file : List Byte

/-- How many bytes the switch of `DhcpOptionsProcess` reads behind the length of an option. -/
def optionReads (popt : Nat) (file : List Byte) : Nat :=
  let oplen := (mem pkt (popt + 1)).toNat
  if mem pkt popt = 1#8 then 4
  else if mem pkt popt = 2#8 then if cfg.CONFIG_BOOTP_TIMEOFFSET then 4 else 0
  else if mem pkt popt = 3#8 then 4
  else if mem pkt popt = 6#8 then if cfg.CONFIG_BOOTP_DNS2 ∧ 4 < oplen then 8 else 4
  else if mem pkt popt = 12#8 then truncate_sz HOST_NAME_SIZE oplen
  else if mem pkt popt = 17#8 then truncate_sz ROOT_PATH_SIZE oplen
  else if mem pkt popt = 42#8 then if cfg.CONFIG_BOOTP_NTPSERVER then 4 else 0
  else if mem pkt popt = 51#8 then 4
  else if mem pkt popt = 54#8 then 4
  else if mem pkt popt = 67#8 then if isEmpty file then truncate_sz BP_FILE_SIZE oplen else 0
  else 0

/-- What the switch writes to `bp_file`. -/
def putFile (popt : Nat) (file : List Byte) : List Byte :=
  let size := truncate_sz BP_FILE_SIZE (mem pkt (popt + 1)).toNat
  if mem pkt popt = 67#8 ∧ isEmpty file ∧ 0 < size then
    slice (mem pkt) (popt + 2) size ++ 0#8 :: file.drop (size + 1)
  else file

/-- The loop of `DhcpOptionsProcess`. -/
def dhcpLoop (fin popt : Nat) (o : Options) : Option Options :=
  if popt < fin then
    match _h : pkt[popt]? with
    | none => none
    | some code =>
        if code = 0xff#8 then some o
        else do
          let oplen ← pkt[popt + 1]?
          if popt + 2 + optionReads cfg pkt popt o.file ≤ pkt.length then
            dhcpLoop fin (popt + (oplen.toNat + 2))
              ⟨dhcpOption cfg (mem pkt) popt o.params, putFile pkt popt o.file⟩
          else none
  else some o
termination_by pkt.length - popt
decreasing_by
  have hlt := (List.getElem?_eq_some_iff.mp _h).1
  omega

/-- The options behind the magic, if it is there. -/
def readOptions (o : Options) : Option Options := do
  let magic ← word pkt BP_VEND
  if magic = BOOTP_VENDOR_MAGIC then dhcpLoop cfg pkt (OPTIONS + BOOTP_HDR_SIZE) OPTIONS o
  else return o

/-- The loop of `DhcpMessageType`. -/
def messageTypeLoop (popt : Nat) : Option Int :=
  match _h : pkt[popt]? with
  | none => none
  | some code =>
      if code = 0xff#8 then some (-1)
      else if code = 53#8 then do
        let type ← pkt[popt + 2]?
        return type.toNat
      else do
        let oplen ← pkt[popt + 1]?
        messageTypeLoop (popt + (oplen.toNat + 2))
termination_by pkt.length - popt
decreasing_by
  have hlt := (List.getElem?_eq_some_iff.mp _h).1
  omega

/-- `DhcpMessageType` -/
def DhcpMessageType : Option Int := do
  let magic ← word pkt BP_VEND
  if magic ≠ BOOTP_VENDOR_MAGIC then return -1 else messageTypeLoop pkt OPTIONS

/-- `strncmp` of the bytes at an index with a string, as long as that is. -/
def strncmp (i : Nat) : List Byte → Option Bool
  | [] => return true
  | c :: s => do
      let b ← pkt[i]?
      if b = c then strncmp (i + 1) s else return false

/-- The client afterwards, the bytes of the packet from `bp_file` on, and a REQUEST. -/
structure Handled where
  client : Client
  file : List Byte
  request : Option Request

/-- `DhcpHandler`, up to what is loaded then. `CONFIG_SYS_BOOTFILE_PREFIX` may be empty. -/
def DhcpHandler (CONFIG_SYS_BOOTFILE_PREFIX : List Byte) (dest src : Nat) (c : Client) :
    Option Handled := do
  let accepted ← BootpCheckPkt pkt dest src c.BootpID
  let file := pkt.drop BP_FILE
  if ¬ accepted then return ⟨c, file, none⟩
  else match c.dhcp_state with
  | .SELECTING => do
      let same ← strncmp pkt BP_FILE CONFIG_SYS_BOOTFILE_PREFIX
      if same then
        let o ← readOptions cfg pkt ⟨c.params, file⟩
        -- `DhcpSendRequestPkt`
        let bp_id ← word pkt 4
        let bp_yiaddr ← word pkt 16
        return ⟨{ c with dhcp_state := .REQUESTING, params := o.params }, o.file,
          some ⟨bp_id, o.params.NetDHCPServerIP, bp_yiaddr⟩⟩
      else return ⟨c, file, none⟩
  | .REQUESTING => do
      let type ← DhcpMessageType pkt
      if type = DHCP_ACK.toNat then
        let o ← readOptions cfg pkt ⟨c.params, file⟩
        let c ← BootpCopyNetParams pkt o.file { c with params := o.params }
        return ⟨{ c with dhcp_state := .BOUND }, o.file, none⟩
      else return ⟨c, file, none⟩
  | _ => return ⟨c, file, none⟩

end

end UBoot.BootpBytes
