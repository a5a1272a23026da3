/-
# Options of BOOTP and DHCP replies

The three walks over the options in `net/bootp.c`: `BootpVendorProcess` of a build without
DHCP, and `DhcpOptionsProcess` and `DhcpMessageType` of one with it. A packet is memory, and a
walk reads what is behind the options if it is led there. Addresses are kept as they are sent.
-/

import UBoot.LibGeneric.Crc32
import UBoot.Lib.Memory

namespace UBoot.Bootp

open UBoot.Lib

/-- `CONFIG_BOOTP_DNS2`, and `CONFIG_BOOTP_TIMEOFFSET` and `CONFIG_BOOTP_NTPSERVER` together with
`CONFIG_CMD_SNTP`. -/
structure Config where
  CONFIG_BOOTP_DNS2 : Bool
  CONFIG_BOOTP_TIMEOFFSET : Bool
  CONFIG_BOOTP_NTPSERVER : Bool

/-- What options set. Strings are without the zero at their end. -/
structure Params where
  NetOurSubnetMask : BitVec 32
  NetOurGatewayIP : BitVec 32
  NetOurDNSIP : BitVec 32
  NetOurDNS2IP : BitVec 32
  NetTimeOffset : BitVec 32
  NetNtpServerIP : BitVec 32
  dhcp_leasetime : BitVec 32
  NetDHCPServerIP : BitVec 32
  NetBootFileSize : BitVec 16
  NetOurHostName : List Byte
  NetOurRootPath : List Byte
  NetOurNISDomain : List Byte
  bp_file : List Byte
  deriving DecidableEq

/-- `OPT_SIZE` with `CONFIG_CMD_DHCP`, and `BOOTP_HDR_SIZE` with it. -/
def OPT_SIZE : Nat := 312
def BOOTP_HDR_SIZE : Nat := 236 + OPT_SIZE

/-- `sizeof (NetOurHostName)`, `sizeof (NetOurRootPath)`, `sizeof (NetOurNISDomain)` and
`sizeof (bp->bp_file)` -/
def HOST_NAME_SIZE : Nat := 32
def ROOT_PATH_SIZE : Nat := 64
def NIS_DOMAIN_SIZE : Nat := 32
def BP_FILE_SIZE : Nat := 128

/-- `BOOTP_VENDOR_MAGIC` -/
def BOOTP_VENDOR_MAGIC : BitVec 32 := 0x63825363#32

/-- `truncate_sz` -/
def truncate_sz (maxlen curlen : Nat) : Nat := if maxlen ≤ curlen then maxlen - 1 else curlen

variable (cfg : Config) (mem : Nat → Byte)

/-- A string begins with its zero. -/
def isEmpty (s : List Byte) : Bool := s.headD 0#8 = 0#8

/-- Two bytes, and four, of a packet. -/
def readShort (i : Nat) : BitVec 16 := mem i ++ mem (i + 1)
def readLong (i : Nat) : BitVec 32 := mem i ++ mem (i + 1) ++ mem (i + 2) ++ mem (i + 3)

/-- A string that is copied from an option into a buffer. -/
def copyString (maxlen ext : Nat) : List Byte :=
  slice mem (ext + 2) (truncate_sz maxlen (mem (ext + 1)).toNat)

/-! ## Without DHCP -/

/-- `BootpVendorFieldProcess` -/
def BootpVendorFieldProcess (ext : Nat) (p : Params) : Params :=
  let size := (mem (ext + 1)).toNat
  let p := { p with NetBootFileSize := 0#16 }
  if mem ext = 1#8 then
    if p.NetOurSubnetMask = 0#32 then { p with NetOurSubnetMask := readLong mem (ext + 2) } else p
  else if mem ext = 3#8 then
    if p.NetOurGatewayIP = 0#32 then { p with NetOurGatewayIP := readLong mem (ext + 2) } else p
  else if mem ext = 6#8 then
    let p := if p.NetOurDNSIP = 0#32 then { p with NetOurDNSIP := readLong mem (ext + 2) } else p
    if cfg.CONFIG_BOOTP_DNS2 ∧ p.NetOurDNS2IP = 0#32 ∧ 4 < size then
      { p with NetOurDNS2IP := readLong mem (ext + 2 + 4) }
    else p
  else if mem ext = 12#8 then
    if isEmpty p.NetOurHostName then { p with NetOurHostName := copyString mem HOST_NAME_SIZE ext }
    else p
  else if mem ext = 13#8 then
    if size = 2 then { p with NetBootFileSize := readShort mem (ext + 2) }
    else if size = 4 then { p with NetBootFileSize := (readLong mem (ext + 2)).setWidth 16 }
    else p
  else if mem ext = 17#8 then
    if isEmpty p.NetOurRootPath then { p with NetOurRootPath := copyString mem ROOT_PATH_SIZE ext }
    else p
  else if mem ext = 40#8 then
    if isEmpty p.NetOurNISDomain then { p with NetOurNISDomain := copyString mem NIS_DOMAIN_SIZE ext }
    else p
  else p

/-- The loop of `BootpVendorProcess`, for at most so many turns. -/
def vendorLoop (fin : Nat) : Nat → Nat → Params → Params
  | 0, _, p => p
  | fuel + 1, ext, p =>
      if ext < fin ∧ mem ext ≠ 0xff#8 then
        if mem ext = 0#8 then vendorLoop fin fuel (ext + 1) p
        else
          let next := ext + ((mem (ext + 1)).toNat + 2)
          vendorLoop fin fuel next
            (if next ≤ fin then BootpVendorFieldProcess cfg mem ext p else p)
      else p

/-- `BootpVendorProcess`. Every turn moves on, so that `size` turns are enough. -/
def BootpVendorProcess (ext size : Nat) (p : Params) : Params :=
  vendorLoop cfg mem (ext + size) size ext p

/-! ## With DHCP -/

/-- The switch of `DhcpOptionsProcess`. -/
def dhcpOption (popt : Nat) (p : Params) : Params :=
  let oplen := (mem (popt + 1)).toNat
  if mem popt = 1#8 then { p with NetOurSubnetMask := readLong mem (popt + 2) }
  else if mem popt = 2#8 then
    if cfg.CONFIG_BOOTP_TIMEOFFSET then { p with NetTimeOffset := readLong mem (popt + 2) } else p
  else if mem popt = 3#8 then { p with NetOurGatewayIP := readLong mem (popt + 2) }
  else if mem popt = 6#8 then
    let p := { p with NetOurDNSIP := readLong mem (popt + 2) }
    if cfg.CONFIG_BOOTP_DNS2 ∧ 4 < oplen then
      { p with NetOurDNS2IP := readLong mem (popt + 2 + 4) }
    else p
  else if mem popt = 12#8 then { p with NetOurHostName := copyString mem HOST_NAME_SIZE popt }
  else if mem popt = 17#8 then { p with NetOurRootPath := copyString mem ROOT_PATH_SIZE popt }
  else if mem popt = 42#8 then
    if cfg.CONFIG_BOOTP_NTPSERVER then { p with NetNtpServerIP := readLong mem (popt + 2) } else p
  else if mem popt = 51#8 then { p with dhcp_leasetime := readLong mem (popt + 2) }
  else if mem popt = 54#8 then { p with NetDHCPServerIP := readLong mem (popt + 2) }
  else if mem popt = 67#8 then
    if isEmpty p.bp_file ∧ 0 < truncate_sz BP_FILE_SIZE oplen then
      { p with bp_file := copyString mem BP_FILE_SIZE popt }
    else p
  else p

/-- The loop of `DhcpOptionsProcess`, for at most so many turns. -/
def dhcpLoop (fin : Nat) : Nat → Nat → Params → Params
  | 0, _, p => p
  | fuel + 1, popt, p =>
      if popt < fin ∧ mem popt ≠ 0xff#8 then
        dhcpLoop fin fuel (popt + ((mem (popt + 1)).toNat + 2)) (dhcpOption cfg mem popt p)
      else p

/-- `DhcpOptionsProcess`. Every turn moves on, so that `BOOTP_HDR_SIZE` turns are enough. -/
def DhcpOptionsProcess (popt : Nat) (p : Params) : Params :=
  dhcpLoop cfg mem (popt + BOOTP_HDR_SIZE) BOOTP_HDR_SIZE popt p

/-- The loop of `DhcpMessageType`, for at most so many turns: nothing if it goes on. -/
def messageTypeLoop : Nat → Nat → Option Int
  | 0, _ => none
  | fuel + 1, popt =>
      if mem popt = 0xff#8 then some (-1)
      else if mem popt = 53#8 then some (mem (popt + 2)).toNat
      else messageTypeLoop fuel (popt + ((mem (popt + 1)).toNat + 2))

/-- `DhcpMessageType` -/
def DhcpMessageType (fuel popt : Nat) : Option Int :=
  if readLong mem popt ≠ BOOTP_VENDOR_MAGIC then some (-1) else messageTypeLoop mem fuel (popt + 4)

end UBoot.Bootp
