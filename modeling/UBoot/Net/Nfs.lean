/-
# Downloads over NFS

The client of `net/nfs.c` asks the portmapper for two ports, mounts the directory, looks the file
up and reads it block by block, all with RPC calls, every one with a new transaction id. One
handler takes every packet, by the state of the transfer.
-/

import UBoot.LibGeneric.Crc32
import UBoot.Lib.Memory
import UBoot.Lib.Run

namespace UBoot.Nfs

open UBoot.Lib

/-- `uint32_t` -/
abbrev U32 := BitVec 32

def SUNRPC_PORT : U32 := 111
def PROG_NFS : Nat := 100003
def PROG_MOUNT : Nat := 100005
def NFS_FHSIZE : Nat := 32
def NFS_READ_SIZE : U32 := 1024
def NFSERR_ISDIR : Int := 21
def NFSERR_INVAL : Int := 22
def NFS_RETRY_COUNT : Nat := 30
def NfsOurPort : Nat := 1000

/-- `rpc_t`, as a reply: `data` is everything behind `astatus`. -/
structure Packet where
  id : U32
  rstatus : U32
  verifier : U32
  astatus : U32
  data : Nat → Byte

/-- `ntohl(rpc_pkt.u.reply.data[i])` -/
def Packet.word (p : Packet) (i : Nat) : U32 :=
  p.data (4 * i) ++ p.data (4 * i + 1) ++ p.data (4 * i + 2) ++ p.data (4 * i + 3)

/-- The handle behind the status. -/
def Packet.handle (p : Packet) : List Byte := slice p.data 4 NFS_FHSIZE

/-- The bytes behind `struct rpc_t`. -/
def Packet.block (p : Packet) (n : Nat) : List Byte := slice p.data 76 n

/-- `NfsState` -/
inductive NfsState
  | PRCLOOKUP_PROG_MOUNT_REQ
  | PRCLOOKUP_PROG_NFS_REQ
  | MOUNT_REQ
  | UMOUNT_REQ
  | LOOKUP_REQ
  | READ_REQ
  | READLINK_REQ
  deriving DecidableEq

/-- `NetState` -/
inductive NetState
  | CONTINUE
  | RESTART
  | SUCCESS
  | FAIL
  deriving DecidableEq

/-- The procedures that are called, with their arguments. -/
inductive Request
  | getport (prog ver : Nat)
  | mount (path : List Byte)
  | umountall
  | lookup (dir fname : List Byte)
  | read (file : List Byte) (offset readlen : U32)
  | readlink (file : List Byte)
  deriving DecidableEq

/-- A call, and the port that it is sent to. -/
structure Call where
  id : U32
  sport : U32
  request : Request
  deriving DecidableEq

/-- The variables of `nfs.c` and those of `net.c` that it sets, and memory. -/
structure Client where
  fs_mounted : Bool
  rpc_id : U32
  nfs_offset : U32
  nfs_len : U32
  dirfh : List Byte
  filefh : List Byte
  NfsDownloadState : NetState
  NfsSrvMountPort : U32
  NfsSrvNfsPort : U32
  NfsTimeoutCount : Nat
  NfsState : NfsState
  nfs_filename : List Byte
  nfs_path : List Byte
  NetState : NetState
  NetBootFileXferSize : U32
  mem : Nat → Byte

/-! ## Calls -/

/-- The port that `rpc_req` sends to. -/
def sport (c : Client) : Request → U32
  | .getport _ _ => SUNRPC_PORT
  | .mount _ | .umountall => c.NfsSrvMountPort
  | .lookup _ _ | .read _ _ _ | .readlink _ => c.NfsSrvNfsPort

/-- `rpc_req` -/
def rpc_req (r : Request) (c : Client) : Client × Option Call :=
  ({ c with rpc_id := c.rpc_id + 1 }, some ⟨c.rpc_id + 1, sport c r, r⟩)

/-- What is asked for in a state: nothing, when there is nothing to unmount. -/
def request (c : Client) : Option Request :=
  match c.NfsState with
  | .PRCLOOKUP_PROG_MOUNT_REQ => some (.getport PROG_MOUNT 1)
  | .PRCLOOKUP_PROG_NFS_REQ => some (.getport PROG_NFS 2)
  | .MOUNT_REQ => some (.mount c.nfs_path)
  | .UMOUNT_REQ => if c.NfsSrvMountPort = -1#32 ∨ ¬ c.fs_mounted then none else some .umountall
  | .LOOKUP_REQ => some (.lookup c.dirfh c.nfs_filename)
  | .READ_REQ => some (.read c.filefh c.nfs_offset c.nfs_len)
  | .READLINK_REQ => some (.readlink c.filefh)

/-- `NfsSend` -/
def NfsSend (c : Client) : Client × Option Call :=
  match request c with
  | some r => rpc_req r c
  | none => (c, none)

/-! ## Replies -/

/-- The checks that every reply has to pass behind that of its id. -/
def Packet.Refused (p : Packet) : Prop := p.rstatus ≠ 0#32 ∨ p.verifier ≠ 0#32 ∨ p.astatus ≠ 0#32

instance (p : Packet) : Decidable p.Refused := inferInstanceAs (Decidable (_ ∨ _))

/-- `rpc_lookup_reply` -/
def rpc_lookup_reply (prog : Nat) (p : Packet) (c : Client) : Int × Client :=
  if p.id ≠ c.rpc_id then (-1, c)
  else if p.Refused then (-1, c)
  else if prog = PROG_MOUNT then (0, { c with NfsSrvMountPort := p.word 0 })
  else (0, { c with NfsSrvNfsPort := p.word 0 })

/-- `nfs_mount_reply` -/
def nfs_mount_reply (p : Packet) (c : Client) : Int × Client :=
  if p.id ≠ c.rpc_id then (-1, c)
  else if p.Refused ∨ p.word 0 ≠ 0#32 then (-1, c)
  else (0, { c with fs_mounted := true, dirfh := p.handle })

/-- `nfs_umountall_reply` -/
def nfs_umountall_reply (p : Packet) (c : Client) : Int × Client :=
  if p.id ≠ c.rpc_id then (-1, c)
  else if p.Refused then (-1, c)
  else (0, { c with fs_mounted := false, dirfh := List.replicate NFS_FHSIZE 0#8 })

/-- `nfs_lookup_reply` -/
def nfs_lookup_reply (p : Packet) (c : Client) : Int × Client :=
  if p.id ≠ c.rpc_id then (-1, c)
  else if p.Refused ∨ p.word 0 ≠ 0#32 then (-1, c)
  else (0, { c with filefh := p.handle })

/-- The path that a link has in its reply: behind that of the directory, when it is relative. -/
def linkPath (nfs_path : List Byte) (p : Packet) : List Byte :=
  let text := slice p.data 8 (p.word 1).toNat
  (if p.data 8 ≠ 0x2f#8 then nfs_path ++ 0x2f#8 :: text else text).takeWhile (· ≠ 0#8)

/-- `nfs_readlink_reply` -/
def nfs_readlink_reply (p : Packet) (c : Client) : Int × Client :=
  if p.id ≠ c.rpc_id then (-1, c)
  else if p.Refused ∨ p.word 0 ≠ 0#32 then (-1, c)
  else (0, { c with nfs_path := linkPath c.nfs_path p })

/-- `store_block` into memory. -/
def store_block (load_addr : Nat) (src : List Byte) (offset len : U32) (c : Client) : Client :=
  { c with
    mem := store c.mem (load_addr + offset.toNat) src
    NetBootFileXferSize :=
      if c.NetBootFileXferSize < offset + len then offset + len else c.NetBootFileXferSize }

/-- `nfs_read_reply` -/
def nfs_read_reply (load_addr : Nat) (p : Packet) (c : Client) : Int × Client :=
  if p.id ≠ c.rpc_id then (-1, c)
  else if p.Refused ∨ p.word 0 ≠ 0#32 then
    if p.rstatus ≠ 0#32 then (-9999, c)
    else if p.astatus ≠ 0#32 then (-9999, c)
    -- a verifier that is not AUTH_NULL comes here too
    else ((-p.word 0).toInt, c)
  else
    let rlen := p.word 18
    (rlen.toInt, store_block load_addr (p.block rlen.toNat) c.nfs_offset rlen c)

/-! ## Events -/

/-- `NfsTimeout`. When it gives up the network loop starts again, or fails. -/
def NfsTimeout (c : Client) : Client × Option Call :=
  let c := { c with NfsTimeoutCount := c.NfsTimeoutCount + 1 }
  if NFS_RETRY_COUNT < c.NfsTimeoutCount then ({ c with NetState := .RESTART }, none)
  else NfsSend c

/-- `basename` and `dirname` of a path with a slash. -/
def basename (path : List Byte) : List Byte := (path.reverse.takeWhile (· ≠ 0x2f#8)).reverse
def dirname (path : List Byte) : List Byte := path.take (path.length - (basename path).length - 1)

/-- `NfsHandler` -/
def NfsHandler (load_addr : Nat) (p : Packet) (dest : Nat) (c : Client) : Client × Option Call :=
  if dest ≠ NfsOurPort then (c, none)
  else match c.NfsState with
  | .PRCLOOKUP_PROG_MOUNT_REQ =>
      NfsSend { (rpc_lookup_reply PROG_MOUNT p c).2 with NfsState := .PRCLOOKUP_PROG_NFS_REQ }
  | .PRCLOOKUP_PROG_NFS_REQ =>
      NfsSend { (rpc_lookup_reply PROG_NFS p c).2 with NfsState := .MOUNT_REQ }
  | .MOUNT_REQ =>
      let (ret, c) := nfs_mount_reply p c
      if ret ≠ 0 then NfsSend { c with NfsState := .UMOUNT_REQ }
      else NfsSend { c with NfsState := .LOOKUP_REQ }
  | .UMOUNT_REQ =>
      let (ret, c) := nfs_umountall_reply p c
      if ret ≠ 0 then ({ c with NetState := .FAIL }, none)
      else ({ c with NetState := c.NfsDownloadState }, none)
  | .LOOKUP_REQ =>
      let (ret, c) := nfs_lookup_reply p c
      if ret ≠ 0 then NfsSend { c with NfsState := .UMOUNT_REQ }
      else NfsSend { c with NfsState := .READ_REQ, nfs_offset := 0, nfs_len := NFS_READ_SIZE }
  | .READLINK_REQ =>
      let (ret, c) := nfs_readlink_reply p c
      if ret ≠ 0 then NfsSend { c with NfsState := .UMOUNT_REQ }
      else NfsSend { c with
        nfs_filename := basename c.nfs_path
        nfs_path := dirname c.nfs_path
        NfsState := .MOUNT_REQ }
  | .READ_REQ =>
      let (rlen, c) := nfs_read_reply load_addr p c
      if 0 < rlen then NfsSend { c with nfs_offset := c.nfs_offset + BitVec.ofInt 32 rlen }
      else if rlen = -NFSERR_ISDIR ∨ rlen = -NFSERR_INVAL then
        NfsSend { c with NfsState := .READLINK_REQ }
      else
        NfsSend { c with
          NfsDownloadState := if rlen = 0 then .SUCCESS else c.NfsDownloadState
          NfsState := .UMOUNT_REQ }

/-- `NfsStart`, from the network loop, with the directory and the name of the file. -/
def NfsStart (nfs_path nfs_filename : List Byte) (c : Client) : Client × Option Call :=
  NfsSend { c with
    NetState := .CONTINUE
    NetBootFileXferSize := 0
    NfsDownloadState := .FAIL
    nfs_path := nfs_path
    nfs_filename := nfs_filename
    NfsTimeoutCount := 0
    NfsState := .PRCLOOKUP_PROG_MOUNT_REQ }

end UBoot.Nfs
