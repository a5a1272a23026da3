/-
# Replies over NFS as bytes

The reply functions of `net/nfs.c` on the payload that they are given, and `NfsHandler` with the
buffer of the path. There is no result when something behind the payload is looked at, when more is
copied than a local packet holds, or when something outside of the buffer is read or written.
Otherwise a reply is what it is as a packet.
-/

import UBoot.Net.Nfs
import UBoot.Net.NfsPath
import UBoot.Net.Packet

namespace UBoot.NfsBytes

open UBoot.Lib UBoot.Nfs UBoot.PacketBytes

/-- `sizeof(struct rpc_t)`, and `sizeof(rpc_pkt.u.reply)` -/
def RPC_SIZE : Nat := 2048
def REPLY_SIZE : Nat := 100

/-- `memcpy (&rpc_pkt, pkt, len)` -/
def copyPacket (pkt : List Byte) : Option (List Byte) :=
  if pkt.length ≤ RPC_SIZE then some pkt else none

/-- Where `rstatus`, `verifier` and `astatus` are, and `data[0]`. -/
def RPC_STATUS : List Nat := [8, 12, 20]
def NFS_STATUS : List Nat := [8, 12, 20, 24]

/-- Words of a reply are zero: they are looked at up to the first one that is not. -/
def zeros (rpc_pkt : List Byte) : List Nat → Option Bool
  | [] => return true
  | i :: rest => do
      let status ← word rpc_pkt i
      if status ≠ 0#32 then return false else zeros rpc_pkt rest

/-- The checks that a reply has to pass: that of its id, and those of its status. -/
def passes (rpc_pkt : List Byte) (rpc_id : U32) (status : List Nat) : Option Bool := do
  let id ← word rpc_pkt 0
  if id ≠ rpc_id then return false else zeros rpc_pkt status

/-- The replies to calls other than reads: the payload is copied as a whole, and is looked at further
when it passes its checks. -/
def checkedReply {α : Type} (pkt : List Byte) (rpc_id : U32) (status : List Nat)
    (accepted : List Byte → Option α) (refused : α) : Option α := do
  let rpc_pkt ← copyPacket pkt
  let passed ← passes rpc_pkt rpc_id status
  if passed then accepted rpc_pkt else return refused

/-- `rpc_lookup_reply` -/
def rpc_lookup_reply (prog : Nat) (pkt : List Byte) (c : Client) : Option (Int × Client) :=
  checkedReply pkt c.rpc_id RPC_STATUS (fun rpc_pkt => do
    let port ← word rpc_pkt 24
    return (0, if prog = PROG_MOUNT then { c with NfsSrvMountPort := port }
      else { c with NfsSrvNfsPort := port })) (-1, c)

/-- `nfs_mount_reply` -/
def nfs_mount_reply (pkt : List Byte) (c : Client) : Option (Int × Client) :=
  checkedReply pkt c.rpc_id NFS_STATUS (fun rpc_pkt => do
    let handle ← cells rpc_pkt 28 NFS_FHSIZE
    return (0, { c with fs_mounted := true, dirfh := handle })) (-1, c)

/-- `nfs_umountall_reply` -/
def nfs_umountall_reply (pkt : List Byte) (c : Client) : Option (Int × Client) :=
  checkedReply pkt c.rpc_id RPC_STATUS (fun _ =>
    return (0, { c with fs_mounted := false, dirfh := List.replicate NFS_FHSIZE 0#8 })) (-1, c)

/-- `nfs_lookup_reply` -/
def nfs_lookup_reply (pkt : List Byte) (c : Client) : Option (Int × Client) :=
  checkedReply pkt c.rpc_id NFS_STATUS (fun rpc_pkt => do
    let handle ← cells rpc_pkt 28 NFS_FHSIZE
    return (0, { c with filefh := handle })) (-1, c)

/-- The link that `nfs_readlink_reply` takes from the packet, and the byte that it looks at first. -/
def linkOf (rpc_pkt : List Byte) : Option (Byte × List Byte) := do
  let rlen ← word rpc_pkt 28
  let first ← rpc_pkt[32]?
  let text ← cells rpc_pkt 32 rlen.toNat
  return (first, text)

/-- `nfs_readlink_reply`, with the buffer that it writes to. -/
def nfs_readlink_reply (pkt : List Byte) (c : Client) (nfs_path_buff : PathBuff) :
    Option (Int × PathBuff) := do
  let link ← checkedReply pkt c.rpc_id NFS_STATUS (fun rpc_pkt => (linkOf rpc_pkt).map some) none
  match link with
  | none => return (-1, nfs_path_buff)
  | some (first, text) =>
      let nfs_path_buff ← linkTo nfs_path_buff first text
      return (0, nfs_path_buff)

/-- A payload as a packet. -/
def packetOf (pkt : List Byte) : Packet where
  id := wordAt pkt 0
  rstatus := wordAt pkt 8
  verifier := wordAt pkt 12
  astatus := wordAt pkt 20
  data i := pkt.getD (24 + i) 0

/-- `nfs_read_reply` with the fields of the packet. -/
def readFields (load_addr : Nat) (pkt : List Byte) (c : Client) (rpc_pkt : Packet) :
    Option (Int × Client) :=
  if rpc_pkt.id ≠ c.rpc_id then return (-1, c)
  else if rpc_pkt.Refused ∨ rpc_pkt.word 0 ≠ 0#32 then
    if rpc_pkt.rstatus ≠ 0#32 then return (-9999, c)
    else if rpc_pkt.astatus ≠ 0#32 then return (-9999, c)
    else return ((-rpc_pkt.word 0).toInt, c)
  else do
    let rlen := rpc_pkt.word 18
    let src ← cells pkt REPLY_SIZE rlen.toNat
    return (rlen.toInt, store_block load_addr src c.nfs_offset rlen c)

/-- `nfs_read_reply`. Only the fields are copied. -/
def nfs_read_reply (load_addr : Nat) (pkt : List Byte) (c : Client) : Option (Int × Client) := do
  let fields ← cells pkt 0 REPLY_SIZE
  readFields load_addr pkt c (packetOf fields)

/-- The client, and the buffer that its path is in. -/
structure Station where
  client : Client
  nfs_path_buff : PathBuff

/-- `NfsSend` -/
def send (nfs_path_buff : PathBuff) (c : Client) : Station × Option Call :=
  (⟨(NfsSend c).1, nfs_path_buff⟩, (NfsSend c).2)

/-- The strings that a split path has left in the buffer. -/
def strings (fname : Int) (nfs_path_buff : PathBuff) : Option (List Byte × List Byte) := do
  let nfs_path ← strAt nfs_path_buff 0
  let nfs_filename ← strAt nfs_path_buff fname.toNat
  return (nfs_path, nfs_filename)

/-- The state `READLINK_REQ` of `NfsHandler`. -/
def handleLink (pkt : List Byte) (s : Station) : Option (Station × Option Call) := do
  let (ret, nfs_path_buff) ← nfs_readlink_reply pkt s.client s.nfs_path_buff
  if ret ≠ 0 then return send nfs_path_buff { s.client with NfsState := .UMOUNT_REQ }
  else
    let (fname, nfs_path_buff) ← nfs_path_buff.split
    let (nfs_path, nfs_filename) ← strings fname nfs_path_buff
    return send nfs_path_buff { s.client with
      nfs_filename := nfs_filename
      nfs_path := nfs_path
      NfsState := .MOUNT_REQ }

/-- `NfsHandler`, for a payload to `NfsOurPort`. -/
def NfsHandler (load_addr : Nat) (pkt : List Byte) (s : Station) :
    Option (Station × Option Call) :=
  match s.client.NfsState with
  | .PRCLOOKUP_PROG_MOUNT_REQ => do
      let (_, c) ← rpc_lookup_reply PROG_MOUNT pkt s.client
      return send s.nfs_path_buff { c with NfsState := .PRCLOOKUP_PROG_NFS_REQ }
  | .PRCLOOKUP_PROG_NFS_REQ => do
      let (_, c) ← rpc_lookup_reply PROG_NFS pkt s.client
      return send s.nfs_path_buff { c with NfsState := .MOUNT_REQ }
  | .MOUNT_REQ => do
      let (ret, c) ← nfs_mount_reply pkt s.client
      if ret ≠ 0 then return send s.nfs_path_buff { c with NfsState := .UMOUNT_REQ }
      else return send s.nfs_path_buff { c with NfsState := .LOOKUP_REQ }
  | .UMOUNT_REQ => do
      let (ret, c) ← nfs_umountall_reply pkt s.client
      if ret ≠ 0 then return (⟨{ c with NetState := .FAIL }, s.nfs_path_buff⟩, none)
      else return (⟨{ c with NetState := c.NfsDownloadState }, s.nfs_path_buff⟩, none)
  | .LOOKUP_REQ => do
      let (ret, c) ← nfs_lookup_reply pkt s.client
      if ret ≠ 0 then return send s.nfs_path_buff { c with NfsState := .UMOUNT_REQ }
      else return send s.nfs_path_buff { c with
        NfsState := .READ_REQ
        nfs_offset := 0
        nfs_len := NFS_READ_SIZE }
  | .READLINK_REQ => handleLink pkt s
  | .READ_REQ => do
      let (rlen, c) ← nfs_read_reply load_addr pkt s.client
      if 0 < rlen then
        return send s.nfs_path_buff { c with nfs_offset := c.nfs_offset + BitVec.ofInt 32 rlen }
      else if rlen = -NFSERR_ISDIR ∨ rlen = -NFSERR_INVAL then
        return send s.nfs_path_buff { c with NfsState := .READLINK_REQ }
      else
        return send s.nfs_path_buff { c with
          NfsDownloadState := if rlen = 0 then .SUCCESS else c.NfsDownloadState
          NfsState := .UMOUNT_REQ }

/-- `NfsTimeout` -/
def NfsTimeout (s : Station) : Station × Option Call :=
  (⟨(Nfs.NfsTimeout s.client).1, s.nfs_path_buff⟩, (Nfs.NfsTimeout s.client).2)

/-- `NfsStart`, for a boot file. -/
def NfsStart (BootFile : List Byte) (s : Station) : Option (Station × Option Call) := do
  let (fname, nfs_path_buff) ← startPath s.nfs_path_buff BootFile
  let (nfs_path, nfs_filename) ← strings fname nfs_path_buff
  let started := Nfs.NfsStart nfs_path nfs_filename s.client
  return (⟨started.1, nfs_path_buff⟩, started.2)

/-! ## The payload as a packet -/

variable {pkt : List Byte} {c : Client}

/-- Data of a packet, from the payload. -/
theorem needs_data (pkt : List Byte) (j n : Nat) :
    Needs pkt.length (cells pkt (24 + j) n) (24 + j + n) (slice (packetOf pkt).data j n) := by
  refine (needs_cells pkt (24 + j) n).congr fun h => ?_
  rw [take_drop_eq_slice h]
  apply List.map_congr_left
  intro k _
  exact congrArg (pkt.getD · 0) (Nat.add_assoc 24 j k)

/-- How far words of a reply are looked at, up to the first one that is not zero. -/
def zerosLook (pkt : List Byte) : List Nat → Nat
  | [] => 0
  | i :: rest => if wordAt pkt i ≠ 0#32 then i + 4 else max (i + 4) (zerosLook pkt rest)

/-- How far the checks look at a reply. -/
def looks (pkt : List Byte) (rpc_id : U32) (status : List Nat) : Nat :=
  if wordAt pkt 0 ≠ rpc_id then 4 else max 4 (zerosLook pkt status)

/-- A reply passes its checks. -/
def Accepted (pkt : List Byte) (rpc_id : U32) (status : List Nat) : Prop :=
  wordAt pkt 0 = rpc_id ∧ ∀ i ∈ status, wordAt pkt i = 0#32

instance (pkt : List Byte) (rpc_id : U32) (status : List Nat) :
    Decidable (Accepted pkt rpc_id status) :=
  inferInstanceAs (Decidable (_ ∧ _))

theorem needs_zeros (pkt : List Byte) (status : List Nat) :
    Needs pkt.length (zeros pkt status) (zerosLook pkt status)
      (decide (∀ i ∈ status, wordAt pkt i = 0#32)) := by
  induction status with
  | nil => exact Needs.pure true
  | cons i rest ih =>
      rw [zeros, zerosLook]
      by_cases h : wordAt pkt i = 0#32
      · rw [if_neg (not_not.mpr h)]
        refine (needs_word pkt i).bind ?_
        rw [if_neg (not_not.mpr h)]
        simpa only [List.forall_mem_cons, h, true_and] using ih
      · rw [if_pos h, ← max_eq_left (Nat.zero_le (i + 4))]
        refine (needs_word pkt i).bind ?_
        rw [if_pos h, decide_eq_false fun hall => h (hall i List.mem_cons_self)]
        exact Needs.pure false

/-- The checks look at as much of the payload as they have to. -/
theorem needs_passes (pkt : List Byte) (rpc_id : U32) (status : List Nat) :
    Needs pkt.length (passes pkt rpc_id status) (looks pkt rpc_id status)
      (decide (Accepted pkt rpc_id status)) := by
  rw [passes, looks]
  by_cases h : wordAt pkt 0 = rpc_id
  · rw [if_neg (not_not.mpr h)]
    refine (needs_word pkt 0).bind ?_
    rw [if_neg (not_not.mpr h)]
    simpa only [Accepted, h, true_and] using needs_zeros pkt status
  · rw [if_pos h, ← max_eq_left (Nat.zero_le 4)]
    refine (needs_word pkt 0).bind ?_
    rw [if_pos h, decide_eq_false fun haccepted => h haccepted.1]
    exact Needs.pure false

/-- The payload can be copied, and the checks and what follows them find what they look at. -/
def ReplyFits (pkt : List Byte) (rpc_id : U32) (status : List Nat) (n : Nat) : Prop :=
  pkt.length ≤ RPC_SIZE ∧ looks pkt rpc_id status ≤ pkt.length ∧
    (Accepted pkt rpc_id status → n ≤ pkt.length)

instance (pkt : List Byte) (rpc_id : U32) (status : List Nat) (n : Nat) :
    Decidable (ReplyFits pkt rpc_id status n) :=
  inferInstanceAs (Decidable (_ ∧ _ ∧ _))

theorem checkedReply_eq {α : Type} {rpc_id : U32} {status : List Nat}
    {accepted : List Byte → Option α} {refused v : α} {n : Nat}
    (h : Needs pkt.length (accepted pkt) n v) :
    checkedReply pkt rpc_id status accepted refused =
      if ReplyFits pkt rpc_id status n then
        some (if Accepted pkt rpc_id status then v else refused)
      else none := by
  unfold checkedReply copyPacket
  by_cases hlen : pkt.length ≤ RPC_SIZE
  · rw [if_pos hlen]
    have hchecked : Needs pkt.length
        (passes pkt rpc_id status >>= fun passed => if passed then accepted pkt else pure refused)
        (max (looks pkt rpc_id status) (if Accepted pkt rpc_id status then n else 0))
        (if Accepted pkt rpc_id status then v else refused) := by
      refine (needs_passes pkt rpc_id status).bind ?_
      by_cases haccepted : Accepted pkt rpc_id status
      · rw [if_pos haccepted, if_pos haccepted, decide_eq_true haccepted]
        exact h
      · rw [if_neg haccepted, if_neg haccepted, decide_eq_false haccepted]
        exact Needs.pure refused
    refine hchecked.trans (if_congr ?_ rfl rfl)
    rw [max_le_iff, ReplyFits, and_iff_right hlen, ite_zero_le_iff]
  · have hfits : ¬ ReplyFits pkt rpc_id status n := fun hfits => hlen hfits.1
    rw [if_neg hlen, if_neg hfits]
    rfl

/-! ## Replies -/

/-- What the checks behind that of the id come to for a packet. -/
theorem accepted_rpc {rpc_id : U32} : Accepted pkt rpc_id RPC_STATUS ↔
    (packetOf pkt).id = rpc_id ∧ ¬ (packetOf pkt).Refused := by
  simp [Accepted, RPC_STATUS, Packet.Refused, packetOf]

theorem accepted_nfs {rpc_id : U32} : Accepted pkt rpc_id NFS_STATUS ↔
    (packetOf pkt).id = rpc_id ∧
      ¬ ((packetOf pkt).Refused ∨ (packetOf pkt).word 0 ≠ 0#32) := by
  simp [Accepted, NFS_STATUS, Packet.Refused, Packet.word, packetOf, PacketBytes.wordAt, and_assoc]

/-- The reply functions for packets do the same by the same checks. -/
theorem ite_accepted {α : Type} {P Q A : Prop} [Decidable P] [Decidable Q] [Decidable A]
    (h : A ↔ P ∧ ¬ Q) (v w : α) :
    (if ¬ P then w else if Q then w else v) = if A then v else w := by
  by_cases hP : P
  · by_cases hQ : Q
    · rw [if_neg (not_not.mpr hP), if_pos hQ, if_neg fun hA => (h.mp hA).2 hQ]
    · rw [if_neg (not_not.mpr hP), if_neg hQ, if_pos (h.mpr ⟨hP, hQ⟩)]
  · rw [if_pos hP, if_neg fun hA => hP (h.mp hA).1]

theorem rpc_lookup_reply_eq (prog : Nat) (pkt : List Byte) (c : Client) :
    rpc_lookup_reply prog pkt c =
      if ReplyFits pkt c.rpc_id RPC_STATUS 28 then
        some (Nfs.rpc_lookup_reply prog (packetOf pkt) c)
      else none := by
  refine (checkedReply_eq ((needs_word pkt 24).map _)).trans (if_congr Iff.rfl ?_ rfl)
  rw [← ite_accepted accepted_rpc, Nfs.rpc_lookup_reply]
  by_cases hprog : prog = PROG_MOUNT
  · rw [if_pos hprog, if_pos hprog]
    rfl
  · rw [if_neg hprog, if_neg hprog]
    rfl

theorem nfs_mount_reply_eq (pkt : List Byte) (c : Client) :
    nfs_mount_reply pkt c =
      if ReplyFits pkt c.rpc_id NFS_STATUS 60 then
        some (Nfs.nfs_mount_reply (packetOf pkt) c)
      else none := by
  refine (checkedReply_eq ((needs_data pkt 4 NFS_FHSIZE).map _)).trans (if_congr Iff.rfl ?_ rfl)
  rw [← ite_accepted accepted_nfs]
  rfl

theorem nfs_umountall_reply_eq (pkt : List Byte) (c : Client) :
    nfs_umountall_reply pkt c =
      if ReplyFits pkt c.rpc_id RPC_STATUS 0 then
        some (Nfs.nfs_umountall_reply (packetOf pkt) c)
      else none := by
  let unmounted := { c with fs_mounted := false, dirfh := List.replicate NFS_FHSIZE 0#8 }
  have hbody : Needs pkt.length (some ((0 : Int), unmounted)) 0 (0, unmounted) := Needs.pure _
  refine Eq.trans (@checkedReply_eq pkt _ c.rpc_id RPC_STATUS (fun _ => some (0, unmounted))
    (-1, c) _ _ hbody) (if_congr Iff.rfl ?_ rfl)
  rw [← ite_accepted accepted_rpc]
  rfl

theorem nfs_lookup_reply_eq (pkt : List Byte) (c : Client) :
    nfs_lookup_reply pkt c =
      if ReplyFits pkt c.rpc_id NFS_STATUS 60 then
        some (Nfs.nfs_lookup_reply (packetOf pkt) c)
      else none := by
  refine (checkedReply_eq ((needs_data pkt 4 NFS_FHSIZE).map _)).trans (if_congr Iff.rfl ?_ rfl)
  rw [← ite_accepted accepted_nfs]
  rfl

/-- How many bytes the link takes: the word of its length, the first byte, and as many as it says. -/
def linkEnd (pkt : List Byte) : Nat := max 33 (32 + (wordAt pkt 28).toNat)

theorem needs_linkOf (pkt : List Byte) :
    Needs pkt.length (linkOf pkt) (linkEnd pkt)
      (pkt.getD 32 0, (pkt.drop 32).take (wordAt pkt 28).toNat) := by
  have hmax : linkEnd pkt = max (28 + 4) (max (32 + 1) (32 + (wordAt pkt 28).toNat)) := by
    rw [linkEnd]
    omega
  rw [hmax]
  refine (needs_word pkt 28).bind ?_
  refine (needs_cell pkt 32 0).bind ?_
  exact (needs_cells pkt 32 _).map _

theorem nfs_readlink_reply_eq (pkt : List Byte) (c : Client) (nfs_path_buff : PathBuff) :
    nfs_readlink_reply pkt c nfs_path_buff =
      if ReplyFits pkt c.rpc_id NFS_STATUS (linkEnd pkt) then
        if Accepted pkt c.rpc_id NFS_STATUS then
          (linkTo nfs_path_buff (pkt.getD 32 0)
            ((pkt.drop 32).take (wordAt pkt 28).toNat)).map (0, ·)
        else some (-1, nfs_path_buff)
      else none := by
  have hlink : Needs pkt.length ((linkOf pkt).map some) (linkEnd pkt)
      (some (pkt.getD 32 0, (pkt.drop 32).take (wordAt pkt 28).toNat)) := by
    rw [Option.map_eq_bind]
    exact (needs_linkOf pkt).map some
  unfold nfs_readlink_reply
  rw [checkedReply_eq hlink]
  by_cases hfits : ReplyFits pkt c.rpc_id NFS_STATUS (linkEnd pkt)
  · rw [if_pos hfits, if_pos hfits]
    by_cases haccepted : Accepted pkt c.rpc_id NFS_STATUS
    · rw [if_pos haccepted, if_pos haccepted, Option.map_eq_bind]
      rfl
    · rw [if_neg haccepted, if_neg haccepted]
      rfl
  · rw [if_neg hfits, if_neg hfits]
    rfl

/-- The block that a read brings. -/
def blockEnd (pkt : List Byte) : Nat := REPLY_SIZE + (wordAt pkt 96).toNat

/-- The fields are those of the payload. -/
theorem readFields_take (load_addr : Nat) (pkt : List Byte) (c : Client) :
    readFields load_addr pkt c (packetOf (pkt.take REPLY_SIZE)) =
      readFields load_addr pkt c (packetOf pkt) := by
  have hword (i : Nat) (h : i + 4 ≤ REPLY_SIZE) :
      wordAt (pkt.take REPLY_SIZE) i = wordAt pkt i := wordAt_take h
  have hid : (packetOf (pkt.take REPLY_SIZE)).id = (packetOf pkt).id := hword 0 (by decide)
  have hrstatus : (packetOf (pkt.take REPLY_SIZE)).rstatus = (packetOf pkt).rstatus :=
    hword 8 (by decide)
  have hverifier : (packetOf (pkt.take REPLY_SIZE)).verifier = (packetOf pkt).verifier :=
    hword 12 (by decide)
  have hastatus : (packetOf (pkt.take REPLY_SIZE)).astatus = (packetOf pkt).astatus :=
    hword 20 (by decide)
  have hdata : (packetOf (pkt.take REPLY_SIZE)).word 0 = (packetOf pkt).word 0 :=
    hword 24 (by decide)
  have hrlen : (packetOf (pkt.take REPLY_SIZE)).word 18 = (packetOf pkt).word 18 :=
    hword 96 (by decide)
  have hrefused : (packetOf (pkt.take REPLY_SIZE)).Refused ↔ (packetOf pkt).Refused := by
    rw [Packet.Refused, hrstatus, hverifier, hastatus, Packet.Refused]
  unfold readFields
  rw [hid, hrstatus, hastatus, hdata, hrlen]
  exact if_congr Iff.rfl rfl (if_congr (or_congr_left hrefused) rfl rfl)

theorem needs_readFields (load_addr : Nat) (pkt : List Byte) (c : Client) :
    Needs pkt.length (readFields load_addr pkt c (packetOf pkt))
      (if Accepted pkt c.rpc_id NFS_STATUS then blockEnd pkt else 0)
      (Nfs.nfs_read_reply load_addr (packetOf pkt) c) := by
  unfold readFields Nfs.nfs_read_reply
  by_cases haccepted : Accepted pkt c.rpc_id NFS_STATUS
  · obtain ⟨hsame, hpassed⟩ := accepted_nfs.mp haccepted
    rw [if_pos haccepted, if_neg (not_not.mpr hsame), if_neg (not_not.mpr hsame), if_neg hpassed,
      if_neg hpassed]
    exact (needs_data pkt 76 _).map _
  · rw [if_neg haccepted]
    by_cases hsame : (packetOf pkt).id = c.rpc_id
    · have hrefused : (packetOf pkt).Refused ∨ (packetOf pkt).word 0 ≠ 0#32 := by
        by_contra hpassed
        exact haccepted (accepted_nfs.mpr ⟨hsame, hpassed⟩)
      rw [if_neg (not_not.mpr hsame), if_neg (not_not.mpr hsame), if_pos hrefused,
        if_pos hrefused]
      split
      · exact Needs.pure _
      · split
        · exact Needs.pure _
        · exact Needs.pure _
    · rw [if_pos hsame, if_pos hsame]
      exact Needs.pure _

/-- The payload has the fields of a reply to a read, and the block that they tell of. -/
def ReadFits (pkt : List Byte) (rpc_id : U32) : Prop :=
  REPLY_SIZE ≤ pkt.length ∧ (Accepted pkt rpc_id NFS_STATUS → blockEnd pkt ≤ pkt.length)

instance (pkt : List Byte) (rpc_id : U32) : Decidable (ReadFits pkt rpc_id) :=
  inferInstanceAs (Decidable (_ ∧ _))

theorem nfs_read_reply_eq (load_addr : Nat) (pkt : List Byte) (c : Client) :
    nfs_read_reply load_addr pkt c =
      if ReadFits pkt c.rpc_id then some (Nfs.nfs_read_reply load_addr (packetOf pkt) c)
      else none := by
  have hfields : Needs pkt.length (cells pkt 0 REPLY_SIZE) REPLY_SIZE (pkt.take REPLY_SIZE) := by
    unfold cells
    rw [Nat.zero_add, List.drop_zero]
    rfl
  have hreply : Needs pkt.length (nfs_read_reply load_addr pkt c)
      (max REPLY_SIZE (if Accepted pkt c.rpc_id NFS_STATUS then blockEnd pkt else 0))
      (Nfs.nfs_read_reply load_addr (packetOf pkt) c) := by
    refine hfields.bind ?_
    rw [readFields_take]
    exact needs_readFields load_addr pkt c
  refine hreply.trans (if_congr ?_ rfl rfl)
  rw [max_le_iff, ite_zero_le_iff, ReadFits]

end UBoot.NfsBytes
