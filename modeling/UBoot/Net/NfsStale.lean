/-
# Stale replies over NFS

A reply whose transaction id is not that of the last call. The reply functions all return `-1` for
it, and the handler takes this for the end of what it is waiting for: a lookup of a port goes on to
the next state, and everything else goes to the unmounting, which fails. Only a client that has
failed to unmount is left as it was.
-/

import UBoot.Net.Nfs

namespace UBoot.Nfs

/-- What a client that has been started gets: a packet to its port, or a time-out. -/
inductive Input where
  | packet (p : Packet)
  | timeout

/-- What the client makes of it. -/
def react (load_addr : Nat) (c : Client) : Input → Client × Option Call
  | .packet p => NfsHandler load_addr p NfsOurPort c
  | .timeout => NfsTimeout c

/-- The client after some inputs. -/
def after (load_addr : Nat) (c : Client) (inputs : List Input) : Client :=
  inputs.foldl (fun c i => (react load_addr c i).1) c

/-- A packet has been ignored. -/
structure Ignored (c : Client) (result : Client × Option Call) : Prop where
  NfsState : result.1.NfsState = c.NfsState
  NetState : result.1.NetState = c.NetState
  dirfh : result.1.dirfh = c.dirfh
  filefh : result.1.filefh = c.filefh
  NfsSrvMountPort : result.1.NfsSrvMountPort = c.NfsSrvMountPort
  NfsSrvNfsPort : result.1.NfsSrvNfsPort = c.NfsSrvNfsPort
  nfs_offset : result.1.nfs_offset = c.nfs_offset
  nfs_path : result.1.nfs_path = c.nfs_path
  mem : result.1.mem = c.mem
  call : result.2 = none

/-- The client has failed to unmount. -/
def Unmounted (c : Client) : Prop := c.NfsState = .UMOUNT_REQ ∧ c.NetState = .FAIL

/-- Every stale packet of a run comes to a client of which this holds. -/
def EachStale (load_addr : Nat) (P : Client → Packet → Prop) : Client → List Input → Prop
  | _, [] => True
  | c, i :: inputs =>
      (∀ p, i = .packet p → p.id ≠ c.rpc_id → P c p) ∧
        EachStale load_addr P (react load_addr c i).1 inputs

/-- What is left of a run without its stale packets. -/
def dropStale (load_addr : Nat) : Client → List Input → List Input
  | _, [] => []
  | c, .packet p :: inputs =>
      if p.id ≠ c.rpc_id then dropStale load_addr c inputs
      else .packet p :: dropStale load_addr (react load_addr c (.packet p)).1 inputs
  | c, .timeout :: inputs => .timeout :: dropStale load_addr (react load_addr c .timeout).1 inputs

variable {load_addr : Nat} {c : Client} {p : Packet}

theorem NfsSend_NfsState (c : Client) : (NfsSend c).1.NfsState = c.NfsState := by
  unfold NfsSend
  split
  · rfl
  · rfl

theorem handler_stale_umount (h : p.id ≠ c.rpc_id) (hstate : c.NfsState = .UMOUNT_REQ) :
    NfsHandler load_addr p NfsOurPort c = ({ c with NetState := .FAIL }, none) := by
  have hreply : nfs_umountall_reply p c = (-1, c) := if_pos h
  unfold NfsHandler
  rw [if_neg (not_not.mpr rfl), hreply]
  cases c
  cases hstate
  rfl

/-- What the handler does with a stale packet. -/
theorem handler_stale (h : p.id ≠ c.rpc_id) :
    (c.NfsState = .UMOUNT_REQ ∧
      NfsHandler load_addr p NfsOurPort c = ({ c with NetState := .FAIL }, none)) ∨
    ∃ s, s ≠ c.NfsState ∧
      NfsHandler load_addr p NfsOurPort c = NfsSend { c with NfsState := s } := by
  by_cases humount : c.NfsState = .UMOUNT_REQ
  · exact .inl ⟨humount, handler_stale_umount h humount⟩
  · right
    unfold NfsHandler
    rw [if_neg (not_not.mpr rfl)]
    cases hstate : c.NfsState with
    | PRCLOOKUP_PROG_MOUNT_REQ =>
        have hreply : rpc_lookup_reply PROG_MOUNT p c = (-1, c) := if_pos h
        refine ⟨.PRCLOOKUP_PROG_NFS_REQ, by decide, ?_⟩
        rw [hreply]
    | PRCLOOKUP_PROG_NFS_REQ =>
        have hreply : rpc_lookup_reply PROG_NFS p c = (-1, c) := if_pos h
        refine ⟨.MOUNT_REQ, by decide, ?_⟩
        rw [hreply]
    | MOUNT_REQ =>
        have hreply : nfs_mount_reply p c = (-1, c) := if_pos h
        refine ⟨.UMOUNT_REQ, by decide, ?_⟩
        rw [hreply]
        rfl
    | UMOUNT_REQ => exact absurd hstate humount
    | LOOKUP_REQ =>
        have hreply : nfs_lookup_reply p c = (-1, c) := if_pos h
        refine ⟨.UMOUNT_REQ, by decide, ?_⟩
        rw [hreply]
        rfl
    | READ_REQ =>
        have hreply : nfs_read_reply load_addr p c = (-1, c) := if_pos h
        refine ⟨.UMOUNT_REQ, by decide, ?_⟩
        rw [hreply]
        rfl
    | READLINK_REQ =>
        have hreply : nfs_readlink_reply p c = (-1, c) := if_pos h
        refine ⟨.UMOUNT_REQ, by decide, ?_⟩
        rw [hreply]
        rfl

theorem handler_unmounted (h : p.id ≠ c.rpc_id) (hc : Unmounted c) :
    NfsHandler load_addr p NfsOurPort c = (c, none) := by
  rw [handler_stale_umount h hc.1, ← hc.2]

/-- A stale packet is ignored only by a client that has failed to unmount. -/
theorem ignored_iff (h : p.id ≠ c.rpc_id) :
    Ignored c (NfsHandler load_addr p NfsOurPort c) ↔ Unmounted c := by
  constructor
  · intro ignored
    rcases handler_stale h with ⟨hstate, hhandler⟩ | ⟨s, hs, hhandler⟩
    · have hfail := ignored.NetState
      rw [hhandler] at hfail
      exact ⟨hstate, hfail.symm⟩
    · have hsame := ignored.NfsState
      rw [hhandler, NfsSend_NfsState] at hsame
      exact absurd hsame hs
  · intro hc
    rw [handler_unmounted h hc]
    exact ⟨rfl, rfl, rfl, rfl, rfl, rfl, rfl, rfl, rfl, rfl⟩

theorem EachStale.congr {P Q : Client → Packet → Prop}
    (h : ∀ c p, p.id ≠ c.rpc_id → (P c p ↔ Q c p)) (c : Client) (inputs : List Input) :
    EachStale load_addr P c inputs ↔ EachStale load_addr Q c inputs := by
  induction inputs generalizing c with
  | nil => exact Iff.rfl
  | cons i inputs ih =>
      refine and_congr ?_ (ih _)
      constructor
      · exact fun hP p hi hstale => (h c p hstale).mp (hP p hi hstale)
      · exact fun hQ p hi hstale => (h c p hstale).mpr (hQ p hi hstale)

/-- Without its stale packets a run comes to the same. -/
theorem after_dropStale {inputs : List Input}
    (h : EachStale load_addr (fun c _ => Unmounted c) c inputs) :
    after load_addr c (dropStale load_addr c inputs) = after load_addr c inputs := by
  induction inputs generalizing c with
  | nil => rfl
  | cons i inputs ih =>
      obtain ⟨hfirst, hrest⟩ := h
      cases i with
      | timeout => exact ih hrest
      | packet p =>
          rw [dropStale]
          by_cases hstale : p.id ≠ c.rpc_id
          · have hsame := @handler_unmounted load_addr c p hstale (hfirst p rfl hstale)
            have hreact : (react load_addr c (.packet p)).1 = c := congrArg Prod.fst hsame
            rw [hreact] at hrest
            rw [if_pos hstale, ih hrest]
            exact congrArg (after load_addr · inputs) hreact.symm
          · rw [if_neg hstale]
            exact ih hrest

/-- The stale packets of a run are ignored exactly if each of them comes to a client that has failed
to unmount, and then the client is left as if they had not come. -/
theorem nfs_stale_ignored_iff (load_addr : Nat) (nfs_path nfs_filename : List Byte) (c : Client)
    (inputs : List Input) :
    (EachStale load_addr (fun c p => Ignored c (NfsHandler load_addr p NfsOurPort c))
        (NfsStart nfs_path nfs_filename c).1 inputs ↔
      EachStale load_addr (fun c _ => Unmounted c) (NfsStart nfs_path nfs_filename c).1 inputs) ∧
    (EachStale load_addr (fun c _ => Unmounted c) (NfsStart nfs_path nfs_filename c).1 inputs →
      after load_addr (NfsStart nfs_path nfs_filename c).1
          (dropStale load_addr (NfsStart nfs_path nfs_filename c).1 inputs) =
        after load_addr (NfsStart nfs_path nfs_filename c).1 inputs) :=
  ⟨EachStale.congr (fun _ _ hstale => ignored_iff hstale) _ _, after_dropStale⟩

/-- A client that has never been started. -/
def neverStarted : Client where
  fs_mounted := false
  rpc_id := 0
  nfs_offset := 0
  nfs_len := 0
  dirfh := List.replicate NFS_FHSIZE 0
  filefh := List.replicate NFS_FHSIZE 0
  NfsDownloadState := .FAIL
  NfsSrvMountPort := 0
  NfsSrvNfsPort := 0
  NfsTimeoutCount := 0
  NfsState := .PRCLOOKUP_PROG_MOUNT_REQ
  nfs_filename := []
  nfs_path := []
  NetState := .CONTINUE
  NetBootFileXferSize := 0
  mem := fun _ => 0

/-- A reply to an earlier call comes while the client waits for the port to mount at. -/
theorem not_nfs_stale_ignored :
    ¬ ∀ (load_addr : Nat) (nfs_path nfs_filename : List Byte) (c : Client) (inputs : List Input),
      EachStale load_addr (fun c p => Ignored c (NfsHandler load_addr p NfsOurPort c))
        (NfsStart nfs_path nfs_filename c).1 inputs := by
  intro h
  obtain ⟨hfirst, -⟩ := h 0 [0x61] [0x62] neverStarted [.packet ⟨0, 0, 0, 0, fun _ => 0⟩]
  have hstate := (hfirst _ rfl (by decide)).NfsState
  exact absurd hstate (by decide)

end UBoot.Nfs
