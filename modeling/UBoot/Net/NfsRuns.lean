/-
# Downloads over NFS that succeed

Whatever is lost, delayed or repeated, a reply with the last transaction id is one to the last
call, and a download that succeeds has brought the whole file, unless the verifier of a reply to a
read is taken for the end of the file.
-/

import UBoot.Net.Nfs

namespace UBoot.Nfs

open UBoot.Lib

/-! ## The server -/

/-- A file on a server, in a directory that can be mounted, with their handles. -/
structure Server where
  path : List Byte
  name : List Byte
  dir : List Byte
  file : List Byte
  content : List Byte

/-- A reply of a server that conforms. A call may always be refused, and an error be returned. Behind
a verifier that is not AUTH_NULL its own bytes come first. A read brings some bytes of the file, and
none at its end only. -/
def Answers (srv : Server) (call : Call) (p : Packet) : Prop :=
  p.id = call.id ∧ (¬ p.Refused →
    match call.request with
    | .mount path => p.word 0 = 0#32 → path = srv.path → p.handle = srv.dir
    | .lookup dir name => p.word 0 = 0#32 → dir = srv.dir → name = srv.name → p.handle = srv.file
    | .read file offset _ => file = srv.file →
        if p.word 0 = 0#32 then
          (p.word 18).toNat ≤ srv.content.length - offset.toNat ∧
            (p.word 18 = 0#32 → srv.content.length ≤ offset.toNat) ∧
            p.block (p.word 18).toNat =
              (srv.content.drop offset.toNat).take (p.word 18).toNat
        else (p.word 0).toNat < 2 ^ 31
    | .readlink file => file = srv.file → p.word 0 ≠ 0#32
    | _ => True)

/-- The client, the calls that it has sent, the last one first, and what the server has sent. -/
structure World where
  client : Client
  calls : List Call
  replies : List Packet

/-- The world after the client has done something, and sent a call or not. -/
def World.after (w : World) (r : Client × Option Call) : World :=
  { w with client := r.1, calls := r.2.toList ++ w.calls }

/-- What happens. -/
inductive Event
  | serve (call : Call) (p : Packet)
  | deliver (dest : Nat) (p : Packet)
  | timeout

/-- A step: the server answers a call, once more or for the first time; a copy of a reply is
delivered; or time is out. -/
inductive Step (srv : Server) (load_addr : Nat) : World → Event → World → Prop
  | serve {w : World} {call : Call} {p : Packet} (sent : call ∈ w.calls) (answers : Answers srv call p) :
      Step srv load_addr w (.serve call p) { w with replies := p :: w.replies }
  | deliver {w : World} {dest : Nat} {p : Packet} (sent : p ∈ w.replies)
      (running : w.client.NetState = .CONTINUE) :
      Step srv load_addr w (.deliver dest p) (w.after (NfsHandler load_addr p dest w.client))
  | timeout {w : World} (running : w.client.NetState = .CONTINUE) :
      Step srv load_addr w .timeout (w.after (NfsTimeout w.client))

/-- The beginning of a download. Replies to earlier calls may still come: the id of none of them is
one of the next 2^31 + 64. -/
structure Start (srv : Server) (c : Client) (old : List Packet) (w : World) : Prop where
  world : w = (World.mk c [] old).after (NfsStart srv.path srv.name c)
  old : ∀ p ∈ old, 2 ^ 31 + 64 ≤ (p.id - (c.rpc_id + 1)).toNat

/-- The verifier of a reply to a read is not taken for the end of the file, or for bytes of it. -/
def Told (c : Client) (p : Packet) : Prop :=
  c.NfsState = .READ_REQ → p.id = c.rpc_id → p.rstatus = 0#32 → p.verifier ≠ 0#32 →
    p.astatus = 0#32 → (-p.word 0).toInt < 0

/-- A step in which no verifier is taken for something else. -/
def ToldStep (srv : Server) (load_addr : Nat) (w : World) (e : Event) (w' : World) : Prop :=
  Step srv load_addr w e w' ∧ ∀ dest p, e = .deliver dest p → Told w.client p

/-- The file is in memory, and its length is known. -/
def Complete (srv : Server) (load_addr : Nat) (c : Client) : Prop :=
  slice c.mem load_addr srv.content.length = srv.content ∧
    c.NetBootFileXferSize.toNat = srv.content.length

variable {srv : Server} {load_addr : Nat}

/-! ## Transaction ids -/

/-- The ids of calls, the last one first. -/
def Numbered (first : U32) : List Call → Prop
  | [] => True
  | call :: older => call.id = first + BitVec.ofNat 32 older.length ∧ Numbered first older

theorem Numbered.id_lt {first : U32} {calls : List Call} (h : Numbered first calls)
    (few : calls.length < 2 ^ 32) {call : Call} (sent : call ∈ calls) :
    (call.id - first).toNat < calls.length := by
  induction calls with
  | nil => exact absurd sent List.not_mem_nil
  | cons head older ih =>
      rw [List.length_cons] at few ⊢
      rcases List.mem_cons.1 sent with rfl | hmem
      · rw [h.1, add_sub_cancel_left, BitVec.toNat_ofNat, Nat.mod_eq_of_lt (by omega)]
        omega
      · have := ih h.2 (by omega) hmem
        omega

/-- The last id is that of the last call only. -/
theorem Numbered.eq_head {first : U32} {head call : Call} {older : List Call}
    (h : Numbered first (head :: older)) (few : (head :: older).length < 2 ^ 32)
    (sent : call ∈ head :: older) (same : call.id = head.id) : call = head := by
  rw [List.length_cons] at few
  rcases List.mem_cons.1 sent with rfl | hmem
  · rfl
  · have hlt := h.2.id_lt (by omega) hmem
    rw [same, h.1, add_sub_cancel_left, BitVec.toNat_ofNat, Nat.mod_eq_of_lt (by omega)] at hlt
    omega

/-! ## The state of the client -/

/-- As much of the file as has been asked for is in memory. -/
structure Reading (srv : Server) (load_addr : Nat) (c : Client) : Prop where
  le : c.nfs_offset.toNat ≤ srv.content.length
  bytes : slice c.mem load_addr c.nfs_offset.toNat = srv.content.take c.nfs_offset.toNat
  size : c.NetBootFileXferSize = c.nfs_offset

/-- What holds in every state of a download. -/
structure Facts (srv : Server) (load_addr : Nat) (c : Client) : Prop where
  path : c.nfs_path = srv.path
  name : c.nfs_filename = srv.name
  dir : c.NfsState = .LOOKUP_REQ → c.dirfh = srv.dir
  file : c.NfsState = .READ_REQ ∨ c.NfsState = .READLINK_REQ → c.filefh = srv.file
  fresh : c.NfsState ≠ .READ_REQ → c.NfsState ≠ .READLINK_REQ → c.NfsState ≠ .UMOUNT_REQ →
    c.NetBootFileXferSize = 0#32
  reading : c.NfsState = .READ_REQ → Reading srv load_addr c
  offset : c.NfsState = .READLINK_REQ → c.nfs_offset.toNat < 2 ^ 31
  failing : c.NfsState ≠ .UMOUNT_REQ → c.NfsDownloadState = .FAIL
  done : c.NfsDownloadState = .SUCCESS ∨ c.NetState = .SUCCESS → Complete srv load_addr c

/-- How many calls there are at most when a state has been entered, without those for time-outs. -/
def progress (c : Client) : Nat :=
  match c.NfsState with
  | .PRCLOOKUP_PROG_MOUNT_REQ => 1
  | .PRCLOOKUP_PROG_NFS_REQ => 2
  | .MOUNT_REQ => 3
  | .LOOKUP_REQ => 4
  | .READ_REQ => 5 + c.nfs_offset.toNat
  | .READLINK_REQ => 6 + c.nfs_offset.toNat
  | .UMOUNT_REQ => 2 ^ 31 + 7

/-- A reply is, if its id is the last one, an answer to what is asked for in this state. -/
def Current (srv : Server) (c : Client) (p : Packet) : Prop :=
  p.id = c.rpc_id → c.NfsState ≠ .UMOUNT_REQ →
    ∃ port r, request c = some r ∧ Answers srv ⟨c.rpc_id, port, r⟩ p

/-- What the handler leaves behind: another state, whose call it sends, or the end. -/
structure Goes (srv : Server) (load_addr : Nat) (c c' : Client) : Prop where
  rpc_id : c'.rpc_id = c.rpc_id
  timeouts : c'.NfsTimeoutCount = c.NfsTimeoutCount
  facts : Facts srv load_addr c'

variable {c : Client} {p : Packet}

/-- A reply with the last id, in a state that asks for something. -/
theorem Current.answers (h : Current srv c p) {r : Request} (hid : p.id = c.rpc_id)
    (hstate : c.NfsState ≠ .UMOUNT_REQ) (hr : request c = some r) :
    ∃ port, Answers srv ⟨c.rpc_id, port, r⟩ p := by
  obtain ⟨port, r', hr', hanswers⟩ := h hid hstate
  obtain rfl : r = r' := Option.some.inj (hr.symm.trans hr')
  exact ⟨port, hanswers⟩

theorem mount_reply_spec (h : Current srv c p) (facts : Facts srv load_addr c)
    (hstate : c.NfsState = .MOUNT_REQ) :
    nfs_mount_reply p c = (-1, c) ∨
      nfs_mount_reply p c = (0, { c with fs_mounted := true, dirfh := p.handle }) ∧
        p.handle = srv.dir := by
  rw [nfs_mount_reply]
  split
  · exact Or.inl rfl
  · next hid =>
      split
      · exact Or.inl rfl
      · next hpass =>
          rw [not_or] at hpass
          have hr : request c = some (.mount c.nfs_path) := by rw [request, hstate]
          obtain ⟨port, -, hanswer⟩ := h.answers (not_not.1 hid) (by simp [hstate]) hr
          exact Or.inr ⟨rfl, hanswer hpass.1 (not_not.1 hpass.2) facts.path⟩

theorem lookup_reply_spec (h : Current srv c p) (facts : Facts srv load_addr c)
    (hstate : c.NfsState = .LOOKUP_REQ) :
    nfs_lookup_reply p c = (-1, c) ∨
      nfs_lookup_reply p c = (0, { c with filefh := p.handle }) ∧ p.handle = srv.file := by
  rw [nfs_lookup_reply]
  split
  · exact Or.inl rfl
  · next hid =>
      split
      · exact Or.inl rfl
      · next hpass =>
          rw [not_or] at hpass
          have hr : request c = some (.lookup c.dirfh c.nfs_filename) := by rw [request, hstate]
          obtain ⟨port, -, hanswer⟩ := h.answers (not_not.1 hid) (by simp [hstate]) hr
          exact Or.inr ⟨rfl, hanswer hpass.1 (not_not.1 hpass.2) (facts.dir hstate) facts.name⟩

/-- The file is no link. -/
theorem readlink_reply_spec (h : Current srv c p) (facts : Facts srv load_addr c)
    (hstate : c.NfsState = .READLINK_REQ) : nfs_readlink_reply p c = (-1, c) := by
  rw [nfs_readlink_reply]
  split
  · rfl
  · next hid =>
      split
      · rfl
      · next hpass =>
          rw [not_or] at hpass
          have hr : request c = some (.readlink c.filefh) := by rw [request, hstate]
          obtain ⟨port, -, hanswer⟩ := h.answers (not_not.1 hid) (by simp [hstate]) hr
          exact absurd (not_not.1 hpass.2) (hanswer hpass.1 (facts.file (Or.inr hstate)))

/-- The next bytes of the file behind those that are in memory. -/
theorem Reading.store (h : Reading srv load_addr c) (small : srv.content.length < 2 ^ 31) {n : U32}
    (hn : n.toNat ≤ srv.content.length - c.nfs_offset.toNat)
    (hblock : p.block n.toNat = (srv.content.drop c.nfs_offset.toNat).take n.toNat) :
    Reading srv load_addr { store_block load_addr (p.block n.toNat) c.nfs_offset n c with
      nfs_offset := c.nfs_offset + n } := by
  have hle := h.le
  have hadd : (c.nfs_offset + n).toNat = c.nfs_offset.toNat + n.toNat := by
    rw [BitVec.toNat_add, Nat.mod_eq_of_lt (by omega)]
  have hlen : (p.block n.toNat).length = n.toNat := length_slice _ _ _
  refine ⟨?_, ?_, ?_⟩
  · dsimp only
    omega
  · dsimp only [store_block]
    rw [hadd, slice_append, slice_store_beside (Or.inl le_rfl), slice_store_same hlen, h.bytes, hblock,
      List.take_add]
  · dsimp only [store_block]
    rw [h.size]
    split
    · rfl
    · next hge =>
        rw [BitVec.lt_def, hadd] at hge
        exact BitVec.eq_of_toNat_eq (by omega)

/-- The status of an error, with its sign changed. -/
theorem neg_status {w : U32} (h : w ≠ 0#32) (hlt : w.toNat < 2 ^ 31) : (-w).toInt < 0 := by
  have hpos : w.toNat ≠ 0 := fun hzero => h (BitVec.eq_of_toNat_eq hzero)
  rw [BitVec.toInt_eq_toNat_cond, BitVec.toNat_neg]
  split
  · omega
  · omega

theorem read_reply_spec (h : Current srv c p) (facts : Facts srv load_addr c) (told : Told c p)
    (small : srv.content.length < 2 ^ 31) (hstate : c.NfsState = .READ_REQ) :
    (∃ r < 0, nfs_read_reply load_addr p c = (r, c)) ∨
      ∃ n : U32, nfs_read_reply load_addr p c =
          ((n.toNat : Int), store_block load_addr (p.block n.toNat) c.nfs_offset n c) ∧
        Reading srv load_addr { store_block load_addr (p.block n.toNat) c.nfs_offset n c with
          nfs_offset := c.nfs_offset + n } ∧
        n.toNat < 2 ^ 31 ∧ (n = 0#32 → srv.content.length ≤ c.nfs_offset.toNat) := by
  rw [nfs_read_reply]
  split
  · exact Or.inl ⟨-1, by decide, rfl⟩
  next hid =>
  have hr : request c = some (.read c.filefh c.nfs_offset c.nfs_len) := by rw [request, hstate]
  have hfile := facts.file (Or.inl hstate)
  split
  · next hbad =>
      left
      split
      · exact ⟨-9999, by decide, rfl⟩
      · next hrstatus =>
          split
          · exact ⟨-9999, by decide, rfl⟩
          · next hastatus =>
              refine ⟨_, ?_, rfl⟩
              rw [not_not] at hid hrstatus hastatus
              by_cases hver : p.verifier = 0#32
              · have hpass : ¬ p.Refused := by simp [Packet.Refused, hrstatus, hastatus, hver]
                have hword : p.word 0 ≠ 0#32 := hbad.resolve_left hpass
                obtain ⟨port, -, hanswer⟩ := h.answers hid (by simp [hstate]) hr
                have hstatus := hanswer hpass hfile
                rw [if_neg hword] at hstatus
                exact neg_status hword hstatus
              · exact told hstate hid hrstatus hver hastatus
  · next hpass =>
      rw [not_or, not_not] at hpass
      obtain ⟨port, -, hanswer⟩ := h.answers (not_not.1 hid) (by simp [hstate]) hr
      have hread := hanswer hpass.1 hfile
      rw [if_pos hpass.2] at hread
      obtain ⟨hn, hend, hblock⟩ := hread
      right
      refine ⟨p.word 18, ?_, (facts.reading hstate).store small hn hblock, by omega, hend⟩
      dsimp only
      rw [BitVec.toInt_eq_toNat_of_lt (by omega)]

/-! ## The handler -/

/-- What the handler does: it enters a state and sends its call, or sends nothing. -/
def Handled (srv : Server) (load_addr : Nat) (c : Client) (r : Client × Option Call) : Prop :=
  (∃ c', r = NfsSend c' ∧ Goes srv load_addr c c' ∧ progress c + 1 ≤ progress c') ∨
    r = (c, none) ∨
    ∃ c', r = (c', none) ∧ Goes srv load_addr c c' ∧ c.NfsState = .UMOUNT_REQ ∧
      c'.NfsState = .UMOUNT_REQ

/-- The facts are not about ids or time-outs. -/
theorem Facts.counted (facts : Facts srv load_addr c) (id : U32) (n : Nat) :
    Facts srv load_addr { c with rpc_id := id, NfsTimeoutCount := n } :=
  ⟨facts.path, facts.name, facts.dir, facts.file, facts.fresh,
    fun h => ⟨(facts.reading h).le, (facts.reading h).bytes, (facts.reading h).size⟩, facts.offset,
    facts.failing, facts.done⟩

/-- A download that has not succeeded is given up. -/
theorem Facts.ends (facts : Facts srv load_addr c) {state : NetState} (h : state ≠ .SUCCESS) :
    Facts srv load_addr { c with NetState := state } :=
  ⟨facts.path, facts.name, facts.dir, facts.file, facts.fresh,
    fun h => ⟨(facts.reading h).le, (facts.reading h).bytes, (facts.reading h).size⟩, facts.offset,
    facts.failing, fun hd => facts.done (hd.imp_right fun hs => absurd hs h)⟩

/-- A failure: the directory is unmounted. -/
theorem Facts.fails (facts : Facts srv load_addr c) :
    Facts srv load_addr { c with NfsState := .UMOUNT_REQ } where
  path := facts.path
  name := facts.name
  dir := fun h => nomatch h
  file := fun h => h.elim (fun h => nomatch h) fun h => nomatch h
  fresh := fun _ _ h => absurd rfl h
  reading := fun h => nomatch h
  offset := fun h => nomatch h
  failing := fun h => absurd rfl h
  done := fun h => facts.done h

theorem progress_fails (facts : Facts srv load_addr c) (small : srv.content.length < 2 ^ 31)
    (hstate : c.NfsState ≠ .UMOUNT_REQ) : progress c + 1 ≤ 2 ^ 31 + 7 := by
  unfold progress
  cases h : c.NfsState with
  | UMOUNT_REQ => exact absurd h hstate
  | READ_REQ =>
      have := (facts.reading h).le
      dsimp only
      omega
  | READLINK_REQ =>
      have := facts.offset h
      dsimp only
      omega
  | _ =>
      dsimp only
      omega

theorem handled_fails (facts : Facts srv load_addr c) (small : srv.content.length < 2 ^ 31)
    (hstate : c.NfsState ≠ .UMOUNT_REQ) :
    Handled srv load_addr c (NfsSend { c with NfsState := .UMOUNT_REQ }) :=
  Or.inl ⟨_, rfl, ⟨rfl, rfl, facts.fails⟩, progress_fails facts small hstate⟩

theorem lookup_handled (prog : Nat) (facts : Facts srv load_addr c) {next : NfsState}
    (hnext : c.NfsState = .PRCLOOKUP_PROG_MOUNT_REQ ∧ next = .PRCLOOKUP_PROG_NFS_REQ ∨
      c.NfsState = .PRCLOOKUP_PROG_NFS_REQ ∧ next = .MOUNT_REQ) :
    Handled srv load_addr c
      (NfsSend { (rpc_lookup_reply prog p c).2 with NfsState := next }) := by
  have hreply : ∃ m n, (rpc_lookup_reply prog p c).2 =
      { c with NfsSrvMountPort := m, NfsSrvNfsPort := n } := by
    rw [rpc_lookup_reply]
    split
    · exact ⟨_, _, rfl⟩
    · split
      · exact ⟨_, _, rfl⟩
      · split
        · exact ⟨_, _, rfl⟩
        · exact ⟨_, _, rfl⟩
  obtain ⟨m, n, hreply⟩ := hreply
  rw [hreply]
  have hfresh : c.NetBootFileXferSize = 0#32 := by
    rcases hnext with ⟨h, -⟩ | ⟨h, -⟩
    all_goals exact facts.fresh (by simp [h]) (by simp [h]) (by simp [h])
  have hfailing : c.NfsDownloadState = .FAIL := by
    rcases hnext with ⟨h, -⟩ | ⟨h, -⟩
    all_goals exact facts.failing (by simp [h])
  refine Or.inl ⟨_, rfl, ⟨rfl, rfl, ?_⟩, ?_⟩
  · refine ⟨facts.path, facts.name, ?_, ?_, fun _ _ _ => hfresh, ?_, ?_, fun _ => hfailing, facts.done⟩
    all_goals rcases hnext with ⟨-, rfl⟩ | ⟨-, rfl⟩ <;> simp
  · rcases hnext with ⟨h, rfl⟩ | ⟨h, rfl⟩ <;> simp [progress, h]

/-- The next block is in memory, and another one is asked for. -/
theorem read_handled (facts : Facts srv load_addr c) (running : c.NetState = .CONTINUE)
    (hstate : c.NfsState = .READ_REQ) {n : U32} (hpos : n ≠ 0#32) (small : srv.content.length < 2 ^ 31)
    (reading : Reading srv load_addr
      { store_block load_addr (p.block n.toNat) c.nfs_offset n c with
        nfs_offset := c.nfs_offset + n })
    (hn : n.toNat < 2 ^ 31) :
    Handled srv load_addr c (NfsSend
      { store_block load_addr (p.block n.toNat) c.nfs_offset n c with
        nfs_offset := c.nfs_offset + n }) := by
  have hle := (facts.reading hstate).le
  have hadd : (c.nfs_offset + n).toNat = c.nfs_offset.toNat + n.toNat := by
    rw [BitVec.toNat_add, Nat.mod_eq_of_lt (by omega)]
  have hnz : n.toNat ≠ 0 := fun h => hpos (BitVec.eq_of_toNat_eq h)
  have hfailing : c.NfsDownloadState = .FAIL := facts.failing (by simp [hstate])
  refine Or.inl ⟨_, rfl, ⟨rfl, rfl, ?_⟩, ?_⟩
  · exact
      { path := facts.path
        name := facts.name
        dir := facts.dir
        file := facts.file
        fresh := fun h => absurd hstate h
        reading := fun _ => reading
        offset := fun h => nomatch hstate.symm.trans h
        failing := facts.failing
        done := fun h => h.elim (fun h => nomatch hfailing.symm.trans h)
          fun h => nomatch running.symm.trans h }
  · simp only [progress, store_block, hstate, hadd]
    omega

/-- The end of the file. -/
theorem end_handled (facts : Facts srv load_addr c) (hstate : c.NfsState = .READ_REQ)
    (small : srv.content.length < 2 ^ 31)
    (reading : Reading srv load_addr
      { store_block load_addr (p.block 0) c.nfs_offset 0#32 c with
        nfs_offset := c.nfs_offset + 0#32 })
    (hend : srv.content.length ≤ c.nfs_offset.toNat) :
    Handled srv load_addr c (NfsSend
      { store_block load_addr (p.block 0) c.nfs_offset 0#32 c with
        NfsDownloadState := .SUCCESS
        NfsState := .UMOUNT_REQ }) := by
  have hoffset : c.nfs_offset.toNat = srv.content.length :=
    le_antisymm (facts.reading hstate).le hend
  have hcomplete : Complete srv load_addr (store_block load_addr (p.block 0) c.nfs_offset 0#32 c) := by
    have hbytes := reading.bytes
    have hsize := reading.size
    dsimp only at hbytes hsize
    rw [BitVec.add_zero] at hbytes hsize
    rw [hoffset, List.take_length] at hbytes
    exact ⟨hbytes, by rw [hsize, hoffset]⟩
  refine Or.inl ⟨_, rfl, ⟨rfl, rfl, ?_⟩, progress_fails facts small (by simp [hstate])⟩
  exact
    { path := facts.path
      name := facts.name
      dir := fun h => nomatch h
      file := fun h => h.elim (fun h => nomatch h) fun h => nomatch h
      fresh := fun _ _ h => absurd rfl h
      reading := fun h => nomatch h
      offset := fun h => nomatch h
      failing := fun h => absurd rfl h
      done := fun _ => hcomplete }

/-- The handler does not leave what holds in every state. -/
theorem NfsHandler_handled (current : Current srv c p) (facts : Facts srv load_addr c)
    (told : Told c p) (running : c.NetState = .CONTINUE) (small : srv.content.length < 2 ^ 31)
    (dest : Nat) : Handled srv load_addr c (NfsHandler load_addr p dest c) := by
  rw [NfsHandler]
  split
  · exact Or.inr (Or.inl rfl)
  cases hstate : c.NfsState with
  | PRCLOOKUP_PROG_MOUNT_REQ => exact lookup_handled _ facts (Or.inl ⟨hstate, rfl⟩)
  | PRCLOOKUP_PROG_NFS_REQ => exact lookup_handled _ facts (Or.inr ⟨hstate, rfl⟩)
  | MOUNT_REQ =>
      rcases mount_reply_spec current facts hstate with hreply | ⟨hreply, hhandle⟩
      · simp only [hreply]
        exact handled_fails facts small (by simp [hstate])
      · simp only [hreply, ne_eq, not_true_eq_false, if_false]
        have hfresh := facts.fresh (by simp [hstate]) (by simp [hstate]) (by simp [hstate])
        have hfailing := facts.failing (by simp [hstate])
        refine Or.inl ⟨_, rfl, ⟨rfl, rfl, ?_⟩, by simp [progress, hstate]⟩
        exact ⟨facts.path, facts.name, fun _ => hhandle, by simp, fun _ _ _ => hfresh, by simp, by simp,
          fun _ => hfailing, facts.done⟩
  | UMOUNT_REQ =>
      refine Or.inr (Or.inr ?_)
      dsimp only [nfs_umountall_reply]
      have hfails : Facts srv load_addr { c with NetState := .FAIL } := facts.ends (by simp)
      split
      · exact ⟨_, rfl, ⟨rfl, rfl, hfails⟩, hstate, hstate⟩
      · split
        · exact ⟨_, rfl, ⟨rfl, rfl, hfails⟩, hstate, hstate⟩
        · refine ⟨_, rfl, ⟨rfl, rfl, ?_⟩, hstate, hstate⟩
          exact ⟨facts.path, facts.name, fun h => (nomatch hstate.symm.trans h), facts.file,
            facts.fresh, fun h => (nomatch hstate.symm.trans h), facts.offset, facts.failing,
            fun h => facts.done (Or.inl (h.elim id id))⟩
  | LOOKUP_REQ =>
      rcases lookup_reply_spec current facts hstate with hreply | ⟨hreply, hhandle⟩
      · simp only [hreply]
        exact handled_fails facts small (by simp [hstate])
      · simp only [hreply, ne_eq, not_true_eq_false, if_false]
        have hfresh := facts.fresh (by simp [hstate]) (by simp [hstate]) (by simp [hstate])
        have hfailing := facts.failing (by simp [hstate])
        refine Or.inl ⟨_, rfl, ⟨rfl, rfl, ?_⟩, by simp [progress, hstate]⟩
        exact ⟨facts.path, facts.name, by simp, fun _ => hhandle, by simp,
          fun _ => ⟨Nat.zero_le _, rfl, hfresh⟩, by simp, fun _ => hfailing, facts.done⟩
  | READLINK_REQ =>
      simp only [readlink_reply_spec current facts hstate]
      exact handled_fails facts small (by simp [hstate])
  | READ_REQ =>
      have hfailing := facts.failing (by simp [hstate])
      rcases read_reply_spec current facts told small hstate with ⟨r, hneg, hreply⟩ |
        ⟨n, hreply, hreading, hlt, hend⟩
      · simp only [hreply, if_neg (not_lt.2 hneg.le), if_neg hneg.ne]
        split
        · have hle := (facts.reading hstate).le
          refine Or.inl ⟨_, rfl, ⟨rfl, rfl, ?_⟩, by simp [progress, hstate]⟩
          exact ⟨facts.path, facts.name, by simp, fun _ => facts.file (Or.inl hstate), by simp, by simp,
            fun _ => by dsimp only; omega, fun _ => hfailing, facts.done⟩
        · exact handled_fails facts small (by simp [hstate])
      · by_cases hzero : n = 0#32
        · subst hzero
          simp only [hreply]
          exact end_handled facts hstate small hreading (hend rfl)
        · have hpos : (0 : Int) < n.toNat := by
            have : n.toNat ≠ 0 := fun h => hzero (BitVec.eq_of_toNat_eq h)
            omega
          simp only [hreply, if_pos hpos, BitVec.ofInt_natCast, BitVec.ofNat_toNat, BitVec.setWidth_eq]
          exact read_handled facts running hstate hzero small hreading hlt

/-! ## Runs -/

/-- What holds in every state of the world: the last call is the one that the client waits for an
answer to, and the number of calls is bounded. -/
structure Inv (srv : Server) (load_addr : Nat) (first : U32) (w : World) : Prop where
  ids : Numbered first w.calls
  last : w.client.rpc_id + 1 = first + BitVec.ofNat 32 w.calls.length
  few : w.calls.length ≤ w.client.NfsTimeoutCount + progress w.client
  timeouts : w.client.NetState = .CONTINUE → w.client.NfsTimeoutCount ≤ NFS_RETRY_COUNT
  latest : w.client.NfsState ≠ .UMOUNT_REQ → ∃ port r older, request w.client = some r ∧
    w.calls = ⟨w.client.rpc_id, port, r⟩ :: older
  answers : ∀ p ∈ w.replies, (∃ call ∈ w.calls, Answers srv call p) ∨
    2 ^ 31 + 64 ≤ (p.id - first).toNat
  facts : Facts srv load_addr w.client

variable {first : U32} {w : World}

theorem progress_le (facts : Facts srv load_addr c) (small : srv.content.length < 2 ^ 31) :
    progress c ≤ 2 ^ 31 + 7 := by
  by_cases h : c.NfsState = .UMOUNT_REQ
  · simp [progress, h]
  · exact Nat.le_of_succ_le (progress_fails facts small h)

/-- A reply with the last id is an answer to the last call. -/
theorem Inv.current (h : Inv srv load_addr first w) (small : srv.content.length < 2 ^ 31)
    (running : w.client.NetState = .CONTINUE) (sent : p ∈ w.replies) : Current srv w.client p := by
  intro hid hstate
  obtain ⟨port, r, older, hr, hcalls⟩ := h.latest hstate
  have hids := h.ids
  have hfew : w.calls.length < 2 ^ 31 + 64 := by
    have hprogress := progress_le h.facts small
    have htimeouts := h.timeouts running
    have hfew := h.few
    unfold NFS_RETRY_COUNT at htimeouts
    omega
  rw [hcalls] at hids hfew
  refine ⟨port, r, hr, ?_⟩
  rcases h.answers p sent with ⟨call, hcall, hanswers⟩ | hold
  · rw [hcalls] at hcall
    have hhead := hids.eq_head (by omega) hcall (hanswers.1.symm.trans hid)
    exact hhead ▸ hanswers
  · have hlt := hids.id_lt (by omega) List.mem_cons_self
    rw [hid] at hold
    dsimp only at hlt
    omega

/-- Only when there is nothing to unmount nothing is sent. -/
theorem state_of_request (h : request c = none) : c.NfsState = .UMOUNT_REQ := by
  unfold request at h
  split at h
  all_goals first | assumption | cases h

/-- A state is entered, or stayed in, and its call is sent. -/
theorem Inv.send (ids : Numbered first w.calls)
    (last : c.rpc_id + 1 = first + BitVec.ofNat 32 w.calls.length)
    (few : w.calls.length + 1 ≤ c.NfsTimeoutCount + progress c)
    (timeouts : c.NfsTimeoutCount ≤ NFS_RETRY_COUNT)
    (answers : ∀ p ∈ w.replies, (∃ call ∈ w.calls, Answers srv call p) ∨
      2 ^ 31 + 64 ≤ (p.id - first).toNat)
    (facts : Facts srv load_addr c) : Inv srv load_addr first (w.after (NfsSend c)) := by
  rw [NfsSend]
  cases hr : request c with
  | some r =>
      exact
        { ids := ⟨last, ids⟩
          last := by
            change c.rpc_id + 1 + 1 = first + BitVec.ofNat 32 (w.calls.length + 1)
            rw [last, BitVec.ofNat_add, BitVec.add_assoc]
            rfl
          few := few
          timeouts := fun _ => timeouts
          latest := fun _ => ⟨_, r, w.calls, hr, rfl⟩
          answers := fun p hp => (answers p hp).imp_left
            fun ⟨call, hcall, h⟩ => ⟨call, List.mem_cons_of_mem _ hcall, h⟩
          facts := facts.counted _ _ }
  | none =>
      exact
        { ids := ids
          last := last
          few := Nat.le_of_succ_le few
          timeouts := fun _ => timeouts
          latest := fun hstate => absurd (state_of_request hr) hstate
          answers := answers
          facts := facts }

theorem Inv.step {w' : World} {e : Event} (small : srv.content.length < 2 ^ 31)
    (h : Inv srv load_addr first w) (step : ToldStep srv load_addr w e w') :
    Inv srv load_addr first w' := by
  obtain ⟨step, told⟩ := step
  cases step with
  | @serve call p sent answers =>
      refine ⟨h.ids, h.last, h.few, h.timeouts, h.latest, fun q hq => ?_, h.facts⟩
      rcases List.mem_cons.1 hq with rfl | hmem
      · exact Or.inl ⟨call, sent, answers⟩
      · exact h.answers q hmem
  | @deliver dest p sent running =>
      rcases NfsHandler_handled (h.current small running sent) h.facts (told dest p rfl) running small
        dest with ⟨c, hsend, hgoes, hprogress⟩ | hnone | ⟨c, hend, hgoes, hstate, hstate'⟩
      · rw [hsend]
        refine Inv.send h.ids (hgoes.rpc_id ▸ h.last) ?_ (hgoes.timeouts ▸ h.timeouts running) h.answers
          hgoes.facts
        have := h.few
        have := hgoes.timeouts
        omega
      · rw [hnone]
        exact h
      · rw [hend]
        exact
          { ids := h.ids
            last := hgoes.rpc_id ▸ h.last
            few := by
              have := h.few
              simp only [progress, hstate] at this
              simp only [World.after, progress, hstate', hgoes.timeouts]
              exact this
            timeouts := fun _ => hgoes.timeouts ▸ h.timeouts running
            latest := fun hne => absurd hstate' hne
            answers := h.answers
            facts := hgoes.facts }
  | timeout running =>
      have hfew := h.few
      have hfacts := h.facts.counted w.client.rpc_id (w.client.NfsTimeoutCount + 1)
      rw [NfsTimeout]
      dsimp only
      split
      · -- the client gives up
        exact
          { ids := h.ids
            last := h.last
            few := by
              change w.calls.length ≤ w.client.NfsTimeoutCount + 1 + progress w.client
              omega
            timeouts := fun hrunning => nomatch hrunning
            latest := h.latest
            answers := h.answers
            facts := hfacts.ends (by simp) }
      · next hmore =>
          refine Inv.send h.ids h.last ?_ (not_lt.1 hmore) h.answers hfacts
          change w.calls.length + 1 ≤ w.client.NfsTimeoutCount + 1 + progress w.client
          omega

/-- The first call. -/
theorem Start.inv {old : List Packet} (h : Start srv c old w) :
    Inv srv load_addr (c.rpc_id + 1) w := by
  rw [h.world]
  refine Inv.send trivial (BitVec.add_zero _).symm (by simp [progress]) (Nat.zero_le _)
    (fun p hp => Or.inr (h.old p hp)) ?_
  exact
    { path := rfl
      name := rfl
      dir := by simp
      file := by simp
      fresh := by simp
      reading := by simp
      offset := by simp
      failing := by simp
      done := by simp }

/-- In every run in which no verifier is taken for something else, a download that succeeds has
brought the whole file. -/
theorem nfs_download {old : List Packet} {w' : World} {events : List Event}
    (small : srv.content.length < 2 ^ 31) (start : Start srv c old w)
    (run : Run (ToldStep srv load_addr) w events w')
    (success : w'.client.NetState = .SUCCESS) : Complete srv load_addr w'.client :=
  (run.invariant (I := Inv srv load_addr (c.rpc_id + 1)) (fun _ _ _ h step => h.step small step)
    start.inv).facts.done (Or.inr success)

/-! ## Two downloads -/

instance (srv : Server) (call : Call) (p : Packet) : Decidable (Answers srv call p) :=
  match call with
  | ⟨_, _, .mount _⟩ => inferInstanceAs (Decidable (_ ∧ (_ → _ → _ → _)))
  | ⟨_, _, .lookup _ _⟩ => inferInstanceAs (Decidable (_ ∧ (_ → _ → _ → _ → _)))
  | ⟨_, _, .read _ _ _⟩ => inferInstanceAs (Decidable (_ ∧ (_ → _ → ite _ _ _)))
  | ⟨_, _, .readlink _⟩ => inferInstanceAs (Decidable (_ ∧ (_ → _ → _)))
  | ⟨_, _, .getport _ _⟩ => inferInstanceAs (Decidable (_ ∧ (_ → True)))
  | ⟨_, _, .umountall⟩ => inferInstanceAs (Decidable (_ ∧ (_ → True)))

instance (c : Client) (p : Packet) : Decidable (Told c p) :=
  inferInstanceAs (Decidable (_ → _ → _ → _ → _ → _))

/-- A reply is sent, and delivered. -/
def exchange (load_addr : Nat) (w : World) (p : Packet) : World :=
  World.after { w with replies := p :: w.replies } (NfsHandler load_addr p NfsOurPort w.client)

/-- These replies are sent and delivered, one after another. -/
def Exchanges (srv : Server) (load_addr : Nat) (P : Client → Packet → Prop) :
    World → List Packet → Prop
  | _, [] => True
  | w, p :: ps => w.client.NetState = .CONTINUE ∧ (∃ call ∈ w.calls, Answers srv call p) ∧
      P w.client p ∧ Exchanges srv load_addr P (exchange load_addr w p) ps

instance Exchanges.decidable (P : Client → Packet → Prop) [∀ c p, Decidable (P c p)] :
    (w : World) → (ps : List Packet) → Decidable (Exchanges srv load_addr P w ps)
  | _, [] => inferInstanceAs (Decidable True)
  | w, p :: ps =>
      have := Exchanges.decidable P (exchange load_addr w p) ps
      inferInstanceAs (Decidable (_ ∧ _ ∧ _ ∧ _))

theorem Exchanges.run {P : Client → Packet → Prop} {ps : List Packet}
    (h : Exchanges srv load_addr P w ps) :
    ∃ events, Run (fun w e w' => Step srv load_addr w e w' ∧
      ∀ dest p, e = .deliver dest p → P w.client p) w events (ps.foldl (exchange load_addr) w) := by
  induction ps generalizing w with
  | nil => exact ⟨[], .nil _⟩
  | cons p ps ih =>
      obtain ⟨running, ⟨call, hcall, answers⟩, hp, hrest⟩ := h
      obtain ⟨events, run⟩ := ih hrest
      exact ⟨_, .cons ⟨.serve hcall answers, fun _ _ h => nomatch h⟩
        (.cons ⟨.deliver List.mem_cons_self running, fun _ _ h => by cases h; exact hp⟩ run)⟩

/-- A file of one byte. -/
def sampleServer : Server where
  path := [0x2f#8]
  name := [0x66#8]
  dir := List.replicate 32 1#8
  file := List.replicate 32 2#8
  content := [7#8]

/-- A client before its first download. -/
def idle : Client :=
  ⟨false, 0#32, -1#32, 0#32, [], [], .FAIL, 0#32, 0#32, 0, .PRCLOOKUP_PROG_MOUNT_REQ, [], [], .FAIL,
    0#32, fun _ => 0#8⟩

/-- The world in which the download begins. -/
def sampleStart : World :=
  (World.mk idle [] []).after (NfsStart sampleServer.path sampleServer.name idle)

theorem sampleStart_start : Start sampleServer idle [] sampleStart :=
  ⟨rfl, fun _ h => absurd h List.not_mem_nil⟩

/-- A reply that accepts a call. -/
def accepted (id verifier : U32) (data : List Byte) : Packet :=
  ⟨id, 0#32, verifier, 0#32, fun i => (data[i]?).getD 0#8⟩

/-- The replies up to the first read: two ports and two handles. -/
def opening : List Packet :=
  [accepted 1#32 0#32 [0, 0, 2, 0], accepted 2#32 0#32 [0, 0, 8, 1],
    accepted 3#32 0#32 ([0, 0, 0, 0] ++ List.replicate 32 1#8),
    accepted 4#32 0#32 ([0, 0, 0, 0] ++ List.replicate 32 2#8)]

/-- The byte, the end of the file, and the reply to the last call. -/
theorem download_of_one_byte :
    ∃ events, ∃ w, Run (ToldStep sampleServer 0x1000) sampleStart events w ∧
      w.client.NetState = .SUCCESS ∧ Complete sampleServer 0x1000 w.client := by
  have hall : Exchanges sampleServer 0x1000 Told sampleStart
      (opening ++ [accepted 5#32 0#32 (List.replicate 75 0#8 ++ [1, 7]), accepted 6#32 0#32 [],
        accepted 7#32 0#32 []]) := by decide
  obtain ⟨events, run⟩ := hall.run
  exact ⟨events, _, run, by decide,
    nfs_download (by decide) sampleStart_start run (by decide)⟩

/-- A reply to the first read with a verifier of its own, and no file in memory. -/
theorem verifier_ends_download :
    ∃ events, ∃ w, Run (Step sampleServer 0x1000) sampleStart events w ∧
      Start sampleServer idle [] sampleStart ∧ w.client.NetState = .SUCCESS ∧
      ¬ Complete sampleServer 0x1000 w.client := by
  have hall : Exchanges sampleServer 0x1000 (fun _ _ => True) sampleStart
      (opening ++ [accepted 5#32 2#32 [], accepted 6#32 0#32 []]) := by decide
  obtain ⟨events, run⟩ := hall.run
  refine ⟨events, _, run.mono fun _ _ _ h => h.1, sampleStart_start, by decide, fun h => ?_⟩
  exact absurd h.2 (by decide)

end UBoot.Nfs
