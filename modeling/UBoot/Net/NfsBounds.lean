/-
# Replies over NFS and their bounds

What a payload has to bring for its handler, in the state that the client is in, and what the
handler keeps then: the path is a string within its buffer, and only bytes of the payload get into
memory. A handler that gets less reads behind the payload, and one that gets more than `struct rpc_t`
holds writes behind its local packet.
-/

import UBoot.Net.NfsBytes

namespace UBoot.NfsBytes

open UBoot.Lib UBoot.Nfs UBoot.PacketBytes

/-- A UDP payload, reassembled or not: a datagram has a length of 16 bits. -/
abbrev Payload := { pkt : List Byte // pkt.length < 2 ^ 16 }

/-- The path is a string in its buffer. -/
def PathOk (s : Station) : Prop := strAt s.nfs_path_buff 0 = some s.client.nfs_path

/-- Memory is as it was, or bytes of the payload have been stored where the next block goes. -/
def StoresPayload (load_addr : Nat) (pkt : List Byte) (s s' : Station) : Prop :=
  s'.client.mem = s.client.mem ∨ ∃ rlen, REPLY_SIZE + rlen ≤ pkt.length ∧
    s'.client.mem = store s.client.mem (load_addr + s.client.nfs_offset.toNat)
      ((pkt.drop REPLY_SIZE).take rlen)

/-- A payload has been handled in bounds. -/
def Within (load_addr : Nat) (pkt : List Byte) (s : Station)
    (result : Option (Station × Option Call)) : Prop :=
  ∃ s' call, result = some (s', call) ∧ PathOk s' ∧ StoresPayload load_addr pkt s s'

/-- The path that a link makes has room in the buffer, and a slash. -/
def LinkFits (pkt : List Byte) (nfs_path : List Byte) : Prop :=
  (joined nfs_path (pkt.getD 32 0) ((pkt.drop 32).take (wordAt pkt 28).toNat)).length <
      NFS_PATH_SIZE ∧
    (pkt.getD 32 0 = 0x2f#8 → 0 < (wordAt pkt 28).toNat)

/-- The payload brings what its handler looks at, and not more than it copies. -/
def Fits (pkt : List Byte) (s : Station) : Prop :=
  match s.client.NfsState with
  | .PRCLOOKUP_PROG_MOUNT_REQ | .PRCLOOKUP_PROG_NFS_REQ =>
      ReplyFits pkt s.client.rpc_id RPC_STATUS 28
  | .MOUNT_REQ | .LOOKUP_REQ => ReplyFits pkt s.client.rpc_id NFS_STATUS 60
  | .UMOUNT_REQ => ReplyFits pkt s.client.rpc_id RPC_STATUS 0
  | .READLINK_REQ =>
      ReplyFits pkt s.client.rpc_id NFS_STATUS (linkEnd pkt) ∧
        (Accepted pkt s.client.rpc_id NFS_STATUS → LinkFits pkt s.client.nfs_path)
  | .READ_REQ => ReadFits pkt s.client.rpc_id

/-! ## The state behind a reply -/

/-- The path and memory are as they were. -/
def Keeps (c c' : Client) : Prop := c'.nfs_path = c.nfs_path ∧ c'.mem = c.mem

variable {load_addr : Nat} {pkt : List Byte} {s : Station}

theorem NfsSend_keeps (c : Client) : Keeps c (NfsSend c).1 := by
  unfold NfsSend
  split
  · exact ⟨rfl, rfl⟩
  · exact ⟨rfl, rfl⟩

/-- A reply that two checks may refuse. -/
theorem Keeps.checked {α : Type} {p q : Prop} [Decidable p] [Decidable q] {c : Client}
    {unknown failed taken : α × Client} (hunknown : Keeps c unknown.2) (hfailed : Keeps c failed.2)
    (htaken : Keeps c taken.2) :
    Keeps c (if p then unknown else if q then failed else taken).2 := by
  split
  · exact hunknown
  · split
    · exact hfailed
    · exact htaken

theorem rpc_lookup_reply_keeps (prog : Nat) (p : Packet) (c : Client) :
    Keeps c (Nfs.rpc_lookup_reply prog p c).2 := by
  refine .checked ⟨rfl, rfl⟩ ⟨rfl, rfl⟩ ?_
  split
  · exact ⟨rfl, rfl⟩
  · exact ⟨rfl, rfl⟩

theorem nfs_mount_reply_keeps (p : Packet) (c : Client) :
    Keeps c (Nfs.nfs_mount_reply p c).2 := .checked ⟨rfl, rfl⟩ ⟨rfl, rfl⟩ ⟨rfl, rfl⟩

theorem nfs_umountall_reply_keeps (p : Packet) (c : Client) :
    Keeps c (Nfs.nfs_umountall_reply p c).2 := .checked ⟨rfl, rfl⟩ ⟨rfl, rfl⟩ ⟨rfl, rfl⟩

theorem nfs_lookup_reply_keeps (p : Packet) (c : Client) :
    Keeps c (Nfs.nfs_lookup_reply p c).2 := .checked ⟨rfl, rfl⟩ ⟨rfl, rfl⟩ ⟨rfl, rfl⟩

/-- A state whose client has kept its path and memory. -/
theorem within_kept (h : PathOk s) {c : Client} (keeps : Keeps s.client c) (call : Option Call) :
    Within load_addr pkt s (some (⟨c, s.nfs_path_buff⟩, call)) :=
  ⟨_, call, rfl, h.trans (congrArg some keeps.1.symm), .inl keeps.2⟩

theorem within_send (h : PathOk s) {c : Client} (keeps : Keeps s.client c) :
    Within load_addr pkt s (some (send s.nfs_path_buff c)) :=
  within_kept h ⟨(NfsSend_keeps c).1.trans keeps.1, (NfsSend_keeps c).2.trans keeps.2⟩ _

/-- What follows a reply that has a result under a condition. -/
theorem reply_cases {α : Type} {P : Prop} [Decidable P] {r : Option α} {v : α}
    {g : α → Option (Station × Option Call)} (h : r = if P then some v else none)
    (hgood : P → Within load_addr pkt s (g v)) :
    (P ∧ Within load_addr pkt s (r >>= g)) ∨ (¬ P ∧ (r >>= g) = none) := by
  by_cases hP : P
  · rw [h, if_pos hP]
    exact .inl ⟨hP, hgood hP⟩
  · rw [h, if_neg hP]
    exact .inr ⟨hP, rfl⟩

/-! ## The handlers -/

theorem rpc_lookup_cases (h : PathOk s) (prog : Nat) (next : NfsState) :
    (ReplyFits pkt s.client.rpc_id RPC_STATUS 28 ∧ Within load_addr pkt s
      (rpc_lookup_reply prog pkt s.client >>= fun (_, c) =>
        some (send s.nfs_path_buff { c with NfsState := next }))) ∨
    (¬ ReplyFits pkt s.client.rpc_id RPC_STATUS 28 ∧
      (rpc_lookup_reply prog pkt s.client >>= fun (_, c) =>
        some (send s.nfs_path_buff { c with NfsState := next })) = none) :=
  reply_cases (rpc_lookup_reply_eq prog pkt s.client) fun _ =>
    within_send h (rpc_lookup_reply_keeps prog (packetOf pkt) s.client)

variable (load_addr) in
/-- A block that is stored is one of the payload. -/
theorem read_stores (hfits : ReadFits pkt s.client.rpc_id) :
    (Nfs.nfs_read_reply load_addr (packetOf pkt) s.client).2.nfs_path = s.client.nfs_path ∧
      StoresPayload load_addr pkt s
        ⟨(Nfs.nfs_read_reply load_addr (packetOf pkt) s.client).2, s.nfs_path_buff⟩ := by
  unfold Nfs.nfs_read_reply
  split
  · exact ⟨rfl, .inl rfl⟩
  · rename_i hid
    split
    · split
      · exact ⟨rfl, .inl rfl⟩
      · split
        · exact ⟨rfl, .inl rfl⟩
        · exact ⟨rfl, .inl rfl⟩
    · rename_i hpassed
      have hblock := hfits.2 (accepted_nfs.mpr ⟨not_not.mp hid, hpassed⟩)
      have hbytes : slice (fun k => pkt.getD k 0) REPLY_SIZE (wordAt pkt 96).toNat =
          (packetOf pkt).block (wordAt pkt 96).toNat :=
        List.map_congr_left fun k _ => congrArg (pkt.getD · 0) (Nat.add_assoc 24 76 k)
      refine ⟨rfl, .inr ⟨(wordAt pkt 96).toNat, hblock, ?_⟩⟩
      rw [take_drop_eq_slice hblock, hbytes]
      rfl

theorem within_stored (h : PathOk s) {c : Client} (hpath : c.nfs_path = s.client.nfs_path)
    (hmem : StoresPayload load_addr pkt s ⟨c, s.nfs_path_buff⟩) :
    Within load_addr pkt s (some (send s.nfs_path_buff c)) := by
  refine ⟨_, _, rfl, h.trans (congrArg some ?_), ?_⟩
  · exact ((NfsSend_keeps c).1.trans hpath).symm
  · rcases hmem with hsame | ⟨rlen, hle, hstored⟩
    · exact .inl ((NfsSend_keeps c).2.trans hsame)
    · exact .inr ⟨rlen, hle, (NfsSend_keeps c).2.trans hstored⟩

/-- A path with a slash is cut into two strings. -/
theorem strings_of_slash {m : PathBuff} {path : List Byte} (h : strAt m 0 = some path)
    (hslash : 0x2f#8 ∈ path) : ∃ fname m' dir file, m.split = some (fname, m') ∧
      strings fname m' = some (dir, file) ∧ strAt m' 0 = some dir := by
  obtain ⟨dir, file, rfl, last⟩ := exists_last_slash hslash
  obtain ⟨m', hsplit, hdir, hfile⟩ := split_of_slash h last
  refine ⟨_, m', dir, file, hsplit, ?_, hdir⟩
  rw [strings, hdir, Int.toNat_natCast, hfile]
  rfl

/-- A link leads to a string in the buffer if there is room for the path, and a slash in it. -/
theorem followLink_cases {m : PathBuff} {dir : List Byte} (h : strAt m 0 = some dir) (first : Byte)
    (text : List Byte) (htext : text = [] ∨ ∃ rest, text = first :: rest) :
    (((joined dir first text).length < NFS_PATH_SIZE ∧ (first = 0x2f#8 → text ≠ [])) ∧
      ∃ fname m' path file, followLink m first text = some (fname, m') ∧
        strings fname m' = some (path, file) ∧ strAt m' 0 = some path) ∨
    (¬ ((joined dir first text).length < NFS_PATH_SIZE ∧ (first = 0x2f#8 → text ≠ [])) ∧
      followLink m first text = none) := by
  have hdir := (strAt_eq_some.mp h).1.notMem
  rw [followLink]
  rcases linkTo_cases h first text with ⟨hfits, m', hlink, hstr⟩ | ⟨hfull, hlink⟩
  · rw [hlink]
    by_cases hempty : first = 0x2f#8 ∧ text = []
    · obtain ⟨rfl, rfl⟩ := hempty
      exact .inr ⟨fun hok => hok.2 rfl rfl, split_of_none hstr List.not_mem_nil⟩
    · refine .inl ⟨⟨hfits, fun hfirst hnil => hempty ⟨hfirst, hnil⟩⟩, ?_⟩
      apply strings_of_slash hstr
      rcases htext with hnil | ⟨rest, rfl⟩
      · exact slash_mem_relative _ hdir fun hfirst => hempty ⟨hfirst, hnil⟩
      · exact slash_mem_joined dir first rest hdir
  · rw [hlink]
    exact .inr ⟨fun hok => absurd hok.1 (Nat.not_lt_of_le hfull), rfl⟩

/-- The text of a link begins with the byte that is looked at, unless it is empty. -/
theorem link_text (hfits : linkEnd pkt ≤ pkt.length) :
    ((wordAt pkt 28).toNat = 0 → (pkt.drop 32).take (wordAt pkt 28).toNat = []) ∧
    (0 < (wordAt pkt 28).toNat →
      ∃ rest, (pkt.drop 32).take (wordAt pkt 28).toNat = pkt.getD 32 0 :: rest) := by
  unfold linkEnd at hfits
  constructor
  · intro hzero
    rw [hzero, List.take_zero]
  · intro hpos
    obtain ⟨n, hn⟩ := Nat.exists_eq_succ_of_ne_zero hpos.ne'
    have hlt : 32 < pkt.length := by omega
    refine ⟨(pkt.drop 33).take n, ?_⟩
    rw [hn, List.drop_eq_getElem_cons hlt, List.take_succ_cons, List.getD_eq_getElem?_getD,
      List.getElem?_eq_getElem hlt]
    rfl

theorem link_cases (h : PathOk s) :
    ((ReplyFits pkt s.client.rpc_id NFS_STATUS (linkEnd pkt) ∧
        (Accepted pkt s.client.rpc_id NFS_STATUS → LinkFits pkt s.client.nfs_path)) ∧
      Within load_addr pkt s (handleLink pkt s)) ∨
    (¬ (ReplyFits pkt s.client.rpc_id NFS_STATUS (linkEnd pkt) ∧
        (Accepted pkt s.client.rpc_id NFS_STATUS → LinkFits pkt s.client.nfs_path)) ∧
      handleLink pkt s = none) := by
  rw [handleLink, nfs_readlink_reply_eq]
  by_cases hfits : ReplyFits pkt s.client.rpc_id NFS_STATUS (linkEnd pkt)
  · rw [if_pos hfits]
    by_cases haccepted : Accepted pkt s.client.rpc_id NFS_STATUS
    · rw [if_pos haccepted]
      obtain ⟨hnil, hcons⟩ := link_text (hfits.2.2 haccepted)
      have htext : (pkt.drop 32).take (wordAt pkt 28).toNat = [] ∨
          ∃ rest, (pkt.drop 32).take (wordAt pkt 28).toNat = pkt.getD 32 0 :: rest :=
        (Nat.eq_zero_or_pos _).imp hnil hcons
      have hpos : (pkt.drop 32).take (wordAt pkt 28).toNat ≠ [] ↔ 0 < (wordAt pkt 28).toNat := by
        constructor
        · exact fun hne => Nat.pos_of_ne_zero fun hzero => hne (hnil hzero)
        · intro hlt
          obtain ⟨rest, hrest⟩ := hcons hlt
          rw [hrest]
          exact List.cons_ne_nil _ _
      rcases followLink_cases h (pkt.getD 32 0) _ htext with
        ⟨⟨hroom, hslash⟩, fname, m', path, file, hfollow, hstrings, hpath⟩ | ⟨hbad, hfollow⟩
      · refine .inl ⟨⟨hfits, fun _ => ⟨hroom, fun hfirst => hpos.mp (hslash hfirst)⟩⟩, ?_⟩
        obtain ⟨m₁, hlink, hsplit⟩ := Option.bind_eq_some_iff.mp hfollow
        let followed := { s.client with nfs_filename := file, nfs_path := path, NfsState := .MOUNT_REQ }
        refine ⟨(send m' followed).1, (send m' followed).2, ?_, ?_, .inl (NfsSend_keeps followed).2⟩
        · simp only [hlink, Option.map_some, Option.bind_eq_bind, Option.bind_some, ne_eq,
            not_true_eq_false, if_false, hsplit, hstrings]
          rfl
        · exact hpath.trans (congrArg some (NfsSend_keeps followed).1.symm)
      · refine .inr ⟨fun hok => hbad ?_, ?_⟩
        · obtain ⟨hroom, hslash⟩ := hok.2 haccepted
          exact ⟨hroom, fun hfirst => hpos.mpr (hslash hfirst)⟩
        · cases hlink : linkTo s.nfs_path_buff (pkt.getD 32 0)
              ((pkt.drop 32).take (wordAt pkt 28).toNat) with
          | none => rfl
          | some m₁ =>
              rw [followLink, hlink] at hfollow
              have hsplit : m₁.split = none := hfollow
              simp only [Option.map_some, Option.bind_eq_bind, Option.bind_some, ne_eq,
                not_true_eq_false, if_false, hsplit, Option.bind_none]
    · rw [if_neg haccepted]
      refine .inl ⟨⟨hfits, fun hyes => absurd hyes haccepted⟩, ?_⟩
      exact within_send h (c := { s.client with NfsState := .UMOUNT_REQ }) ⟨rfl, rfl⟩
  · rw [if_neg hfits]
    exact .inr ⟨fun hboth => hfits hboth.1, rfl⟩

variable (load_addr pkt) in
theorem handler_cases (h : PathOk s) :
    (Fits pkt s ∧ Within load_addr pkt s (NfsHandler load_addr pkt s)) ∨
    (¬ Fits pkt s ∧ NfsHandler load_addr pkt s = none) := by
  unfold Fits NfsHandler
  cases hstate : s.client.NfsState with
  | PRCLOOKUP_PROG_MOUNT_REQ => exact rpc_lookup_cases h PROG_MOUNT .PRCLOOKUP_PROG_NFS_REQ
  | PRCLOOKUP_PROG_NFS_REQ => exact rpc_lookup_cases h PROG_NFS .MOUNT_REQ
  | MOUNT_REQ =>
      refine reply_cases (nfs_mount_reply_eq pkt s.client) fun _ => ?_
      have hkeeps := nfs_mount_reply_keeps (packetOf pkt) s.client
      generalize Nfs.nfs_mount_reply (packetOf pkt) s.client = reply at hkeeps
      obtain ⟨ret, c⟩ := reply
      dsimp only at hkeeps ⊢
      split
      · exact within_send h hkeeps
      · exact within_send h hkeeps
  | UMOUNT_REQ =>
      refine reply_cases (nfs_umountall_reply_eq pkt s.client) fun _ => ?_
      have hkeeps := nfs_umountall_reply_keeps (packetOf pkt) s.client
      generalize Nfs.nfs_umountall_reply (packetOf pkt) s.client = reply at hkeeps
      obtain ⟨ret, c⟩ := reply
      dsimp only at hkeeps ⊢
      split
      · exact within_kept h (c := { c with NetState := .FAIL }) hkeeps none
      · exact within_kept h (c := { c with NetState := c.NfsDownloadState }) hkeeps none
  | LOOKUP_REQ =>
      refine reply_cases (nfs_lookup_reply_eq pkt s.client) fun _ => ?_
      have hkeeps := nfs_lookup_reply_keeps (packetOf pkt) s.client
      generalize Nfs.nfs_lookup_reply (packetOf pkt) s.client = reply at hkeeps
      obtain ⟨ret, c⟩ := reply
      dsimp only at hkeeps ⊢
      split
      · exact within_send h hkeeps
      · exact within_send h hkeeps
  | READ_REQ =>
      refine reply_cases (nfs_read_reply_eq load_addr pkt s.client) fun hfits => ?_
      obtain ⟨hpath, hmem⟩ := read_stores load_addr hfits
      generalize Nfs.nfs_read_reply load_addr (packetOf pkt) s.client = reply at hpath hmem
      obtain ⟨rlen, c⟩ := reply
      dsimp only at hpath hmem ⊢
      split
      · exact within_stored h hpath hmem
      · split
        · exact within_stored h hpath hmem
        · exact within_stored h hpath hmem
  | READLINK_REQ => exact link_cases h

/-! ## Runs -/

/-- What a client that has been started gets. -/
inductive Input where
  | payload (pkt : Payload)
  | timeout

/-- What it makes of it. -/
def react (load_addr : Nat) (s : Station) : Input → Option (Station × Option Call)
  | .payload pkt => NfsHandler load_addr pkt.1 s
  | .timeout => some (NfsTimeout s)

/-- Every payload of a run comes to a client of which this holds. -/
def EachPayload (load_addr : Nat) (P : List Byte → Station → Prop) : Station → List Input → Prop
  | _, [] => True
  | s, i :: inputs =>
      (∀ pkt, i = .payload pkt → P pkt.1 s) ∧
        ∀ s' call, react load_addr s i = some (s', call) → EachPayload load_addr P s' inputs

theorem NfsStart_nfs_path (path file : List Byte) (c : Client) :
    (Nfs.NfsStart path file c).1.nfs_path = path := by
  unfold Nfs.NfsStart
  rw [(NfsSend_keeps _).1]

theorem start_pathOk {BootFile : List Byte} {s₀ : Station} {call : Option Call}
    (h : NfsStart BootFile s = some (s₀, call)) : PathOk s₀ := by
  obtain ⟨⟨fname, m⟩, -, hrest⟩ := Option.bind_eq_some_iff.mp h
  obtain ⟨⟨path, file⟩, hstrings, hstarted⟩ := Option.bind_eq_some_iff.mp hrest
  obtain ⟨dir, hdir, hfile⟩ := Option.bind_eq_some_iff.mp hstrings
  obtain ⟨name, -, hpair⟩ := Option.bind_eq_some_iff.mp hfile
  obtain ⟨rfl, rfl⟩ := Prod.mk.inj (Option.some.inj hpair)
  obtain ⟨rfl, -⟩ := Prod.mk.inj (Option.some.inj hstarted)
  exact hdir.trans (congrArg some (NfsStart_nfs_path dir name s.client).symm)

theorem timeout_pathOk (h : PathOk s) : PathOk (NfsTimeout s).1 := by
  refine h.trans (congrArg some ?_)
  unfold NfsTimeout Nfs.NfsTimeout
  dsimp only
  split
  · rfl
  · rw [(NfsSend_keeps _).1]

theorem react_pathOk (h : PathOk s) {i : Input} {s' : Station} {call : Option Call}
    (hreact : react load_addr s i = some (s', call)) : PathOk s' := by
  cases i with
  | timeout =>
      obtain rfl : (NfsTimeout s).1 = s' := congrArg Prod.fst (Option.some.inj hreact)
      exact timeout_pathOk h
  | payload pkt =>
      change NfsHandler load_addr pkt.1 s = some (s', call) at hreact
      rcases handler_cases load_addr pkt.1 h with
        ⟨-, t, call', hsome, hpath, -⟩ | ⟨-, hnone⟩
      · rw [hreact] at hsome
        obtain ⟨rfl, -⟩ := Prod.mk.inj (Option.some.inj hsome)
        exact hpath
      · rw [hreact] at hnone
        cases hnone

/-- A payload is handled in bounds exactly if it fits. -/
theorem handler_within_iff (h : PathOk s) :
    Within load_addr pkt s (NfsHandler load_addr pkt s) ↔ Fits pkt s := by
  rcases handler_cases load_addr pkt h with ⟨hfits, hwithin⟩ | ⟨hnot, hnone⟩
  · exact iff_of_true hwithin hfits
  · refine iff_of_false ?_ hnot
    rintro ⟨s', call, hsome, -⟩
    rw [hnone] at hsome
    cases hsome

theorem eachPayload_within_iff (h : PathOk s) (inputs : List Input) :
    EachPayload load_addr (fun pkt s => Within load_addr pkt s (NfsHandler load_addr pkt s))
        s inputs ↔
      EachPayload load_addr Fits s inputs := by
  induction inputs generalizing s with
  | nil => exact Iff.rfl
  | cons i inputs ih =>
      refine and_congr ?_ ?_
      · exact forall_congr' fun pkt => imp_congr_right fun _ => handler_within_iff h
      · refine forall_congr' fun s' => forall_congr' fun call => ?_
        exact imp_congr_right fun hreact => ih (react_pathOk h hreact)

/-- From a boot file on, the payloads of a run are all handled in bounds exactly if they all fit. -/
theorem nfs_inBounds_iff (load_addr : Nat) (BootFile : List Byte) (s s₀ : Station)
    (call : Option Call) (h : NfsStart BootFile s = some (s₀, call)) (inputs : List Input) :
    EachPayload load_addr (fun pkt s => Within load_addr pkt s (NfsHandler load_addr pkt s))
        s₀ inputs ↔
      EachPayload load_addr Fits s₀ inputs :=
  eachPayload_within_iff (start_pathOk h) inputs

/-- A client that has never been started. -/
def unstarted : Station where
  client := {
    fs_mounted := false
    rpc_id := 0
    nfs_offset := 0
    nfs_len := 0
    dirfh := []
    filefh := []
    NfsDownloadState := .FAIL
    NfsSrvMountPort := 0
    NfsSrvNfsPort := 0
    NfsTimeoutCount := 0
    NfsState := .PRCLOOKUP_PROG_MOUNT_REQ
    nfs_filename := []
    nfs_path := []
    NetState := .CONTINUE
    NetBootFileXferSize := 0
    mem := fun _ => 0 }
  nfs_path_buff := fun _ => 0

/-- It is started with `/a`. -/
def started : Station × Option Call :=
  ((NfsStart [0x2f, 0x61] unstarted).get (by decide +kernel))

theorem started_eq : NfsStart [0x2f, 0x61] unstarted = some (started.1, started.2) :=
  (Option.some_get (by decide : (NfsStart [0x2f, 0x61] unstarted).isSome = true)).symm

/-- A reply that brings the port to mount at. -/
theorem nfs_inBounds_port : EachPayload 0
    (fun pkt s => Within 0 pkt s (NfsHandler 0 pkt s)) started.1
    [.payload ⟨[0, 0, 0, 1] ++ List.replicate 24 0, by decide⟩] := by
  refine (nfs_inBounds_iff 0 [0x2f, 0x61] unstarted started.1 started.2
    started_eq _).mpr ⟨?_, fun _ _ _ => trivial⟩
  rintro pkt ⟨⟩
  show ReplyFits _ started.1.client.rpc_id RPC_STATUS 28
  decide

/-- A datagram that is longer than `struct rpc_t`. -/
theorem not_nfs_inBounds : ¬ ∀ (load_addr : Nat) (BootFile : List Byte) (s s₀ : Station)
    (call : Option Call), NfsStart BootFile s = some (s₀, call) → ∀ inputs : List Input,
      EachPayload load_addr (fun pkt s => Within load_addr pkt s (NfsHandler load_addr pkt s))
        s₀ inputs := by
  intro h
  obtain ⟨hfirst, -⟩ := h 0 [0x2f, 0x61] unstarted started.1 started.2 started_eq
    [.payload ⟨List.replicate 2049 0, by rw [List.length_replicate]; decide⟩]
  obtain ⟨s', call, hsome, -⟩ := hfirst _ rfl
  have hnone : (NfsHandler 0 (List.replicate 2049 0) started.1).isNone = true := by decide +kernel
  rw [Option.isNone_iff_eq_none] at hnone
  rw [hnone] at hsome
  cases hsome

end UBoot.NfsBytes
