/-
# What a TFTP transfer leaves in memory

The invariant of a run: the blocks received in order are in memory, and the client's
offset for the wrapped block numbers is that of the block it waits for. Every step of
`SafeStep` keeps it, so that a transfer that ends well has loaded the file.
-/

import UBoot.Net.TftpTransfer
import Mathlib.Data.BitVec

namespace UBoot

open UBoot.Lib

namespace Tftp

/-! ## Blocks -/

namespace TftpServer

variable (s : TftpServer)

theorem blksize_bounds : 0 < s.blksize ∧ s.blksize < 2 ^ 16 := by
  have fold : ∀ (opts : List TftpOption) (size : Nat), 0 < size ∧ size < 2 ^ 16 →
      (∀ v, .blksize v ∈ opts → 0 < v.value ∧ v.value < 2 ^ 16) →
      0 < opts.foldl TftpOption.size size ∧ opts.foldl TftpOption.size size < 2 ^ 16 := by
    intro opts
    induction opts with
    | nil => exact fun _ h _ => h
    | cons o opts ih =>
        intro size h hsizes
        refine ih _ ?_ fun v hv => hsizes v (List.mem_cons_of_mem _ hv)
        cases o with
        | blksize v => exact hsizes v (List.mem_cons_self ..)
        | timeout | tsize => exact h
  refine fold _ _ (by decide) fun v hv => ?_
  cases hopts : s.options with
  | none => simp [hopts] at hv
  | some opts => exact s.sizes opts hopts v (by simpa [hopts] using hv)

variable {s} {k : Nat}

theorem block_length (k : Nat) :
    (s.block k).length = min s.blksize (s.file.length - (k - 1) * s.blksize) := by
  simp [block]

theorem block_start_le (hk : k ≤ s.blocks) : (k - 1) * s.blksize ≤ s.file.length :=
  (Nat.mul_le_mul_right _ (Nat.sub_le_of_le_add hk)).trans (Nat.div_mul_le_self ..)

/-- The last block is the one that is not full. -/
theorem block_short (h1 : 1 ≤ k) (hk : k ≤ s.blocks) :
    (s.block k).length < s.blksize ↔ k = s.blocks := by
  have hpos := s.blksize_bounds.1
  have hdiv := Nat.div_add_mod s.file.length s.blksize
  have hmod := Nat.mod_lt s.file.length hpos
  rw [block_length]
  constructor
  · intro hshort
    by_contra hne
    have hlt : k ≤ s.file.length / s.blksize := by rw [blocks] at hk hne; omega
    have := Nat.mul_le_mul_left s.blksize hlt
    have hsplit : k * s.blksize = (k - 1) * s.blksize + s.blksize := by
      rw [← Nat.succ_mul]
      congr 1
      omega
    rw [Nat.mul_comm] at this
    omega
  · intro heq
    rw [heq, blocks, Nat.add_sub_cancel, Nat.mul_comm]
    omega

end TftpServer

/-- Where a block goes: the wrapped number and the offset make up for each other. -/
theorem offset_eq {k : Nat} (hk : 1 ≤ k) (b : Nat) :
    (BitVec.ofNat 32 (k % 2 ^ 16) - 1) * BitVec.ofNat 32 b +
      BitVec.ofNat 32 (k / 2 ^ 16 * 2 ^ 16 * b) = BitVec.ofNat 32 ((k - 1) * b) := by
  have hk' : ((k - 1 : Nat) : BitVec 32) =
      ((k / 2 ^ 16 * 2 ^ 16 : Nat) : BitVec 32) + ((k % 2 ^ 16 : Nat) : BitVec 32) - 1 := by
    rw [Nat.cast_sub hk, ← Nat.cast_add, Nat.mul_comm, Nat.div_add_mod]
    simp
  simp only [← BitVec.natCast_eq_ofNat, Nat.cast_mul _ b, hk']
  ring

theorem setWidth_of_toNat {x : BitVec 16} {b : Nat} (h : x.toNat = b) :
    x.setWidth 32 = BitVec.ofNat 32 b := by
  subst h
  apply BitVec.eq_of_toNat_eq
  simp

/-! ## The handler -/

section Handler

variable {s : TftpServer} {cfg : TftpConfig} {t : Tftp} {k : Nat}

/-- A block that is not the same again. -/
theorem takeBlock_of_ne (h1 : 1 ≤ k) (hk : k ≤ s.blocks)
    (hblock : t.TftpBlock = BitVec.ofNat 32 (k % 2 ^ 16)) (hne : t.TftpBlock ≠ t.TftpLastBlock)
    (hsize : t.TftpBlkSize.toNat = s.blksize)
    (hoffset : t.TftpBlockWrapOffset = BitVec.ofNat 32 (k / 2 ^ 16 * 2 ^ 16 * s.blksize))
    (hstate : t.TftpState = .data) (fits : cfg.load_addr.toNat + s.file.length ≤ 2 ^ 32)
    (behind : List Byte) :
    t.takeBlock cfg (s.block k ++ behind) (s.block k).length =
      { t with
        TftpLastBlock := BitVec.ofNat 32 (k % 2 ^ 16)
        TftpTimeoutCountMax := cfg.TIMEOUT_COUNT
        memory := store t.memory (cfg.load_addr.toNat + (k - 1) * s.blksize) (s.block k)
        NetBootFileXferSize :=
          if t.NetBootFileXferSize <
              BitVec.ofNat 32 ((k - 1) * s.blksize + (s.block k).length) then
            BitVec.ofNat 32 ((k - 1) * s.blksize + (s.block k).length)
          else t.NetBootFileXferSize
        NetState := if k = s.blocks then .success else t.NetState
        sent := ack k :: t.sent } := by
  have offset : (BitVec.ofNat 32 (k % 2 ^ 16) - 1) * t.TftpBlkSize.setWidth 32 +
      t.TftpBlockWrapOffset = BitVec.ofNat 32 ((k - 1) * s.blksize) := by
    rw [setWidth_of_toNat hsize, hoffset]
    exact offset_eq h1 _
  have number : (BitVec.ofNat 32 (k % 2 ^ 16)).setWidth 16 = BitVec.ofNat 16 k := by
    apply BitVec.eq_of_toNat_eq
    simp only [BitVec.toNat_setWidth, BitVec.toNat_ofNat]
    omega
  have start := s.block_start_le hk
  -- an empty block may belong right behind the end of memory
  have place : store t.memory (cfg.load_addr + BitVec.ofNat 32 ((k - 1) * s.blksize)).toNat
      (s.block k) = store t.memory (cfg.load_addr.toNat + (k - 1) * s.blksize) (s.block k) := by
    rcases Nat.eq_zero_or_pos (s.block k).length with hempty | hpos
    · rw [List.length_eq_zero_iff.mp hempty, store_nil, store_nil]
    · rw [s.block_length] at hpos
      congr 1
      rw [BitVec.toNat_add, BitVec.toNat_ofNat]
      omega
  have short : (s.block k).length < t.TftpBlkSize.toNat ↔ k = s.blocks := by
    rw [hsize]
    exact s.block_short h1 hk
  rw [takeBlock, if_neg hne]
  simp only [store_block, TftpSend, packet, hblock, hstate, List.take_left, offset, place,
    ← BitVec.ofNat_add, number, short]
  split <;> rfl

theorem setWidth_number (k : Nat) :
    (BitVec.ofNat 16 k).setWidth 32 = BitVec.ofNat 32 (k % 2 ^ 16) := by
  apply BitVec.eq_of_toNat_eq
  simp

/-- A packet from the server's port. -/
theorem TftpHandler_of_port (hport : t.TftpState = .rrq ∨ t.TftpServerPort = s.port) {len : Nat}
    (hlen : 2 ≤ len) (op : BitVec 16) (pkt : List Byte) :
    t.TftpHandler cfg (htons op ++ pkt) t.TftpOurPort s.port len =
      if op = TFTP_OACK then t.handleOack cfg s.port pkt (len - 2)
      else if op = TFTP_DATA then t.handleData cfg s.port pkt (len - 2)
      else if op = TFTP_ERROR then t.handleError cfg pkt
      else t := by
  have hsrc : ¬ (t.TftpState ≠ .rrq ∧ s.port ≠ t.TftpServerPort) := by
    rintro ⟨hne, hsrc⟩
    exact hsrc ((hport.resolve_left hne).symm)
  simp only [htons, List.cons_append, List.nil_append]
  rw [TftpHandler, if_neg (not_not.mpr rfl), if_neg hsrc, if_neg (by omega), ntohs_htons]

/-- A data packet for the client. -/
theorem TftpHandler_data (hport : t.TftpState = .rrq ∨ t.TftpServerPort = s.port)
    (behind : List Byte) :
    t.TftpHandler cfg (s.bytes (.data k) ++ behind) t.TftpOurPort s.port
        (s.bytes (.data k)).length =
      (let t := t.takeNumber (BitVec.ofNat 16 k)
      if t.TftpState = .rrq ∨ t.TftpState = .oack then
        let t := t.startData s.port
        if t.TftpBlock ≠ 1 then NetStartAgain cfg t
        else t.takeBlock cfg (s.block k ++ behind) (s.block k).length
      else t.takeBlock cfg (s.block k ++ behind) (s.block k).length) := by
  have hlength : (s.bytes (.data k)).length = (s.block k).length + 2 + 2 := by
    simp [TftpServer.bytes, htons]
  rw [hlength, TftpServer.bytes, List.append_assoc, TftpHandler_of_port hport (by omega),
    if_neg (by decide), if_pos rfl, List.append_assoc, handleData.eq_def]
  simp only [htons, List.cons_append, List.nil_append, ntohs_htons, Nat.add_sub_cancel]
  rw [if_neg (by omega)]

/-- A data packet while data is received. -/
theorem TftpHandler_data_of_data (hstate : t.TftpState = .data) (hport : t.TftpServerPort = s.port)
    (behind : List Byte) :
    t.TftpHandler cfg (s.bytes (.data k) ++ behind) t.TftpOurPort s.port
        (s.bytes (.data k)).length =
      (t.takeNumber (BitVec.ofNat 16 k)).takeBlock cfg (s.block k ++ behind) (s.block k).length := by
  have hsame : (t.takeNumber (BitVec.ofNat 16 k)).TftpState = .data := by
    rw [← hstate, takeNumber]
    split <;> rfl
  rw [TftpHandler_data (.inr hport)]
  simp [hsame]

theorem blksizeOption_bytes (opts : List TftpOption) (behind : List Byte) (size : Nat) :
    blksizeOption ((opts.map TftpOption.bytes).flatten.length - 8)
        ((opts.map TftpOption.bytes).flatten ++ behind) (BitVec.ofNat 16 size) =
      BitVec.ofNat 16 (opts.foldl TftpOption.size size) := by
  induction opts generalizing size with
  | nil => simp [blksizeOption]
  | cons o opts ih =>
      rw [List.map_cons, List.flatten_cons, List.append_assoc, List.length_append,
        blksizeOption_option, ih, List.foldl_cons]

/-- An acknowledgment of options for the client. -/
theorem TftpHandler_oack (hport : t.TftpState = .rrq ∨ t.TftpServerPort = s.port)
    (behind : List Byte) :
    t.TftpHandler cfg (s.bytes .oack ++ behind) t.TftpOurPort s.port (s.bytes .oack).length =
      TftpSend cfg { t with
        TftpState := .oack
        TftpServerPort := s.port
        TftpBlkSize :=
          BitVec.ofNat 16 ((s.options.getD []).foldl TftpOption.size t.TftpBlkSize.toNat) } := by
  have hlength : (s.bytes .oack).length =
      ((s.options.getD []).map TftpOption.bytes).flatten.length + 2 := by
    simp [TftpServer.bytes, htons]
  have hscan := blksizeOption_bytes (s.options.getD []) behind t.TftpBlkSize.toNat
  rw [BitVec.ofNat_toNat, BitVec.setWidth_eq] at hscan
  rw [hlength, TftpServer.bytes, List.append_assoc, TftpHandler_of_port hport (by omega),
    if_pos rfl, handleOack, Nat.add_sub_cancel, hscan]

end Handler

/-! ## The invariant -/

open TftpWorld

section Runs

variable (s : TftpServer) (cfg : TftpConfig)

/-- The blocks received in order are in memory. -/
structure Holding (t : Tftp) (received : Nat) : Prop where
  stored : Agrees t.memory cfg.load_addr.toNat s.file (Set.Iio (received * s.blksize))
  size : t.NetBootFileXferSize.toNat = min (received * s.blksize) s.file.length
  success : t.NetState = .success → received = s.blocks

/-- The client knows the server's port and the block size. -/
structure Joined (t : Tftp) : Prop where
  port : t.TftpServerPort = s.port
  size : t.TftpBlkSize.toNat = s.blksize

/-- The client is in the round of block numbers of the blocks received, and the last
block it stored is one of that round. -/
structure Following (t : Tftp) (received : Nat) : Prop extends Joined s t where
  offset : t.TftpBlockWrapOffset = BitVec.ofNat 32 (received / 2 ^ 16 * 2 ^ 16 * s.blksize)
  lastBlock : ∃ j, 1 ≤ j ∧ j ≤ received ∧ j / 2 ^ 16 = received / 2 ^ 16 ∧
    (j % 2 ^ 16 = 0 → j = received) ∧ t.TftpLastBlock = BitVec.ofNat 32 (j % 2 ^ 16)

/-- What holds in each state of the client. -/
def Phase (t : Tftp) (last received : Nat) : Prop :=
  match t.TftpState with
  | .rrq => received = 0 ∧ last = s.first ∧ t.TftpBlkSize = TFTP_BLOCK_SIZE ∧
      ∀ k, ack k ∉ t.sent
  | .oack => Joined s t
  | .data => Following s t received
  | .tooLarge | .badMagic => False

/-- A transfer that goes on. -/
structure Live (w : TftpWorld) : Prop where
  holding : Holding s cfg w.client w.received
  phase : Phase s w.client w.last w.received
  received_le : w.received ≤ w.last
  last_le : w.last ≤ w.received + 1
  last_le_blocks : w.last ≤ s.blocks

/-- A transfer that has ended well has loaded the file. -/
def Inv (w : TftpWorld) : Prop :=
  (w.client.NetState = .success → Loaded s cfg w.client) ∧ (Listening w.client → Live s cfg w)

variable {s cfg} {t : Tftp} {k last received : Nat}

/-- The states in which data is received, or may be. -/
theorem Phase.data (h : Phase s t last received) (hstate : ¬ (t.TftpState = .rrq ∨
    t.TftpState = .oack)) : t.TftpState = .data ∧ Following s t received := by
  rw [Phase] at h
  split at h
  · next hrrq => exact absurd (.inl hrrq) hstate
  · next hoack => exact absurd (.inr hoack) hstate
  · next hdata => exact ⟨hdata, h⟩
  · exact h.elim
  · exact h.elim

theorem Holding.loaded (h : Holding s cfg t received) (ended : t.NetState = .success) :
    Loaded s cfg t := by
  have hdiv := Nat.lt_div_mul_add s.blksize_bounds.1 (a := s.file.length)
  have hlength : s.file.length < received * s.blksize := by
    rw [h.success ended, TftpServer.blocks, Nat.succ_mul]
    exact hdiv
  refine ⟨fun i hi => ?_, by rw [h.size]; omega⟩
  exact h.stored i (lt_trans hi hlength) _ (List.getElem?_eq_getElem hi)

/-- What is held depends on the memory, the size and the state of the loop. -/
theorem Holding.congr (h : Holding s cfg t received) {u : Tftp} (hmemory : u.memory = t.memory)
    (hsize : u.NetBootFileXferSize = t.NetBootFileXferSize)
    (hstate : u.NetState = .success → t.NetState = .success) : Holding s cfg u received :=
  ⟨hmemory ▸ h.stored, hsize ▸ h.size, fun ended => h.success (hstate ended)⟩

theorem not_listening_NetStartAgain (t : Tftp) : ¬ Listening (NetStartAgain cfg t) := by
  rw [NetStartAgain]
  split
  · split <;> simp [Listening]
  · simp [Listening]

theorem Holding.netStartAgain (h : Holding s cfg t received) :
    Holding s cfg (NetStartAgain cfg t) received := by
  rw [NetStartAgain]
  split
  · split
    · exact h.congr rfl rfl (by simp)
    · exact h.congr rfl rfl id
  · exact h.congr rfl rfl id

/-- A transfer that has been given up. -/
theorem inv_netStartAgain (h : Holding s cfg t received) (last received' : Nat) :
    Inv s cfg ⟨NetStartAgain cfg t, last, received'⟩ :=
  ⟨h.netStartAgain.loaded, fun listening => absurd listening (not_listening_NetStartAgain t)⟩

/-- A block is stored where it belongs. -/
theorem Holding.store_block (h : Holding s cfg t received) (h1 : 1 ≤ k) (hk : k ≤ s.blocks)
    (hle : k ≤ received + 1) (hblocks : received ≤ s.blocks) (small : s.file.length < 2 ^ 32)
    {t' : Tftp}
    (hmemory : t'.memory =
      store t.memory (cfg.load_addr.toNat + (k - 1) * s.blksize) (s.block k))
    (hsize : t'.NetBootFileXferSize =
      if t.NetBootFileXferSize < BitVec.ofNat 32 ((k - 1) * s.blksize + (s.block k).length) then
        BitVec.ofNat 32 ((k - 1) * s.blksize + (s.block k).length)
      else t.NetBootFileXferSize)
    (hstate : t'.NetState = if k = s.blocks then .success else t.NetState) :
    Holding s cfg t' (count received (.data k)) := by
  have start := s.block_start_le hk
  have hsplit : k * s.blksize = (k - 1) * s.blksize + s.blksize := by
    rw [← Nat.succ_mul]
    congr 1
    omega
  have hlength := s.block_length k
  refine ⟨?_, ?_, fun ended => ?_⟩
  · rw [hmemory, TftpServer.block]
    refine (h.stored.store_piece ((k - 1) * s.blksize) s.blksize).mono fun i hi => ?_
    rw [count, Set.mem_Iio] at hi
    split at hi
    · next hnew =>
        rw [Set.mem_union, Set.mem_Iio, Set.mem_Ico]
        have : k - 1 = received := by omega
        rw [this] at hsplit ⊢
        omega
    · exact .inl hi
  · have hold := h.size
    have hmono : k ≤ received → k * s.blksize ≤ received * s.blksize :=
      fun hle => Nat.mul_le_mul_right _ hle
    have hnew : k = received + 1 → (k - 1) * s.blksize = received * s.blksize := by
      rintro rfl
      rw [Nat.add_sub_cancel]
    have htotal : (BitVec.ofNat 32 ((k - 1) * s.blksize + (s.block k).length)).toNat =
        min (k * s.blksize) s.file.length := by
      rw [BitVec.toNat_ofNat, Nat.mod_eq_of_lt (by omega)]
      omega
    rw [hsize, apply_ite BitVec.toNat]
    simp only [BitVec.lt_def, htotal, hold, count]
    split <;> split <;> omega
  · rw [hstate] at ended
    rw [count]
    split at ended
    · split <;> omega
    · have := h.success ended
      split <;> omega

variable (s cfg) in
/-- Block `k` has been stored and acknowledged. -/
structure Stored (t t' : Tftp) (received k : Nat) : Prop where
  holding : Holding s cfg t' (count received (.data k))
  following : Following s t' (count received (.data k))
  state : t'.TftpState = .data
  handler : t'.NetHandler = t.NetHandler
  net : t'.NetState = if k = s.blocks then .success else t.NetState
  acked : ack k ∈ t'.sent

/-- A block that is not the same again, in the round of the block numbers it is from. -/
theorem stored_takeBlock (h : Holding s cfg t received) (joined : Joined s t)
    (hstate : t.TftpState = .data) (h1 : 1 ≤ k) (hk : k ≤ s.blocks) (hle : k ≤ received + 1)
    (hblocks : received ≤ s.blocks) (fits : cfg.load_addr.toNat + s.file.length ≤ 2 ^ 32)
    (small : s.file.length < 2 ^ 32) (hblock : t.TftpBlock = BitVec.ofNat 32 (k % 2 ^ 16))
    (hne : t.TftpBlock ≠ t.TftpLastBlock)
    (hoffset : t.TftpBlockWrapOffset =
      BitVec.ofNat 32 (count received (.data k) / 2 ^ 16 * 2 ^ 16 * s.blksize))
    (hround : k / 2 ^ 16 = count received (.data k) / 2 ^ 16)
    (hzero : k % 2 ^ 16 = 0 → k = count received (.data k)) (behind : List Byte) :
    Stored s cfg t (t.takeBlock cfg (s.block k ++ behind) (s.block k).length) received k := by
  have hcount : k ≤ count received (.data k) := by
    rw [count]
    split <;> omega
  rw [takeBlock_of_ne h1 hk hblock hne joined.size (hround ▸ hoffset) hstate fits behind]
  exact ⟨h.store_block h1 hk hle hblocks small rfl rfl rfl, ⟨⟨joined.port, joined.size⟩, hoffset,
    k, h1, hcount, hround, hzero, rfl⟩, hstate, rfl, rfl, List.mem_cons_self ..⟩

/-- What the first data packet needs of the block size. -/
theorem Phase.size (h : Phase s t last received) (hlast : 1 ≤ last) (hle : last ≤ received + 1) :
    t.TftpBlkSize.toNat = s.blksize := by
  rw [Phase] at h
  split at h
  · obtain ⟨rfl, hfirst, hsize, -⟩ := h
    have hnone : s.options = none := by
      rw [TftpServer.first] at hfirst
      split at hfirst
      · omega
      · next hsome => simpa using hsome
    rw [hsize, TftpServer.blksize, hnone]
    rfl
  · exact h.size
  · exact h.size
  · exact h.elim
  · exact h.elim

theorem Phase.port (h : Phase s t last received) :
    t.TftpState = .rrq ∨ t.TftpServerPort = s.port := by
  rw [Phase] at h
  split at h
  · next hstate => exact .inl hstate
  · exact .inr h.port
  · exact .inr h.port
  · exact h.elim
  · exact h.elim

theorem takeNumber_fields (t : Tftp) (number : BitVec 16) :
    (t.takeNumber number).TftpBlock = number.setWidth 32 ∧
      (t.takeNumber number).TftpState = t.TftpState ∧
      (t.takeNumber number).TftpLastBlock = t.TftpLastBlock ∧
      (t.takeNumber number).TftpBlkSize = t.TftpBlkSize ∧
      (t.takeNumber number).TftpServerPort = t.TftpServerPort ∧
      (t.takeNumber number).memory = t.memory ∧
      (t.takeNumber number).NetBootFileXferSize = t.NetBootFileXferSize ∧
      (t.takeNumber number).NetState = t.NetState ∧
      (t.takeNumber number).NetHandler = t.NetHandler ∧
      (t.takeNumber number).sent = t.sent ∧
      (t.takeNumber number).TftpBlockWrapOffset = if number = 0 then
        t.TftpBlockWrapOffset + t.TftpBlkSize.setWidth 32 * TFTP_SEQUENCE_SIZE
        else t.TftpBlockWrapOffset := by
  rw [takeNumber]
  split
  · simp_all
  · simp_all

/-- The number of a block that is not in the first round's first place. -/
theorem ofNat_number_eq_zero : BitVec.ofNat 16 k = 0 ↔ k % 2 ^ 16 = 0 := by
  rw [← BitVec.toNat_inj, BitVec.toNat_ofNat]
  rfl

/-- The offset after the number of a packet has been looked at. -/
theorem Following.offset_takeNumber (h : Following s t received)
    (hnew : k % 2 ^ 16 = 0 → k = received + 1) :
    (t.takeNumber (BitVec.ofNat 16 k)).TftpBlockWrapOffset =
      BitVec.ofNat 32 (count received (.data k) / 2 ^ 16 * 2 ^ 16 * s.blksize) := by
  obtain ⟨-, -, -, -, -, -, -, -, -, -, hoffset⟩ := takeNumber_fields t (BitVec.ofNat 16 k)
  rw [hoffset, h.offset, count]
  simp only [ofNat_number_eq_zero]
  by_cases hzero : k % 2 ^ 16 = 0
  · -- the next round begins
    obtain rfl := hnew hzero
    rw [if_pos hzero, if_pos rfl, setWidth_of_toNat h.size, TFTP_SEQUENCE_SIZE,
      show (65536 : BitVec 32) = BitVec.ofNat 32 (2 ^ 16) from rfl, ← BitVec.ofNat_mul,
      ← BitVec.ofNat_add]
    congr 1
    have hround : (received + 1) / 2 ^ 16 = received / 2 ^ 16 + 1 := by omega
    rw [hround]
    ring
  · rw [if_neg hzero]
    split
    · next heq =>
        subst heq
        congr 3
        omega
    · rfl

/-- The number of a packet in the client's variable. -/
theorem takeNumber_TftpBlock (t : Tftp) (k : Nat) :
    (t.takeNumber (BitVec.ofNat 16 k)).TftpBlock = BitVec.ofNat 32 (k % 2 ^ 16) :=
  (takeNumber_fields t _).1.trans (setWidth_number k)

/-- A block that the client stores: the first, or one of the current round that is not
the same again. -/
theorem stored_data {w : TftpWorld} (live : Live s cfg w) (h1 : 1 ≤ k) (hlast : k ≤ w.last)
    (hfirst : w.client.TftpState = .rrq ∨ w.client.TftpState = .oack →
      k = 1 ∧ w.received < 2 ^ 16)
    (hnew : w.client.TftpState = .data → (k % 2 ^ 16 = 0 → k = w.received + 1) ∧
      k / 2 ^ 16 = count w.received (.data k) / 2 ^ 16 ∧
      w.client.TftpLastBlock.toNat ≠ k % 2 ^ 16)
    (fits : cfg.load_addr.toNat + s.file.length ≤ 2 ^ 32) (small : s.file.length < 2 ^ 32)
    (behind : List Byte) :
    Stored s cfg w.client (w.deliver s cfg (.data k) behind).client w.received k := by
  rw [deliver]
  obtain ⟨t, last, received⟩ := w
  obtain ⟨holding, phase, received_le, last_le, last_le_blocks⟩ := live
  dsimp only at holding phase received_le last_le last_le_blocks hlast hfirst hnew ⊢
  have hnumber := takeNumber_TftpBlock t k
  obtain ⟨-, hstate, hlastBlock, hsize, hport, hmemory, hxfer, hnet, hhandler, hsent, -⟩ :=
    takeNumber_fields t (BitVec.ofNat 16 k)
  have holding₁ : Holding s cfg (t.takeNumber (BitVec.ofNat 16 k)) received :=
    holding.congr hmemory hxfer (by rw [hnet]; exact id)
  have hb := phase.size (by omega) last_le
  rw [TftpHandler_data phase.port]
  simp only [hstate]
  by_cases hstart : t.TftpState = .rrq ∨ t.TftpState = .oack
  · obtain ⟨rfl, hround⟩ := hfirst hstart
    have hzero : count received (.data 1) / 2 ^ 16 = 0 := by
      rw [count]
      split <;> omega
    have holding₂ : Holding s cfg ((t.takeNumber (BitVec.ofNat 16 1)).startData s.port) received :=
      holding₁.congr rfl rfl id
    have stored := stored_takeBlock (k := 1) holding₂ ⟨rfl, hsize ▸ hb⟩ rfl h1 (by omega)
      (by omega) (by omega) fits small hnumber
      (by show (t.takeNumber _).TftpBlock ≠ 0; rw [hnumber]; decide)
      (by rw [hzero]; simp [startData]) (by rw [hzero]; decide) (by omega) behind
    rw [if_pos hstart, if_neg (by rw [startData, hnumber]; decide)]
    exact ⟨stored.holding, stored.following, stored.state, stored.handler.trans hhandler,
      stored.net.trans (congrArg _ hnet), stored.acked⟩
  · obtain ⟨hdata, following⟩ := phase.data hstart
    obtain ⟨hzero, hround, hne⟩ := hnew hdata
    have stored := stored_takeBlock holding₁ ⟨by rw [hport]; exact following.port,
      by rw [hsize]; exact following.size⟩ (hstate.trans hdata) h1 (by omega) (by omega) (by omega)
      fits small hnumber
      (by
        rw [hnumber, hlastBlock]
        intro heq
        rw [← heq, BitVec.toNat_ofNat] at hne
        omega)
      (following.offset_takeNumber hzero) hround
      (fun h => by rw [count, if_pos (hzero h)]) behind
    rw [if_neg hstart]
    exact ⟨stored.holding, stored.following, stored.state, stored.handler.trans hhandler,
      stored.net.trans (by rw [hnet]), stored.acked⟩

/-- A transfer that goes on with another block. -/
theorem Stored.inv {w : TftpWorld} (live : Live s cfg w) (hlast : k ≤ w.last) {t' : Tftp}
    (stored : Stored s cfg w.client t' w.received k) :
    Inv s cfg { w with client := t', received := count w.received (.data k) } := by
  have hle := live.received_le
  have hge := live.last_le
  refine ⟨stored.holding.loaded, fun _ => ⟨stored.holding, ?_, ?_, ?_, live.last_le_blocks⟩⟩
  · rw [Phase, stored.state]
    exact stored.following
  · show count w.received (.data k) ≤ w.last
    rw [count]
    split <;> omega
  · show w.last ≤ count w.received (.data k) + 1
    rw [count]
    split <;> omega

/-- A data packet. -/
theorem inv_data {w : TftpWorld} (live : Live s cfg w) (h1 : 1 ≤ k) (hlast : k ≤ w.last)
    (safe : w.SafeData k) (fits : cfg.load_addr.toNat + s.file.length ≤ 2 ^ 32)
    (small : s.file.length < 2 ^ 32) (behind : List Byte) :
    Inv s cfg (w.deliver s cfg (.data k) behind) := by
  rw [deliver]
  have hle := live.last_le
  have hnumber := takeNumber_TftpBlock w.client k
  obtain ⟨-, hstate, hlastBlock, hsize, hport, hmemory, hxfer, hnet, -⟩ :=
    takeNumber_fields w.client (BitVec.ofNat 16 k)
  have holding₁ : Holding s cfg (w.client.takeNumber (BitVec.ofNat 16 k)) w.received :=
    live.holding.congr hmemory hxfer (by rw [hnet]; exact id)
  by_cases hstart : w.client.TftpState = .rrq ∨ w.client.TftpState = .oack
  · have hdata : w.client.TftpState ≠ .data := by
      rintro hdata
      rw [hdata] at hstart
      simp at hstart
    rw [SafeData, if_neg hdata] at safe
    by_cases hone : k % 2 ^ 16 = 1
    · have hround := safe hone
      exact (stored_data live h1 hlast (fun _ => ⟨by omega, hround⟩) (fun h => absurd h hdata) fits
        small behind).inv live hlast
    · -- the transfer starts again
      have hnot : BitVec.ofNat 32 (k % 2 ^ 16) ≠ 1 := by
        intro heq
        have : k % 2 ^ 16 % 2 ^ 32 = 1 :=
          (BitVec.toNat_ofNat ..).symm.trans (congrArg BitVec.toNat heq)
        omega
      rw [TftpHandler_data live.phase.port]
      simp only [hstate]
      rw [if_pos hstart, if_pos (by rw [startData, hnumber]; exact hnot)]
      exact inv_netStartAgain (holding₁.congr (u := startData _ s.port) rfl rfl id) _ _
  · obtain ⟨hdata, following⟩ := live.phase.data hstart
    rw [SafeData, if_pos hdata] at safe
    have hnew : k % 2 ^ 16 = 0 → k = w.received + 1 := by
      intro hzero
      by_contra hne
      exact (safe (by omega)).1 hzero
    obtain ⟨j, hj1, hj, hjround, hjzero, hjlast⟩ := following.lastBlock
    have hjnat : w.client.TftpLastBlock.toNat = j % 2 ^ 16 := by
      rw [hjlast, BitVec.toNat_ofNat]
      omega
    by_cases hdup : k % 2 ^ 16 = j % 2 ^ 16
    · -- the same block again
      have hold : k ≠ w.received + 1 := by
        intro hk
        omega
      have hcount : count w.received (.data k) = w.received := by rw [count, if_neg hold]
      have hoffset := following.offset_takeNumber hnew
      rw [hcount] at hoffset
      have following₁ : Following s (w.client.takeNumber (BitVec.ofNat 16 k)) w.received :=
        ⟨⟨by rw [hport]; exact following.port, by rw [hsize]; exact following.size⟩, hoffset,
          j, hj1, hj, hjround, hjzero, by rw [hlastBlock]; exact hjlast⟩
      rw [TftpHandler_data live.phase.port]
      simp only [hstate]
      rw [if_neg hstart, takeBlock, if_pos (by rw [hnumber, hlastBlock, hjlast, hdup]), hcount]
      refine ⟨holding₁.loaded, fun _ => ⟨holding₁, ?_, live.received_le, hle, live.last_le_blocks⟩⟩
      rw [Phase, hstate, hdata]
      exact following₁
    · refine (stored_data live h1 hlast (fun h => absurd h hstart) (fun _ => ⟨hnew, ?_, ?_⟩) fits
        small behind).inv live hlast
      · rw [count]
        split
        · rfl
        · refine (safe (by omega)).2.resolve_right fun hlast => hdup ?_
          rw [← hlast, hjnat]
      · rw [hjnat]
        exact fun h => hdup h.symm

/-- Acknowledged options give the same block size again. -/
theorem foldl_size_foldl (opts : List TftpOption) (size : Nat) :
    opts.foldl TftpOption.size (opts.foldl TftpOption.size size) =
      opts.foldl TftpOption.size size := by
  -- the last size acknowledged counts, if there is one
  have last : ∀ opts : List TftpOption, (∀ size, opts.foldl TftpOption.size size = size) ∨
      ∃ v, ∀ size, opts.foldl TftpOption.size size = v := by
    intro opts
    induction opts with
    | nil => exact .inl fun _ => rfl
    | cons o opts ih =>
        rcases ih with same | ⟨v, const⟩
        · cases o with
          | blksize v => exact .inr ⟨v.value, fun _ => same _⟩
          | timeout | tsize => exact .inl fun _ => same _
        · exact .inr ⟨v, fun _ => const _⟩
  rcases last opts with same | ⟨v, const⟩
  · rw [same, same]
  · rw [const, const]

/-- An acknowledgment of options. -/
theorem inv_oack {w : TftpWorld} (live : Live s cfg w) (behind : List Byte) :
    Inv s cfg (w.deliver s cfg .oack behind) := by
  rw [deliver, TftpHandler_oack live.phase.port]
  have hsize : (s.options.getD []).foldl TftpOption.size w.client.TftpBlkSize.toNat =
      s.blksize := by
    have phase := live.phase
    rw [Phase] at phase
    split at phase
    · rw [phase.2.2.1]
      rfl
    · rw [phase.size]
      exact foldl_size_foldl ..
    · rw [phase.size]
      exact foldl_size_foldl ..
    · exact phase.elim
    · exact phase.elim
  rw [hsize]
  have holding := live.holding.congr (u := TftpSend cfg { w.client with
    TftpState := .oack
    TftpServerPort := s.port
    TftpBlkSize := BitVec.ofNat 16 s.blksize }) rfl rfl id
  have := s.blksize_bounds
  exact ⟨holding.loaded, fun _ => ⟨holding,
    ⟨rfl, by rw [TftpSend, BitVec.toNat_ofNat]; omega⟩, live.received_le, live.last_le,
    live.last_le_blocks⟩⟩

/-- A request is no acknowledgment. -/
theorem packet_ne_ack (hstate : t.TftpState = .rrq) (k : Nat) : ack k ≠ t.packet cfg := by
  rw [packet, hstate, ack]
  simp [htons, TFTP_ACK, TFTP_RRQ]

/-- The timer. -/
theorem inv_timeout {w : TftpWorld} (live : Live s cfg w) :
    Inv s cfg { w with client := w.client.TftpTimeout cfg } := by
  rw [TftpTimeout]
  simp only
  split
  · exact inv_netStartAgain (live.holding.congr (u :=
      { w.client with TftpTimeoutCount := w.client.TftpTimeoutCount + 1 }) rfl rfl id) _ _
  · have holding := live.holding.congr (u := TftpSend cfg
      { w.client with TftpTimeoutCount := w.client.TftpTimeoutCount + 1 }) rfl rfl id
    refine ⟨holding.loaded, fun _ => ⟨holding, ?_, live.received_le, live.last_le,
      live.last_le_blocks⟩⟩
    have phase := live.phase
    simp only [Phase, TftpSend] at phase ⊢
    split at phase
    · next hstate =>
        refine ⟨phase.1, phase.2.1, phase.2.2.1, fun k hk => ?_⟩
        rcases List.mem_cons.mp hk with heq | hold
        · exact packet_ne_ack hstate k heq
        · exact phase.2.2.2 k hold
    · exact ⟨phase.port, phase.size⟩
    · exact ⟨⟨phase.port, phase.size⟩, phase.offset, phase.lastBlock⟩
    · exact phase
    · exact phase

/-- The server receives the acknowledgment of the block it has sent. -/
theorem live_acknowledge {w : TftpWorld} (live : Live s cfg w) (sent : ack w.last ∈ w.client.sent)
    (hlast : w.last < s.blocks) (safe : w.last ≤ w.received) :
    Live s cfg { w with last := w.last + 1 } := by
  refine ⟨live.holding, ?_, Nat.le_succ_of_le live.received_le, Nat.succ_le_succ safe, hlast⟩
  have phase := live.phase
  simp only [Phase] at phase ⊢
  split at phase
  · exact absurd sent (phase.2.2.2 _)
  · exact phase
  · exact phase
  · exact phase
  · exact phase

/-- One event that keeps the transfer in order. -/
theorem inv_step (fits : cfg.load_addr.toNat + s.file.length ≤ 2 ^ 32)
    (small : s.file.length < 2 ^ 32) {w w' : TftpWorld} {e : Event} (inv : Inv s cfg w)
    (safe : w.SafeStep e) (taken : w.step s cfg e = some w') : Inv s cfg w' := by
  cases e with
  | deliver p behind =>
      simp only [step, Option.ite_none_right_eq_some, Option.some.injEq] at taken
      obtain ⟨⟨listening, sent⟩, rfl⟩ := taken
      cases p with
      | oack => exact inv_oack (inv.2 listening) behind
      | data k =>
          simp only [Sent, decide_eq_true_eq] at sent
          exact inv_data (inv.2 listening) sent.1 sent.2 safe fits small behind
  | acknowledge =>
      simp only [step, Option.ite_none_right_eq_some, Option.some.injEq] at taken
      obtain ⟨⟨sent, hlast⟩, rfl⟩ := taken
      exact ⟨inv.1, fun listening => live_acknowledge (inv.2 listening) sent hlast safe⟩
  | timeout =>
      simp only [step, Option.ite_none_right_eq_some, Option.some.injEq] at taken
      obtain ⟨listening, rfl⟩ := taken
      exact inv_timeout (inv.2 listening)

theorem live_initial (t : Tftp) (serverPort ourPort : Nat) :
    Live s cfg (initial s cfg t serverPort ourPort) := by
  refine ⟨⟨fun i hi => absurd hi (by simp [initial]), ?_, ?_⟩, ⟨rfl, rfl, rfl, fun k hk => ?_⟩,
    Nat.zero_le _, ?_, ?_⟩
  · simp [initial, TftpStart]
  · simp [initial, TftpStart, TftpSend]
  · simp only [initial, TftpStart, TftpSend, List.mem_singleton] at hk
    exact packet_ne_ack rfl k hk
  · show s.first ≤ 0 + 1
    rw [TftpServer.first]
    split <;> omega
  · show s.first ≤ s.blocks
    rw [TftpServer.first, TftpServer.blocks]
    split
    · exact Nat.zero_le _
    · exact Nat.succ_le_succ (Nat.zero_le _)

end Runs

end Tftp

end UBoot
