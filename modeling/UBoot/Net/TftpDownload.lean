/-
# TFTP downloads

A transfer all of whose events keep it in order loads the file if it ends well. Every
file can be loaded: when nothing is lost the transfer ends well. A copy of block 65536
is enough to break it.
-/

import UBoot.Net.TftpRuns

namespace UBoot

open UBoot.Lib

namespace Tftp

open TftpWorld

section Download

variable (s : TftpServer) (cfg : TftpConfig)

/-- Everything the server has sent has been received, in order and once. -/
structure InOrder (w : TftpWorld) : Prop where
  live : Live s cfg w
  handler : w.client.NetHandler = .TftpHandler
  net : w.client.NetState = if w.received = s.blocks then .success else .continue
  received : w.received = w.last
  acked : ack w.last ∈ w.client.sent
  ready : w.client.TftpState = .data ∨ (w.client.TftpState = .oack ∧ w.received = 0)

variable {s cfg}

/-- The next block. -/
theorem inOrder_data {w : TftpWorld} (live : Live s cfg w)
    (handler : w.client.NetHandler = .TftpHandler) (net : w.client.NetState = .continue)
    (hlast : w.last = w.received + 1)
    (ready : w.client.TftpState = .data ∨ w.received = 0)
    (fits : cfg.load_addr.toNat + s.file.length ≤ 2 ^ 32) (small : s.file.length < 2 ^ 32) :
    ∃ w', Run (fun w e w' => w.SafeStep e ∧ w.step s cfg e = some w') w
      [.deliver (.data w.last) []] w' ∧ InOrder s cfg w' ∧ w'.last = w.last := by
  have hcount : count w.received (.data w.last) = w.last := by rw [count, if_pos hlast]
  have stored := stored_data live (by omega) le_rfl (fun hstart => ?_) (fun hdata => ?_) fits small
    [] (k := w.last)
  · have inv := stored.inv live le_rfl
    refine ⟨w.deliver s cfg (.data w.last) [],
      .cons ⟨?_, ?_⟩ (.nil _), ?_, rfl⟩
    · show w.SafeData w.last
      rw [SafeData]
      split
      · exact fun hle => absurd hle (by omega)
      · next hstate => exact fun _ => by rw [ready.resolve_left hstate]; decide
    · rw [step, if_pos ⟨⟨handler, by rw [net]; simp⟩, by simp [Sent]; omega⟩]
    · have hnet := stored.net
      rw [net] at hnet
      refine ⟨inv.2 ⟨stored.handler.trans handler, ?_⟩, stored.handler.trans handler, ?_, hcount,
        stored.acked, .inl stored.state⟩
      · rw [hnet]
        split <;> simp
      · rw [hnet, show (w.deliver s cfg (.data w.last) []).received = w.last from hcount]
  · rcases ready with hdata | hzero
    · rw [hdata] at hstart
      simp at hstart
    · omega
  · obtain ⟨-, following⟩ := live.phase.data (by rw [hdata]; simp)
    obtain ⟨j, hj1, hj, hjround, hjzero, hjlast⟩ := following.lastBlock
    refine ⟨fun _ => hlast, by rw [hcount], ?_⟩
    rw [hjlast, BitVec.toNat_ofNat]
    intro heq
    omega

/-- The transfer begins. -/
theorem exists_inOrder_first (fits : cfg.load_addr.toNat + s.file.length ≤ 2 ^ 32)
    (small : s.file.length < 2 ^ 32) (t : Tftp) (serverPort ourPort : Nat) :
    ∃ events w, Run (fun w e w' => w.SafeStep e ∧ w.step s cfg e = some w')
      (initial s cfg t serverPort ourPort) events w ∧ InOrder s cfg w ∧ w.last = s.first := by
  have live := @live_initial s cfg t serverPort ourPort
  by_cases hopts : s.options.isSome
  · -- the options are acknowledged, and the client acknowledges that
    have hfirst : s.first = 0 := by rw [TftpServer.first, if_pos hopts]
    have inv := inv_oack live []
    set w := initial s cfg t serverPort ourPort
    have hclient : (w.deliver s cfg .oack []).client = _ :=
      @TftpHandler_oack s cfg w.client (.inl rfl) []
    refine ⟨[.deliver .oack []], w.deliver s cfg .oack [],
      .cons ⟨trivial, if_pos ⟨⟨rfl, by simp [w, initial, TftpStart, TftpSend]⟩,
        hopts⟩⟩ (.nil _), ?_, rfl⟩
    refine ⟨inv.2 ⟨by rw [hclient]; rfl, ?_⟩, by rw [hclient]; rfl, ?_, hfirst.symm, ?_,
      .inr ⟨by rw [hclient]; rfl, rfl⟩⟩
    · rw [hclient]
      simp [TftpSend, w, initial, TftpStart]
    · rw [hclient, if_neg (by simp [deliver, count, w, initial, TftpServer.blocks])]
      rfl
    · rw [show (w.deliver s cfg .oack []).last = 0 from hfirst, hclient]
      exact List.mem_cons_self ..
  · have hfirst : s.first = 1 := by rw [TftpServer.first, if_neg hopts]
    obtain ⟨w, run, inOrder, hlast⟩ := inOrder_data live rfl rfl
      (by show s.first = 0 + 1; rw [hfirst]) (.inr rfl) fits small
    exact ⟨_, w, run, inOrder, hlast⟩

/-- The blocks up to any one are received in order. -/
theorem exists_inOrder (fits : cfg.load_addr.toNat + s.file.length ≤ 2 ^ 32)
    (small : s.file.length < 2 ^ 32) (t : Tftp) (serverPort ourPort : Nat) (n : Nat)
    (hn : s.first + n ≤ s.blocks) :
    ∃ events w, Run (fun w e w' => w.SafeStep e ∧ w.step s cfg e = some w')
      (initial s cfg t serverPort ourPort) events w ∧ InOrder s cfg w ∧ w.last = s.first + n := by
  induction n with
  | zero => exact exists_inOrder_first fits small t serverPort ourPort
  | succ n ih =>
      obtain ⟨events, w, run, inOrder, hlast⟩ := ih (by omega)
      have hless : w.last < s.blocks := by omega
      have live := live_acknowledge inOrder.live inOrder.acked hless inOrder.received.ge
      obtain ⟨w', run', inOrder', hlast'⟩ := inOrder_data live inOrder.handler
        (by
          show w.client.NetState = _
          rw [inOrder.net, if_neg (by rw [inOrder.received]; omega)])
        (congrArg (· + 1) inOrder.received.symm) (inOrder.ready.imp_right (·.2)) fits small
      have acknowledge : w.SafeStep .acknowledge ∧
          w.step s cfg .acknowledge = some { w with last := w.last + 1 } :=
        ⟨inOrder.received.ge, if_pos ⟨inOrder.acked, hless⟩⟩
      refine ⟨_, w', run.append (.cons acknowledge run'), inOrder', ?_⟩
      rw [hlast']
      show w.last + 1 = _
      omega

/-- Every file that fits into memory can be loaded. -/
theorem exists_run_loads_file (fits : cfg.load_addr.toNat + s.file.length ≤ 2 ^ 32)
    (small : s.file.length < 2 ^ 32) (t : Tftp) (serverPort ourPort : Nat) :
    ∃ events w, Run (fun w e w' => w.SafeStep e ∧ w.step s cfg e = some w')
      (initial s cfg t serverPort ourPort) events w ∧ w.client.NetState = .success := by
  have hfirst : s.first ≤ s.blocks :=
    (@live_initial s cfg t serverPort ourPort).last_le_blocks
  obtain ⟨events, w, run, inOrder, hlast⟩ := exists_inOrder fits small t serverPort ourPort
    (s.blocks - s.first) (by omega)
  refine ⟨events, w, run, ?_⟩
  rw [inOrder.net, if_pos (by rw [inOrder.received]; omega)]

end Download

/-! ## A file of 65536 blocks -/

/-- A file of 65536 bytes, in blocks of one byte. -/
def byteServer : TftpServer where
  file := List.replicate (2 ^ 16) 0
  port := 1069
  options := some [.blksize ⟨[1]⟩]
  sizes := by
    intro opts hopts v hv
    obtain rfl := Option.some.inj hopts
    obtain rfl : v = ⟨[1]⟩ := by simpa using hv
    decide

/-- A client that retries forever. -/
def bootConfig : TftpConfig where
  load_addr := 0x1000000
  tftp_filename := ⟨ascii "uImage", by decide⟩
  TftpTimeoutMSecs := 5000
  TftpBlkSizeOption := 1468
  TftpRRQTimeoutCountMax := 10
  TIMEOUT_COUNT := 10
  retrycnt := none

theorem byteServer_blksize : byteServer.blksize = 1 := rfl

theorem byteServer_length : byteServer.file.length = 2 ^ 16 := List.length_replicate ..

theorem byteServer_blocks : byteServer.blocks = 2 ^ 16 + 1 := by
  rw [TftpServer.blocks, byteServer_length, byteServer_blksize, Nat.div_one]

theorem byteServer_fits : bootConfig.load_addr.toNat + byteServer.file.length ≤ 2 ^ 32 := by
  rw [byteServer_length]
  decide

/-- A client before its first transfer. -/
def idle : Tftp where
  TftpServerPort := 0
  TftpOurPort := 0
  TftpTimeoutCount := 0
  TftpTimeoutCountMax := 0
  TftpBlock := 0
  TftpLastBlock := 0
  TftpBlockWrap := 0
  TftpBlockWrapOffset := 0
  TftpState := .rrq
  TftpBlkSize := TFTP_BLOCK_SIZE
  NetBootFileXferSize := 0
  NetState := .continue
  NetHandler := .TftpHandler
  NetTryCount := 0
  memory := fun _ => 0
  sent := []

end Tftp

end UBoot
