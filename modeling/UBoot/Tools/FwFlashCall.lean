/-
# Calls of flash_read_buf and flash_write_buf

What the loops do on the good blocks in order. A call of `flash_write_buf` is stated in
rounds: where each one starts, and from which index of the buffer it writes. On NOR there is
one round at most.
-/

import UBoot.Tools.FwFlash

namespace UBoot.Tools

open UBoot.Lib

namespace EnvDev

variable (dev : EnvDev)

/-! ## Blocks -/

theorem first_add_seek : dev.first + dev.seek = dev.devoff := by
  rw [first, seek, Nat.mul_comm]
  exact Nat.div_add_mod _ _

theorem seek_lt : dev.seek < dev.erase_size := Nat.mod_lt _ dev.erase_pos

theorem top_eq : dev.top = dev.first + dev.env_sectors * dev.erase_size := by
  rw [top, first, Nat.add_mul]

theorem sectors_le_top : dev.env_sectors ≤ dev.top := by
  rw [top_eq]
  have := Nat.le_mul_of_pos_right dev.env_sectors dev.erase_pos
  omega

variable {dev} {sectors blockstart : Nat}

/-- A good block is one of the blocks. -/
theorem mem_goodFrom {g : Nat} (hg : g ∈ dev.goodFrom sectors blockstart) :
    blockstart ≤ g ∧ g + dev.erase_size ≤ blockstart + sectors * dev.erase_size := by
  induction sectors generalizing blockstart with
  | zero => cases hg
  | succ sectors ih =>
      rw [Nat.succ_mul]
      rw [goodFrom] at hg
      split at hg
      · have := ih hg
        omega
      · rcases List.mem_cons.mp hg with rfl | hg
        · omega
        · have := ih hg
          omega

/-- Good blocks are in order. -/
theorem pairwise_goodFrom :
    (dev.goodFrom sectors blockstart).Pairwise fun g g' => g + dev.erase_size ≤ g' := by
  induction sectors generalizing blockstart with
  | zero => exact List.Pairwise.nil
  | succ sectors ih =>
      rw [goodFrom]
      split
      · exact ih
      · apply List.pairwise_cons.mpr ⟨_, ih⟩
        intro g hg
        exact (mem_goodFrom hg).1

/-! ## Reading -/

/-- The address of a byte, counted from the beginning of the first of some blocks. -/
def placeIn (erase_size : Nat) (blocks : List Nat) (p : Nat) : Nat :=
  blocks.getD (p / erase_size) 0 + p % erase_size

theorem placeIn_first {g p : Nat} {blocks : List Nat} (hp : p < dev.erase_size) :
    placeIn dev.erase_size (g :: blocks) p = g + p := by
  rw [placeIn, Nat.div_eq_of_lt hp, Nat.mod_eq_of_lt hp, List.getD_cons_zero]

theorem placeIn_later {g p : Nat} {blocks : List Nat} :
    placeIn dev.erase_size (g :: blocks) (dev.erase_size + p) =
      placeIn dev.erase_size blocks p := by
  rw [placeIn, placeIn, Nat.add_div_left _ dev.erase_pos, Nat.add_mod_left, List.getD_cons_succ]

/-- The loop reads the bytes of good blocks in order, when there are enough of them. -/
theorem readLoop_nand (flash : Nat → Byte) (sectors blockstart fuel processed s c : Nat)
    (hs : s < dev.erase_size) (hfuel : sectors < fuel)
    (enough : c = 0 ∨ s + c ≤ (dev.goodFrom sectors blockstart).length * dev.erase_size) :
    dev.readLoop flash (processed + c) dev.erase_size (blockstart + sectors * dev.erase_size) fuel
      processed (min (dev.erase_size - s) c) s blockstart =
      some ((List.range c).map fun i =>
        flash (placeIn dev.erase_size (dev.goodFrom sectors blockstart) (s + i))) := by
  induction sectors generalizing fuel processed s c blockstart with
  | zero =>
      obtain ⟨fuel, rfl⟩ : ∃ n, fuel = n + 1 := ⟨fuel - 1, by omega⟩
      obtain rfl : c = 0 := by
        rw [goodFrom, List.length_nil, Nat.zero_mul] at enough
        omega
      rw [readLoop, if_neg (by omega)]
      rfl
  | succ sectors ih =>
      obtain ⟨fuel, rfl⟩ : ∃ n, fuel = n + 1 := ⟨fuel - 1, by omega⟩
      rcases Nat.eq_zero_or_pos c with rfl | hc
      · rw [readLoop, if_neg (by omega)]
        rfl
      have enough := enough.resolve_left hc.ne'
      rw [readLoop, if_pos (by omega), if_neg (by rw [Nat.succ_mul]; omega), Nat.succ_mul,
        Nat.add_comm (sectors * dev.erase_size), ← Nat.add_assoc]
      rw [goodFrom] at enough ⊢
      split
      · next hbad =>
          rw [if_pos hbad] at enough
          exact ih _ _ _ _ _ hs (by omega) (Or.inr enough)
      · next hgood =>
          rw [if_neg hgood, List.length_cons, Nat.succ_mul] at enough
          -- the bytes of this block, and those of the later ones
          obtain ⟨r, hr⟩ : ∃ r, r = min (dev.erase_size - s) c := ⟨_, rfl⟩
          obtain ⟨c', rfl⟩ : ∃ c', c = r + c' := ⟨c - r, by omega⟩
          have hlater := ih (blockstart + dev.erase_size) fuel (processed + r) 0 c' dev.erase_pos
            (by omega) (by omega)
          rw [← hr]
          rw [Nat.sub_zero, Nat.add_assoc processed] at hlater
          rw [show processed + (r + c') - (processed + r) = c' by omega, hlater, Option.map_some,
            List.range_add, List.map_append, List.map_map]
          congr 2
          · apply List.map_congr_left
            intro i hi
            have := List.mem_range.mp hi
            rw [placeIn_first (by omega), Nat.add_assoc]
          · apply List.map_congr_left
            intro i hi
            have := List.mem_range.mp hi
            rw [Function.comp_apply, show s + (r + i) = dev.erase_size + (0 + i) by omega,
              placeIn_later]

/-- The number of blocks that hold the environment and what is in front of it. -/
def blockCount (dev : EnvDev) (count : Nat) : Nat :=
  (dev.seek + count + dev.erase_size - 1) / dev.erase_size

theorem blockCount_le_iff {count k : Nat} :
    dev.blockCount count ≤ k ↔ dev.seek + count ≤ k * dev.erase_size := by
  have hpos := dev.erase_pos
  rw [blockCount, ← Nat.lt_succ_iff, Nat.div_lt_iff_lt_mul hpos, Nat.succ_mul]
  omega

/-- What is read from an address in the first block. -/
theorem flash_read_buf_eq (dev : EnvDev) (flash : Nat → Byte) (count s : Nat) (hs : s < dev.erase_size)
    (enough : dev.mtd_type = .nand → count = 0 ∨ s + count ≤ dev.goodBlocks.length * dev.erase_size) :
    dev.flash_read_buf flash count (dev.first + s) =
      some ((List.range count).map fun i => flash (dev.place (s + i))) := by
  have hfirst : (dev.first + s) / dev.erase_size * dev.erase_size = dev.first := by
    rw [first, Nat.add_comm, Nat.add_mul_div_right _ _ dev.erase_pos, Nat.div_eq_of_lt hs,
      Nat.zero_add]
  unfold flash_read_buf place
  simp only [hfirst, Nat.add_sub_cancel_left]
  cases htype : dev.mtd_type with
  | nand =>
      have hlen : (if count > dev.erase_size - s then dev.erase_size - s else count) =
          min (dev.erase_size - s) count := by
        split <;> omega
      have hloop := readLoop_nand flash dev.env_sectors dev.first (dev.top + 2) 0 s count hs
        (Nat.lt_add_right 1 (Nat.lt_succ_of_le dev.sectors_le_top)) (enough htype)
      rw [Nat.zero_add, ← top_eq] at hloop
      simp only [hlen]
      exact hloop
  | nor =>
      simp only
      rw [readLoop]
      split
      · rw [if_neg (by omega), flash_bad_block, htype]
        simp only [reduceCtorEq, decide_false, Bool.false_and, Bool.false_eq_true, if_false]
        rw [readLoop, if_neg (by omega), Option.map_some, List.append_nil]
        simp only [Nat.add_assoc]
      · next h =>
          obtain rfl : count = 0 := by omega
          rfl

/-! ## Writing -/

/-- Rounds with the good blocks given, the first of them the round `k`. -/
def roundsFrom (dev : EnvDev) : Nat → List Nat → List (Nat × Nat)
  | _, [] => []
  | k, g :: gs => (g, k * dev.erase_size) :: roundsFrom dev (k + 1) gs

/-- The rounds of a call that succeeds: where each one starts, and from which index of the
buffer it writes. -/
def rounds (dev : EnvDev) (count : Nat) : List (Nat × Nat) :=
  match dev.mtd_type with
  | .nand => dev.roundsFrom 0 (dev.goodBlocks.take (dev.blockCount count))
  | .nor => if dev.blockCount count = 0 then [] else [(dev.first, 0)]

/-- What a round erases. -/
def area (dev : EnvDev) : Nat :=
  match dev.mtd_type with
  | .nand => dev.erase_size
  | .nor => dev.top - dev.first

/-- The call succeeds: there are enough good blocks, and on NOR one block holds the
environment and what is in front of it. -/
def Enough (dev : EnvDev) (count : Nat) : Prop :=
  match dev.mtd_type with
  | .nand => dev.blockCount count ≤ dev.goodBlocks.length
  | .nor => dev.blockCount count ≤ 1

section Types

variable {count : Nat}

theorem rounds_nand (h : dev.mtd_type = .nand) :
    dev.rounds count = dev.roundsFrom 0 (dev.goodBlocks.take (dev.blockCount count)) := by
  rw [rounds, h]

theorem rounds_nor (h : dev.mtd_type = .nor) :
    dev.rounds count = if dev.blockCount count = 0 then [] else [(dev.first, 0)] := by
  rw [rounds, h]

theorem area_nand (h : dev.mtd_type = .nand) : dev.area = dev.erase_size := by
  rw [area, h]

theorem area_nor (h : dev.mtd_type = .nor) : dev.area = dev.top - dev.first := by
  rw [area, h]

theorem enough_nand (h : dev.mtd_type = .nand) :
    dev.Enough count ↔ dev.blockCount count ≤ dev.goodBlocks.length := by
  rw [Enough, h]

theorem enough_nor (h : dev.mtd_type = .nor) : dev.Enough count ↔ dev.blockCount count ≤ 1 := by
  rw [Enough, h]

theorem place_nand (h : dev.mtd_type = .nand) (p : Nat) :
    dev.place p = placeIn dev.erase_size dev.goodBlocks p := by
  rw [place, h, placeIn]

theorem place_nor (h : dev.mtd_type = .nor) (p : Nat) : dev.place p = dev.first + p := by
  rw [place, h]

end Types

/-- The operations of rounds. -/
def opsOf (area length : Nat) (rounds : List (Nat × Nat)) : List FlashOp :=
  rounds.flatMap fun r => [.erase r.1 area, .write r.1 r.2 length]

section WriteLoop

variable {total erasesize E fuel processed : Nat}

theorem writeLoop_done (h : total ≤ processed) :
    dev.writeLoop total erasesize E (fuel + 1) processed blockstart = (some processed, []) :=
  if_neg (Nat.not_lt.2 h)

theorem writeLoop_top (h : processed < total) (htop : dev.top < blockstart + erasesize) :
    dev.writeLoop total erasesize E (fuel + 1) processed blockstart = (none, []) :=
  (if_pos h).trans (if_pos htop)

theorem writeLoop_bad (h : processed < total) (htop : blockstart + erasesize ≤ dev.top)
    (hbad : dev.flash_bad_block blockstart = true) :
    dev.writeLoop total erasesize E (fuel + 1) processed blockstart =
      dev.writeLoop total erasesize E fuel processed (blockstart + dev.erase_size) :=
  (if_pos h).trans ((if_neg (Nat.not_lt.2 htop)).trans (if_pos hbad))

theorem writeLoop_good (h : processed < total) (htop : blockstart + erasesize ≤ dev.top)
    (hgood : dev.flash_bad_block blockstart = false) :
    dev.writeLoop total erasesize E (fuel + 1) processed blockstart =
      ((dev.writeLoop total erasesize E fuel (processed + dev.erase_size)
          (blockstart + dev.erase_size)).1,
        .erase blockstart erasesize :: .write blockstart processed E ::
          (dev.writeLoop total erasesize E fuel (processed + dev.erase_size)
            (blockstart + dev.erase_size)).2) := by
  rw [writeLoop, if_pos h, if_neg (by omega), hgood]
  rfl

end WriteLoop

/-- The loop on NAND, with `n` blocks left to write. -/
theorem writeLoop_nand (dev : EnvDev) (E sectors blockstart fuel k n : Nat) (hfuel : sectors < fuel)
    (htop : dev.top = blockstart + sectors * dev.erase_size) :
    if n ≤ (dev.goodFrom sectors blockstart).length then
      dev.writeLoop ((k + n) * dev.erase_size) dev.erase_size E fuel (k * dev.erase_size) blockstart =
        (some ((k + n) * dev.erase_size),
          opsOf dev.erase_size E (dev.roundsFrom k ((dev.goodFrom sectors blockstart).take n)))
    else
      (dev.writeLoop ((k + n) * dev.erase_size) dev.erase_size E fuel (k * dev.erase_size)
        blockstart).1 = none := by
  have hpos := dev.erase_pos
  induction sectors generalizing fuel k n blockstart with
  | zero =>
      obtain ⟨fuel, rfl⟩ : ∃ m, fuel = m + 1 := ⟨fuel - 1, by omega⟩
      cases n with
      | zero =>
          rw [Nat.add_zero k, writeLoop_done le_rfl, if_pos (Nat.zero_le _)]
          rfl
      | succ n =>
          have hlt : k * dev.erase_size < (k + (n + 1)) * dev.erase_size :=
            Nat.mul_lt_mul_of_pos_right (by omega) hpos
          rw [writeLoop_top hlt (by omega), goodFrom, List.length_nil, if_neg (by omega)]
  | succ sectors ih =>
      obtain ⟨fuel, rfl⟩ : ∃ m, fuel = m + 1 := ⟨fuel - 1, by omega⟩
      have htop' : dev.top = blockstart + dev.erase_size + sectors * dev.erase_size := by
        rw [htop, Nat.succ_mul]
        omega
      cases n with
      | zero =>
          rw [Nat.add_zero k, writeLoop_done le_rfl, if_pos (Nat.zero_le _)]
          rfl
      | succ n =>
          have hlt : k * dev.erase_size < (k + (n + 1)) * dev.erase_size :=
            Nat.mul_lt_mul_of_pos_right (by omega) hpos
          cases hbad : dev.flash_bad_block blockstart with
          | true =>
              rw [writeLoop_bad hlt (by omega) hbad, goodFrom, if_pos hbad]
              exact ih _ _ _ _ (by omega) htop'
          | false =>
              have hrest := ih (blockstart + dev.erase_size) fuel (k + 1) n (by omega) htop'
              rw [Nat.succ_mul, show k + 1 + n = k + (n + 1) by omega] at hrest
              rw [writeLoop_good hlt (by omega) hbad, goodFrom, hbad, if_neg Bool.false_ne_true,
                List.length_cons]
              split at hrest
              · rw [if_pos (by omega), hrest]
                rfl
              · rw [if_neg (by omega)]
                exact hrest

/-- The loop on NOR, with `n` blocks to write: the second round would erase beyond the end. -/
theorem writeLoop_nor (htype : dev.mtd_type = .nor) (n E fuel : Nat) (hfuel : 2 ≤ fuel) :
    if n ≤ 1 then
      dev.writeLoop (n * dev.erase_size) (dev.top - dev.first) E fuel 0 dev.first =
        (some (n * dev.erase_size),
          opsOf (dev.top - dev.first) E (if n = 0 then [] else [(dev.first, 0)]))
    else
      (dev.writeLoop (n * dev.erase_size) (dev.top - dev.first) E fuel 0 dev.first).1 = none := by
  have hpos := dev.erase_pos
  have htop := dev.top_eq
  have hgood (bs : Nat) : dev.flash_bad_block bs = false := by
    rw [flash_bad_block, htype]
    rfl
  obtain ⟨fuel, rfl⟩ : ∃ m, fuel = m + 2 := ⟨fuel - 2, by omega⟩
  match n with
  | 0 =>
      rw [writeLoop_done (Nat.zero_mul _).le, if_pos (Nat.zero_le _), Nat.zero_mul]
      rfl
  | 1 =>
      rw [writeLoop_good (by omega) (by omega) (hgood _), writeLoop_done (by omega), Nat.one_mul,
        Nat.zero_add]
      rfl
  | n + 2 =>
      have hlt : 0 + dev.erase_size < (n + 2) * dev.erase_size := by
        rw [Nat.add_mul]
        omega
      rw [writeLoop_good (by omega) (by omega) (hgood _), writeLoop_top hlt (by omega),
        if_neg (by omega)]

/-! ## The call -/

/-- The length of the buffer that is written: the rest of the sectors, or the environment
itself. -/
def dataLen (dev : EnvDev) (count : Nat) : Nat :=
  if dev.blockCount count * dev.erase_size > count then dev.top - dev.first else count

/-- What the bytes from the first block on are to be. -/
def desired (dev : EnvDev) (flash : Nat → Byte) (buf : List Byte) : Nat → Byte :=
  store (fun p => flash (dev.place p)) dev.seek buf

/-- The memory from the buffer on. -/
def staged (dev : EnvDev) (heap flash : Nat → Byte) (buf : List Byte) (p : Nat) : Byte :=
  if p < dev.blockCount buf.length * dev.erase_size then dev.desired flash buf p else heap p

/-- The rounds with what they program. -/
def eraseRounds (data : Nat → Byte) (rounds : List (Nat × Nat)) : List (EraseRound 8) :=
  rounds.map fun r => ⟨r.1, fun i => data (r.2 + i)⟩

theorem foldl_opsOf {area length : Nat} (data : Nat → Byte) (rounds : List (Nat × Nat))
    (flash : Nat → Byte) :
    (opsOf area length rounds).foldl (FlashOp.apply data) flash =
      runRounds area length (eraseRounds data rounds) flash := by
  induction rounds generalizing flash with
  | nil => rfl
  | cons r rounds ih => exact ih _

section Call

variable {heap flash : Nat → Byte} {buf : List Byte}

theorem seek_add_le (dev : EnvDev) (count : Nat) :
    dev.seek + count ≤ dev.blockCount count * dev.erase_size :=
  blockCount_le_iff.mp le_rfl

/-- The buffer that was read with the environment put into it. -/
theorem store_old :
    store (store heap 0 ((List.range (dev.blockCount buf.length * dev.erase_size)).map fun i =>
      flash (dev.place (0 + i)))) dev.seek buf = dev.staged heap flash buf := by
  have hle := dev.seek_add_le buf.length
  funext p
  rw [staged]
  split
  · next hp =>
      simp only [desired, store, Nat.zero_le, if_true, Nat.sub_zero, List.getElem?_map,
        List.getElem?_range hp, Option.map_some, Option.getD_some, Nat.zero_add]
  · next hp =>
      rw [store_outside (by omega), store_outside]
      rw [List.length_map, List.length_range]
      omega

/-- The environment fills its blocks. -/
theorem store_whole (dev : EnvDev) (flash : Nat → Byte)
    (h : dev.blockCount buf.length * dev.erase_size ≤ buf.length) :
    store heap 0 buf = dev.staged heap flash buf := by
  have hle := dev.seek_add_le buf.length
  have hseek : dev.seek = 0 := by omega
  funext p
  rw [staged, desired, hseek]
  split
  · next hp =>
      obtain ⟨y, hy⟩ : ∃ y, buf[p]? = some y := ⟨_, List.getElem?_eq_getElem (by omega)⟩
      simp only [store, Nat.zero_le, if_true, Nat.sub_zero, hy, Option.getD_some]
  · exact store_outside (by omega)

/-- The loop writes the rounds, or does not succeed. -/
theorem writeData_eq (dev : EnvDev) (count : Nat) (flash data : Nat → Byte) (len : Nat) :
    (dev.Enough count → dev.writeData (dev.blockCount count * dev.erase_size) dev.area count
      dev.first flash data len =
        ⟨some (dev.blockCount count * dev.erase_size), opsOf dev.area count (dev.rounds count), len,
          runRounds dev.area count (eraseRounds data (dev.rounds count)) flash⟩) ∧
      (¬ dev.Enough count → (dev.writeData (dev.blockCount count * dev.erase_size) dev.area count
        dev.first flash data len).rc = none) := by
  cases htype : dev.mtd_type with
  | nand =>
      have hloop := dev.writeLoop_nand count _ _ (dev.top + 2) 0 (dev.blockCount count)
        (Nat.lt_add_right 1 (Nat.lt_succ_of_le dev.sectors_le_top)) dev.top_eq
      rw [Nat.zero_add, Nat.zero_mul] at hloop
      rw [enough_nand htype, area_nand htype, rounds_nand htype, writeData, ← foldl_opsOf]
      constructor
      · intro enough
        rw [if_pos (by exact enough)] at hloop
        simp only [hloop]
        rfl
      · intro short
        rw [if_neg (by exact short)] at hloop
        exact hloop
  | nor =>
      have hloop := writeLoop_nor htype (dev.blockCount count) count (dev.top + 2) (by omega)
      rw [enough_nor htype, area_nor htype, rounds_nor htype, writeData, ← foldl_opsOf]
      constructor
      · intro enough
        rw [if_pos enough] at hloop
        simp only [hloop]
      · intro short
        rw [if_neg short] at hloop
        exact hloop

/-- The call in the words of the rounds. -/
theorem flash_write_buf_eq :
    dev.flash_write_buf buf.length heap flash buf dev.devoff =
      if dev.blockCount buf.length * dev.erase_size > buf.length then
        match dev.flash_read_buf flash (dev.blockCount buf.length * dev.erase_size) dev.first with
        | none => ⟨none, [], dev.top - dev.first, flash⟩
        | some old =>
            dev.writeData (dev.blockCount buf.length * dev.erase_size) dev.area buf.length dev.first
              flash (store (store heap 0 old) dev.seek buf) (dev.top - dev.first)
      else
        dev.writeData (dev.blockCount buf.length * dev.erase_size) dev.area buf.length dev.first
          flash (store heap 0 buf) buf.length := by
  have hseek : dev.devoff - dev.devoff / dev.erase_size * dev.erase_size = dev.seek := by
    have hsum := dev.first_add_seek
    rw [first] at hsum
    omega
  simp only [flash_write_buf, hseek]
  rfl

/-- A call that succeeds. -/
theorem flash_write_buf_enough (enough : dev.Enough buf.length) :
    dev.flash_write_buf buf.length heap flash buf dev.devoff =
      ⟨some (dev.blockCount buf.length * dev.erase_size),
        opsOf dev.area buf.length (dev.rounds buf.length), dev.dataLen buf.length,
        runRounds dev.area buf.length
          (eraseRounds (dev.staged heap flash buf) (dev.rounds buf.length)) flash⟩ := by
  have hread := dev.flash_read_buf_eq flash (dev.blockCount buf.length * dev.erase_size) 0
    dev.erase_pos (fun htype => by
      right
      rw [Nat.zero_add]
      exact Nat.mul_le_mul_right _ ((enough_nand htype).mp enough))
  have hwrite := fun data len => (dev.writeData_eq buf.length flash data len).1 enough
  rw [flash_write_buf_eq, dataLen]
  split
  · rw [Nat.add_zero] at hread
    rw [hread]
    exact (hwrite _ _).trans (by rw [store_old])
  · next h => rw [hwrite, store_whole dev flash (by omega)]

/-- A call that does not succeed. -/
theorem flash_write_buf_short (short : ¬ dev.Enough buf.length) :
    (dev.flash_write_buf buf.length heap flash buf dev.devoff).rc = none := by
  have hwrite := fun data len => (dev.writeData_eq buf.length flash data len).2 short
  rw [flash_write_buf_eq]
  split
  · cases dev.flash_read_buf flash (dev.blockCount buf.length * dev.erase_size) dev.first with
    | none => rfl
    | some old => exact hwrite _ _
  · exact hwrite _ _

end Call

end EnvDev

end UBoot.Tools
