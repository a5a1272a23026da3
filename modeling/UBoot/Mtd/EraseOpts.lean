/-
# Erasing with options

`nand_erase_opts` of `drivers/mtd/nand/nand_util.c` on a 32 bit machine: what it asks of the driver,
what it returns, and what it leaves of the chip's hooks. A call looks at a block at most once, so
that the results of the driver are those of an address. A block that cannot be erased, or that gets
no clean marker, is left out of the return value.
-/

import UBoot.LibGeneric.Crc32

namespace UBoot.EraseOpts

def JFFS2_MAGIC_BITMASK : BitVec 16 := 0x1985
def JFFS2_NODETYPE_CLEANMARKER : BitVec 16 := 0x2003

/-- A `block_bad` hook: that of the scrub option, or one of the drivers. -/
inductive Hook
  | nand_block_bad_scrub
  | driver (n : Nat)

/-- The fields of `struct nand_chip` that are written. The table of bad blocks may not be there. -/
structure Chip where
  block_bad : Hook
  bbt : Option (List Byte)

/-- `nand_erase_options_t` -/
structure Options where
  length : Nat
  offset : Nat
  quiet : Bool
  jffs2 : Bool
  scrub : Bool

/-- A device with its driver, and options for it: a range of the device from a block on. -/
structure Call extends Options where
  erasesize : Nat
  size : Nat
  /-- `chip->ecc.layout->oobavail` -/
  oobavail : Nat
  block_isbad : Nat → Int
  erase : Nat → Int
  write_oob : Nat → Int
  /-- what `scan_bbt` makes -/
  scan_bbt : Option (List Byte)
  erasesize_pos : 0 < erasesize
  erasesize_lt : erasesize < 2 ^ 32
  aligned : erasesize ∣ offset
  inside : offset + length ≤ size
  offset_lt : offset < 2 ^ 32
  length_lt : length < 2 ^ 32

/-- The clean marker that is written: `MTD_OOB_AUTO`, from the start, so many bytes. -/
structure CleanMarker where
  magic : BitVec 16 := JFFS2_MAGIC_BITMASK
  nodetype : BitVec 16 := JFFS2_NODETYPE_CLEANMARKER
  totlen : BitVec 32 := 8
  ooblen : Nat := 8
  ooboffs : Nat := 0

/-- What is asked of the driver, with the result, and what is printed of a block. -/
inductive Event
  | block_isbad (addr : Nat) (ret : Int)
  | skipping (addr : Nat)
  | erase (addr : Nat) (result : Int)
  | write_oob (addr : Nat) (marker : CleanMarker) (result : Int)
  | progress (addr percent : Nat) (cleanmarker : Bool)

variable (c : Call)

/-- `erase_length`, which is one block at least. -/
def erase_length : Nat := if c.length < c.erasesize then c.erasesize else c.length

/-- `opts->offset + erase_length` -/
def stop : Nat := (c.offset + erase_length c) % 2 ^ 32

/-- What is printed of a block, and the percentage that is printed last. -/
def progress (addr : Nat) (percent_complete : Int) : List Event × Int :=
  let percent := (addr + c.erasesize - c.offset) * 100 / erase_length c
  if c.quiet = false ∧ (percent : Int) ≠ percent_complete then
    ([.progress addr percent c.jffs2], percent)
  else ([], percent_complete)

/-- What is done with a block that is not skipped. -/
def eraseBlock (addr : Nat) (percent_complete : Int) : List Event × Int :=
  let erase := .erase addr (c.erase addr)
  if c.erase addr ≠ 0 then ([erase], percent_complete)
  else if c.jffs2 = true ∧ 8 ≤ c.oobavail then
    let write_oob := .write_oob addr {} (c.write_oob addr)
    if c.write_oob addr ≠ 0 then ([erase, write_oob], percent_complete)
    else (erase :: write_oob :: (progress c addr percent_complete).1,
      (progress c addr percent_complete).2)
  else (erase :: (progress c addr percent_complete).1, (progress c addr percent_complete).2)

/-- A block that is skipped as bad. -/
def Skipped (addr : Nat) : Prop := c.scrub = false ∧ 0 < c.block_isbad addr

/-- A block whose state cannot be read. -/
def Fails (addr : Nat) : Prop := c.scrub = false ∧ c.block_isbad addr < 0

instance (addr : Nat) : Decidable (Skipped c addr) := inferInstanceAs (Decidable (_ ∧ _))
instance (addr : Nat) : Decidable (Fails c addr) := inferInstanceAs (Decidable (_ ∧ _))

/-- The question for the state of a block. -/
def asked (addr : Nat) : List Event :=
  if c.scrub then [] else [.block_isbad addr (c.block_isbad addr)]

/-- The message about a bad block. -/
def skipping (addr : Nat) : List Event := if c.quiet then [] else [.skipping addr]

/-- The loop over the blocks. -/
def eraseLoop (addr : Nat) (percent_complete : Int) : List Event × Int :=
  if addr < stop c then
    if Skipped c addr then
      let rest := eraseLoop (addr + c.erasesize) percent_complete
      (asked c addr ++ skipping c addr ++ rest.1, rest.2)
    else if Fails c addr then (asked c addr, -1)
    else
      let block := eraseBlock c addr percent_complete
      let rest := eraseLoop (addr + c.erasesize) block.2
      (asked c addr ++ block.1 ++ rest.1, rest.2)
  else ([], 0)
termination_by stop c - addr
decreasing_by
  all_goals
    have := c.erasesize_pos
    omega

/-- What a call leaves behind. -/
structure Result where
  ret : Int
  chip : Chip
  events : List Event

/-- `nand_erase_opts` -/
def nand_erase_opts (chip : Chip) : Result :=
  let nand_block_bad_old := if c.scrub then some chip.block_bad else none
  let chip := if c.scrub then ⟨.nand_block_bad_scrub, none⟩ else chip
  let loop := eraseLoop c c.offset (-1)
  if loop.2 ≠ 0 then ⟨loop.2, chip, loop.1⟩
  else ⟨0, nand_block_bad_old.elim chip fun old => ⟨old, c.scan_bbt⟩, loop.1⟩

/-! ## What a call should do -/

/-- There is a block at an address, with bytes of the range. -/
def InRange (a : Nat) : Prop :=
  c.erasesize ∣ a ∧ a < c.offset + c.length ∧ c.offset < a + c.erasesize

/-- The block has been erased, and has a clean marker if one is asked for and has room. -/
def Done (a : Nat) (events : List Event) : Prop :=
  .erase a 0 ∈ events ∧ (c.jffs2 = true ∧ 8 ≤ c.oobavail → .write_oob a {} 0 ∈ events)

/-- There is success only if all blocks of the range are done but the bad ones, no bad block is
erased without the scrub option, none outside of the range, and the chip has its hook. -/
structure ErasesRight (chip : Chip) : Prop where
  success : (nand_erase_opts c chip).ret = 0 → ∀ a, InRange c a →
    Skipped c a ∨ Done c a (nand_erase_opts c chip).events
  good : ∀ a r, .erase a r ∈ (nand_erase_opts c chip).events → ¬Skipped c a
  inside : ∀ a r, .erase a r ∈ (nand_erase_opts c chip).events → InRange c a
  hook : (nand_erase_opts c chip).chip.block_bad = chip.block_bad

/-- The driver erases a block, and marks it if that is asked for. -/
def Succeeds (a : Nat) : Prop :=
  c.erase a = 0 ∧ (c.jffs2 = true ∧ 8 ≤ c.oobavail → c.write_oob a = 0)

/-- Nothing is asked for and the block at the offset is not erased, or the state of a block of the
range cannot be read, or every block is skipped or done. The end of what is erased has 32 bits. -/
def Suits : Prop :=
  if c.length = 0 then
    2 ^ 32 ≤ c.offset + c.erasesize ∨ Skipped c c.offset ∨ Fails c c.offset
  else
    (c.offset + erase_length c < 2 ^ 32 ∧ ∃ a, InRange c a ∧ Fails c a) ∨
      ∀ a, InRange c a → Skipped c a ∨ (c.offset + erase_length c < 2 ^ 32 ∧ Succeeds c a)

/-! ## The loop -/

section Loop

variable {c}

/-- The blocks from an address on are that block and those from the next one on. -/
theorem block_cases {addr a : Nat} (hdvd : c.erasesize ∣ addr) (ha : c.erasesize ∣ a)
    (hle : addr ≤ a) : a = addr ∨ addr + c.erasesize ≤ a := by
  obtain ⟨i, rfl⟩ := hdvd
  obtain ⟨j, rfl⟩ := ha
  have hij : i ≤ j := Nat.le_of_mul_le_mul_left hle c.erasesize_pos
  rcases Nat.eq_or_lt_of_le hij with rfl | hlt
  · exact .inl rfl
  · right
    rw [← Nat.mul_succ]
    exact Nat.mul_le_mul_left _ hlt

theorem not_fails_of_skipped {a : Nat} (h : Skipped c a) : ¬Fails c a := fun hfails => by
  have := h.2
  have := hfails.2
  omega

theorem eraseLoop_eq (addr : Nat) (pc : Int) :
    eraseLoop c addr pc =
      if addr < stop c then
        if Skipped c addr then
          (asked c addr ++ skipping c addr ++ (eraseLoop c (addr + c.erasesize) pc).1,
            (eraseLoop c (addr + c.erasesize) pc).2)
        else if Fails c addr then (asked c addr, -1)
        else
          (asked c addr ++ (eraseBlock c addr pc).1 ++
            (eraseLoop c (addr + c.erasesize) (eraseBlock c addr pc).2).1,
            (eraseLoop c (addr + c.erasesize) (eraseBlock c addr pc).2).2)
      else ([], 0) := by
  rw [eraseLoop]

theorem eraseLoop_end {addr : Nat} (h : ¬addr < stop c) (pc : Int) :
    eraseLoop c addr pc = ([], 0) := by
  rw [eraseLoop_eq, if_neg h]

theorem eraseLoop_skip {addr : Nat} (h : addr < stop c) (hskip : Skipped c addr) (pc : Int) :
    eraseLoop c addr pc = (asked c addr ++ skipping c addr ++
      (eraseLoop c (addr + c.erasesize) pc).1, (eraseLoop c (addr + c.erasesize) pc).2) := by
  rw [eraseLoop_eq, if_pos h, if_pos hskip]

theorem eraseLoop_fail {addr : Nat} (h : addr < stop c) (hfails : Fails c addr) (pc : Int) :
    eraseLoop c addr pc = (asked c addr, -1) := by
  rw [eraseLoop_eq, if_pos h, if_neg fun hskip => not_fails_of_skipped hskip hfails, if_pos hfails]

theorem eraseLoop_block {addr : Nat} (h : addr < stop c) (hskip : ¬Skipped c addr)
    (hfails : ¬Fails c addr) (pc : Int) :
    eraseLoop c addr pc = (asked c addr ++ (eraseBlock c addr pc).1 ++
      (eraseLoop c (addr + c.erasesize) (eraseBlock c addr pc).2).1,
      (eraseLoop c (addr + c.erasesize) (eraseBlock c addr pc).2).2) := by
  rw [eraseLoop_eq, if_pos h, if_neg hskip, if_neg hfails]

/-- The loop is left early exactly at a block whose state cannot be read. -/
theorem eraseLoop_ret {addr : Nat} (hdvd : c.erasesize ∣ addr) (pc : Int) :
    (eraseLoop c addr pc).2 = 0 ↔
      ∀ a, c.erasesize ∣ a → addr ≤ a → a < stop c → ¬Fails c a := by
  induction hn : stop c - addr using Nat.strong_induction_on generalizing addr pc with
  | _ n ih =>
      have hpos := c.erasesize_pos
      by_cases h : addr < stop c
      · have hnext (hfails : ¬Fails c addr) (pc : Int) :
            (eraseLoop c (addr + c.erasesize) pc).2 = 0 ↔
              ∀ a, c.erasesize ∣ a → addr ≤ a → a < stop c → ¬Fails c a := by
          rw [ih _ (by omega) (Nat.dvd_add hdvd (Nat.dvd_refl _)) pc rfl]
          constructor
          · intro hrest a ha hle hlt
            rcases block_cases hdvd ha hle with rfl | hle'
            · exact hfails
            · exact hrest a ha hle' hlt
          · exact fun hall a ha hle => hall a ha (by omega)
        by_cases hskip : Skipped c addr
        · rw [eraseLoop_skip h hskip]
          exact hnext (not_fails_of_skipped hskip) pc
        · by_cases hfails : Fails c addr
          · rw [eraseLoop_fail h hfails]
            exact iff_of_false (by decide : ¬(-1 : Int) = 0) fun hall => hall addr hdvd le_rfl h hfails
          · rw [eraseLoop_block h hskip hfails]
            exact hnext hfails _
      · rw [eraseLoop_end h]
        exact iff_of_true rfl fun a _ hle hlt => absurd hlt (by omega)

/-! ### Events -/

theorem mem_progress {addr : Nat} {pc : Int} {e : Event} (h : e ∈ (progress c addr pc).1) :
    ∃ percent marked, e = .progress addr percent marked := by
  rw [progress] at h
  split at h
  · exact ⟨_, _, List.mem_singleton.mp h⟩
  · exact absurd h List.not_mem_nil

/-- What is asked of the driver for a block that is not skipped. -/
theorem mem_eraseBlock {addr : Nat} {pc : Int} {e : Event} (h : e ∈ (eraseBlock c addr pc).1) :
    e = .erase addr (c.erase addr) ∨ e = .write_oob addr {} (c.write_oob addr) ∨
      ∃ percent marked, e = .progress addr percent marked := by
  unfold eraseBlock at h
  dsimp only at h
  split_ifs at h
  all_goals
    simp only [List.mem_cons, List.not_mem_nil, or_false] at h
  · exact .inl h
  · exact h.imp_right .inl
  · exact h.imp_right fun h => h.imp_right mem_progress
  · exact h.imp_right fun h => .inr (mem_progress h)

theorem erase_mem_eraseBlock (addr : Nat) (pc : Int) :
    .erase addr (c.erase addr) ∈ (eraseBlock c addr pc).1 := by
  unfold eraseBlock
  dsimp only
  split_ifs <;> exact List.mem_cons_self

theorem write_oob_mem_eraseBlock {addr : Nat} (herase : c.erase addr = 0)
    (hjffs2 : c.jffs2 = true ∧ 8 ≤ c.oobavail) (pc : Int) :
    .write_oob addr {} (c.write_oob addr) ∈ (eraseBlock c addr pc).1 := by
  unfold eraseBlock
  dsimp only
  rw [if_neg (not_not.mpr herase), if_pos hjffs2]
  split_ifs <;> exact List.mem_cons_of_mem _ List.mem_cons_self

/-- An event that has to do with erasing comes from a block that is not skipped. -/
theorem mem_eraseLoop {addr : Nat} (hdvd : c.erasesize ∣ addr) {pc : Int} {e : Event}
    (h : e ∈ (eraseLoop c addr pc).1) (hask : ∀ a r, e ≠ .block_isbad a r)
    (hskipping : ∀ a, e ≠ .skipping a) :
    ∃ a pc', c.erasesize ∣ a ∧ addr ≤ a ∧ a < stop c ∧ ¬Skipped c a ∧ ¬Fails c a ∧
      e ∈ (eraseBlock c a pc').1 := by
  induction hn : stop c - addr using Nat.strong_induction_on generalizing addr pc with
  | _ n ih =>
      have hpos := c.erasesize_pos
      by_cases hlt : addr < stop c
      · have hnotAsked : e ∉ asked c addr := by
          rw [asked]
          split
          · exact List.not_mem_nil
          · exact fun hmem => hask _ _ (List.mem_singleton.mp hmem)
        have hnext {pc : Int} (h : e ∈ (eraseLoop c (addr + c.erasesize) pc).1) :
            ∃ a pc', c.erasesize ∣ a ∧ addr ≤ a ∧ a < stop c ∧ ¬Skipped c a ∧ ¬Fails c a ∧
              e ∈ (eraseBlock c a pc').1 := by
          obtain ⟨a, pc', ha, hle, hrest⟩ :=
            ih _ (by omega) (Nat.dvd_add hdvd (Nat.dvd_refl _)) h rfl
          exact ⟨a, pc', ha, by omega, hrest⟩
        by_cases hskip : Skipped c addr
        · rw [eraseLoop_skip hlt hskip, List.mem_append, List.mem_append] at h
          rcases h with (hmem | hmem) | hmem
          · exact absurd hmem hnotAsked
          · rw [skipping] at hmem
            split at hmem
            · exact absurd hmem List.not_mem_nil
            · exact absurd (List.mem_singleton.mp hmem) (hskipping addr)
          · exact hnext hmem
        · by_cases hfails : Fails c addr
          · rw [eraseLoop_fail hlt hfails] at h
            exact absurd h hnotAsked
          · rw [eraseLoop_block hlt hskip hfails, List.mem_append, List.mem_append] at h
            rcases h with (hmem | hmem) | hmem
            · exact absurd hmem hnotAsked
            · exact ⟨addr, pc, hdvd, le_rfl, hlt, hskip, hfails, hmem⟩
            · exact hnext hmem
      · rw [eraseLoop_end hlt] at h
        exact absurd h List.not_mem_nil

/-- Where the loop comes to its end, every block is skipped or gone through. -/
theorem eraseLoop_covers {addr a : Nat} (hdvd : c.erasesize ∣ addr) {pc : Int}
    (hret : (eraseLoop c addr pc).2 = 0) (ha : c.erasesize ∣ a) (hle : addr ≤ a)
    (hstop : a < stop c) (hgood : ¬Skipped c a) :
    ∃ pc', ∀ e ∈ (eraseBlock c a pc').1, e ∈ (eraseLoop c addr pc).1 := by
  induction hn : stop c - addr using Nat.strong_induction_on generalizing addr pc with
  | _ n ih =>
      have hpos := c.erasesize_pos
      have hlt : addr < stop c := by omega
      have hdvd' : c.erasesize ∣ addr + c.erasesize := Nat.dvd_add hdvd (Nat.dvd_refl _)
      by_cases hskip : Skipped c addr
      · rw [eraseLoop_skip hlt hskip] at hret ⊢
        rcases block_cases hdvd ha hle with rfl | hle'
        · exact absurd hskip hgood
        · obtain ⟨pc', hmem⟩ := ih _ (by omega) hdvd' hret hle' rfl
          exact ⟨pc', fun e he => List.mem_append_right _ (hmem e he)⟩
      · by_cases hfails : Fails c addr
        · rw [eraseLoop_fail hlt hfails] at hret
          exact absurd hret (by decide : ¬(-1 : Int) = 0)
        · rw [eraseLoop_block hlt hskip hfails] at hret ⊢
          rcases block_cases hdvd ha hle with rfl | hle'
          · exact ⟨pc, fun e he => List.mem_append_left _ (List.mem_append_right _ he)⟩
          · obtain ⟨pc', hmem⟩ := ih _ (by omega) hdvd' hret hle' rfl
            exact ⟨pc', fun e he => List.mem_append_right _ (hmem e he)⟩

/-! ### Calls -/

theorem stop_eq (h : c.offset + erase_length c < 2 ^ 32) : stop c = c.offset + erase_length c :=
  Nat.mod_eq_of_lt h

/-- Nothing is gone through where the end of the range does not have 32 bits. -/
theorem stop_le (h : 2 ^ 32 ≤ c.offset + erase_length c) : stop c ≤ c.offset := by
  have hoffset := c.offset_lt
  have hlength : erase_length c < 2 ^ 32 := by
    have := c.erasesize_lt
    have := c.length_lt
    rw [erase_length]
    split <;> assumption
  rw [stop]
  omega

theorem inRange_iff (hpos : 0 < c.length) {a : Nat} :
    InRange c a ↔ c.erasesize ∣ a ∧ c.offset ≤ a ∧ a < c.offset + erase_length c := by
  have hsize := c.erasesize_pos
  rw [InRange, erase_length]
  constructor
  · rintro ⟨hdvd, hlt, hend⟩
    have hle : c.offset ≤ a := by
      by_contra hnot
      have := block_cases hdvd c.aligned (by omega)
      omega
    refine ⟨hdvd, hle, ?_⟩
    split <;> omega
  · rintro ⟨hdvd, hle, hlt⟩
    refine ⟨hdvd, ?_, by omega⟩
    split at hlt
    · have := block_cases c.aligned hdvd hle
      omega
    · exact hlt

theorem not_fails_of_scrub (h : c.scrub = true) (a : Nat) : ¬Fails c a := fun hfails =>
  Bool.false_ne_true (hfails.1.symm.trans h)

theorem ret_eq (chip : Chip) : (nand_erase_opts c chip).ret = (eraseLoop c c.offset (-1)).2 := by
  rw [nand_erase_opts]
  split
  · rfl
  · next h => exact (not_not.mp h).symm

theorem events_eq (chip : Chip) :
    (nand_erase_opts c chip).events = (eraseLoop c c.offset (-1)).1 := by
  rw [nand_erase_opts]
  split <;> rfl

/-- The hook is put back: the loop is never left early with the scrub option. -/
theorem hook_eq (chip : Chip) : (nand_erase_opts c chip).chip.block_bad = chip.block_bad := by
  rw [nand_erase_opts]
  by_cases hscrub : c.scrub = true
  · have hret := (eraseLoop_ret c.aligned (-1)).mpr fun a _ _ _ => not_fails_of_scrub hscrub a
    rw [if_neg (not_not.mpr hret), if_pos hscrub]
    rfl
  · rw [if_neg hscrub, if_neg hscrub]
    split <;> rfl

theorem ret_eq_zero_iff (chip : Chip) : (nand_erase_opts c chip).ret = 0 ↔
    ∀ a, c.erasesize ∣ a → c.offset ≤ a → a < stop c → ¬Fails c a := by
  rw [ret_eq]
  exact eraseLoop_ret c.aligned (-1)

/-- What is erased is a block that is gone through, and is not skipped. -/
theorem erased {chip : Chip} {a : Nat} {r : Int}
    (h : .erase a r ∈ (nand_erase_opts c chip).events) : c.erasesize ∣ a ∧ c.offset ≤ a ∧
      a < stop c ∧ ¬Skipped c a ∧ ¬Fails c a ∧ r = c.erase a := by
  rw [events_eq] at h
  obtain ⟨a', pc, hdvd, hle, hlt, hskip, hfails, hmem⟩ := mem_eraseLoop c.aligned h nofun nofun
  rcases mem_eraseBlock hmem with heq | heq | ⟨_, _, heq⟩
  · cases heq
    exact ⟨hdvd, hle, hlt, hskip, hfails, rfl⟩
  · exact nomatch heq
  · exact nomatch heq

theorem marked {chip : Chip} {a : Nat} {marker : CleanMarker} {r : Int}
    (h : .write_oob a marker r ∈ (nand_erase_opts c chip).events) : r = c.write_oob a := by
  rw [events_eq] at h
  obtain ⟨a', pc, -, -, -, -, -, hmem⟩ := mem_eraseLoop c.aligned h nofun nofun
  rcases mem_eraseBlock hmem with heq | heq | ⟨_, _, heq⟩
  · exact nomatch heq
  · cases heq
    rfl
  · exact nomatch heq

/-- A block that is gone through is done exactly if the driver does it. -/
theorem done_iff {chip : Chip} {a : Nat} (hret : (nand_erase_opts c chip).ret = 0)
    (hdvd : c.erasesize ∣ a) (hle : c.offset ≤ a) (hlt : a < stop c) (hskip : ¬Skipped c a) :
    Done c a (nand_erase_opts c chip).events ↔ Succeeds c a := by
  rw [ret_eq] at hret
  obtain ⟨pc, hmem⟩ := eraseLoop_covers c.aligned hret hdvd hle hlt hskip
  rw [← events_eq chip] at hmem
  constructor
  · intro h
    exact ⟨(erased h.1).2.2.2.2.2.symm, fun hjffs2 => (marked (h.2 hjffs2)).symm⟩
  · intro h
    have herase := hmem _ (erase_mem_eraseBlock a pc)
    rw [h.1] at herase
    refine ⟨herase, fun hjffs2 => ?_⟩
    have hmark := hmem _ (write_oob_mem_eraseBlock h.1 hjffs2 pc)
    rwa [h.2 hjffs2] at hmark

end Loop

/-! ## Where calls do what they should -/

/-- Nothing is asked for. -/
theorem erasesRight_empty (chip : Chip) (hzero : c.length = 0) : ErasesRight c chip ↔
    2 ^ 32 ≤ c.offset + c.erasesize ∨ Skipped c c.offset ∨ Fails c c.offset := by
  have hsize := c.erasesize_pos
  have hlength : erase_length c = c.erasesize := by
    rw [erase_length, if_pos (by omega)]
  have hnone (a : Nat) : ¬InRange c a := by
    rintro ⟨hdvd, hlt, hend⟩
    have := block_cases hdvd c.aligned (by omega)
    omega
  constructor
  · intro h
    by_contra hnot
    rw [not_or, not_or, Nat.not_le] at hnot
    obtain ⟨hfits, hskip, hfails⟩ := hnot
    have hlt : c.offset < stop c := by
      rw [stop_eq (by omega)]
      omega
    have hmem : .erase c.offset (c.erase c.offset) ∈ (nand_erase_opts c chip).events := by
      rw [events_eq, eraseLoop_block hlt hskip hfails]
      exact List.mem_append_left _ (List.mem_append_right _ (erase_mem_eraseBlock _ _))
    exact hnone _ (h.inside _ _ hmem)
  · intro h
    have hno (a : Nat) (r : Int) : .erase a r ∉ (nand_erase_opts c chip).events := by
      intro hmem
      obtain ⟨hdvd, hle, hlt, hskip, hfails, -⟩ := erased hmem
      by_cases hwrap : 2 ^ 32 ≤ c.offset + erase_length c
      · have := stop_le hwrap
        omega
      · rw [stop_eq (by omega), hlength] at hlt
        obtain rfl : a = c.offset := by
          have := block_cases c.aligned hdvd hle
          omega
        rcases h with h | h | h
        · omega
        · exact hskip h
        · exact hfails h
    exact ⟨fun _ a ha => absurd ha (hnone a), fun a r hmem => absurd hmem (hno a r),
      fun a r hmem => absurd hmem (hno a r), hook_eq chip⟩

theorem erasesRight_range (chip : Chip) (hpos : 0 < c.length) : ErasesRight c chip ↔
    (c.offset + erase_length c < 2 ^ 32 ∧ ∃ a, InRange c a ∧ Fails c a) ∨
      ∀ a, InRange c a → Skipped c a ∨ (c.offset + erase_length c < 2 ^ 32 ∧ Succeeds c a) := by
  have hinside (a : Nat) (r : Int) (h : .erase a r ∈ (nand_erase_opts c chip).events) :
      InRange c a := by
    obtain ⟨hdvd, hle, hlt, -⟩ := erased h
    refine (inRange_iff hpos).mpr ⟨hdvd, hle, ?_⟩
    by_cases hwrap : 2 ^ 32 ≤ c.offset + erase_length c
    · have := stop_le hwrap
      omega
    · rwa [stop_eq (by omega)] at hlt
  constructor
  · intro h
    by_cases hret : (nand_erase_opts c chip).ret = 0
    · refine .inr fun a ha => (h.success hret a ha).imp_right fun hdone => ?_
      obtain ⟨hdvd, hle, hlt, hskip, -⟩ := erased hdone.1
      refine ⟨?_, (done_iff hret hdvd hle hlt hskip).mp hdone⟩
      by_contra hwrap
      have := stop_le (Nat.not_lt.mp hwrap)
      omega
    · rw [ret_eq_zero_iff] at hret
      push Not at hret
      obtain ⟨a, hdvd, hle, hlt, hfails⟩ := hret
      by_cases hwrap : 2 ^ 32 ≤ c.offset + erase_length c
      · have := stop_le hwrap
        omega
      · rw [Nat.not_le] at hwrap
        rw [stop_eq hwrap] at hlt
        exact .inl ⟨hwrap, a, (inRange_iff hpos).mpr ⟨hdvd, hle, hlt⟩, hfails⟩
  · intro h
    refine ⟨fun hret a ha => ?_, fun a r hmem => (erased hmem).2.2.2.1, hinside, hook_eq chip⟩
    obtain ⟨hdvd, hle, hlt⟩ := (inRange_iff hpos).mp ha
    rcases h with ⟨hfits, a', ha', hfails⟩ | hall
    · obtain ⟨hdvd', hle', hlt'⟩ := (inRange_iff hpos).mp ha'
      rw [← stop_eq hfits] at hlt'
      exact absurd hfails ((ret_eq_zero_iff chip).mp hret a' hdvd' hle' hlt')
    · by_cases hskip : Skipped c a
      · exact .inl hskip
      · obtain ⟨hfits, hsucceeds⟩ := (hall a ha).resolve_left hskip
        rw [← stop_eq hfits] at hlt
        exact .inr ((done_iff hret hdvd hle hlt hskip).mpr hsucceeds)

/-- A call does what it should exactly if the driver does, the end of the range has 32 bits, and
something is asked for. -/
theorem erasesRight_iff (chip : Chip) : ErasesRight c chip ↔ Suits c := by
  rw [Suits]
  split
  · next hzero => exact erasesRight_empty c chip hzero
  · next hne => exact erasesRight_range c chip (Nat.pos_of_ne_zero hne)

/-- One block of a device of two, which cannot be erased. -/
def worn : Call where
  length := 0x4000
  offset := 0
  quiet := false
  jffs2 := false
  scrub := false
  erasesize := 0x4000
  size := 0x8000
  oobavail := 8
  block_isbad _ := 0
  erase _ := -5
  write_oob _ := 0
  scan_bbt := none
  erasesize_pos := by decide
  erasesize_lt := by decide
  aligned := Nat.dvd_zero _
  inside := by decide
  offset_lt := by decide
  length_lt := by decide

/-- The call returns 0 all the same. -/
theorem not_erasesRight : ¬ErasesRight worn ⟨.driver 0, none⟩ := by
  intro h
  have hret : (nand_erase_opts worn ⟨.driver 0, none⟩).ret = 0 :=
    (ret_eq_zero_iff _).mpr fun a _ _ _ hfails => absurd hfails.2 (by decide : ¬(0 : Int) < 0)
  rcases h.success hret 0 ⟨Nat.dvd_zero _, by decide, by decide⟩ with hskip | hdone
  · exact absurd hskip.2 (by decide : ¬(0 : Int) < 0)
  · exact absurd (erased hdone.1).2.2.2.2.2 (by decide : ¬(0 : Int) = -5)

end UBoot.EraseOpts
