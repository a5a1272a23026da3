/-
# Runs of a NAND flash

Any run of reads, writes, erasures and changes of bits: what is known of the flash at its end is what a
read returns.
-/

import UBoot.Mtd.NandWrites

namespace UBoot.NandBase

open UBoot.Lib UBoot.NandEcc UBoot.NandPage

section Calls

variable {chip : Chip} {c : Contents} {dev : Nand}

/-! ## Writing -/

theorem eccsize_dvd_subpagesize (chip : Chip) : eccsize ∣ chip.subpagesize := by
  have hsize := writesize_eq chip
  have hunit : eccsize = 2 ^ 8 := rfl
  rw [Chip.subpagesize, Chip.subpage_sft, hsize, Nat.shiftRight_eq_div_pow]
  have hwhole : eccsize ∣ chip.layout.steps * eccsize / 2 ^ 0 := by
    rw [Nat.pow_zero, Nat.div_one]
    exact Nat.dvd_mul_left _ _
  split
  · split
    · next h => rw [h]; decide
    · next h => rw [h]; decide
    · next h => rw [h]; decide
    · next h => rw [h]; decide
    · exact hwhole
  · exact hwhole

theorem write_nothing (c : Contents) (start : Nat) (buf : Nat → Byte) {ret : Int}
    (hret : ret ≠ - EIO) : c.write chip start buf 0 ret = c := by
  funext s
  exact write_outside c buf (by omega) fun h => hret h.1

/-- Less may be known of a flash. -/
theorem Holds.less (h : Holds chip c dev) {c' : Contents} (hless : ∀ s, ∀ d ∈ c' s, d ∈ c s) :
    Holds chip c' dev :=
  ⟨fun s d hd => h.near s d (hless s d hd), fun page hpage s hs d hd =>
    h.cached page hpage s hs d (hless s d hd), h.buffered⟩

theorem Holds.torn (h : Holds chip c dev) (start : Nat) (buf : Nat → Byte) (ret : Int) :
    Holds chip (c.write chip start buf 0 ret) dev := by
  apply h.less
  intro s d hd
  rw [Contents.write, if_neg (by omega)] at hd
  split at hd
  · cases hd
  · exact hd

/-- What `nand_write` reports is known then. -/
theorem nand_write_holds (faults : Faults) (h : Holds chip c dev) (start len : Nat)
    (buf : Nat → Byte) :
    let r := nand_write chip faults start len buf dev
    Holds chip (c.write chip start buf r.2.1 r.1) r.2.2 := by
  have hzero : (0 : Int) ≠ - EIO := by decide
  have hinval : - EINVAL ≠ - EIO := by decide
  rw [nand_write]
  split
  · dsimp only
    rwa [write_nothing c start buf hinval]
  · split
    · dsimp only
      rwa [write_nothing c start buf hzero]
    · next hlen =>
        rw [nand_do_write_ops, if_neg hlen]
        split
        · dsimp only
          rwa [write_nothing c start buf hinval]
        · next haligned =>
            rw [not_or, not_not, not_not] at haligned
            split
            · exact h.torn start buf (- EIO)
            · have hstart := (eccsize_dvd_subpagesize chip).trans (Nat.dvd_of_mod_eq_zero haligned.1)
              have hwrite := (eccsize_dvd_subpagesize chip).trans (Nat.dvd_of_mod_eq_zero haligned.2)
              have hcolumn : eccsize ∣ start % chip.writesize :=
                (Nat.dvd_mod_iff ⟨_, (writesize_eq chip).trans (Nat.mul_comm ..)⟩).mpr hstart
              have hplace : start / chip.writesize * chip.writesize + start % chip.writesize =
                  start := by
                rw [Nat.mul_comm, Nat.div_add_mod]
              rw [shiftRight_chip, shiftRight_page]
              obtain ⟨dev', hdev, hnothing⟩ : ∃ dev', dev' = (if Hits chip start len dev.pagebuf then
                  { dev with pagebuf := none } else dev) ∧ ¬Hits chip start len dev'.pagebuf := by
                refine ⟨_, rfl, ?_⟩
                split
                · rintro ⟨page, hpage, -⟩
                  cases hpage
                · assumption
              have hholds : Holds chip c { dev' with oob_poi := fun _ => 0xff } := by
                rw [hdev]
                split
                · exact ⟨h.near, fun _ hsome => absurd hsome (by simp), fun _ => rfl⟩
                · exact ⟨h.near, h.cached, h.buffered⟩
              have hspec := @writeLoop_spec chip c { dev' with oob_poi := fun _ => 0xff } faults buf len
                (start / chip.writesize) (start % chip.writesize) 0 len hholds
                (Nat.pos_of_ne_zero hlen) le_rfl (Nat.mod_lt _ (writesize_pos chip)) hcolumn hwrite
                fun cached hcached hin => by
                  rw [hplace] at hin
                  refine hnothing ⟨cached, hcached, ?_⟩
                  rw [Nat.shiftLeft_eq]
                  exact hin
              rw [hplace] at hspec
              simp only [Nat.zero_add] at hspec
              dsimp only
              rw [← hdev]
              exact hspec.holds

/-! ## Erasing -/

/-- What is erased in two parts. -/
theorem erase_append (c : Contents) (addr : Nat) {first len : Nat} (hle : first ≤ len) {ret : Int}
    (hret : ret ≠ - EINVAL) (s : Nat) :
    ∀ d ∈ (c.erase addr len ret) s,
      d ∈ ((c.erase addr first 0).erase (addr + first) (len - first) ret) s := by
  intro d hd
  rw [Contents.erase] at hd ⊢
  by_cases hsecond : addr + first ≤ s * eccsize ∧ s * eccsize < addr + first + (len - first)
  · rw [if_pos ⟨hret, hsecond⟩]
    rwa [if_pos ⟨hret, by omega, by omega⟩] at hd
  · rw [if_neg fun h => hsecond h.2, Contents.erase]
    by_cases hfirst : addr ≤ s * eccsize ∧ s * eccsize < addr + first
    · rw [if_pos ⟨by decide, hfirst⟩, if_pos rfl]
      rw [if_pos ⟨hret, by omega, by omega⟩] at hd
      split at hd
      · exact hd
      · cases hd
    · rw [if_neg fun h => hfirst h.2]
      rwa [if_neg fun h => by omega] at hd

theorem erase_nothing (c : Contents) (addr : Nat) (ret : Int) : c.erase addr 0 ret = c := by
  funext s
  exact if_neg fun h => by omega

theorem erase_inval (c : Contents) (addr len : Nat) : c.erase addr len (- EINVAL) = c := by
  funext s
  exact if_neg fun h => h.1 rfl

/-- Nothing is known of a range that could not be erased. -/
theorem Holds.not_erased (h : Holds chip c dev) (addr len : Nat) :
    Holds chip (c.erase addr len (- EIO)) dev := by
  apply h.less
  intro s d hd
  rw [Contents.erase] at hd
  split at hd
  · rw [if_neg (by decide)] at hd
    cases hd
  · exact hd

/-- A block ends in its chip. -/
theorem block_le {page : Nat} (hpage : chip.pages_per_block ∣ page) :
    page % chip.pages + chip.pages_per_block ≤ chip.pages := by
  obtain ⟨n, hn⟩ := block_dvd chip
  obtain ⟨m, hm⟩ := (Nat.dvd_mod_iff (block_dvd chip)).mpr hpage
  have hlt := Nat.mod_lt page (pages_pos chip)
  rw [hm, hn] at hlt
  rw [hm, hn, ← Nat.mul_succ]
  exact Nat.mul_le_mul_left _ (Nat.lt_of_mul_lt_mul_left hlt)

/-- The pages of a block, on their chip. -/
theorem block_iff {page : Nat} (hpage : chip.pages_per_block ∣ page) (q : Nat) :
    page ≤ q ∧ q < page + chip.pages_per_block ↔
      q / chip.pages = page / chip.pages ∧ page % chip.pages ≤ q % chip.pages ∧
        q % chip.pages < page % chip.pages + chip.pages_per_block := by
  have hle := block_le hpage
  have hpages := Nat.div_add_mod page chip.pages
  have hq := Nat.div_add_mod q chip.pages
  constructor
  · rintro ⟨hfrom, hto⟩
    have hsum : q = chip.pages * (page / chip.pages) + (page % chip.pages + (q - page)) := by omega
    have hlt : page % chip.pages + (q - page) < chip.pages := by omega
    have hdiv : q / chip.pages = page / chip.pages := by
      rw [hsum, Nat.mul_add_div (pages_pos chip), Nat.div_eq_of_lt hlt, Nat.add_zero]
    rw [hdiv] at hq
    exact ⟨hdiv, by omega, by omega⟩
  · rintro ⟨hdiv, hfrom, hto⟩
    rw [hdiv] at hq
    omega

/-- The chip that has the next block. -/
theorem next_block {page : Nat} (hpage : chip.pages_per_block ∣ page) :
    (if (page + chip.pages_per_block) % chip.pages = 0 then page / chip.pages + 1
      else page / chip.pages) = (page + chip.pages_per_block) / chip.pages := by
  have hpages := Nat.div_add_mod page chip.pages
  have hsum : page + chip.pages_per_block =
      chip.pages * (page / chip.pages) + (page % chip.pages + chip.pages_per_block) := by omega
  have hpos := pages_pos chip
  obtain hlt | heq := (block_le hpage).lt_or_eq
  · have hblock := block_pos chip
    rw [hsum, Nat.mul_add_mod, Nat.mod_eq_of_lt hlt, if_neg (by omega), Nat.mul_add_div hpos,
      Nat.div_eq_of_lt hlt, Nat.add_zero]
  · rw [hsum, heq, Nat.mul_add_mod, Nat.mod_self, if_pos rfl, Nat.mul_add_div hpos, Nat.div_self hpos]

theorem step_in_block (page s : Nat) :
    page * chip.writesize ≤ s * eccsize ∧
        s * eccsize < page * chip.writesize + 2 ^ chip.phys_erase_shift ↔
      page ≤ s / chip.layout.steps ∧ s / chip.layout.steps < page + chip.pages_per_block := by
  have hpos := writesize_pos chip
  rw [← step_page, Nat.le_div_iff_mul_le hpos, Nat.div_lt_iff_lt_mul hpos, block_size, Nat.add_mul,
    Nat.mul_comm chip.writesize]

theorem result_ne (ok : Bool) : (if ok then 0 else - EIO) ≠ - EINVAL := by
  cases ok with
  | true => decide
  | false => decide

/-- A block is erased, or the command fails. -/
theorem eraseBlock_spec (faults : Faults) (h : Holds chip c dev) {page : Nat}
    (hpage : chip.pages_per_block ∣ page) :
    let r := eraseBlock chip faults (page / chip.pages) (page % chip.pages)
      { dev with pagebuf := forget chip page dev.pagebuf }
    Holds chip (c.erase (page * chip.writesize) (2 ^ chip.phys_erase_shift)
      (if r.1 then 0 else - EIO)) r.2 := by
  intro r
  have hfirst : page % chip.pages / chip.pages_per_block * chip.pages_per_block =
      page % chip.pages :=
    Nat.div_mul_cancel ((Nat.dvd_mod_iff (block_dvd chip)).mpr hpage)
  have hret := result_ne r.1
  have hinside {s : Nat} (hs : page ≤ s / chip.layout.steps ∧
      s / chip.layout.steps < page + chip.pages_per_block) :
      c.erase (page * chip.writesize) (2 ^ chip.phys_erase_shift) (if r.1 then 0 else - EIO) s =
        if (if r.1 then 0 else - EIO) = 0 then some fresh else none :=
    if_pos ⟨hret, (step_in_block page s).mpr hs⟩
  have houtside {s : Nat} (hs : ¬(page ≤ s / chip.layout.steps ∧
      s / chip.layout.steps < page + chip.pages_per_block)) :
      c.erase (page * chip.writesize) (2 ^ chip.phys_erase_shift) (if r.1 then 0 else - EIO) s =
        c s :=
    if_neg fun h => hs ((step_in_block page s).mp h.2)
  refine ⟨fun s d hd => ?_, fun cached hcached s hs d hd => ?_, fun hsub => ?_⟩
  · by_cases hs : page ≤ s / chip.layout.steps ∧
        s / chip.layout.steps < page + chip.pages_per_block
    · rw [hinside hs] at hd
      obtain ⟨hchip, hfrom, hto⟩ := (block_iff hpage _).mp hs
      split at hd
      · next hzero =>
          cases hd
          have hok : faults.fails dev.commands = false := by
            cases hfails : faults.fails dev.commands with
            | false => rfl
            | true => exact absurd hzero (by simp [r, eraseBlock, hfails])
          have hstep : r.2.stepOf chip s = erasedPage.step chip.layout (s % chip.layout.steps) := by
            rw [Nand.stepOf, hchip]
            simp only [r, eraseBlock, Function.update_self, hfirst, hfrom, hto, hok, and_self,
              if_true, Bool.false_eq_true, if_false]
          rw [hstep]
          refine ⟨.none, .inl rfl, ?_⟩
          exact congrArg₂ Stored.mk (stepAt_ones _) (blank_code chip.smc).symm
      · cases hd
    · rw [houtside hs] at hd
      have hstep : r.2.stepOf chip s = dev.stepOf chip s := by
        rw [Nand.stepOf, Nand.stepOf]
        simp only [r, eraseBlock, hfirst]
        by_cases hchip : s / chip.layout.steps / chip.pages = page / chip.pages
        · rw [hchip, Function.update_self, if_neg fun hrow => hs ((block_iff hpage _).mpr ⟨hchip, hrow⟩)]
        · rw [Function.update_of_ne hchip]
      rw [hstep]
      exact h.near s d hd
  · obtain ⟨hold, hnot⟩ := Option.filter_eq_some_iff.mp hcached
    rw [decide_eq_true_eq] at hnot
    rw [houtside (hs.symm ▸ hnot)] at hd
    exact h.cached cached hold s hs d hd
  · change forget chip page dev.pagebuf = none
    rw [h.buffered hsub]
    rfl

theorem eraseLoop_spec (faults : Faults) {fuel chipnr page len : Nat} (h : Holds chip c dev)
    (hpage : chip.pages_per_block ∣ page) (hlen : 2 ^ chip.phys_erase_shift ∣ len)
    (hfuel : len < fuel) (hchip : len ≠ 0 → chipnr = page / chip.pages) :
    Holds chip (c.erase (page * chip.writesize) len
        (if (eraseLoop chip faults fuel chipnr page len dev).1 then 0 else - EIO))
      (eraseLoop chip faults fuel chipnr page len dev).2 := by
  induction fuel generalizing c dev chipnr page len with
  | zero => exact absurd hfuel (Nat.not_lt_zero len)
  | succ fuel ih =>
      rw [eraseLoop]
      split
      · next hzero =>
          rw [hzero, erase_nothing]
          exact h
      · next hmore =>
          split
          · exact h.not_erased _ _
          · rw [hchip hmore]
            have hblock := eraseBlock_spec faults h hpage
            obtain ⟨⟨ok, dev'⟩, hr⟩ : ∃ r, eraseBlock chip faults (page / chip.pages)
                (page % chip.pages) { dev with pagebuf := forget chip page dev.pagebuf } = r :=
              ⟨_, rfl⟩
            rw [hr] at hblock
            simp only [hr]
            have hsize : 0 < 2 ^ chip.phys_erase_shift := Nat.two_pow_pos _
            have hle := Nat.le_of_dvd (Nat.pos_of_ne_zero hmore) hlen
            cases ok with
            | true =>
                have hrest := @ih _ dev' (if len - 2 ^ chip.phys_erase_shift ≠ 0 ∧
                    (page + chip.pages_per_block) % chip.pages = 0 then page / chip.pages + 1
                  else page / chip.pages) (page + chip.pages_per_block)
                  (len - 2 ^ chip.phys_erase_shift) hblock (Nat.dvd_add hpage dvd_rfl)
                  (Nat.dvd_sub hlen dvd_rfl) (by omega) fun hne => by
                    rw [← next_block hpage]
                    exact if_congr (and_iff_right hne) rfl rfl
                apply hrest.less
                rw [Nat.add_mul, Nat.mul_comm chip.pages_per_block, ← block_size]
                exact erase_append c _ hle (result_ne _)
            | false =>
                change Holds chip (c.erase (page * chip.writesize) len (- EIO)) dev'
                change Holds chip (c.erase (page * chip.writesize) (2 ^ chip.phys_erase_shift) (- EIO))
                  dev' at hblock
                apply hblock.less
                intro s d hd
                rw [Contents.erase] at hd ⊢
                split at hd
                · rw [if_neg (by decide)] at hd
                  cases hd
                · next hout =>
                    rw [if_neg fun hin => hout ⟨hin.1, hin.2.1, by omega⟩]
                    exact hd

/-- What `nand_erase` reports is known then. -/
theorem nand_erase_holds (faults : Faults) (h : Holds chip c dev) (addr len : Nat) :
    Holds chip (c.erase addr len (nand_erase_nand chip faults addr len dev).1)
      (nand_erase_nand chip faults addr len dev).2 := by
  rw [nand_erase_nand]
  split
  · rwa [erase_inval]
  · next haddr =>
      split
      · rwa [erase_inval]
      · next hlen =>
          split
          · rwa [erase_inval]
          · split
            · exact h.not_erased addr len
            · rw [shiftRight_chip, shiftRight_page]
              rw [not_not, block_size] at haddr
              obtain ⟨n, rfl⟩ := Nat.dvd_of_mod_eq_zero haddr
              have hpage : chip.writesize * chip.pages_per_block * n / chip.writesize =
                  chip.pages_per_block * n := by
                rw [Nat.mul_assoc, Nat.mul_div_cancel_left _ (writesize_pos chip)]
              have hspec := @eraseLoop_spec chip c dev faults (len + 1) _ (chip.pages_per_block * n) len
                h (Nat.dvd_mul_right _ _) (Nat.dvd_of_mod_eq_zero (not_not.mp hlen))
                (Nat.lt_succ_self len) fun _ => rfl
              rw [hpage]
              rwa [Nat.mul_comm _ chip.writesize, ← Nat.mul_assoc] at hspec

/-! ## Changes of bits -/

theorem flip_holds (h : Holds chip c dev) (s : Nat) (p : Cell) :
    Holds chip (c.flip s) (dev.flip chip s p) := by
  have hk (s : Nat) : s % chip.layout.steps < chip.layout.steps := Nat.mod_lt _ (steps_pos chip)
  have hstep (t : Nat) : (dev.flip chip s p).stepOf chip t =
      if t = s then (dev.stepOf chip s).flip p else dev.stepOf chip t := by
    rw [stepOf_update rfl]
    by_cases hpage : t / chip.layout.steps = s / chip.layout.steps
    · rw [if_pos hpage, Page.step_flip (hk s) (hk t)]
      by_cases hts : t = s
      · rw [if_pos hts, if_pos (congrArg (· % chip.layout.steps) hts)]
        rfl
      · rw [if_neg hts, if_neg fun hmod => hts <| by
          rw [@step_split chip t, @step_split chip s, hpage, hmod], Nand.stepOf, hpage]
    · rw [if_neg hpage, if_neg fun hts => hpage (congrArg (· / chip.layout.steps) hts)]
  refine ⟨fun t d hd => ?_, fun page hpage t ht d hd => ?_, h.buffered⟩
  · rw [hstep]
    by_cases hts : t = s
    · subst hts
      rw [if_pos rfl]
      rw [Contents.flip, Function.update_self] at hd
      exact Near.changed p (h.near t) d hd
    · rw [if_neg hts]
      rw [Contents.flip, Function.update_of_ne hts] at hd
      exact h.near t d hd
  · by_cases hts : t = s
    · subst hts
      rw [Contents.flip, Function.update_self] at hd
      obtain ⟨d', hd', hd⟩ := Option.bind_eq_some_iff.mp hd
      split at hd
      · cases hd
      · cases hd
        exact h.cached page hpage t ht d' hd'
    · rw [Contents.flip, Function.update_of_ne hts] at hd
      exact h.cached page hpage t ht d hd

end Calls

/-! ## Runs -/

/-- A call, or a bit that changes. -/
inductive Event
  | read (start len : Nat)
  | write (start len : Nat) (buf : Nat → Byte)
  | erase (addr len : Nat)
  | flip (s : Nat) (p : Cell)

/-- The flash, and what is known of it. -/
structure World where
  dev : Nand
  known : Contents

/-- What happens to the flash, and to what is known of it. -/
noncomputable def World.step (chip : Chip) (faults : Faults) (w : World) : Event → World
  | .read start len => ⟨(nand_read chip start len w.dev).2.2, w.known⟩
  | .write start len buf =>
      let r := nand_write chip faults start len buf w.dev
      ⟨r.2.2, w.known.write chip start buf r.2.1 r.1⟩
  | .erase addr len =>
      let r := nand_erase_nand chip faults addr len w.dev
      ⟨r.2, w.known.erase addr len r.1⟩
  | .flip s p => ⟨w.dev.flip chip s p, w.known.flip s⟩

/-- Reached from a flash of which nothing is known. -/
def Reached (chip : Chip) (faults : Faults) (w : World) : Prop :=
  ∃ (dev : Nand) (events : List Event), dev.pagebuf = none ∧
    Run (fun w e w' => w' = World.step chip faults w e) ⟨dev, fun _ => none⟩ events w

theorem Reached.holds {chip : Chip} {faults : Faults} {w : World} (h : Reached chip faults w) :
    Holds chip w.known w.dev := by
  obtain ⟨dev, events, hnone, run⟩ := h
  apply @Run.invariant _ _ _ (fun w => Holds chip w.known w.dev) _ _ _ _ run
  · exact ⟨fun _ _ hd => absurd hd (by simp), fun _ _ _ _ _ hd => absurd hd (by simp), fun _ => hnone⟩
  · rintro w e _ hholds rfl
    cases e with
    | read start len => exact nand_read_holds hholds start len
    | write start len buf => exact nand_write_holds faults hholds start len buf
    | erase addr len => exact nand_erase_holds faults hholds addr len
    | flip s p => exact flip_holds hholds s p

/-- After any run what is known is read: bytes are as they were written, or erased, and at most they
have been put right. -/
theorem nand_reads_what_is_known {chip : Chip} {faults : Faults} {w : World}
    (h : Reached chip faults w) {start len : Nat} (hsize : start + len ≤ chip.size)
    (hknown : ∀ s, Touches chip start len (s / chip.layout.steps) → (w.known s).isSome) :
    ((nand_read chip start len w.dev).1 = 0 ∨ (nand_read chip start len w.dev).1 = - EUCLEAN) ∧
      (nand_read chip start len w.dev).2.1 = slice w.known.byteAt start len :=
  nand_read_known h.holds hsize hknown

/-- A device of a single page. -/
def onePage : Chip where
  smc := false
  layout := nand_oob_16
  busw := 1
  page_shift := 9
  phys_erase_shift := 9
  chip_shift := 9
  numchips := 1
  subpage_writes := true
  wp := false
  checkbad := fun _ => false
  bus := .inl rfl
  page_size := rfl
  page_le := le_rfl
  erase_le := le_rfl
  size_le := by decide

scoped instance neZeroBytesOfStep : NeZero 256 := ⟨by decide⟩

scoped instance neZeroBitsOfByte : NeZero 8 := ⟨by decide⟩

def exampleEvents : List Event :=
  [.erase 0 512, .write 256 256 fun i => BitVec.ofNat 8 i, .flip 1 (.data 5 3)]

noncomputable def exampleWorld : World :=
  exampleEvents.foldl (World.step onePage ⟨fun _ => false, fun _ page => page⟩)
    ⟨⟨fun _ _ => erasedPage, none, fun _ => 0, fun _ => 0, ⟨0, 0⟩, 0⟩, fun _ => none⟩

theorem joined_fresh (buf : Nat → Byte) (k : Nat) :
    ∃ d, joined (some fresh) buf k = some d ∧ d.worn = false := by
  rw [joined, combined]
  split
  · exact ⟨fresh, rfl, rfl⟩
  · exact ⟨_, if_pos (show fresh.dat = blank from rfl), rfl⟩

theorem exampleWorld_known {s : Nat} (hs : s < 2) : (exampleWorld.known s).isSome := by
  have hknown : exampleWorld.known =
      ((Contents.erase (fun _ => none) 0 512 0).write onePage 256 (fun i => BitVec.ofNat 8 i)
        256 0).flip 1 := rfl
  rw [hknown]
  obtain rfl | rfl : s = 0 ∨ s = 1 := by omega
  · rfl
  · rw [Contents.flip, Function.update_self, write_inside _ _ _ (by decide)]
    obtain ⟨d, hd, hworn⟩ := joined_fresh (fun i => BitVec.ofNat 8 (1 * eccsize - 256 + i)) 0
    have herased : Contents.erase (fun _ => none) 0 512 0 1 = some fresh := rfl
    rw [herased, hd, changed, Option.bind_some, hworn]
    rfl

/-- Blank bytes and written ones, one of them with a bit that has changed. -/
theorem exampleWorld_read :
    ((nand_read onePage 10 500 exampleWorld.dev).1 = 0 ∨
      (nand_read onePage 10 500 exampleWorld.dev).1 = - EUCLEAN) ∧
      (nand_read onePage 10 500 exampleWorld.dev).2.1 = slice exampleWorld.known.byteAt 10 500 := by
  have hreached : Reached onePage ⟨fun _ => false, fun _ page => page⟩ exampleWorld :=
    ⟨_, exampleEvents, rfl, .cons rfl (.cons rfl (.cons rfl (.nil _)))⟩
  apply nand_reads_what_is_known hreached (by decide)
  intro s hs
  apply exampleWorld_known
  have hpage : s / 2 * 512 < 10 + 500 := hs.2
  omega

/-! ## Steps that cannot be put right -/

section Uncorrectable

variable {chip : Chip} {dev : Nand} {x : Stored} {s : Nat} {p q : Cell}

theorem read_result (smc : Bool) (x : Stored) :
    (x.read smc).1 = 0 ∨ (x.read smc).1 = 1 ∨ (x.read smc).1 = EBADMSG := by
  rw [Stored.read, nand_correct_data]
  split
  · exact .inl rfl
  · split
    · exact .inr (.inl rfl)
    · split
      · exact .inr (.inl rfl)
      · exact .inr (.inr rfl)

theorem readResult_bad {before after : Stats} {v : BitVec 32}
    (h : after.failed = before.failed + v) (hv : v ≠ 0) : readResult before after = EBADMSG := by
  apply if_pos
  rw [h, BitVec.add_comm, BitVec.add_sub_cancel]
  exact hv

/-- `nand_read_subpage` takes only `-1` for a failure. -/
theorem account_hidden (stats : Stats) : stats.account (fun stat => stat = -1) EBADMSG =
    ⟨stats.corrected + BitVec.ofInt 32 EBADMSG, stats.failed⟩ := if_neg (by decide)

theorem readResult_hidden (stats : Stats) :
    readResult stats ⟨stats.corrected + BitVec.ofInt 32 EBADMSG, stats.failed⟩ = - EUCLEAN := by
  have hv : BitVec.ofInt 32 EBADMSG ≠ 0 := by decide
  generalize BitVec.ofInt 32 EBADMSG = v at hv ⊢
  apply (@readResult_eq stats ⟨stats.corrected + v, stats.failed⟩ rfl).trans
  apply if_pos
  dsimp only
  rw [BitVec.add_comm, BitVec.add_sub_cancel]
  exact hv

theorem tally_pos {stat : Nat → Int} {v : Int} {n k : Nat} (hk : k < n) (h : stat k = v) :
    0 < tally stat v n :=
  List.countP_pos_iff.mpr ⟨k, List.mem_range.mpr hk, decide_eq_true h⟩

theorem tally_le (stat : Nat → Int) (v : Int) (n : Nat) : tally stat v n ≤ n :=
  List.countP_le_length.trans (List.length_range ..).le

theorem readLoop_page (chip : Chip) (page : Nat) (dev : Nand) {col len : Nat} (hpos : 0 < len)
    (hend : col + len ≤ chip.writesize) :
    readLoop chip len (page / chip.pages) page (page % chip.pages) col len dev =
      readPiece chip (page / chip.pages) page (page % chip.pages) col len dev := by
  obtain ⟨fuel, rfl⟩ := Nat.exists_eq_add_of_le' hpos
  have hmin : min (chip.writesize - col) (fuel + 1) = fuel + 1 := by omega
  rw [readLoop_succ]
  dsimp only
  rw [hmin, if_pos (Nat.sub_self _)]

/-- A read in a page that is not in the buffer. -/
theorem nand_read_page (page : Nat) {col len : Nat} (hpos : 0 < len)
    (hend : col + len ≤ chip.writesize) (hsize : (page + 1) * chip.writesize ≤ chip.size) :
    nand_read chip (page * chip.writesize + col) len dev =
      let r := readPiece chip (page / chip.pages) page (page % chip.pages) col len dev
      (readResult dev.stats r.2.stats, r.1, r.2) := by
  rw [Nat.succ_mul] at hsize
  by_cases hcol : col < chip.writesize
  · have hdiv : (page * chip.writesize + col) / chip.writesize = page := by
      rw [Nat.mul_comm, Nat.mul_add_div (writesize_pos chip), Nat.div_eq_of_lt hcol, Nat.add_zero]
    have hmod : (page * chip.writesize + col) % chip.writesize = col := by
      rw [Nat.mul_comm, Nat.mul_add_mod, Nat.mod_eq_of_lt hcol]
    rw [nand_read, if_neg (by omega), if_neg hpos.ne', nand_do_read_ops, shiftRight_chip,
      shiftRight_page, hdiv, hmod, readLoop_page chip page dev hpos hend]
  · omega

/-- Two changed bits of a step of a large page are seen when the page is read as a whole. When a part
of the step is read they count as bits that have been put right, and the bytes come as they are. -/
theorem large_page_uncorrectable (hlarge : chip.subpage_read = true) (hx : x.Intact chip.smc)
    (hne : p ≠ q) (hchecked : ¬p.Spare ∧ ¬q.Spare) (hstep : dev.stepOf chip s = (x.flip p).flip q)
    (hcache : dev.pagebuf ≠ some (s / chip.layout.steps))
    (hsize : (s / chip.layout.steps + 1) * chip.writesize ≤ chip.size) :
    (nand_read chip (s / chip.layout.steps * chip.writesize) chip.writesize dev).1 = EBADMSG ∧
      ∀ start len, s * eccsize ≤ start → 0 < len → start + len ≤ (s + 1) * eccsize →
        (nand_read chip start len dev).1 = - EUCLEAN ∧
          (nand_read chip start len dev).2.1 =
            slice (dev.stepOf chip s).dat (start - s * eccsize) len := by
  have hk : s % chip.layout.steps < chip.layout.steps := Nat.mod_lt _ (steps_pos chip)
  have hread : (dev.stepOf chip s).read chip.smc = (EBADMSG, (dev.stepOf chip s).dat) := by
    rw [hstep]
    exact read_flip_flip hx hne hchecked.1 hchecked.2
  have hws := writesize_eq chip
  have hpage : 2 ^ 10 ≤ chip.writesize :=
    Nat.pow_le_pow_right (by decide) (Nat.succ_le_of_lt (of_decide_eq_true hlarge))
  have hsteps : chip.layout.steps < 2 ^ 32 := by
    have hle := hsize.trans (chip.size_le)
    rw [Nat.succ_mul] at hle
    simp only [eccsize] at hws
    omega
  constructor
  · have hwhole := @nand_read_page chip dev (s / chip.layout.steps) 0 _ (writesize_pos chip)
      (Nat.zero_add _).le hsize
    rw [Nat.add_zero] at hwhole
    let stat := fun k => ((Page.step chip.layout (dev.cells (s / chip.layout.steps / chip.pages)
      (s / chip.layout.steps % chip.pages)) k).read chip.smc).1
    have hstats : (readPiece chip (s / chip.layout.steps / chip.pages) (s / chip.layout.steps)
        (s / chip.layout.steps % chip.pages) 0 chip.writesize dev).2.stats.failed =
          dev.stats.failed + BitVec.ofNat 32 (tally stat EBADMSG chip.layout.steps) := by
      rw [readPiece, if_pos hcache, if_pos rfl]
      dsimp only
      rw [(nand_read_page_swecc_eq ..).2, accounts_harm _ fun k _ => read_result _ _]
    have hpos : 0 < tally stat EBADMSG chip.layout.steps := tally_pos hk (congrArg Prod.fst hread)
    have hlt := (tally_le stat EBADMSG chip.layout.steps).trans_lt hsteps
    rw [hwhole]
    apply readResult_bad hstats
    intro hzero
    have htoNat := congrArg BitVec.toNat hzero
    rw [BitVec.toNat_ofNat, Nat.mod_eq_of_lt hlt] at htoNat
    exact hpos.ne' htoNat
  · intro start len hfrom hpos hto
    have haddress := @step_address chip s
    obtain ⟨i, rfl⟩ := Nat.exists_eq_add_of_le hfrom
    have hin : i + len ≤ eccsize := by
      rw [Nat.succ_mul] at hto
      omega
    have hlt : s % chip.layout.steps * eccsize + eccsize ≤ chip.writesize := by
      rw [hws, ← Nat.succ_mul]
      exact Nat.mul_le_mul_right _ hk
    have hpart := @nand_read_page chip dev (s / chip.layout.steps)
      (s % chip.layout.steps * eccsize + i) len hpos (by omega) hsize
    have hfirst : (s % chip.layout.steps * eccsize + i) / eccsize = s % chip.layout.steps :=
      mul_add_div _ (by omega)
    have hlast : (s % chip.layout.steps * eccsize + i + len - 1) / eccsize =
        s % chip.layout.steps := by
      rw [show s % chip.layout.steps * eccsize + i + len - 1 =
        s % chip.layout.steps * eccsize + (i + len - 1) by omega]
      exact mul_add_div _ (by omega)
    obtain ⟨hbytes, hstats⟩ := @nand_read_subpage_eq chip.smc chip.layout
      (dev.cells (s / chip.layout.steps / chip.pages) (s / chip.layout.steps % chip.pages)) _ chip.bus
      (s % chip.layout.steps * eccsize + i) len hpos (by omega) dev.databuf dev.oob_poi dev.stats
    rw [hlast, hfirst, Nat.sub_self] at hstats
    have hcounts := hstats.trans ((congrArg (Stats.account _ dev.stats)
      (congrArg Prod.fst hread)).trans (account_hidden dev.stats))
    have hnot : ¬len = chip.writesize := by
      have : eccsize = 256 := rfl
      omega
    rw [Nat.add_sub_cancel_left, haddress, Nat.add_assoc, hpart, readPiece, if_pos hcache, if_neg hnot, if_pos hlarge]
    dsimp only
    rw [hcounts]
    constructor
    · exact readResult_hidden dev.stats
    · apply List.map_congr_left
      intro k hk'
      have hk' := List.mem_range.mp hk'
      have hdiv : (s % chip.layout.steps * eccsize + i + k) / eccsize = s % chip.layout.steps := by
        rw [Nat.add_assoc]
        exact mul_add_div _ (by omega)
      have hmod : (s % chip.layout.steps * eccsize + i + k) % eccsize = i + k := by
        rw [Nat.add_assoc]
        exact mul_add_mod _ (by omega)
      rw [hbytes _ (by omega) (by omega), hdiv, hmod]
      exact congrFun (congrArg Prod.snd hread) (i + k)

end Uncorrectable

/-- A device of a single large page. -/
def largePage : Chip :=
  { onePage with
    layout := nand_oob_64
    page_shift := 11
    phys_erase_shift := 11
    chip_shift := 11
    page_size := rfl
    page_le := le_rfl
    erase_le := le_rfl
    size_le := by decide }

/-- Two bits of the fourth step have changed. -/
def exampleHurt : Nand where
  cells _ _ :=
    ((nand_write_page_swecc false nand_oob_64 (fun i => BitVec.ofNat 8 i) fun _ => 0xff).flip
      nand_oob_64 3 (.data 5 3)).flip nand_oob_64 3 (.data 6 1)
  pagebuf := none
  databuf _ := 0
  oob_poi _ := 0
  stats := ⟨0, 0⟩
  commands := 0

theorem exampleHurt_read : (nand_read largePage 0 2048 exampleHurt).1 = EBADMSG ∧
    (nand_read largePage 778 20 exampleHurt).1 = - EUCLEAN := by
  let page := nand_write_page_swecc false nand_oob_64 (fun i => BitVec.ofNat 8 i) fun _ => 0xff
  have hintact : (page.step nand_oob_64 3).Intact largePage.smc := by
    rw [step_write _ _ _ _ (by decide)]
    rfl
  have hstep : exampleHurt.stepOf largePage 3 =
      ((page.step nand_oob_64 3).flip (.data 5 3)).flip (.data 6 1) := by
    have hlt : 3 < nand_oob_64.steps := by decide
    refine (Page.step_flip hlt hlt _).trans ?_
    rw [if_pos rfl, Page.step_flip hlt hlt, if_pos rfl]
  obtain ⟨hwhole, hpart⟩ := @large_page_uncorrectable largePage exampleHurt _ 3 _ _ rfl hintact
    (by decide) ⟨id, id⟩ hstep (by simp [exampleHurt]) (by decide)
  exact ⟨hwhole, (hpart 778 20 (by decide) (by decide) (by decide)).1⟩

end UBoot.NandBase
