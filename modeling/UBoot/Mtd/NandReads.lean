/-
# Reading a NAND flash

`nand_read` returns what is known of the flash, whether a page comes from the flash or from the buffer,
as a whole or in part. It counts bits that it has put right, and nothing else.
-/

import UBoot.Mtd.NandContents

namespace UBoot.NandBase

open UBoot.Lib UBoot.NandEcc UBoot.NandPage

/-- A byte of the contents. -/
def Contents.byteAt (c : Contents) (a : Nat) : Byte :=
  ((c (a / eccsize)).map fun d => d.dat (a % eccsize)).getD 0

section Geometry

variable (chip : Chip)

theorem writesize_eq : chip.writesize = chip.layout.steps * eccsize := chip.page_size.symm

theorem writesize_pos : 0 < chip.writesize := Nat.two_pow_pos _

theorem steps_pos : 0 < chip.layout.steps := by
  by_contra h
  have hzero := writesize_pos chip
  rw [writesize_eq, Nat.eq_zero_of_not_pos h] at hzero
  exact absurd hzero (by simp)

theorem pages_pos : 0 < chip.pages := Nat.two_pow_pos _

theorem block_pos : 0 < chip.pages_per_block := Nat.two_pow_pos _

theorem chip_size : 2 ^ chip.chip_shift = chip.writesize * chip.pages := by
  rw [Chip.writesize, Chip.pages, ← Nat.pow_add,
    Nat.add_sub_cancel' (chip.page_le.trans chip.erase_le)]

theorem block_size : 2 ^ chip.phys_erase_shift = chip.writesize * chip.pages_per_block := by
  rw [Chip.writesize, Chip.pages_per_block, ← Nat.pow_add, Nat.add_sub_cancel' chip.page_le]

theorem block_dvd : chip.pages_per_block ∣ chip.pages := by
  apply Nat.pow_dvd_pow
  exact Nat.sub_le_sub_right chip.erase_le _

theorem shiftRight_page (a : Nat) : a >>> chip.page_shift = a / chip.writesize :=
  Nat.shiftRight_eq_div_pow ..

theorem shiftRight_chip (a : Nat) :
    a >>> chip.chip_shift = a / chip.writesize / chip.pages := by
  rw [Nat.shiftRight_eq_div_pow, chip_size, Nat.div_div_eq_div_mul]

/-- The chip that has the next page. -/
theorem next_chip (page : Nat) :
    (if (page + 1) % chip.pages = 0 then page / chip.pages + 1 else page / chip.pages) =
      (page + 1) / chip.pages := by
  rw [Nat.succ_div]
  by_cases h : (page + 1) % chip.pages = 0
  · rw [if_pos h, if_pos (Nat.dvd_of_mod_eq_zero h)]
  · rw [if_neg h, if_neg fun hdvd => h (Nat.mod_eq_zero_of_dvd hdvd), Nat.add_zero]

theorem step_div (page : Nat) {k : Nat} (hk : k < chip.layout.steps) :
    (page * chip.layout.steps + k) / chip.layout.steps = page := by
  rw [Nat.mul_comm, Nat.mul_add_div (steps_pos chip), Nat.div_eq_of_lt hk, Nat.add_zero]

theorem step_mod (page : Nat) {k : Nat} (hk : k < chip.layout.steps) :
    (page * chip.layout.steps + k) % chip.layout.steps = k := by
  rw [Nat.mul_comm, Nat.mul_add_mod, Nat.mod_eq_of_lt hk]

theorem step_page (s : Nat) : s * eccsize / chip.writesize = s / chip.layout.steps := by
  rw [writesize_eq, Nat.mul_div_mul_right _ _ (by decide)]

theorem stepOf_page (dev : Nand) (page : Nat) {k : Nat} (hk : k < chip.layout.steps) :
    dev.stepOf chip (page * chip.layout.steps + k) =
      (dev.cells (page / chip.pages) (page % chip.pages)).step chip.layout k := by
  rw [Nand.stepOf, step_div chip page hk, step_mod chip page hk]

/-- The step of a byte in a page. -/
theorem address_div (page i : Nat) :
    (page * chip.writesize + i) / eccsize = page * chip.layout.steps + i / eccsize := by
  rw [writesize_eq, ← Nat.mul_assoc, Nat.mul_comm, Nat.mul_add_div (by decide)]

theorem address_mod (page i : Nat) : (page * chip.writesize + i) % eccsize = i % eccsize := by
  rw [writesize_eq, ← Nat.mul_assoc, Nat.mul_comm, Nat.mul_add_mod]

theorem step_lt {i : Nat} (hi : i < chip.writesize) : i / eccsize < chip.layout.steps := by
  rw [writesize_eq] at hi
  exact Nat.div_lt_of_lt_mul (by rwa [Nat.mul_comm])

end Geometry

section Reading

variable {chip : Chip} {c : Contents} {dev : Nand}

/-! ## Reading -/

theorem accounts_good {fails : Int → Bool} {stats : Stats} {stat : Nat → Int} {n : Nat}
    (hzero : fails 0 = false) (hone : fails 1 = false) (h : ∀ k < n, stat k = 0 ∨ stat k = 1) :
    (accounts fails stats stat n).failed = stats.failed := by
  induction n with
  | zero => rfl
  | succ n ih =>
      rw [accounts, Stats.account, if_neg, ih fun k hk => h k (Nat.lt_succ_of_lt hk)]
      obtain h | h := h n n.lt_succ_self
      · rw [h, hzero]
        exact Bool.false_ne_true
      · rw [h, hone]
        exact Bool.false_ne_true

theorem readResult_eq {before after : Stats} (h : after.failed = before.failed) :
    readResult before after =
      if after.corrected - before.corrected ≠ 0 then - EUCLEAN else 0 := by
  apply if_neg
  rw [h, BitVec.sub_self]
  decide

/-- Bytes of a page that are as they are known. -/
def Agrees (chip : Chip) (c : Contents) (page : Nat) (buf : Nat → Byte) (i : Nat) : Prop :=
  ∀ d ∈ c (page * chip.layout.steps + i / eccsize), buf i = d.dat (i % eccsize)

theorem slice_known {page col bytes : Nat} {buf : Nat → Byte}
    (h : ∀ i, col ≤ i → i < col + bytes → Agrees chip c page buf i)
    (hknown : ∀ s, s / chip.layout.steps = page → (c s).isSome)
    (hlen : col + bytes ≤ chip.writesize) :
    slice buf col bytes = slice c.byteAt (page * chip.writesize + col) bytes := by
  apply List.map_congr_left
  intro i hi
  have hlt := List.mem_range.mp hi
  have hstep : (page * chip.layout.steps + (col + i) / eccsize) / chip.layout.steps = page :=
    step_div chip page (step_lt chip (by omega))
  obtain ⟨d, hd⟩ := Option.isSome_iff_exists.mp (hknown _ hstep)
  rw [h (col + i) (by omega) (by omega) d hd, Contents.byteAt, Nat.add_assoc, address_div,
    address_mod, hd]
  rfl

/-- A whole page comes with each known step as it is known. -/
theorem page_agrees (h : Holds chip c dev) (page : Nat) {i : Nat} (hi : i < chip.writesize) :
    Agrees chip c page (nand_read_page_swecc chip.smc chip.layout
      (dev.cells (page / chip.pages) (page % chip.pages)) dev.stats).buf i := by
  intro d hd
  have hnear := h.near _ d hd
  rw [stepOf_page chip dev page (step_lt chip hi)] at hnear
  rw [(nand_read_page_swecc_eq ..).1 i (writesize_eq chip ▸ hi), hnear.read.2]

theorem page_counts (h : Holds chip c dev) {page : Nat}
    (hknown : ∀ s, s / chip.layout.steps = page → (c s).isSome) :
    (nand_read_page_swecc chip.smc chip.layout (dev.cells (page / chip.pages) (page % chip.pages))
      dev.stats).stats.failed = dev.stats.failed := by
  rw [(nand_read_page_swecc_eq ..).2]
  apply accounts_good rfl rfl
  intro k hk
  obtain ⟨d, hd⟩ := Option.isSome_iff_exists.mp (hknown _ (step_div chip page hk))
  have hnear := h.near _ d hd
  rw [stepOf_page chip dev page hk] at hnear
  exact hnear.read.1

theorem cached_agrees (h : Holds chip c dev) {page : Nat} (hpage : dev.pagebuf = some page) {i : Nat}
    (hi : i < chip.writesize) : Agrees chip c page dev.databuf i := by
  intro d hd
  have hstep := h.cached page hpage _ (step_div chip page (step_lt chip hi)) d hd
  rw [step_mod chip page (step_lt chip hi)] at hstep
  rw [← hstep, stepAt_mod]

/-- A piece of a page is read as it is known. -/
theorem readPiece_spec (h : Holds chip c dev) (page : Nat) {col bytes : Nat} (hpos : 0 < bytes)
    (hlen : col + bytes ≤ chip.writesize) :
    Holds chip c
        (readPiece chip (page / chip.pages) page (page % chip.pages) col bytes dev).2 ∧
      ((∀ s, s / chip.layout.steps = page → (c s).isSome) →
        (readPiece chip (page / chip.pages) page (page % chip.pages) col bytes dev).1 =
            slice c.byteAt (page * chip.writesize + col) bytes ∧
          (readPiece chip (page / chip.pages) page (page % chip.pages) col bytes
            dev).2.stats.failed = dev.stats.failed) := by
  have hagrees (i : Nat) (hi : i < col + bytes) := page_agrees h page (hi.trans_le hlen)
  rw [readPiece]
  by_cases hcached : dev.pagebuf = some page
  · rw [if_neg (not_not.mpr hcached)]
    refine ⟨h, fun hknown => ⟨?_, rfl⟩⟩
    exact slice_known (fun i _ hi => cached_agrees h hcached (hi.trans_le hlen)) hknown hlen
  · rw [if_pos hcached]
    split
    · next hwhole =>
        obtain rfl : col = 0 := by omega
        refine ⟨⟨h.near, h.cached, h.buffered⟩, fun hknown => ⟨?_, page_counts h hknown⟩⟩
        exact slice_known (fun i _ hi => hagrees i hi) hknown hlen
    · split
      · next hsub =>
          have hnone := h.buffered hsub
          have hend : col + bytes ≤ chip.layout.steps * eccsize := writesize_eq chip ▸ hlen
          obtain ⟨hbytes, hstats⟩ := @nand_read_subpage_eq chip.smc chip.layout
            (dev.cells (page / chip.pages) (page % chip.pages)) _ chip.bus col bytes hpos hend
            dev.databuf dev.oob_poi dev.stats
          refine ⟨⟨h.near, fun _ hsome => ?_, h.buffered⟩, fun hknown => ⟨?_, ?_⟩⟩
          · exact absurd (hnone.symm.trans hsome) (by simp)
          · apply slice_known _ hknown hlen
            intro i hfrom hto d hd
            have hnear := h.near _ d hd
            rw [stepOf_page chip dev page (step_lt chip (hto.trans_le hlen))] at hnear
            rw [hbytes i hfrom hto, hnear.read.2]
          · dsimp only
            rw [hstats]
            apply accounts_good (by decide) (by decide)
            intro k hk
            have hlt : col / eccsize + k < chip.layout.steps := by
              have hlast : (col + bytes - 1) / eccsize < chip.layout.steps :=
                step_lt chip (by omega)
              have hle : col / eccsize ≤ (col + bytes - 1) / eccsize :=
                Nat.div_le_div_right (by omega)
              omega
            obtain ⟨d, hd⟩ := Option.isSome_iff_exists.mp (hknown _ (step_div chip page hlt))
            have hnear := h.near _ d hd
            rw [stepOf_page chip dev page hlt] at hnear
            exact hnear.read.1
      · next hsub =>
          refine ⟨⟨h.near, fun page' hpage' s hs d hd => ?_, fun h => absurd h hsub⟩,
            fun hknown => ⟨?_, page_counts h hknown⟩⟩
          · obtain rfl : page = page' := Option.some.inj hpage'
            have hk : s % chip.layout.steps < chip.layout.steps := Nat.mod_lt _ (steps_pos chip)
            funext i
            by_cases hi : i < eccsize
            · have hlt : s % chip.layout.steps * eccsize + i < chip.writesize := by
                rw [writesize_eq]
                have := Nat.mul_le_mul_right eccsize hk
                rw [Nat.succ_mul] at this
                omega
              have hplace : page * chip.layout.steps +
                  (s % chip.layout.steps * eccsize + i) / eccsize = s := by
                rw [mul_add_div _ hi, ← hs, Nat.mul_comm, Nat.div_add_mod]
              dsimp only
              rw [stepAt_lt hi, page_agrees h page hlt d (hplace.symm ▸ hd), mul_add_mod _ hi]
            · rw [stepAt, if_neg hi, d.short i (Nat.le_of_not_lt hi)]
          · exact slice_known (fun i _ hi => hagrees i hi) hknown hlen

/-- The pages that a range touches. -/
def Touches (chip : Chip) (start len page : Nat) : Prop :=
  start / chip.writesize ≤ page ∧ page * chip.writesize < start + len

theorem readLoop_succ (chip : Chip) (fuel page col len : Nat) (dev : Nand) :
    readLoop chip (fuel + 1) (page / chip.pages) page (page % chip.pages) col len dev =
      let bytes := min (chip.writesize - col) len
      let r := readPiece chip (page / chip.pages) page (page % chip.pages) col bytes dev
      if len - bytes = 0 then r
      else
        let rest := readLoop chip fuel ((page + 1) / chip.pages) (page + 1) ((page + 1) % chip.pages)
          0 (len - bytes) r.2
        (r.1 ++ rest.1, rest.2) := by
  rw [readLoop]
  dsimp only
  rw [next_chip]

theorem readLoop_spec {fuel page col len : Nat} (h : Holds chip c dev) (hpos : 0 < len)
    (hfuel : len ≤ fuel) (hcol : col < chip.writesize) :
    Holds chip c
        (readLoop chip fuel (page / chip.pages) page (page % chip.pages) col len dev).2 ∧
      ((∀ s, Touches chip (page * chip.writesize + col) len (s / chip.layout.steps) →
          (c s).isSome) →
        (readLoop chip fuel (page / chip.pages) page (page % chip.pages) col len dev).1 =
            slice c.byteAt (page * chip.writesize + col) len ∧
          (readLoop chip fuel (page / chip.pages) page (page % chip.pages) col len
            dev).2.stats.failed = dev.stats.failed) := by
  induction fuel generalizing page col len dev with
  | zero => omega
  | succ fuel ih =>
      have hfirst : (page * chip.writesize + col) / chip.writesize = page := by
        rw [Nat.mul_comm, Nat.mul_add_div (writesize_pos chip), Nat.div_eq_of_lt hcol, Nat.add_zero]
      have hhere : Touches chip (page * chip.writesize + col) len page := ⟨hfirst.le, by omega⟩
      rw [readLoop_succ]
      obtain ⟨bytes, hbytes⟩ : ∃ bytes, bytes = min (chip.writesize - col) len := ⟨_, rfl⟩
      rw [← hbytes]
      obtain ⟨hholds, hpiece⟩ := @readPiece_spec chip c dev h page col bytes (by omega) (by omega)
      dsimp only
      by_cases hdone : len - bytes = 0
      · obtain rfl : len = bytes := by omega
        rw [if_pos hdone]
        exact ⟨hholds, fun hknown => hpiece fun s hs => hknown s (hs.symm ▸ hhere)⟩
      · have hnext : page * chip.writesize + col + bytes = (page + 1) * chip.writesize + 0 := by
          rw [Nat.succ_mul]
          omega
        rw [if_neg hdone]
        obtain ⟨hholds', hread'⟩ := @ih _ (page + 1) 0 (len - bytes) hholds (by omega) (by omega)
          (writesize_pos chip)
        refine ⟨hholds', fun hknown => ?_⟩
        obtain ⟨hread, hfailed⟩ := hpiece fun s hs => hknown s (hs.symm ▸ hhere)
        obtain ⟨hrest, hfailed'⟩ := hread' fun s hs => by
          obtain ⟨hfrom, hto⟩ := hs
          rw [← hnext] at hfrom hto
          exact hknown s ⟨(Nat.div_le_div_right (Nat.le_add_right _ bytes)).trans hfrom, by omega⟩
        refine ⟨?_, hfailed'.trans hfailed⟩
        rw [hread, hrest, ← hnext, ← slice_append, Nat.add_sub_cancel' (by omega)]

/-- `nand_read` leaves the flash and what is known of it. -/
theorem nand_read_holds (h : Holds chip c dev) (start len : Nat) :
    Holds chip c (nand_read chip start len dev).2.2 := by
  rw [nand_read]
  split
  · exact h
  · split
    · exact h
    · next hlen =>
        rw [nand_do_read_ops, shiftRight_chip, shiftRight_page]
        exact (readLoop_spec h (Nat.pos_of_ne_zero hlen) le_rfl
          (Nat.mod_lt _ (writesize_pos chip))).1

/-- What is known is read. -/
theorem nand_read_known (h : Holds chip c dev) {start len : Nat} (hsize : start + len ≤ chip.size)
    (hknown : ∀ s, Touches chip start len (s / chip.layout.steps) → (c s).isSome) :
    ((nand_read chip start len dev).1 = 0 ∨ (nand_read chip start len dev).1 = - EUCLEAN) ∧
      (nand_read chip start len dev).2.1 = slice c.byteAt start len := by
  rw [nand_read, if_neg (Nat.not_lt_of_le hsize)]
  split
  · next hlen =>
      rw [hlen]
      exact ⟨.inl rfl, rfl⟩
  · next hlen =>
      rw [nand_do_read_ops, shiftRight_chip, shiftRight_page]
      have hstart : start / chip.writesize * chip.writesize + start % chip.writesize = start := by
        rw [Nat.mul_comm, Nat.div_add_mod]
      obtain ⟨-, hread⟩ := @readLoop_spec chip c dev len (start / chip.writesize) _ len h
        (Nat.pos_of_ne_zero hlen) le_rfl (Nat.mod_lt start (writesize_pos chip))
      rw [hstart] at hread
      obtain ⟨hbytes, hfailed⟩ := hread hknown
      refine ⟨?_, hbytes⟩
      dsimp only
      rw [readResult_eq hfailed]
      split
      · exact .inr rfl
      · exact .inl rfl

end Reading

end UBoot.NandBase
