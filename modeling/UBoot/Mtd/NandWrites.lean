/-
# Writing a NAND flash

After `nand_write` the bytes that it has reported are known, where the flash was blank. A page in the
buffer is given up before another one is written in its place, and so is one that is written in part.
-/

import UBoot.Mtd.NandReads

namespace UBoot.NandBase

open UBoot.Lib UBoot.NandEcc UBoot.NandPage

section Writing

variable {chip : Chip} {c : Contents} {dev : Nand}

/-! ## Writing -/

theorem combined_congr {old : Option Known} {dat dat' : Nat → Byte}
    (short : ∀ i, eccsize ≤ i → dat i = 0) (short' : ∀ i, eccsize ≤ i → dat' i = 0) (h : dat = dat') :
    combined old dat short = combined old dat' short' := by
  subst h
  rfl

theorem joined_congr {old : Option Known} {buf buf' : Nat → Byte} {k k' : Nat}
    (h : stepAt buf k = stepAt buf' k') : joined old buf k = joined old buf' k' :=
  combined_congr _ _ h

theorem joined_blank {old : Option Known} {buf : Nat → Byte} {k : Nat} (h : stepAt buf k = blank) :
    joined old buf k = old := if_pos h

/-- A page of the flash that is replaced. -/
theorem stepOf_update {dev dev' : Nand} {page : Nat} {cell : Page}
    (h : dev'.cells = Function.update dev.cells (page / chip.pages)
      (Function.update (dev.cells (page / chip.pages)) (page % chip.pages) cell)) (s : Nat) :
    dev'.stepOf chip s = if s / chip.layout.steps = page then
        cell.step chip.layout (s % chip.layout.steps)
      else dev.stepOf chip s := by
  rw [Nand.stepOf, h]
  split
  · next hpage => rw [hpage, Function.update_self, Function.update_self]
  · next hpage =>
      rw [Nand.stepOf]
      by_cases hchip : s / chip.layout.steps / chip.pages = page / chip.pages
      · have hrow : s / chip.layout.steps % chip.pages ≠ page % chip.pages := fun hrow => hpage <| by
          rw [← Nat.div_add_mod (s / chip.layout.steps) chip.pages, hchip, hrow, Nat.div_add_mod]
        rw [hchip, Function.update_self, Function.update_of_ne hrow]
      · rw [Function.update_of_ne hchip]

theorem Holds.spoil (h : Holds chip c dev) {dev' : Nand} {page : Nat} {cell : Page}
    (hcells : dev'.cells = Function.update dev.cells (page / chip.pages)
      (Function.update (dev.cells (page / chip.pages)) (page % chip.pages) cell))
    (hbuf : dev'.pagebuf = dev.pagebuf ∧ dev'.databuf = dev.databuf) :
    Holds chip (c.spoil chip page) dev' := by
  have hother {s : Nat} {d : Known} (hd : d ∈ c.spoil chip page s) :
      s / chip.layout.steps ≠ page ∧ d ∈ c s := by
    rw [Contents.spoil] at hd
    split at hd
    · cases hd
    · next hne => exact ⟨hne, hd⟩
  refine ⟨fun s d hd => ?_, fun page' hpage' s hs d hd => ?_, fun hsub => ?_⟩
  · rw [stepOf_update hcells, if_neg (hother hd).1]
    exact h.near s d (hother hd).2
  · rw [hbuf.2]
    exact h.cached page' (hbuf.1 ▸ hpage') s hs d (hother hd).2
  · rw [hbuf.1]
    exact h.buffered hsub

/-- A page is programmed, or the command fails. -/
theorem nand_write_page_spec (faults : Faults) (h : Holds chip c dev) (page : Nat) (buf : Nat → Byte)
    (hcache : dev.pagebuf ≠ some page) :
    let r := nand_write_page chip faults buf (page / chip.pages) (page % chip.pages) dev
    r.2.pagebuf = dev.pagebuf ∧
      (r.1 = 0 ∧ Holds chip (c.program chip page buf) r.2 ∨
        r.1 = - EIO ∧ Holds chip (c.spoil chip page) r.2) := by
  rw [nand_write_page]
  refine ⟨rfl, ?_⟩
  cases hfails : faults.fails dev.commands with
  | true => exact .inr ⟨rfl, h.spoil rfl ⟨rfl, rfl⟩⟩
  | false =>
      refine .inl ⟨rfl, fun s d hd => ?_, fun page' hpage' s hs d hd => ?_, h.buffered⟩
      · rw [stepOf_update rfl]
        rw [Contents.program] at hd
        split at hd
        · next hpage =>
            have hk : s % chip.layout.steps < chip.layout.steps := Nat.mod_lt _ (steps_pos chip)
            rw [if_pos hpage, if_neg Bool.false_ne_true, step_program, step_write _ _ _ _ hk]
            refine Near.joined (stepAt_short _ _) (fun d' hd' => ?_) buf _ d hd
            have hnear := h.near s d' hd'
            rwa [Nand.stepOf, hpage] at hnear
        · next hpage =>
            rw [if_neg hpage]
            exact h.near s d hd
      · have hne : page' ≠ page := fun heq => hcache (heq ▸ hpage')
        rw [Contents.program, if_neg (hs.symm ▸ hne)] at hd
        exact h.cached page' hpage' s hs d hd

theorem write_inside {start written s : Nat} (c : Contents) (buf : Nat → Byte) (ret : Int)
    (h : start ≤ s * eccsize ∧ s * eccsize < start + written) :
    c.write chip start buf written ret s =
      joined (c s) (fun i => buf (s * eccsize - start + i)) 0 := if_pos h

theorem write_outside {start written s : Nat} (c : Contents) (buf : Nat → Byte) {ret : Int}
    (h : ¬(start ≤ s * eccsize ∧ s * eccsize < start + written))
    (hret : ¬(ret = - EIO ∧ s * eccsize / chip.writesize = (start + written) / chip.writesize)) :
    c.write chip start buf written ret s = c s := (if_neg h).trans (if_neg hret)

theorem write_torn {start written s : Nat} (c : Contents) (buf : Nat → Byte) {ret : Int}
    (h : ¬(start ≤ s * eccsize ∧ s * eccsize < start + written))
    (hret : ret = - EIO ∧ s * eccsize / chip.writesize = (start + written) / chip.writesize) :
    c.write chip start buf written ret s = none := (if_neg h).trans (if_pos hret)

/-- What is written in two parts, the first one up to the end of a page. -/
theorem write_append (c : Contents) (start : Nat) (buf : Nat → Byte) {first : Nat} (second : Nat)
    (ret : Int) (hpage : chip.writesize ∣ start + first) :
    (c.write chip start buf first 0).write chip (start + first) (fun i => buf (first + i)) second ret =
      c.write chip start buf (first + second) ret := by
  funext s
  have hzero : ¬((0 : Int) = - EIO ∧
      s * eccsize / chip.writesize = (start + first) / chip.writesize) :=
    fun h => absurd h.1 (by decide)
  by_cases hsecond : start + first ≤ s * eccsize ∧ s * eccsize < start + first + second
  · have hboth : start ≤ s * eccsize ∧ s * eccsize < start + (first + second) := by omega
    have hnot : ¬(start ≤ s * eccsize ∧ s * eccsize < start + first) := by omega
    rw [write_inside _ _ _ hsecond, write_inside _ _ _ hboth, write_outside _ _ hnot hzero]
    apply joined_congr
    apply stepAt_congr
    intro i _
    congr 1
    omega
  · by_cases hfirst : start ≤ s * eccsize ∧ s * eccsize < start + first
    · rw [write_inside _ _ _ (show start ≤ s * eccsize ∧ s * eccsize < start + (first + second) by
          omega), write_outside _ _ hsecond, write_inside _ _ _ hfirst]
      rintro ⟨-, hplace⟩
      have hbelow : s * eccsize / chip.writesize < (start + first) / chip.writesize := by
        obtain ⟨q, hq⟩ := hpage
        rw [hq, Nat.mul_div_cancel_left _ (writesize_pos chip)]
        exact Nat.div_lt_of_lt_mul (hq ▸ hfirst.2)
      have habove := Nat.div_le_div_right (c := chip.writesize) (Nat.le_add_right (start + first) second)
      omega
    · have houtside : ¬(start ≤ s * eccsize ∧ s * eccsize < start + (first + second)) := by omega
      by_cases htorn : ret = - EIO ∧
          s * eccsize / chip.writesize = (start + first + second) / chip.writesize
      · rw [write_torn _ _ hsecond htorn, write_torn _ _ houtside (Nat.add_assoc .. ▸ htorn)]
      · rw [write_outside _ _ hsecond htorn, write_outside _ _ houtside (Nat.add_assoc .. ▸ htorn),
          write_outside _ _ hfirst hzero]

theorem step_split (s : Nat) :
    s = s / chip.layout.steps * chip.layout.steps + s % chip.layout.steps := by
  rw [Nat.mul_comm, Nat.div_add_mod]

theorem step_address (s : Nat) : s * eccsize =
    s / chip.layout.steps * chip.writesize + s % chip.layout.steps * eccsize := by
  rw [writesize_eq, ← Nat.mul_assoc, ← Nat.add_mul, ← step_split]

/-- What is staged for a page: the bytes, and ones around them. -/
structure Staged (c : Contents) (buf : Nat → Byte) (page column bufpos writelen : Nat) (dev : Nand)
    (r : Nat × (Nat → Byte) × Nand) : Prop where
  bytes : r.1 = min (chip.writesize - column) writelen
  inside : ∀ k < chip.layout.steps, column ≤ k * eccsize → k * eccsize < column + r.1 →
    stepAt r.2.1 k = stepAt (fun i => buf (bufpos + (k * eccsize - column) + i)) 0
  outside : ∀ k < chip.layout.steps, ¬(column ≤ k * eccsize ∧ k * eccsize < column + r.1) →
    stepAt r.2.1 k = blank
  holds : Holds chip c r.2.2
  cache : r.2.2.pagebuf = none ∨ r.2.2.pagebuf = dev.pagebuf ∧ column = 0

theorem stepAt_ones (k : Nat) : stepAt (fun _ => 0xff) k = blank := by
  funext i
  rw [blank, stepAt, stepAt]

/-- A step from a piece of a buffer. -/
theorem stepAt_piece {wbuf buf : Nat → Byte} {k a : Nat}
    (h : ∀ i < eccsize, wbuf (k * eccsize + i) = buf (a + i)) :
    stepAt wbuf k = stepAt (fun i => buf (a + i)) 0 := by
  funext i
  rw [stepAt, stepAt]
  split
  · next hi => rw [h i hi, Nat.zero_mul, Nat.zero_add]
  · rfl

theorem stage_spec (h : Holds chip c dev) (buf : Nat → Byte) (page : Nat) {column writelen : Nat}
    (bufpos : Nat) (hcol : column < chip.writesize) (hcolumn : eccsize ∣ column)
    (hwritelen : eccsize ∣ writelen) :
    @Staged chip c buf page column bufpos writelen dev
      (stage chip buf column bufpos writelen dev) := by
  obtain ⟨col, rfl⟩ := hcolumn
  obtain ⟨len, rfl⟩ := hwritelen
  have hsize := writesize_eq chip
  rw [stage]
  split
  · obtain ⟨n, hn⟩ : ∃ n, min (chip.writesize - eccsize * col) (eccsize * len) = n * eccsize := by
      refine ⟨min (chip.layout.steps - col) len, ?_⟩
      simp only [eccsize] at *
      omega
    refine ⟨rfl, fun k hk hfrom hto => ?_, fun k hk hout => ?_,
      ⟨h.near, fun _ hsome => absurd hsome (by simp), fun _ => rfl⟩, .inl rfl⟩
    · dsimp only at hto ⊢
      rw [hn] at hto ⊢
      apply stepAt_piece
      intro i hi
      have hplace : k * eccsize + i = eccsize * col + (k * eccsize - eccsize * col + i) := by omega
      have hlast : k * eccsize - eccsize * col + i < n * eccsize := by
        simp only [eccsize] at *
        omega
      rw [hplace, Nat.add_assoc]
      exact store_add (getElem?_slice buf hlast)
    · dsimp only at hout ⊢
      rw [hn] at hout ⊢
      rw [← stepAt_ones k]
      apply stepAt_congr
      intro i hi
      apply store_outside
      rw [length_slice]
      simp only [eccsize] at *
      omega
  · next hwhole =>
      rw [not_or, not_not] at hwhole
      obtain ⟨hzero, hlong⟩ := hwhole
      have hend : chip.writesize ≤ eccsize * len := by
        simp only [eccsize] at *
        omega
      refine ⟨?_, fun k hk _ _ => ?_, fun k hk hout => ?_, h, .inr ⟨rfl, hzero⟩⟩
      · dsimp only
        omega
      · apply stepAt_piece
        intro i hi
        dsimp only
        congr 1
        omega
      · dsimp only at hout
        have := Nat.mul_lt_mul_of_pos_right hk (show 0 < eccsize by decide)
        omega

/-- The page with its staged bytes is what is known once they are written. -/
theorem Staged.program {buf : Nat → Byte} {page column bufpos writelen : Nat}
    {r : Nat × (Nat → Byte) × Nand} (h : @Staged chip c buf page column bufpos writelen dev r) :
    c.program chip page r.2.1 =
      c.write chip (page * chip.writesize + column) (fun i => buf (bufpos + i)) r.1 0 := by
  have hsize := writesize_eq chip
  have hbytes := h.bytes
  have hzero (s : Nat) : ¬((0 : Int) = - EIO ∧ s * eccsize / chip.writesize =
      (page * chip.writesize + column + r.1) / chip.writesize) := fun h => absurd h.1 (by decide)
  funext s
  have hk : s % chip.layout.steps < chip.layout.steps := Nat.mod_lt _ (steps_pos chip)
  have haddress := @step_address chip s
  rw [Contents.program]
  by_cases hpage : s / chip.layout.steps = page
  · rw [if_pos hpage]
    rw [hpage] at haddress
    by_cases hin : column ≤ s % chip.layout.steps * eccsize ∧
        s % chip.layout.steps * eccsize < column + r.1
    · rw [write_inside _ _ _ (by omega)]
      apply joined_congr
      rw [h.inside _ hk hin.1 hin.2]
      apply stepAt_congr
      intro i _
      congr 1
      omega
    · rw [write_outside _ _ (by omega) (hzero s), joined_blank (h.outside _ hk hin)]
  · rw [if_neg hpage, write_outside _ _ ?_ (hzero s)]
    have hlt : s % chip.layout.steps * eccsize + eccsize ≤ chip.writesize := by
      rw [hsize, ← Nat.succ_mul]
      exact Nat.mul_le_mul_right _ hk
    obtain hbelow | habove := Nat.lt_or_gt_of_ne hpage
    · have := Nat.mul_le_mul_right chip.writesize (Nat.succ_le_of_lt hbelow)
      rw [Nat.succ_mul] at this
      have : 0 < eccsize := by decide
      omega
    · have := Nat.mul_le_mul_right chip.writesize (Nat.succ_le_of_lt habove)
      rw [Nat.succ_mul] at this
      omega

theorem spoil_eq (c : Contents) (buf : Nat → Byte) {page column : Nat} (hcol : column < chip.writesize) :
    c.spoil chip page = c.write chip (page * chip.writesize + column) buf 0 (- EIO) := by
  funext s
  have hnot : ¬(page * chip.writesize + column ≤ s * eccsize ∧
      s * eccsize < page * chip.writesize + column + 0) := by omega
  have hpage : (page * chip.writesize + column + 0) / chip.writesize = page := by
    rw [Nat.add_zero, Nat.mul_comm, Nat.mul_add_div (writesize_pos chip), Nat.div_eq_of_lt hcol,
      Nat.add_zero]
  rw [Contents.spoil, ← step_page]
  split
  · next h => exact (write_torn _ _ hnot ⟨rfl, h.trans hpage.symm⟩).symm
  · next h => exact (write_outside _ _ hnot fun hboth => h (hboth.2.trans hpage)).symm

theorem writeLoop_succ (faults : Faults) (buf : Nat → Byte)
    (fuel page column bufpos writelen : Nat) (dev : Nand) :
    writeLoop chip faults buf (fuel + 1) (page / chip.pages) page (page % chip.pages) column bufpos
        writelen dev =
      let r := stage chip buf column bufpos writelen dev
      let w := nand_write_page chip faults r.2.1 (page / chip.pages) (page % chip.pages) r.2.2
      if w.1 ≠ 0 then (w.1, writelen, w.2)
      else if writelen - r.1 = 0 then (0, writelen - r.1, w.2)
      else
        writeLoop chip faults buf fuel ((page + 1) / chip.pages) (page + 1) ((page + 1) % chip.pages)
          0 (bufpos + r.1) (writelen - r.1) w.2 := by
  rw [writeLoop]
  dsimp only
  rw [next_chip]

/-- What the loop reports, and what is known then. -/
structure Wrote (c : Contents) (start : Nat) (buf : Nat → Byte) (writelen : Nat)
    (r : Int × Nat × Nand) : Prop where
  left_le : r.2.1 ≤ writelen
  result : r.1 = 0 ∧ r.2.1 = 0 ∨ r.1 = - EIO
  holds : Holds chip (c.write chip start buf (writelen - r.2.1) r.1) r.2.2

theorem writeLoop_spec (faults : Faults) (buf : Nat → Byte) {fuel page column bufpos writelen : Nat}
    (h : Holds chip c dev) (hpos : 0 < writelen) (hfuel : writelen ≤ fuel)
    (hcol : column < chip.writesize) (hcolumn : eccsize ∣ column) (hwritelen : eccsize ∣ writelen)
    (hcache : ∀ cached, dev.pagebuf = some cached →
      ¬(page * chip.writesize + column ≤ cached * chip.writesize ∧
        cached * chip.writesize < page * chip.writesize + column + writelen)) :
    @Wrote chip c (page * chip.writesize + column) (fun i => buf (bufpos + i)) writelen
      (writeLoop chip faults buf fuel (page / chip.pages) page (page % chip.pages) column bufpos
        writelen dev) := by
  induction fuel generalizing c page column bufpos writelen dev with
  | zero => omega
  | succ fuel ih =>
      rw [writeLoop_succ]
      dsimp only
      have hstage := stage_spec h buf page bufpos hcol hcolumn hwritelen
      generalize stage chip buf column bufpos writelen dev = r at hstage
      have hbytes := hstage.bytes
      have hle : r.1 ≤ writelen := hbytes.trans_le (Nat.min_le_right _ _)
      have huncached : r.2.2.pagebuf ≠ some page := by
        obtain hnone | ⟨hsame, hzero⟩ := hstage.cache
        · rw [hnone]
          exact Option.some_ne_none page ∘ Eq.symm
        · rw [hsame]
          intro hpage
          exact hcache page hpage ⟨by omega, by omega⟩
      obtain ⟨hpagebuf, hwrite⟩ := nand_write_page_spec faults hstage.holds page r.2.1 huncached
      generalize nand_write_page chip faults r.2.1 (page / chip.pages) (page % chip.pages) r.2.2 = w
        at hpagebuf hwrite ⊢
      obtain ⟨hret, hholds⟩ | ⟨hret, hholds⟩ := hwrite
      · rw [hstage.program] at hholds
        rw [if_neg (not_not.mpr hret)]
        by_cases hdone : writelen - r.1 = 0
        · rw [if_pos hdone, hdone]
          refine ⟨Nat.zero_le _, .inl ⟨rfl, rfl⟩, ?_⟩
          rw [Nat.sub_zero, show writelen = r.1 by omega]
          exact hholds
        · have hnext : page * chip.writesize + column + r.1 = (page + 1) * chip.writesize + 0 := by
            rw [Nat.succ_mul]
            omega
          have haligned : eccsize ∣ r.1 := by
            have hsize : eccsize ∣ chip.writesize := ⟨_, (writesize_eq chip).trans (Nat.mul_comm ..)⟩
            rw [show r.1 = chip.writesize - column by omega]
            exact Nat.dvd_sub hsize hcolumn
          rw [if_neg hdone]
          obtain ⟨hleft, hresult, hholds'⟩ := @ih _ _ (page + 1) 0 (bufpos + r.1) (writelen - r.1)
            hholds (by omega) (by omega) (writesize_pos chip) (Nat.dvd_zero _)
            (Nat.dvd_sub hwritelen haligned) fun cached hcached hin => by
              rw [← hnext] at hin
              obtain hnone | ⟨hsame, -⟩ := hstage.cache
              · rw [hpagebuf, hnone] at hcached
                cases hcached
              · rw [hpagebuf, hsame] at hcached
                exact hcache cached hcached ⟨by omega, by omega⟩
          generalize writeLoop chip faults buf fuel ((page + 1) / chip.pages) (page + 1)
            ((page + 1) % chip.pages) 0 (bufpos + r.1) (writelen - r.1) w.2 = t
            at hleft hresult hholds'
          refine ⟨by omega, hresult, ?_⟩
          have hsum : writelen - t.2.1 = r.1 + (writelen - r.1 - t.2.1) := by omega
          rw [hsum, ← write_append _ _ _ _ _ (hnext ▸ Nat.dvd_mul_left _ _), hnext]
          simpa only [Nat.add_assoc] using hholds'
      · have hne : w.1 ≠ 0 := by
          rw [hret]
          decide
        rw [if_pos hne]
        refine ⟨le_rfl, .inr hret, ?_⟩
        dsimp only
        rw [Nat.sub_self, hret, ← spoil_eq _ _ hcol]
        exact hholds

end Writing

end UBoot.NandBase
