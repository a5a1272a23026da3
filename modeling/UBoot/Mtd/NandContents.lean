/-
# What is known of a NAND flash

The abstract side of `NandBase`: for each step of 256 bytes the data that it has, when it is known. A
step of an erased block is blank; data is known once it is written to a blank step; a changed bit makes
a step worn, and a second one makes it unknown. A call changes what is known as its result says, and a
known step differs by at most one bit from its data with its code.
-/

import UBoot.Mtd.NandBase

namespace UBoot.NandBase

open UBoot.Lib UBoot.NandEcc UBoot.NandPage

/-- The data of an erased step. -/
def blank : Nat → Byte := stepAt (fun _ => 0xff) 0

/-- Data of a step, and whether a bit of it may have changed in the flash. -/
@[ext]
structure Known where
  dat : Nat → Byte
  worn : Bool
  short : ∀ i, eccsize ≤ i → dat i = 0

/-- What is known of each step. -/
abbrev Contents := Nat → Option Known

theorem stepAt_short (buf : Nat → Byte) (k : Nat) : ∀ i, eccsize ≤ i → stepAt buf k i = 0 :=
  fun _ hi => if_neg (Nat.not_lt_of_le hi)

/-- An erased step. -/
def fresh : Known := ⟨blank, false, stepAt_short _ _⟩

open Classical in
/-- A step after data is written to it. -/
noncomputable def combined (old : Option Known) (dat : Nat → Byte)
    (short : ∀ i, eccsize ≤ i → dat i = 0) : Option Known :=
  if dat = blank then old
  else old.bind fun d => if d.dat = blank then some ⟨dat, d.worn, short⟩ else none

/-- A step after the step `k` of a buffer is written to it. -/
noncomputable def joined (old : Option Known) (buf : Nat → Byte) (k : Nat) : Option Known :=
  combined old (stepAt buf k) (stepAt_short buf k)

/-- A step after a bit of it has changed. -/
def changed (old : Option Known) : Option Known :=
  old.bind fun d => if d.worn then none else some { d with worn := true }

/-- A step as it is in the flash, with at most one bit changed when it is worn. -/
def Near (smc : Bool) (d : Known) (x : Stored) : Prop :=
  ∃ harm : Harm, (harm.stat = 0 ∨ d.worn = true ∧ harm.stat = 1) ∧
    x = harm.apply ⟨d.dat, nand_calculate_ecc smc d.dat⟩

/-- The bits that are set in both codes. -/
def bothCodes (x y : Ecc) : Ecc := ⟨x.code0 &&& y.code0, x.code1 &&& y.code1, x.code2 &&& y.code2⟩

/-- The bits that are set in both steps. -/
def bothBits (x y : Stored) : Stored := ⟨fun i => x.dat i &&& y.dat i, bothCodes x.ecc y.ecc⟩

section Steps

variable {smc : Bool} {l : Layout} {d : Known} {x : Stored}

/-! ## Reading a step -/

theorem Near.read (h : Near smc d x) :
    ((x.read smc).1 = 0 ∨ (x.read smc).1 = 1) ∧ (x.read smc).2 = d.dat := by
  obtain ⟨harm, hstat, rfl⟩ := h
  have hintact : Stored.Intact smc ⟨d.dat, nand_calculate_ecc smc d.dat⟩ := rfl
  rw [Harm.read_stat hintact]
  constructor
  · exact hstat.imp id And.right
  · apply Harm.read_dat hintact
    obtain h | ⟨-, h⟩ := hstat
    · rw [h]
      decide
    · rw [h]
      decide

theorem Near.changed {smc : Bool} {old : Option Known} {x : Stored} (p : Cell)
    (h : ∀ d ∈ old, Near smc d x) : ∀ d ∈ changed old, Near smc d (x.flip p) := by
  intro d hd
  obtain ⟨d', hold, hd⟩ := Option.bind_eq_some_iff.mp hd
  split at hd
  · cases hd
  · next hworn =>
      cases hd
      obtain ⟨harm, hstat, rfl⟩ := h d' hold
      obtain hzero | ⟨hbad, -⟩ := hstat
      · refine ⟨.one p, .inr ⟨rfl, rfl⟩, ?_⟩
        cases harm with
        | none => rfl
        | one q => cases hzero
        | two p q ne checked => cases hzero
      · exact absurd hbad hworn

/-! ## Writing a step -/

theorem step_program (old new : Page) (k : Nat) :
    (Page.program old new).step l k = bothBits (old.step l k) (new.step l k) := by
  rw [Page.step, Page.step, Page.step, bothBits]
  congr 1
  funext i
  dsimp only
  rw [stepAt, stepAt, stepAt]
  split
  · rfl
  · rfl

theorem parities_blank (n : Nat) (hn : n ≤ eccsize) : parities blank n = ⟨0, 0, 0⟩ := by
  induction n with
  | zero => rfl
  | succ n ih =>
      rw [parities, ih (Nat.le_of_succ_le hn), blank, stepAt_lt hn]
      exact Regs.add_even (by decide) _ _

/-- The code of a blank step. -/
def full : Ecc := ⟨0xff#8, 0xff#8, 0xff#8⟩

theorem blank_code (smc : Bool) : nand_calculate_ecc smc blank = full := by
  rw [nand_calculate_ecc, parities_blank 256 le_rfl]
  cases smc <;> rfl

theorem blank_eq {i : Nat} (hi : i < eccsize) : blank i = 0xff#8 := stepAt_lt hi

theorem full_and (b : Byte) : 0xff#8 &&& b = b := BitVec.allOnes_and

theorem and_full (b : Byte) : b &&& 0xff#8 = b := BitVec.and_allOnes

/-- A bit that is clear already stays clear, and one that is to be set comes out wrong. -/
theorem and_changed (b : Byte) (j : Fin 8) : (0xff#8 ^^^ 1#8 <<< j.val) &&& b = b ∨
    (0xff#8 ^^^ 1#8 <<< j.val) &&& b = b ^^^ 1#8 <<< j.val := by
  have hones : ∀ (k : Nat) (hk : k < 8), (0xff#8)[k] = true := by decide
  rw [← BitVec.twoPow_eq]
  cases hbit : b[j.val] with
  | false =>
      refine .inl (BitVec.eq_of_getElem_eq fun k hk => ?_)
      by_cases hkj : k = j.val
      · subst hkj
        rw [BitVec.getElem_and, hbit, Bool.and_false]
      · simp [BitVec.getElem_twoPow, hkj, hones k hk]
  | true =>
      refine .inr (BitVec.eq_of_getElem_eq fun k hk => ?_)
      by_cases hkj : k = j.val
      · subst hkj
        simp [BitVec.getElem_twoPow, hbit, hones _ hk]
      · simp [BitVec.getElem_twoPow, hkj, hones k hk]

theorem full_codes (ecc : Ecc) : bothCodes full ecc = ecc :=
  Ecc.ext (full_and _) (full_and _) (full_and _)

theorem codes_full (ecc : Ecc) : bothCodes ecc full = ecc :=
  Ecc.ext (and_full _) (and_full _) (and_full _)

theorem codes_changed (ecc : Ecc) (k : Fin 3) (j : Fin 8) :
    bothCodes (full.xor (codeBit k j)) ecc = ecc ∨
      bothCodes (full.xor (codeBit k j)) ecc = ecc.xor (codeBit k j) := by
  have hother (b : Byte) : (0xff#8 ^^^ 0#8) &&& b = b := full_and b
  have hzero (b : Byte) : b ^^^ 0#8 = b := BitVec.xor_zero
  fin_cases k
  · apply (and_changed ecc.code0 j).imp
    · exact fun h => Ecc.ext h (hother _) (hother _)
    · exact fun h => Ecc.ext h ((hother _).trans (hzero _).symm) ((hother _).trans (hzero _).symm)
  · apply (and_changed ecc.code1 j).imp
    · exact fun h => Ecc.ext (hother _) h (hother _)
    · exact fun h => Ecc.ext ((hother _).trans (hzero _).symm) h ((hother _).trans (hzero _).symm)
  · apply (and_changed ecc.code2 j).imp
    · exact fun h => Ecc.ext (hother _) (hother _) h
    · exact fun h => Ecc.ext ((hother _).trans (hzero _).symm) ((hother _).trans (hzero _).symm) h

/-- Nothing changes where only ones are written. -/
theorem bothBits_blank (hx : ∀ i, eccsize ≤ i → x.dat i = 0) :
    bothBits x ⟨blank, nand_calculate_ecc smc blank⟩ = x := by
  rw [blank_code]
  obtain ⟨dat, ecc⟩ := x
  rw [bothBits]
  congr 1
  · funext i
    by_cases hi : i < eccsize
    · exact (congrArg (dat i &&& ·) (blank_eq hi)).trans (and_full _)
    · dsimp only at hx ⊢
      rw [hx i (Nat.le_of_not_lt hi)]
      exact BitVec.zero_and
  · exact codes_full ecc

/-- What is written to a blank step is there, but for a bit that has changed before. -/
theorem Near.written (hblank : d.dat = blank) (h : Near smc d x) (new : Known)
    (hworn : new.worn = d.worn) :
    Near smc new (bothBits x ⟨new.dat, nand_calculate_ecc smc new.dat⟩) := by
  obtain ⟨harm, hstat, rfl⟩ := h
  rw [hblank, blank_code]
  have hwhole : (fun i => blank i &&& new.dat i) = new.dat := by
    funext i
    by_cases hi : i < eccsize
    · rw [blank_eq hi, full_and]
    · rw [new.short i (Nat.le_of_not_lt hi)]
      exact BitVec.and_zero
  cases harm with
  | none => exact ⟨.none, .inl rfl, congrArg₂ Stored.mk hwhole (full_codes _)⟩
  | one p =>
      have hone : d.worn = true := by
        obtain h | ⟨h, -⟩ := hstat
        · cases h
        · exact h
      cases p with
      | data i j =>
          have hplace : (fun m => NandEcc.flip blank i j m &&& new.dat m) =
              Function.update new.dat i ((0xff#8 ^^^ 1#8 <<< j.val) &&& new.dat i) := by
            funext m
            by_cases hm : m = i
            · rw [hm, NandEcc.flip, Function.update_self, Function.update_self,
                blank_eq (show i.val < eccsize from i.isLt)]
            · rw [NandEcc.flip, Function.update_of_ne hm, Function.update_of_ne hm]
              exact congrFun hwhole m
          have hboth : bothBits (Stored.flip ⟨blank, full⟩ (.data i j))
              ⟨new.dat, nand_calculate_ecc smc new.dat⟩ =
                ⟨Function.update new.dat i ((0xff#8 ^^^ 1#8 <<< j.val) &&& new.dat i),
                  nand_calculate_ecc smc new.dat⟩ :=
            congrArg₂ Stored.mk hplace (full_codes _)
          rw [Harm.apply, hboth]
          obtain hsame | hwrong := and_changed (new.dat i) j
          · refine ⟨.none, .inl rfl, ?_⟩
            rw [hsame, Function.update_eq_self]
            rfl
          · refine ⟨.one (.data i j), .inr ⟨hworn.trans hone, rfl⟩, ?_⟩
            rw [hwrong]
            rfl
      | code k j =>
          have hboth : bothBits (Stored.flip ⟨blank, full⟩ (.code k j))
              ⟨new.dat, nand_calculate_ecc smc new.dat⟩ =
                ⟨new.dat, bothCodes (full.xor (codeBit k j)) (nand_calculate_ecc smc new.dat)⟩ :=
            congrArg₂ Stored.mk hwhole rfl
          rw [Harm.apply, hboth]
          obtain hsame | hwrong := codes_changed (nand_calculate_ecc smc new.dat) k j
          · exact ⟨.none, .inl rfl, congrArg (Stored.mk _) hsame⟩
          · exact ⟨.one (.code k j), .inr ⟨hworn.trans hone, rfl⟩, congrArg (Stored.mk _) hwrong⟩
  | two p q ne checked =>
      obtain h | ⟨-, h⟩ := hstat
      · cases h
      · cases h

/-- A step that is programmed holds what is known of it then. -/
theorem Near.joined {old : Option Known} (hx : ∀ i, eccsize ≤ i → x.dat i = 0)
    (h : ∀ d ∈ old, Near smc d x) (buf : Nat → Byte) (k : Nat) :
    ∀ d ∈ joined old buf k,
      Near smc d (bothBits x ⟨stepAt buf k, nand_calculate_ecc smc (stepAt buf k)⟩) := by
  intro d hd
  rw [NandBase.joined, combined] at hd
  split at hd
  · next hblank =>
      rw [hblank, bothBits_blank hx]
      exact h d hd
  · obtain ⟨d', hold, hd⟩ := Option.bind_eq_some_iff.mp hd
    split at hd
    · next hblank =>
        cases hd
        exact (h d' hold).written hblank ⟨stepAt buf k, d'.worn, stepAt_short buf k⟩ rfl
    · cases hd

end Steps

/-! ## The flash -/

section Device

variable (chip : Chip)

/-- A step, by its number in the device. -/
def Nand.stepOf (dev : Nand) (s : Nat) : Stored :=
  let realpage := s / chip.layout.steps
  (dev.cells (realpage / chip.pages) (realpage % chip.pages)).step chip.layout
    (s % chip.layout.steps)

/-- The flash has what is known of it, and so has the buffer. -/
structure Holds (c : Contents) (dev : Nand) : Prop where
  near : ∀ s, ∀ d ∈ c s, Near chip.smc d (dev.stepOf chip s)
  cached : ∀ page, dev.pagebuf = some page → ∀ s, s / chip.layout.steps = page → ∀ d ∈ c s,
    stepAt dev.databuf (s % chip.layout.steps) = d.dat
  buffered : chip.subpage_read = true → dev.pagebuf = none

/-- What is known after a page is programmed. -/
noncomputable def Contents.program (c : Contents) (page : Nat) (buf : Nat → Byte) : Contents :=
  fun s =>
    if s / chip.layout.steps = page then joined (c s) buf (s % chip.layout.steps) else c s

/-- Nothing is known of a page. -/
def Contents.spoil (c : Contents) (page : Nat) : Contents := fun s =>
  if s / chip.layout.steps = page then none else c s

/-- What is known after `nand_write` has returned `ret`, with `written` bytes from `start` on. When a
command has failed the page that it was for is not known. -/
noncomputable def Contents.write (c : Contents) (start : Nat) (buf : Nat → Byte) (written : Nat)
    (ret : Int) : Contents := fun s =>
  if start ≤ s * eccsize ∧ s * eccsize < start + written then
    joined (c s) (fun i => buf (s * eccsize - start + i)) 0
  else if ret = - EIO ∧ s * eccsize / chip.writesize = (start + written) / chip.writesize then none
  else c s

/-- What is known after `nand_erase` has returned `ret`. -/
def Contents.erase (c : Contents) (addr len : Nat) (ret : Int) : Contents := fun s =>
  if ret ≠ - EINVAL ∧ addr ≤ s * eccsize ∧ s * eccsize < addr + len then
    if ret = 0 then some fresh else none
  else c s

/-- What is known after a bit of a step has changed. -/
def Contents.flip (c : Contents) (s : Nat) : Contents :=
  Function.update c s (changed (c s))

/-- A bit of a step changes. -/
def Nand.flip (dev : Nand) (s : Nat) (p : Cell) : Nand :=
  let realpage := s / chip.layout.steps
  let chipnr := realpage / chip.pages
  let page := realpage % chip.pages
  { dev with
    cells := Function.update dev.cells chipnr (Function.update (dev.cells chipnr) page
      ((dev.cells chipnr page).flip chip.layout (s % chip.layout.steps) p)) }

end Device

end UBoot.NandBase
