/-
# Ranges of the `nand` command

What the operations of `nand read`, `write`, `erase` and `scrub` do with a range that does not end in
the device. Nothing outside of the device is touched, since `nand_base.c` checks what it is asked
for; but the loops over the blocks go on up to the end of the device, and only fail behind it.
-/

import UBoot.Mtd.CmdNand

namespace UBoot.CmdNand

variable {nand : MtdInfo} {chip : Chip}

namespace MtdInfo

theorem erasesize_pos (nand : MtdInfo) : 0 < nand.erasesize := Nat.two_pow_pos _

theorem writesize_pos (nand : MtdInfo) : 0 < nand.writesize := Nat.two_pow_pos _

theorem writesize_dvd (nand : MtdInfo) : nand.writesize ∣ nand.erasesize :=
  Nat.pow_dvd_pow 2 nand.writeshift_le

theorem erasesize_dvd_size (nand : MtdInfo) : nand.erasesize ∣ nand.size := Nat.dvd_mul_left _ _

theorem erasesize_lt (nand : MtdInfo) : nand.erasesize < 2 ^ 32 :=
  Nat.pow_lt_pow_right Nat.one_lt_two nand.eraseshift_lt

theorem erasesize_dvd (nand : MtdInfo) : nand.erasesize ∣ 2 ^ 32 :=
  Nat.pow_dvd_pow 2 nand.eraseshift_lt.le

end MtdInfo

/-! ## Erasing -/

/-- A block that starts in the device ends in it. -/
theorem block_le {a : Nat} (hdvd : nand.erasesize ∣ a) (hlt : a < nand.size) :
    a + nand.erasesize ≤ nand.size := by
  obtain ⟨n, hn⟩ := nand.erasesize_dvd_size
  obtain ⟨k, rfl⟩ := hdvd
  rw [hn] at hlt ⊢
  rw [← Nat.mul_succ]
  exact Nat.mul_le_mul_left _ (Nat.lt_of_mul_lt_mul_left hlt)

/-- A block of the device that can be erased. -/
def Erasable (nand : MtdInfo) (chip : Chip) (addr : Nat) : Prop :=
  chip.write_protected = false ∧ nand.erasesize ∣ addr ∧ addr < nand.size

theorem nand_erase_of_erasable {addr : Nat} (h : Erasable nand chip addr) :
    nand_erase nand chip addr = ⟨chip.erase addr, [⟨addr, nand.erasesize⟩]⟩ := by
  obtain ⟨hprotected, hdvd, hlt⟩ := h
  have hle := block_le hdvd hlt
  rw [nand_erase, if_neg (not_not.mpr (Nat.mod_eq_zero_of_dvd hdvd)), if_neg (by omega),
    if_neg (by rw [hprotected]; exact Bool.false_ne_true)]

theorem nand_erase_of_not_erasable {addr : Nat} (h : ¬Erasable nand chip addr) :
    ∃ ret, ret ≠ 0 ∧ nand_erase nand chip addr = ⟨ret, []⟩ := by
  rw [nand_erase]
  split
  · exact ⟨EINVAL, by decide, rfl⟩
  · next haligned =>
      split
      · exact ⟨EINVAL, by decide, rfl⟩
      · next hinside =>
          split
          · exact ⟨ EIO, by decide, rfl⟩
          · next hprotected =>
              have hpos := nand.erasesize_pos
              refine absurd ⟨Bool.eq_false_iff.mpr hprotected, ?_, by omega⟩ h
              exact Nat.dvd_of_mod_eq_zero (not_not.mp haligned)

/-- Either something of the block is touched, or the driver refuses to erase it. -/
theorem eraseBlock_eq_nil_iff (clean : Bool) (addr : Nat) :
    eraseBlock nand chip clean addr = [] ↔ ¬Erasable nand chip addr := by
  rw [eraseBlock]
  constructor
  · intro h herasable
    rw [nand_erase_of_erasable herasable] at h
    dsimp only at h
    split at h
    · exact absurd h (List.append_ne_nil_of_left_ne_nil (List.cons_ne_nil _ _) _)
    · exact absurd h (List.cons_ne_nil _ _)
  · intro h
    obtain ⟨ret, hret, herase⟩ := nand_erase_of_not_erasable h
    rw [herase]
    exact if_neg fun hmark => hret hmark.1

theorem eraseBlock_inside {clean : Bool} {addr : Nat} {touch : Touch}
    (h : touch ∈ eraseBlock nand chip clean addr) : touch.start + touch.len ≤ nand.size := by
  have herasable : Erasable nand chip addr := by
    by_contra hnot
    rw [(eraseBlock_eq_nil_iff clean addr).mpr hnot] at h
    exact List.not_mem_nil h
  have hle := block_le herasable.2.1 herasable.2.2
  have hpage := Nat.le_of_dvd nand.erasesize_pos nand.writesize_dvd
  rw [eraseBlock, nand_erase_of_erasable herasable] at h
  dsimp only at h
  split at h
  · rw [List.mem_append, List.mem_singleton, List.mem_singleton] at h
    obtain rfl | rfl := h
    · exact hle
    · exact (Nat.add_le_add_left hpage _).trans hle
  · rw [List.mem_singleton.mp h]
    exact hle

theorem eraseLoop_inside (scrub clean : Bool) (stop addr : Nat) :
    ∀ touch ∈ (eraseLoop nand chip scrub clean stop addr).touched,
      touch.start + touch.len ≤ nand.size := by
  fun_induction eraseLoop nand chip scrub clean stop addr with
  | case1 addr hlt hbeyond => exact fun _ h => absurd h List.not_mem_nil
  | case2 addr hlt hbeyond touched rest ih =>
      intro touch h
      rw [List.mem_append] at h
      obtain h | h := h
      · simp only [touched] at h
        split at h
        · exact absurd h List.not_mem_nil
        · exact eraseBlock_inside h
      · exact ih touch h
  | case3 addr hge => exact fun _ h => absurd h List.not_mem_nil

/-- Without a look at the blocks the loop comes to its end. -/
theorem eraseLoop_scrub_ret (clean : Bool) (stop addr : Nat) :
    (eraseLoop nand chip true clean stop addr).ret = 0 := by
  fun_induction eraseLoop nand chip true clean stop addr with
  | case1 addr hlt hbeyond => exact absurd hbeyond.1 (by decide)
  | case2 addr hlt hbeyond touched rest ih => exact ih
  | case3 addr hge => rfl

/-- The blocks from an address on are that block and those from the next one on. -/
theorem exists_block_iff {addr : Nat} {P : Nat → Prop} :
    (∃ k, P (addr + k * nand.erasesize)) ↔
      P addr ∨ ∃ k, P (addr + nand.erasesize + k * nand.erasesize) := by
  constructor
  · rintro ⟨k, hk⟩
    cases k with
    | zero =>
        rw [Nat.zero_mul, Nat.add_zero] at hk
        exact .inl hk
    | succ k =>
        rw [Nat.succ_mul, Nat.add_comm (k * nand.erasesize), ← Nat.add_assoc] at hk
        exact .inr ⟨k, hk⟩
  · rintro (h | ⟨k, hk⟩)
    · exact ⟨0, by rwa [Nat.zero_mul, Nat.add_zero]⟩
    · refine ⟨k + 1, ?_⟩
      rwa [Nat.succ_mul, Nat.add_comm (k * nand.erasesize), ← Nat.add_assoc]

/-- The loop fails exactly at a block that begins behind the end. -/
theorem eraseLoop_ret_iff (clean : Bool) (stop addr : Nat) :
    (eraseLoop nand chip false clean stop addr).ret ≠ 0 ↔
      ∃ k, nand.size < addr + k * nand.erasesize ∧ addr + k * nand.erasesize < stop := by
  fun_induction eraseLoop nand chip false clean stop addr with
  | case1 addr hlt hbeyond =>
      refine iff_of_true (by decide) ⟨0, ?_⟩
      rw [Nat.zero_mul, Nat.add_zero]
      exact ⟨hbeyond.2, hlt⟩
  | case2 addr hlt hbeyond touched rest ih =>
      rw [exists_block_iff (P := fun a => nand.size < a ∧ a < stop), ← ih]
      exact (or_iff_right fun h => hbeyond ⟨rfl, h.1⟩).symm
  | case3 addr hge =>
      refine iff_of_false (not_not.mpr rfl) ?_
      rintro ⟨k, -, hk⟩
      omega

/-- Something is touched exactly if a block that can be erased is not bad. -/
theorem eraseLoop_touched_iff (clean : Bool) (stop addr : Nat) :
    (eraseLoop nand chip false clean stop addr).touched ≠ [] ↔
      ∃ k, addr + k * nand.erasesize < stop ∧ Erasable nand chip (addr + k * nand.erasesize) ∧
        chip.bad (addr + k * nand.erasesize) = false := by
  fun_induction eraseLoop nand chip false clean stop addr with
  | case1 addr hlt hbeyond =>
      refine iff_of_false (not_not.mpr rfl) ?_
      rintro ⟨k, -, herasable, -⟩
      exact absurd (hbeyond.2.trans_le (Nat.le_add_right _ _)) herasable.2.2.asymm
  | case2 addr hlt hbeyond touched rest ih =>
      have hfirst : touched ≠ [] ↔ addr < stop ∧ Erasable nand chip addr ∧
          chip.bad addr = false := by
        simp only [touched]
        split
        · next hbad =>
            refine iff_of_false (not_not.mpr rfl) fun h => ?_
            exact Bool.false_ne_true (h.2.2.symm.trans hbad.2)
        · next hbad =>
            have hgood : chip.bad addr = false := by
              rw [← Bool.not_eq_true]
              exact fun h => hbad ⟨trivial, h⟩
            rw [Ne, eraseBlock_eq_nil_iff, not_not]
            exact ⟨fun h => ⟨hlt, h, hgood⟩, fun h => h.2.1⟩
      rw [exists_block_iff (P := fun a => a < stop ∧ Erasable nand chip a ∧ chip.bad a = false),
        ← ih, ← hfirst, Ne, List.append_eq_nil_iff, not_and_or]
  | case3 addr hge =>
      refine iff_of_false (not_not.mpr rfl) ?_
      rintro ⟨k, hk, -⟩
      omega

/-! ## Blocks that look bad -/

section Checks

variable {offset : Nat}

/-- A block is looked for in the first 4 GiB. -/
theorem checkBad_eq (offset : Nat) : (nand.util chip).checkBad offset =
    isbad nand chip (offset / nand.erasesize % (2 ^ 32 / nand.erasesize) * nand.erasesize) := by
  have hsplit : 2 ^ 32 = nand.erasesize * (2 ^ 32 / nand.erasesize) :=
    (Nat.mul_div_cancel' nand.erasesize_dvd).symm
  have hmod : offset % 2 ^ 32 / nand.erasesize =
      offset / nand.erasesize % (2 ^ 32 / nand.erasesize) := by
    conv_lhs => rw [hsplit]
    rw [Nat.mod_mul_right_div_self]
  rw [← hmod]
  rfl

/-- The rest of a block looks as its beginning. -/
theorem checkBad_add {i : Nat} (h : i < (nand.util chip).blockLen offset) :
    (nand.util chip).checkBad (offset + i) = (nand.util chip).checkBad offset := by
  have hdiv := Nat.div_add_mod' offset nand.erasesize
  have hsame : (offset + i) / nand.erasesize = offset / nand.erasesize := by
    have hlen : i < nand.erasesize - offset % nand.erasesize := h
    refine Nat.div_eq_of_lt_le (by omega) ?_
    rw [Nat.succ_mul]
    omega
  rw [checkBad_eq, checkBad_eq, hsame]

/-- Where a block that looks bad does not, it is a later one. -/
theorem next_le_of_checkBad {a : Nat} (hle : offset ≤ a)
    (hbad : (nand.util chip).checkBad offset = true)
    (hgood : (nand.util chip).checkBad a = false) :
    offset + (nand.util chip).blockLen offset ≤ a := by
  by_contra hlt
  have hsame : (nand.util chip).checkBad (offset + (a - offset)) =
      (nand.util chip).checkBad offset := checkBad_add (by omega)
  rw [Nat.add_sub_cancel' hle, hgood, hbad] at hsame
  exact Bool.false_ne_true hsame

end Checks

/-! ## Transfers -/

/-- A chip that is not written to. -/
def Blocked (chip : Chip) (read : Bool) : Prop := read = false ∧ chip.write_protected = true

section Transfers

variable {read : Bool} {offset : Nat}

theorem failed_EINVAL (read : Bool) : failed read EINVAL := ⟨by decide, fun h => absurd h.2 (by decide)⟩

theorem nand_transfer_outside {len : Nat} (h : nand.size < offset + len) :
    nand_transfer nand chip read offset len = ⟨EINVAL, []⟩ := if_pos h

theorem nand_transfer_blocked {len : Nat} (hlen : 0 < len) (h : Blocked chip read) :
    ∃ ret, failed read ret ∧ nand_transfer nand chip read offset len = ⟨ret, []⟩ := by
  rw [nand_transfer]
  split
  · exact ⟨EINVAL, failed_EINVAL read, rfl⟩
  · rw [if_neg (by omega), if_neg (by rw [h.1]; decide), if_pos h.2]
    exact ⟨ EIO, ⟨by decide, fun hread => absurd (h.1.symm.trans hread.1) (by decide)⟩, rfl⟩

theorem nand_transfer_touched {len : Nat} (hlen : 0 < len) (hle : offset + len ≤ nand.size)
    (h : ¬Blocked chip read) :
    (nand_transfer nand chip read offset len).touched = [⟨offset, len⟩] := by
  rw [nand_transfer, if_neg (by omega), if_neg (by omega)]
  split
  · rfl
  · next hread =>
      rw [if_neg fun hprotected => h ⟨Bool.eq_false_iff.mpr hread, hprotected⟩]

theorem nand_transfer_inside {len : Nat} {touch : Touch}
    (h : touch ∈ (nand_transfer nand chip read offset len).touched) :
    touch.start + touch.len ≤ nand.size := by
  rw [nand_transfer] at h
  split_ifs at h with hbeyond
  all_goals
    first
    | exact absurd h List.not_mem_nil
    | rw [List.mem_singleton.mp h]
      exact Nat.le_of_not_lt hbeyond

theorem skipBad_inside {fuel left : Nat} {result : Result}
    (h : skipBad nand chip read fuel offset left = some result) :
    ∀ touch ∈ result.touched, touch.start + touch.len ≤ nand.size := by
  fun_induction skipBad nand chip read fuel offset left generalizing result with
  | case1 =>
      rw [← Option.some.inj h]
      exact fun _ h => absurd h List.not_mem_nil
  | case2 => exact absurd h (Option.some_ne_none _).symm
  | case3 fuel offset left hbad ih => exact ih h
  | case4 fuel offset left hgood size result' =>
      rw [← Option.some.inj h]
      exact fun _ h => nand_transfer_inside h
  | case5 fuel offset left hgood size result' hok =>
      rename_i ih
      obtain ⟨rest, hrest, rfl⟩ := Option.map_eq_some_iff.mp h
      intro touch htouch
      rw [List.mem_append] at htouch
      obtain htouch | htouch := htouch
      · exact nand_transfer_inside htouch
      · exact ih hrest touch htouch

/-- What is transferred of a block of the device. -/
theorem skipBad_first (hblocked : ¬Blocked chip read) (hlt : offset < nand.size) (left : Nat) :
    (nand_transfer nand chip read offset
        (min (left + 1) ((nand.util chip).blockLen offset))).touched =
      [⟨offset, min (left + 1) ((nand.util chip).blockLen offset)⟩] := by
  have hpos := (nand.util chip).blockLen_pos offset
  have hblock : offset + (nand.util chip).blockLen offset ≤ nand.size := NandInfo.blockLen_le hlt
  exact nand_transfer_touched (by omega)
    ((Nat.add_le_add_left (Nat.min_le_right _ _) offset).trans hblock) hblocked

/-- A block of the device that looks good is touched. -/
theorem skipBad_touched {fuel left : Nat} {result : Result} (hleft : 0 < left)
    (hblocked : ¬Blocked chip read) {a : Nat} (hle : offset ≤ a) (hlt : a < nand.size)
    (hgood : (nand.util chip).checkBad a = false)
    (h : skipBad nand chip read fuel offset left = some result) : result.touched ≠ [] := by
  fun_induction skipBad nand chip read fuel offset left generalizing result with
  | case1 => exact absurd hleft (Nat.lt_irrefl 0)
  | case2 => exact absurd h (Option.some_ne_none _).symm
  | case3 fuel offset left hbad ih => exact ih hleft (next_le_of_checkBad hle hbad hgood) h
  | case4 fuel offset left hgood' size result' =>
      rw [← Option.some.inj h, skipBad_first hblocked (hle.trans_lt hlt) left]
      exact List.cons_ne_nil _ _
  | case5 fuel offset left hgood' size result' hok =>
      obtain ⟨rest, -, rfl⟩ := Option.map_eq_some_iff.mp h
      dsimp only
      rw [skipBad_first hblocked (hle.trans_lt hlt) left]
      exact List.cons_ne_nil _ _

/-- Where every block looks bad the loop goes on for ever. -/
theorem skipBad_never {fuel left : Nat} (hleft : 0 < left)
    (h : ∀ a, offset ≤ a → (nand.util chip).checkBad a = true) :
    skipBad nand chip read fuel offset left = none := by
  fun_induction skipBad nand chip read fuel offset left with
  | case1 => exact absurd hleft (Nat.lt_irrefl 0)
  | case2 => rfl
  | case3 fuel offset left hbad ih => exact ih hleft fun a ha => h a (by omega)
  | case4 fuel offset left hgood size result' => exact absurd (h offset le_rfl) hgood
  | case5 fuel offset left hgood size result' hok => exact absurd (h offset le_rfl) hgood

/-- The loop fails where it comes to a block that looks good and is not touched. -/
theorem skipBad_fails {left : Nat} (hleft : 0 < left)
    (hnone : Blocked chip read ∨
      ∀ a, offset ≤ a → a < nand.size → (nand.util chip).checkBad a = true)
    {a : Nat} (hle : offset ≤ a) (hgood : (nand.util chip).checkBad a = false) :
    ∃ fuel ret, failed read ret ∧ skipBad nand chip read fuel offset left = some ⟨ret, []⟩ := by
  obtain ⟨left, rfl⟩ := Nat.exists_eq_add_of_le' hleft
  induction hn : a - offset using Nat.strong_induction_on generalizing offset with
  | _ n ih =>
      have hpos := (nand.util chip).blockLen_pos offset
      by_cases hbad : (nand.util chip).checkBad offset = true
      · have hnext := next_le_of_checkBad hle hbad hgood
        obtain ⟨fuel, ret, hret, hloop⟩ := ih _ (by omega)
          (hnone.imp_right fun hall b hb => hall b (by omega)) hnext rfl
        refine ⟨fuel + 1, ret, hret, ?_⟩
        rw [skipBad, if_pos hbad]
        exact hloop
      · have hlen : 0 < min (left + 1) ((nand.util chip).blockLen offset) := by omega
        obtain ⟨ret, hret, htransfer⟩ : ∃ ret, failed read ret ∧
            nand_transfer nand chip read offset
              (min (left + 1) ((nand.util chip).blockLen offset)) = ⟨ret, []⟩ := by
          by_cases hlt : offset < nand.size
          · exact nand_transfer_blocked hlen
              (hnone.resolve_right fun hall => hbad (hall offset le_rfl hlt))
          · exact ⟨EINVAL, failed_EINVAL read, nand_transfer_outside (by omega)⟩
        refine ⟨1, ret, hret, ?_⟩
        rw [skipBad, if_neg hbad]
        dsimp only
        rw [htransfer, if_pos hret]

/-! ### Lengths with bad blocks -/

/-- The blocks up to the end of the device are counted if they are too few. -/
theorem lenInclBad_short {length excl incl : Nat} (hlt : offset < nand.size) (hle : excl ≤ incl)
    (hlength : length < 2 ^ 32) (hshort : incl + (nand.size - offset) < length) :
    (nand.util chip).lenInclBad length offset excl incl = incl + (nand.size - offset) := by
  have hsize : (nand.util chip).size = nand.size := rfl
  induction offset using (nand.util chip).blockInduction generalizing excl incl with
  | last offset hend => omega
  | step offset hlt' ih =>
      have hpos := (nand.util chip).blockLen_pos offset
      have hblock := NandInfo.blockLen_le hlt'
      have hincl : (incl + (nand.util chip).blockLen offset) % 2 ^ 32 =
          incl + (nand.util chip).blockLen offset := Nat.mod_eq_of_lt (by omega)
      rw [NandInfo.lenInclBad, if_pos (by omega)]
      dsimp only
      rw [hincl]
      split
      · omega
      · rw [ih (by omega) _ (by omega)]
        · omega
        · split
          · omega
          · exact (Nat.mod_le _ _).trans (by omega)

theorem get_len_incl_bad_short {length : Nat} (hlt : offset < nand.size) (hlength : length < 2 ^ 32)
    (hshort : nand.size < offset + length) :
    (nand.util chip).get_len_incl_bad offset length = nand.size - offset := by
  rw [NandInfo.get_len_incl_bad, lenInclBad_short hlt le_rfl hlength (by omega), Nat.zero_add]

/-- Behind the end a block is counted. -/
theorem get_len_incl_bad_beyond {length : Nat} (hle : nand.size ≤ offset) (hlength : 0 < length) :
    0 < (nand.util chip).get_len_incl_bad offset length := by
  have hpos := (nand.util chip).blockLen_pos offset
  have hlt : (nand.util chip).blockLen offset < 2 ^ 32 :=
    (Nat.sub_le _ _).trans_lt nand.erasesize_lt
  have hsize : (nand.util chip).size = nand.size := rfl
  rw [NandInfo.get_len_incl_bad, NandInfo.lenInclBad, if_pos hlength]
  dsimp only
  rw [if_pos (by omega), Nat.zero_add, Nat.mod_eq_of_lt hlt]
  exact hpos

/-! ### The calls -/

theorem skip_bad_inside {fuel length : Nat} {result : Result}
    (h : skip_bad nand chip read fuel offset length = some result) :
    ∀ touch ∈ result.touched, touch.start + touch.len ≤ nand.size := by
  unfold skip_bad at h
  dsimp only at h
  split at h
  · rw [← Option.some.inj h]
    exact fun _ h => absurd h List.not_mem_nil
  split at h
  · rw [← Option.some.inj h]
    exact fun _ h => absurd h List.not_mem_nil
  split at h
  · rw [← Option.some.inj h]
    exact fun _ h => nand_transfer_inside h
  · exact skipBad_inside h

/-- A range of pages that does not end in the device is refused. -/
theorem skip_bad_fails_iff {length : Nat} (hlength : length < 2 ^ 32)
    (hdvd : nand.writesize ∣ length) (hout : nand.size < offset + length) :
    (∃ fuel result, skip_bad nand chip read fuel offset length = some result ∧ result.ret ≠ 0 ∧
        result.touched = []) ↔
      (read = false ∧ ¬nand.writesize ∣ offset) ∨ nand.size ≤ offset ∨
        ((Blocked chip read ∨
            ∀ a, offset ≤ a → a < nand.size → (nand.util chip).checkBad a = true) ∧
          ∃ a, offset ≤ a ∧ (nand.util chip).checkBad a = false) := by
  have hpages : length % nand.writesize = 0 := Nat.mod_eq_zero_of_dvd hdvd
  by_cases halign : read = false ∧ ¬nand.writesize ∣ offset
  · refine iff_of_true ⟨0, ⟨EINVAL, []⟩, ?_, by decide, rfl⟩ (.inl halign)
    rw [skip_bad, if_pos ⟨halign.1, .inl fun hmod => halign.2 (Nat.dvd_of_mod_eq_zero hmod)⟩]
  rw [or_iff_right halign]
  have haccepted : ¬(read = false ∧ (offset % nand.writesize ≠ 0 ∨ length % nand.writesize ≠ 0)) := by
    rintro ⟨hread, hmod | hmod⟩
    · exact halign ⟨hread, fun h => hmod (Nat.mod_eq_zero_of_dvd h)⟩
    · exact hmod hpages
  by_cases hbeyond : nand.size ≤ offset
  · refine iff_of_true ⟨0, ⟨EINVAL, []⟩, ?_, by decide, rfl⟩ (.inl hbeyond)
    rw [skip_bad, if_neg haccepted]
    dsimp only
    refine if_pos ?_
    rcases Nat.eq_zero_or_pos length with rfl | hpos
    · exact hout.trans_le (Nat.add_le_add_left (Nat.zero_le _) _)
    · have := @get_len_incl_bad_beyond _ chip _ _ hbeyond hpos
      omega
  · have hlt : offset < nand.size := Nat.lt_of_not_le hbeyond
    have hloop (fuel : Nat) : skip_bad nand chip read fuel offset length =
        skipBad nand chip read fuel offset length := by
      rw [skip_bad, if_neg haccepted, get_len_incl_bad_short hlt hlength hout]
      dsimp only
      rw [if_neg (by omega), if_neg (by omega)]
    have hpos : 0 < length := by omega
    rw [or_iff_right hbeyond]
    simp only [hloop]
    constructor
    · rintro ⟨fuel, result, hrun, -, htouched⟩
      constructor
      · by_cases hblocked : Blocked chip read
        · exact .inl hblocked
        · refine .inr fun a hle ha => ?_
          by_contra hgood
          exact skipBad_touched hpos hblocked hle ha (Bool.eq_false_iff.mpr hgood) hrun htouched
      · by_contra hnone
        rw [skipBad_never hpos fun a ha => ?_] at hrun
        · exact absurd hrun (Option.some_ne_none _).symm
        · by_contra hgood
          exact hnone ⟨a, ha, Bool.eq_false_iff.mpr hgood⟩
    · rintro ⟨hnone, a, hle, hgood⟩
      obtain ⟨fuel, ret, hret, hrun⟩ := skipBad_fails hpos hnone hle hgood
      exact ⟨fuel, ⟨ret, []⟩, hrun, hret.1, rfl⟩

end Transfers

end UBoot.CmdNand
