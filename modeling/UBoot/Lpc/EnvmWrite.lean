/-
# Writes that erase first

The sectors of a range are erased before it is known whether the range can be programmed. On a flash
without a blank byte an erase cannot be undone by any later error, so a write is right on every
content only if it is refused before, or if nothing can go wrong behind: the range is not empty, it
begins at a multiple of 256, and rounded up to whole blocks it stays in the sectors that its bytes
are in.
-/

import UBoot.Lib.Masks
import UBoot.Lpc.Iap

namespace UBoot.Lpc

open UBoot.Lib

/-! ## Rounding -/

/-- A size in whole blocks. -/
def Chip.whole (chip : Chip) (size : U32) : Nat :=
  (size.toNat + chip.IAP_BLOCK_SIZE.toNat - 1) / chip.IAP_BLOCK_SIZE.toNat *
    chip.IAP_BLOCK_SIZE.toNat

/-- What is asked of a chip: its blocks are whole pages of 256 bytes, the sectors follow one
another, the search finds the sector of an address of its bank, and the checks let a range pass that
is inside the bank. -/
structure Chip.Valid (chip : Chip) : Prop where
  block : chip.IAP_BLOCK_SIZE = 256#32 ∨ chip.IAP_BLOCK_SIZE = 512#32
  start_lt : ∀ b i, i < (chip.sectors b).toNat → chip.start b i < chip.start b (i + 1)
  start_end : ∀ b, chip.start b (chip.sectors b).toNat < 2 ^ 32
  found : ∀ b addr s, chip.start b 0 ≤ addr.toNat → chip.find_sector addr b = some s →
    s < chip.sectors b → chip.InSector (s.toNat, b) addr
  finds : ∀ b addr, chip.start b 0 ≤ addr.toNat →
    addr.toNat < chip.start b (chip.sectors b).toNat → ∃ s, chip.find_sector addr b = some s
  accepted : ∀ offset size, chip.accepts offset size → chip.start (chip.bank offset) 0 ≤ offset.toNat
  inside : ∀ b dest_addr size, chip.start b 0 ≤ dest_addr.toNat →
    dest_addr.toNat + size.toNat ≤ chip.start b (chip.sectors b).toNat →
    chip.exceeds dest_addr size b = false

/-- What is asked of a write: if it fails, nothing is changed; if it returns the size, the range
holds the buffer, and only sectors with bytes of the range were erased. Blocks are copied to
multiples of 256 inside of what was erased. -/
structure Sound (chip : Chip) (mem : U32 → Byte) (offset : U32) (buf : Nat → Byte) (size : U32)
    (result : U32 × Flash) : Prop where
  kept : result.1 ≠ size → result.2.mem = mem
  written : result.1 = size → ∀ k < size.toNat, result.2.mem (offset + BitVec.ofNat 32 k) = buf k
  covering : result.1 = size → ∀ s ∈ result.2.erased,
    ∃ k < size.toNat, chip.InSector s (offset + BitVec.ofNat 32 k)
  copies : ∀ dst ∈ result.2.copies, dst.toNat % 256 = 0 ∧
    ∀ i < chip.IAP_BLOCK_SIZE.toNat, ∃ s ∈ result.2.erased,
      chip.InSector s (dst + BitVec.ofNat 32 i)

/-- A range is written soundly whatever is in the flash and in the buffer, and `find_sector` stays
in its table. -/
def RejectsFirst (chip : Chip) (offset size : U32) : Prop :=
  ∀ mem buf, ∃ result, envm_write chip ⟨mem, [], []⟩ offset buf size = some result ∧
    Sound chip mem offset buf size result

/-- The range is refused before anything is erased. The error that is returned is not the size. -/
def Refused (chip : Chip) (offset size : U32) : Prop :=
  chip.accepts offset size = false ∨
    ∃ first last, chip.find_sector offset (chip.bank offset) = some first ∧
      chip.find_sector (offset + size - 1#32) (chip.bank offset) = some last ∧
      (last < first ∨ last ≥ chip.sectors (chip.bank offset)) ∧
      (size = 0#32 ∨ chip.failure (-EINVAL) ≠ size)

/-- The range is not empty, it is aligned, and its blocks are inside of the sectors of its first
and its last byte. -/
def Fits (chip : Chip) (offset size : U32) : Prop :=
  ∃ first last, chip.accepts offset size ∧
    chip.find_sector offset (chip.bank offset) = some first ∧
    chip.find_sector (offset + size - 1#32) (chip.bank offset) = some last ∧
    first ≤ last ∧ last < chip.sectors (chip.bank offset) ∧
    size ≠ 0#32 ∧ offset.toNat % 256 = 0 ∧
    offset.toNat + chip.whole size ≤ chip.start (chip.bank offset) (last.toNat + 1)

section Blocks

variable {chip : Chip}

theorem Chip.Valid.rounded_toNat (h : chip.Valid) (size : U32) :
    (chip.rounded size).toNat = (size.toNat + (chip.IAP_BLOCK_SIZE.toNat - 1)) % 2 ^ 32 /
      chip.IAP_BLOCK_SIZE.toNat * chip.IAP_BLOCK_SIZE.toNat := by
  obtain hblock | hblock := h.block
  · rw [Chip.rounded, hblock]
    exact (and_not_low_toNat (k := 8) rfl (size + 255#32)).trans
      (by rw [BitVec.toNat_add]; rfl)
  · rw [Chip.rounded, hblock]
    exact (and_not_low_toNat (k := 9) rfl (size + 511#32)).trans
      (by rw [BitVec.toNat_add]; rfl)

theorem Chip.Valid.block_toNat (h : chip.Valid) :
    chip.IAP_BLOCK_SIZE.toNat = 256 ∨ chip.IAP_BLOCK_SIZE.toNat = 512 :=
  h.block.imp (congrArg BitVec.toNat) (congrArg BitVec.toNat)

/-- Rounding is exact, or it wraps around to nothing. -/
theorem Chip.Valid.rounded_cases (h : chip.Valid) {size : U32} (hsize : size ≠ 0#32) :
    (chip.rounded size).toNat = chip.whole size ∨
      (chip.rounded size).toNat = 0 ∧ 2 ^ 32 ≤ chip.whole size := by
  have hlt := size.isLt
  have hpos : size.toNat ≠ 0 := fun hzero => hsize (BitVec.eq_of_toNat_eq hzero)
  rw [h.rounded_toNat, Chip.whole]
  obtain hblock | hblock := h.block_toNat
  · rw [hblock]
    omega
  · rw [hblock]
    omega

theorem Chip.Valid.rounded_zero (h : chip.Valid) : (chip.rounded 0#32).toNat = 0 := by
  rw [h.rounded_toNat]
  obtain hblock | hblock := h.block_toNat
  · rw [hblock]
    rfl
  · rw [hblock]
    rfl

theorem Chip.Valid.size_le_whole (h : chip.Valid) (size : U32) : size.toNat ≤ chip.whole size := by
  rw [Chip.whole]
  obtain hblock | hblock := h.block_toNat
  · rw [hblock]
    omega
  · rw [hblock]
    omega

/-- A rounded size passes the check of the size. -/
theorem Chip.Valid.mask_eq_zero (h : chip.Valid) {size : U32}
    (hsize : size.toNat % chip.IAP_BLOCK_SIZE.toNat = 0) :
    size &&& (chip.IAP_BLOCK_SIZE - 1#32) = 0#32 := by
  obtain hblock | hblock := h.block
  · rw [hblock] at hsize ⊢
    exact (and_low_eq_zero_iff (k := 8) rfl size).mpr hsize
  · rw [hblock] at hsize ⊢
    exact (and_low_eq_zero_iff (k := 9) rfl size).mpr hsize

end Blocks

theorem low_byte_eq_zero (addr : U32) : addr &&& 0xff#32 = 0#32 ↔ addr.toNat % 256 = 0 :=
  and_low_eq_zero_iff (k := 8) rfl addr

/-! ## Sectors -/

section Sectors

variable {chip : Chip} {bank : Bool}

theorem Chip.Valid.start_le (h : chip.Valid) (bank : Bool) {i j : Nat} (hij : i ≤ j)
    (hj : j ≤ (chip.sectors bank).toNat) : chip.start bank i ≤ chip.start bank j := by
  induction j, hij using Nat.le_induction with
  | base => exact Nat.le_refl _
  | succ j _ ih => exact (ih (by omega)).trans (h.start_lt bank j hj).le

/-- An address between two begins is in one of the sectors. -/
theorem exists_sector (chip : Chip) (bank : Bool) (first n : Nat) {a : U32}
    (hlow : chip.start bank first ≤ a.toNat) (hhigh : a.toNat < chip.start bank (first + n)) :
    ∃ i, first ≤ i ∧ i < first + n ∧ chip.InSector (i, bank) a := by
  induction n with
  | zero => exact absurd hhigh (Nat.not_lt.mpr hlow)
  | succ n ih =>
      by_cases hlast : a.toNat < chip.start bank (first + n)
      · obtain ⟨i, hfirst, hi, hin⟩ := ih hlast
        exact ⟨i, hfirst, by omega, hin⟩
      · exact ⟨first + n, by omega, by omega, not_lt.mp hlast, hhigh⟩

theorem of_mem_erased {first last i : Nat} {b : Bool} {f : Flash} (h : f.erased = [])
    (hmem : (i, b) ∈ (f.erase chip first last bank).erased) :
    (first ≤ i ∧ i ≤ last) ∧ b = bank := by
  rw [Flash.erase, h, List.nil_append] at hmem
  obtain ⟨j, hj, heq⟩ := List.mem_map.mp hmem
  rw [List.mem_range'_1] at hj
  cases heq
  exact ⟨by omega, rfl⟩

theorem mem_erased {first last i : Nat} {f : Flash} (h : f.erased = [])
    (hi : first ≤ i ∧ i ≤ last) : (i, bank) ∈ (f.erase chip first last bank).erased := by
  rw [Flash.erase, h, List.nil_append]
  apply List.mem_map_of_mem
  rw [List.mem_range'_1]
  omega

end Sectors

/-! ## Programming -/

section Program

variable {chip : Chip} {bank : Bool}

theorem add_ofNat_toNat {a : U32} {n : Nat} (h : a.toNat + n < 2 ^ 32) :
    (a + BitVec.ofNat 32 n).toNat = a.toNat + n := by
  rw [BitVec.toNat_add, BitVec.toNat_ofNat]
  omega

theorem copy_mem {f : Flash} {dst : U32} {src : Nat → Byte} (a : U32)
    (h : dst.toNat + chip.IAP_BLOCK_SIZE.toNat < 2 ^ 32) :
    (f.copy chip dst src).mem a =
      if dst.toNat ≤ a.toNat ∧ a.toNat < dst.toNat + chip.IAP_BLOCK_SIZE.toNat then
        src (a.toNat - dst.toNat)
      else f.mem a := by
  have hlt := a.isLt
  have hdst := dst.isLt
  change (if (a - dst).toNat < _ then src (a - dst).toNat else f.mem a) = _
  rw [BitVec.toNat_sub]
  by_cases hle : dst.toNat ≤ a.toNat
  · have hsub : (2 ^ 32 - dst.toNat + a.toNat) % 2 ^ 32 = a.toNat - dst.toNat := by omega
    rw [hsub]
    apply if_congr _ rfl rfl
    omega
  · rw [if_neg (by omega), if_neg (by omega)]

/-- What the loop over the blocks leaves. -/
structure Copied (chip : Chip) (dest_addr : U32) (src : Nat → Byte) (offset : U32) (n : Nat)
    (f f' : Flash) : Prop where
  mem : ∀ a, f'.mem a =
    if dest_addr.toNat + offset.toNat ≤ a.toNat ∧
        a.toNat < dest_addr.toNat + offset.toNat + n * chip.IAP_BLOCK_SIZE.toNat then
      src (a.toNat - dest_addr.toNat)
    else f.mem a
  erased : f'.erased = f.erased
  copies : ∀ dst ∈ f'.copies, dst ∈ f.copies ∨
    ∃ j < n, dst.toNat = dest_addr.toNat + offset.toNat + j * chip.IAP_BLOCK_SIZE.toNat

theorem Chip.Valid.copyLoop_spec (h : chip.Valid) (dest_addr : U32) (src : Nat → Byte)
    (hstart : chip.start bank 0 ≤ dest_addr.toNat) (n : Nat) (offset : U32) (f : Flash)
    (hend : dest_addr.toNat + offset.toNat + n * chip.IAP_BLOCK_SIZE.toNat ≤
      chip.start bank (chip.sectors bank).toNat) :
    ∃ f', copyLoop chip dest_addr src bank n offset f = some f' ∧
      Copied chip dest_addr src offset n f f' := by
  have hbank := h.start_end bank
  have hblock : 0 < chip.IAP_BLOCK_SIZE.toNat := by
    obtain hblock | hblock := h.block_toNat <;> omega
  induction n generalizing offset f with
  | zero =>
      refine ⟨f, rfl, fun a => ?_, rfl, fun dst hdst => .inl hdst⟩
      rw [if_neg (by omega)]
  | succ n ih =>
      rw [Nat.add_mul, Nat.one_mul] at hend
      have hdst : (dest_addr + offset).toNat = dest_addr.toNat + offset.toNat := by
        rw [BitVec.toNat_add]
        omega
      have hnext : (offset + chip.IAP_BLOCK_SIZE).toNat =
          offset.toNat + chip.IAP_BLOCK_SIZE.toNat := by
        rw [BitVec.toNat_add]
        omega
      obtain ⟨s, hs⟩ := h.finds bank (dest_addr + offset) (by omega) (by omega)
      obtain ⟨f', hrun, hmem, herased, hcopies⟩ := ih (offset + chip.IAP_BLOCK_SIZE)
        (f.copy chip (dest_addr + offset) fun i => src (offset.toNat + i)) (by omega)
      refine ⟨f', ?_, fun a => ?_, herased, fun dst hmem' => ?_⟩
      · rw [copyLoop, hs]
        exact hrun
      · rw [hmem, copy_mem a (by omega), hdst, hnext, Nat.add_mul, Nat.one_mul]
        -- behind this block, in it, or outside of both
        split
        · rw [if_pos (by omega)]
        · split
          · rw [if_pos (by omega)]
            congr 1
            omega
          · rw [if_neg (by omega)]
      · obtain hold | ⟨j, hj, heq⟩ := hcopies dst hmem'
        · obtain hold | hnew := List.mem_append.mp hold
          · exact .inl hold
          · rw [List.mem_singleton.mp hnew, hdst]
            exact .inr ⟨0, n.succ_pos, by omega⟩
        · refine .inr ⟨j + 1, by omega, ?_⟩
          rw [heq, hnext, Nat.add_mul, Nat.one_mul]
          omega

/-- `flash_program` fails before it copies a block, or its range is aligned and blank. -/
theorem flash_program_cases (chip : Chip) (f : Flash) (dest_addr : U32) (src : Nat → Byte) (size : U32) :
    (∃ rv, rv < 0 ∧ flash_program chip f dest_addr src size = some (rv, f)) ∨
      dest_addr.toNat % 256 = 0 ∧
        ∀ i < size.toNat, f.mem (dest_addr + BitVec.ofNat 32 i) = 0xff#8 := by
  unfold flash_program
  dsimp only
  split
  · exact .inl ⟨_, by decide, rfl⟩
  · split
    · exact .inl ⟨_, by decide, rfl⟩
    · rename_i haligned
      split
      · exact .inl ⟨_, by decide, rfl⟩
      · split
        · exact .inl ⟨_, by decide, rfl⟩
        · rename_i hblank
          push Not at hblank
          exact .inr ⟨(low_byte_eq_zero _).mp (not_not.mp haligned), hblank⟩

/-- `flash_program` of nothing. -/
theorem flash_program_empty (f : Flash) (dest_addr : U32) (src : Nat → Byte) {size : U32}
    (h : size.toNat = 0) : ∃ rv, flash_program chip f dest_addr src size = some (rv, f) := by
  unfold flash_program
  dsimp only
  split
  · exact ⟨_, rfl⟩
  · split
    · exact ⟨_, rfl⟩
    · split
      · exact ⟨_, rfl⟩
      · split
        · exact ⟨_, rfl⟩
        · rw [h, Nat.zero_div, copyLoop, Option.map_some, if_neg fun ⟨i, hi, _⟩ => Nat.not_lt_zero i hi]
          exact ⟨_, rfl⟩

/-- `flash_program` of whole blocks to a blank range of the bank. -/
theorem Chip.Valid.flash_program_ok (h : chip.Valid) {f : Flash} {dest_addr : U32}
    (src : Nat → Byte) (size : U32) (hwhole : size.toNat % chip.IAP_BLOCK_SIZE.toNat = 0)
    (haligned : dest_addr.toNat % 256 = 0)
    (hstart : chip.start (chip.bank dest_addr) 0 ≤ dest_addr.toNat)
    (hend : dest_addr.toNat + size.toNat ≤
      chip.start (chip.bank dest_addr) (chip.sectors (chip.bank dest_addr)).toNat)
    (hblank : ∀ i < size.toNat, f.mem (dest_addr + BitVec.ofNat 32 i) = 0xff#8) :
    ∃ f', flash_program chip f dest_addr src size = some (0, f') ∧
      Copied chip dest_addr src 0#32 (size.toNat / chip.IAP_BLOCK_SIZE.toNat) f f' := by
  have hbank := h.start_end (chip.bank dest_addr)
  have hblocks : size.toNat / chip.IAP_BLOCK_SIZE.toNat * chip.IAP_BLOCK_SIZE.toNat = size.toNat :=
    Nat.div_mul_cancel (Nat.dvd_of_mod_eq_zero hwhole)
  obtain ⟨f', hrun, hcopied⟩ := h.copyLoop_spec dest_addr src hstart
    (size.toNat / chip.IAP_BLOCK_SIZE.toNat) 0#32 f
    (by rw [hblocks]; exact hend)
  have hverify : ¬ ∃ i < size.toNat, f'.mem (dest_addr + BitVec.ofNat 32 i) ≠ src i := by
    rintro ⟨i, hi, hne⟩
    have haddr := add_ofNat_toNat (a := dest_addr) (n := i) (by omega)
    apply hne
    rw [hcopied.mem, haddr, hblocks, if_pos (by rw [BitVec.toNat_zero]; omega),
      Nat.add_sub_cancel_left]
  refine ⟨f', ?_, hcopied⟩
  unfold flash_program
  dsimp only
  rw [if_neg (not_not.mpr (h.mask_eq_zero hwhole)),
    if_neg (not_not.mpr ((low_byte_eq_zero _).mpr haligned)), h.inside _ _ _ hstart hend,
    if_neg Bool.false_ne_true, if_neg (by push Not; exact hblank), hrun, Option.map_some,
    if_neg hverify]

end Program

/-! ## The write -/

section Write

variable {chip : Chip} {offset size : U32}

theorem erase_mem {f : Flash} {first last : Nat} {bank : Bool} (a : U32) :
    (f.erase chip first last bank).mem a =
      if chip.start bank first ≤ a.toNat ∧ a.toNat < chip.start bank (last + 1) then 0xff#8
      else f.mem a := rfl

/-- An `envm_write` that erases sectors. -/
theorem envm_write_erases {first last : U32} (haccepts : chip.accepts offset size)
    (hfirst : chip.find_sector offset (chip.bank offset) = some first)
    (hlast : chip.find_sector (offset + size - 1#32) (chip.bank offset) = some last)
    (hle : first ≤ last) (hlt : last < chip.sectors (chip.bank offset)) (f : Flash)
    (buf : Nat → Byte) :
    envm_write chip f offset buf size =
      (flash_program chip (f.erase chip first.toNat last.toNat (chip.bank offset)) offset buf
        (chip.rounded size)).map fun result =>
          if result.1 < 0 then (chip.failure result.1, result.2) else (size, result.2) := by
  have herase : flash_erase chip f offset size (chip.bank offset) =
      some (0, f.erase chip first.toNat last.toNat (chip.bank offset)) := by
    rw [flash_erase, hfirst, hlast]
    change some (if _ then _ else _) = _
    rw [if_neg]
    rw [not_or]
    exact ⟨BitVec.not_lt.mpr hle, fun hge => (BitVec.not_lt.mpr hge) hlt⟩
  rw [envm_write, haccepts, herase]
  change (flash_program _ _ _ _ _).bind _ = _
  cases flash_program chip (f.erase chip first.toNat last.toNat (chip.bank offset)) offset buf
    (chip.rounded size) <;> rfl

/-- Nothing can go wrong on a range that fits. -/
theorem Chip.Valid.rejectsFirst_of_fits (h : chip.Valid) (hfits : Fits chip offset size) :
    RejectsFirst chip offset size := by
  obtain ⟨first, last, haccepts, hfirst, hlast, hle, hlt, hsize, haligned, hend⟩ := hfits
  have hstart := h.accepted offset size haccepts
  have hbank := h.start_end (chip.bank offset)
  have hlastLt : last.toNat < (chip.sectors (chip.bank offset)).toNat := BitVec.lt_def.mp hlt
  have hfirstLe : first.toNat ≤ last.toNat := BitVec.le_def.mp hle
  have hinBank : chip.start (chip.bank offset) (last.toNat + 1) ≤
      chip.start (chip.bank offset) (chip.sectors (chip.bank offset)).toNat :=
    h.start_le _ hlastLt (Nat.le_refl _)
  have hsizeLe := h.size_le_whole size
  have hpos : 0 < size.toNat := Nat.pos_of_ne_zero fun hzero => hsize (BitVec.eq_of_toNat_eq hzero)
  have hrounded : (chip.rounded size).toNat = chip.whole size := by
    obtain hexact | ⟨-, hwrap⟩ := h.rounded_cases hsize
    · exact hexact
    · omega
  have hlastAddr : (offset + size - 1#32).toNat = offset.toNat + size.toNat - 1 := by
    rw [BitVec.toNat_sub, BitVec.toNat_add, BitVec.toNat_one (by decide)]
    omega
  have hinFirst := h.found _ _ _ hstart hfirst (BitVec.lt_def.mpr (hfirstLe.trans_lt hlastLt))
  have hinLast := h.found _ _ _ (by omega) hlast hlt
  have hblocks : (chip.rounded size).toNat / chip.IAP_BLOCK_SIZE.toNat *
      chip.IAP_BLOCK_SIZE.toNat = chip.whole size := by
    rw [hrounded]
    exact Nat.div_mul_cancel (Dvd.intro_left _ rfl)
  obtain ⟨hfirstLow, hfirstHigh⟩ := hinFirst
  obtain ⟨hlastLow, -⟩ := hinLast
  dsimp only at hfirstLow hfirstHigh hlastLow
  intro mem buf
  obtain ⟨f', hprogram, hmem, herased, hcopies⟩ := h.flash_program_ok
    (f := Flash.erase chip ⟨mem, [], []⟩ first.toNat last.toNat (chip.bank offset)) buf
    (chip.rounded size)
    (by rw [hrounded, Chip.whole]; exact Nat.mul_mod_left _ _) haligned hstart (by omega)
    (by
      intro i hi
      have haddr := add_ofNat_toNat (a := offset) (n := i) (by omega)
      rw [erase_mem, haddr, if_pos (by omega)])
  refine ⟨(size, f'), ?_, ?_⟩
  · rw [envm_write_erases haccepts hfirst hlast hle hlt, hprogram]
    rfl
  · constructor
    · exact fun hne => absurd rfl hne
    · intro _ k hk
      have haddr := add_ofNat_toNat (a := offset) (n := k) (by omega)
      dsimp only
      rw [hmem, haddr, hblocks, if_pos (by rw [BitVec.toNat_zero]; omega), Nat.add_sub_cancel_left]
    · rintro - ⟨i, b⟩ hs
      rw [herased] at hs
      obtain ⟨hi, rfl⟩ := of_mem_erased rfl hs
      -- the first sector holds the first byte, every other one begins inside the range
      obtain heq | hlater := Nat.eq_or_lt_of_le hi.1
      · refine ⟨0, hpos, ?_⟩
        rw [BitVec.add_zero, ← heq]
        exact ⟨hfirstLow, hfirstHigh⟩
      · have hbefore := h.start_le (chip.bank offset) (i := first.toNat + 1) (j := i) hlater
          (by omega)
        have hbehind := h.start_le (chip.bank offset) (i := i) (j := last.toNat) hi.2
          (by omega)
        have hthis := h.start_lt (chip.bank offset) i (by omega)
        have haddr := add_ofNat_toNat (a := offset)
          (n := chip.start (chip.bank offset) i - offset.toNat) (by omega)
        refine ⟨chip.start (chip.bank offset) i - offset.toNat, by omega, ?_⟩
        rw [Chip.InSector, haddr]
        dsimp only
        omega
    · intro dst hdst
      obtain hnone | ⟨j, hj, hdst⟩ := hcopies dst hdst
      · cases hnone
      · rw [BitVec.toNat_zero, Nat.add_zero] at hdst
        have hinside : (j + 1) * chip.IAP_BLOCK_SIZE.toNat ≤ chip.whole size := by
          rw [← hblocks]
          exact Nat.mul_le_mul_right _ hj
        rw [Nat.add_mul, Nat.one_mul] at hinside
        constructor
        · rw [hdst]
          obtain hblock | hblock := h.block_toNat
          · rw [hblock]
            omega
          · rw [hblock]
            omega
        · intro i hi
          have haddr := add_ofNat_toNat (a := dst) (n := i) (by omega)
          have hlastSucc : first.toNat + (last.toNat + 1 - first.toNat) = last.toNat + 1 := by omega
          obtain ⟨k, hlow, hhigh, hin⟩ := exists_sector chip (chip.bank offset)
            first.toNat (last.toNat + 1 - first.toNat) (a := dst + BitVec.ofNat 32 i) (by omega) (by rw [hlastSucc]; omega)
          refine ⟨(k, chip.bank offset), ?_, hin⟩
          rw [herased]
          exact mem_erased rfl (by omega)

/-- Nothing was done, and the result is not taken for the size of a range with bytes. -/
theorem sound_idle {mem : U32 → Byte} {buf : Nat → Byte} {rv : U32}
    (hrv : size = 0#32 ∨ rv ≠ size) : Sound chip mem offset buf size (rv, ⟨mem, [], []⟩) where
  kept _ := rfl
  written heq k hk := by
    obtain rfl | hne := hrv
    · exact absurd hk (Nat.not_lt_zero k)
    · exact absurd heq hne
  covering _ := nofun
  copies := nofun

/-- The search gives sectors that are out of order, or none. -/
theorem envm_write_out_of_order {first last : U32} (haccepts : chip.accepts offset size)
    (hfirst : chip.find_sector offset (chip.bank offset) = some first)
    (hlast : chip.find_sector (offset + size - 1#32) (chip.bank offset) = some last)
    (hout : last < first ∨ last ≥ chip.sectors (chip.bank offset)) (f : Flash) (buf : Nat → Byte) :
    envm_write chip f offset buf size = some (chip.failure (-EINVAL), f) := by
  have herase : flash_erase chip f offset size (chip.bank offset) = some (-EINVAL, f) := by
    rw [flash_erase, hfirst, hlast]
    change some (if _ then _ else _) = _
    rw [if_pos hout]
  rw [envm_write, haccepts, herase]
  rfl

theorem rejectsFirst_of_refused (h : Refused chip offset size) : RejectsFirst chip offset size := by
  intro mem buf
  obtain hcheck | ⟨first, last, hfirst, hlast, hout, hrv⟩ := h
  · refine ⟨_, ?_, sound_idle (or_iff_not_imp_left.mpr Ne.symm)⟩
    rw [envm_write, hcheck]
    rfl
  · by_cases haccepts : chip.accepts offset size
    · exact ⟨_, envm_write_out_of_order haccepts hfirst hlast hout _ buf, sound_idle hrv⟩
    · refine ⟨_, ?_, sound_idle (or_iff_not_imp_left.mpr Ne.symm)⟩
      rw [envm_write, Bool.eq_false_iff.mpr haccepts]
      rfl

/-- Sectors were erased on a flash of zeros, and nothing was programmed. -/
theorem Chip.Valid.not_sound_erased (h : chip.Valid) {first last : Nat} {bank : Bool} {rv : U32}
    (hle : first ≤ last) (hlt : last < (chip.sectors bank).toNat) :
    ¬ Sound chip (fun _ => 0#8) offset (fun _ => 1#8) size
      (rv, Flash.erase chip ⟨fun _ => 0#8, [], []⟩ first last bank) := by
  intro hsound
  have hbank := h.start_end bank
  have hhigh := h.start_le bank (i := last + 1) hlt (Nat.le_refl _)
  have hlow := h.start_le bank (i := first) (j := last) hle hlt.le
  have hlast := h.start_lt bank last hlt
  by_cases hrv : rv = size
  · by_cases hsize : size.toNat = 0
    · obtain ⟨k, hk, -⟩ := hsound.covering hrv (first, bank) (mem_erased rfl ⟨Nat.le_refl _, hle⟩)
      omega
    · have hwritten := hsound.written hrv 0 (Nat.pos_of_ne_zero hsize)
      rw [erase_mem] at hwritten
      split at hwritten
      · exact absurd hwritten (by decide)
      · exact absurd (show 0#8 = 1#8 from hwritten) (by decide)
  · have hkept := congrFun (hsound.kept hrv) (BitVec.ofNat 32 (chip.start bank first))
    rw [erase_mem, BitVec.toNat_ofNat, Nat.mod_eq_of_lt (by omega), if_pos (by omega)] at hkept
    exact absurd hkept (by decide)

/-- A blank range of an erased flash of zeros is inside of what was erased. -/
theorem Chip.Valid.blank_range (h : chip.Valid) {first last n : Nat} {bank : Bool}
    (hlt : last < (chip.sectors bank).toNat) (hn : n ≠ 0)
    (hblank : ∀ i < n, (Flash.erase chip ⟨fun _ => 0#8, [], []⟩ first last bank).mem
      (offset + BitVec.ofNat 32 i) = 0xff#8) :
    offset.toNat + n ≤ chip.start bank (last + 1) := by
  have hbank := h.start_end bank
  have hhigh := h.start_le bank (i := last + 1) hlt (Nat.le_refl _)
  have hin : ∀ i < n, (offset + BitVec.ofNat 32 i).toNat < chip.start bank (last + 1) := by
    intro i hi
    have hmem := hblank i hi
    rw [erase_mem] at hmem
    split at hmem
    · rename_i hrange
      exact hrange.2
    · exact absurd (show 0#8 = 0xff#8 from hmem) (by decide)
  have hfirst := hin 0 (Nat.pos_of_ne_zero hn)
  rw [BitVec.add_zero] at hfirst
  by_contra hout
  -- the byte right behind the erased sectors would be blank
  have hbehind := hin (chip.start bank (last + 1) - offset.toNat) (by omega)
  rw [add_ofNat_toNat (by omega)] at hbehind
  omega

/-- A write that returns has found its first and its last sector. -/
theorem found_of_some {f : Flash} {buf : Nat → Byte} {result : U32 × Flash}
    (haccepts : chip.accepts offset size) (h : envm_write chip f offset buf size = some result) :
    ∃ first last, chip.find_sector offset (chip.bank offset) = some first ∧
      chip.find_sector (offset + size - 1#32) (chip.bank offset) = some last := by
  rw [envm_write, haccepts, flash_erase] at h
  cases hfirst : chip.find_sector offset (chip.bank offset) with
  | none =>
      rw [hfirst] at h
      cases h
  | some first =>
      cases hlast : chip.find_sector (offset + size - 1#32) (chip.bank offset) with
      | none =>
          rw [hfirst, hlast] at h
          cases h
      | some last => exact ⟨first, last, rfl, rfl⟩

theorem Chip.Valid.refused_or_fits (h : chip.Valid) (hall : RejectsFirst chip offset size) :
    Refused chip offset size ∨ Fits chip offset size := by
  obtain ⟨result, hrun, hsound⟩ := hall (fun _ => 0#8) (fun _ => 1#8)
  by_cases haccepts : chip.accepts offset size
  · obtain ⟨first, last, hfirst, hlast⟩ := found_of_some haccepts hrun
    by_cases hout : last < first ∨ last ≥ chip.sectors (chip.bank offset)
    · -- the error is returned, and the buffer is not in the flash
      rw [envm_write_out_of_order haccepts hfirst hlast hout] at hrun
      cases hrun
      refine .inl (.inr ⟨first, last, hfirst, hlast, hout, or_iff_not_imp_right.mpr fun hrv => ?_⟩)
      by_contra hsize
      have hwritten := hsound.written (not_not.mp hrv) 0
        (Nat.pos_of_ne_zero fun hzero => hsize (BitVec.eq_of_toNat_eq hzero))
      exact absurd (show 0#8 = 1#8 from hwritten) (by decide)
    · rw [not_or] at hout
      have hle : first ≤ last := BitVec.not_lt.mp hout.1
      have hlt : last < chip.sectors (chip.bank offset) := BitVec.not_le.mp hout.2
      have hunsound : ∀ rv, ¬ Sound chip _ offset _ size (rv, _) := fun rv =>
        h.not_sound_erased (BitVec.le_def.mp hle) (BitVec.lt_def.mp hlt)
      rw [envm_write_erases haccepts hfirst hlast hle hlt] at hrun
      obtain ⟨rv, hneg, hprogram⟩ | ⟨haligned, hblank⟩ := flash_program_cases chip
        (Flash.erase chip ⟨fun _ => 0#8, [], []⟩ first.toNat last.toNat (chip.bank offset)) offset
        (fun _ => 1#8) (chip.rounded size)
      · rw [hprogram, Option.map_some, if_pos hneg] at hrun
        cases hrun
        exact absurd hsound (hunsound _)
      · by_cases hzero : (chip.rounded size).toNat = 0
        · obtain ⟨rv, hprogram⟩ := flash_program_empty
            (Flash.erase chip ⟨fun _ => 0#8, [], []⟩ first.toNat last.toNat (chip.bank offset))
            offset (fun _ => 1#8) hzero
          rw [hprogram, Option.map_some] at hrun
          split at hrun
          · cases hrun
            exact absurd hsound (hunsound _)
          · cases hrun
            exact absurd hsound (hunsound _)
        · have hsize : size ≠ 0#32 := by
            rintro rfl
            exact hzero h.rounded_zero
          have hexact := (h.rounded_cases hsize).resolve_right fun hwrap => hzero hwrap.1
          have hrange := h.blank_range (BitVec.lt_def.mp hlt) hzero hblank
          rw [hexact] at hrange
          exact .inr ⟨first, last, haccepts, hfirst, hlast, hle, hlt, hsize, haligned, hrange⟩
  · exact .inl (.inl (Bool.eq_false_iff.mpr haccepts))

/-- A write is right on every content and buffer if and only if it is refused before anything is
erased, or fits. -/
theorem Chip.Valid.rejectsFirst_iff (h : chip.Valid) (offset size : U32) :
    RejectsFirst chip offset size ↔ Refused chip offset size ∨ Fits chip offset size :=
  ⟨h.refused_or_fits, fun hcase => hcase.elim rejectsFirst_of_refused h.rejectsFirst_of_fits⟩

end Write

end UBoot.Lpc
