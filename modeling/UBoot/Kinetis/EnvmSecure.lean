/-
# Kinetis keeps the flash unsecured

A run of calls of `envm_write`. The end of a range is computed modulo 2^32, and the test of the
byte for the security register uses it. When the end is 0, a call that begins inside the flash
passes every test and programs all sectors up to the end of the flash.
-/

import UBoot.Kinetis.EnvmWrite
import UBoot.Lib.Run

namespace UBoot.Kinetis

open UBoot.Lib

variable {part : Part} {buf : U32 → Byte} {offset size : U32}

/-- The flash memory module finishes all its commands. -/
def noFaults : Faults := fun _ => none

/-- A call of `envm_write` -/
structure Call where
  offset : U32
  buf : U32 → Byte
  size : U32

/-- A call leads from a flash to another. A call that stops the processor is followed by a
reset, which keeps the flash. -/
def Called (part : Part) (f : Flash) (c : Call) (f' : Flash) : Prop :=
  (envm_write part noFaults c.offset c.buf c.size f).1 = f'

/-- The byte for the security register says `UNSECURE`. -/
def Unsecure (f : Flash) : Prop :=
  f.nvm KINETIS_FLASH_FSEC_OFFSET &&& KINETIS_FLASH_CONF_FSEC_SEC_MSK =
    KINETIS_FLASH_CONF_FSEC_SEC_UNSECURE

instance instDecidableUnsecure (f : Flash) : Decidable (Unsecure f) :=
  inferInstanceAs (Decidable (_ = _))

/-- A call asks for nothing, or for something beyond the flash. -/
def Call.Empty (part : Part) (c : Call) : Prop :=
  c.size = 0#32 ∨ part.CONFIG_MEM_NVM_LEN < c.offset.toNat + c.size.toNat

/-- The range ends at 0 modulo 2^32, and begins inside the flash. -/
def Call.EndsAtZero (part : Part) (c : Call) : Prop :=
  c.offset + c.size = 0#32 ∧ c.offset.toNat < part.CONFIG_MEM_NVM_LEN

/-! ## Calls outside the flash -/

/-- A sector beyond the flash and a copy beyond the acceleration RAM are refused. -/
theorem program_sector_refused {faults : Faults} {f : Flash} {sect sect_offset src size : U32}
    (h : part.CONFIG_MEM_NVM_LEN / part.FLASH_SECTOR_SIZE ≤ sect.toNat ∨
      part.FLASH_PROG_ACCEL_SIZE < sect_offset.toNat + size.toNat) :
    ∃ outcome, outcome ≠ .returns 0 ∧
      kinetis_flash_program_sector part faults buf sect sect_offset src size f = (f, outcome) := by
  rw [kinetis_flash_program_sector]
  split_ifs with beyond long copy
  · exact ⟨_, by decide, rfl⟩
  · exact ⟨_, by decide, rfl⟩
  · exact ⟨_, by decide, rfl⟩
  · exact absurd h (by omega)

/-- The loop ends at a first sector that is refused. -/
theorem programSectors_refused {faults : Faults} {f : Flash} {first last : U32} {n : Nat}
    (h : part.CONFIG_MEM_NVM_LEN / part.FLASH_SECTOR_SIZE ≤ first.toNat ∨
      part.FLASH_PROG_ACCEL_SIZE < (sectOffset part offset first first).toNat +
        (sectLen part offset size first last first).toNat) :
    (programSectors part faults buf offset size first last n first f).1 = f := by
  cases n with
  | zero => rfl
  | succ n =>
      obtain ⟨outcome, hne, hrefused⟩ := @program_sector_refused part buf faults f first
        (sectOffset part offset first first)
        (first * part.sectorSize + sectOffset part offset first first - offset)
        (sectLen part offset size first last first) h
      rw [programSectors, hrefused]
      split
      · next heq => exact absurd (congrArg Prod.snd heq) hne
      · next heq => exact (congrArg Prod.fst heq).symm

/-- The flash after the call is what the loop leaves, when the call is not refused before. -/
theorem envm_write_flash {faults : Faults} {f : Flash} (hend : (offset + size).toNat ≤
    part.CONFIG_MEM_NVM_LEN) (hsecures : securesMcu offset size buf = false) :
    (envm_write part faults offset buf size f).1 =
      (kinetis_flash_program part faults buf offset size f).1 := by
  rw [envm_write, if_neg (by omega), hsecures, if_neg (by decide)]
  split
  · next heq => rw [heq]
  · next heq => rw [heq]

/-- The range ends where it begins, or modulo 2^32 before that, but not at 0: there is no sector
between the first and the last, or the one there is has nothing new, or is refused. -/
theorem program_empty {f : Flash} (hend : (offset + size).toNat ≤ part.CONFIG_MEM_NVM_LEN)
    (hback : (offset + size).toNat ≤ offset.toNat) (hpos : 0 < (offset + size).toNat) :
    (kinetis_flash_program part noFaults buf offset size f).1.nvm = f.nvm := by
  have haddr := part.address
  have hfirst := @first_toNat part offset
  have hlast : ((offset + size - 1#32) / part.sectorSize).toNat =
      ((offset + size).toNat - 1) / part.FLASH_SECTOR_SIZE := by
    rw [BitVec.toNat_udiv, sectorSize_toNat]
    congr 1
    bv_omega
  rw [kinetis_flash_program, hfirst, hlast]
  rcases Nat.lt_or_ge (((offset + size).toNat - 1) / part.FLASH_SECTOR_SIZE)
    (firstSect part offset) with before | same
  · rw [Nat.sub_eq_zero_of_le (by omega)]
    rfl
  · have hle : ((offset + size).toNat - 1) / part.FLASH_SECTOR_SIZE ≤ firstSect part offset :=
      Nat.div_le_div_right (by omega)
    have heq : offset / part.sectorSize = (offset + size - 1#32) / part.sectorSize :=
      BitVec.eq_of_toNat_eq (by rw [hfirst, hlast]; omega)
    rw [show ((offset + size).toNat - 1) / part.FLASH_SECTOR_SIZE + 1 - firstSect part offset = 1
      by omega]
    have hoff : (sectOffset part offset (offset / part.sectorSize) (offset / part.sectorSize)).toNat =
        offset.toNat - firstSect part offset * part.FLASH_SECTOR_SIZE := by
      rw [sectOffset, if_pos rfl]
      have hmul := Nat.div_mul_le_self offset.toNat part.FLASH_SECTOR_SIZE
      rw [firstSect] at hfirst ⊢
      have hsize : part.sectorSize = BitVec.ofNat 32 part.FLASH_SECTOR_SIZE := rfl
      generalize offset / part.sectorSize = a at hfirst ⊢
      rw [hsize]
      rcases part.sector with hS | hS <;> rw [hS] at hfirst hmul ⊢ <;> bv_omega
    have hlen : sectLen part offset size (offset / part.sectorSize)
        ((offset + size - 1#32) / part.sectorSize) (offset / part.sectorSize) = size :=
      if_pos heq
    rcases Nat.eq_zero_or_pos size.toNat with zero | wraps
    · -- the sector is written as it was
      have hsize : size = 0#32 := BitVec.eq_of_toNat_eq zero
      obtain ⟨accel, hwrite⟩ := @program_sector_ok part noFaults buf f (offset / part.sectorSize)
        (sectOffset part offset (offset / part.sectorSize) (offset / part.sectorSize))
        (offset / part.sectorSize * part.sectorSize +
          sectOffset part offset (offset / part.sectorSize) (offset / part.sectorSize) - offset)
        (sectLen part offset size (offset / part.sectorSize)
          ((offset + size - 1#32) / part.sectorSize) (offset / part.sectorSize))
        (by
          obtain ⟨m, hm⟩ := part.whole
          rw [hfirst, firstSect]
          rw [firstSect] at same
          rcases part.sector with hS | hS <;> rw [hS] at hm same ⊢ <;> omega)
        (by
          rw [hoff, hlen, zero, firstSect]
          rcases part.sector with hS | hS <;> rw [hS] <;> omega) rfl rfl
      rw [programSectors, hwrite]
      simp only [programSectors]
      rw [hlen, zero]
      exact store_nil _ _
    · rw [programSectors_refused]
      right
      have haccel := part.accel
      have hstart : firstSect part offset * part.FLASH_SECTOR_SIZE ≤ (offset + size).toNat - 1 :=
        (Nat.mul_le_mul_right _ same).trans (Nat.div_mul_le_self _ _)
      have hover : offset.toNat < firstSect part offset * part.FLASH_SECTOR_SIZE +
          part.FLASH_SECTOR_SIZE := by
        rw [firstSect]
        rcases part.sector with hS | hS <;> rw [hS] <;> omega
      have hhalf := part.half
      rw [hlen]
      bv_omega

/-- A range that ends at 0 and does not begin inside the flash is refused. -/
theorem program_beyond {f : Flash} (hoff : part.CONFIG_MEM_NVM_LEN ≤ offset.toNat) :
    (kinetis_flash_program part noFaults buf offset size f).1.nvm = f.nvm := by
  rw [kinetis_flash_program, programSectors_refused]
  exact Or.inl (by rw [first_toNat]; exact Nat.div_le_div_right hoff)

/-! ## One call, and a run of calls -/

/-- A call whose range does not end at 0 leaves the flash as it was, or writes a range inside
the flash. -/
theorem called_cases {f f' : Flash} {c : Call} (h : Called part f c f')
    (hend : ¬ c.EndsAtZero part) :
    f'.nvm = f.nvm ∨
    (InFlash part c.offset c.size ∧ securesMcu c.offset c.size c.buf = false ∧
      f'.nvm = store f.nvm c.offset.toNat (bytes c.buf 0#32 c.size.toNat)) := by
  obtain ⟨offset, buf, size⟩ := c
  simp only [Called] at h
  simp only [Call.EndsAtZero, not_and, not_lt] at hend
  subst h
  have haddr := part.address
  rcases Nat.lt_or_ge part.CONFIG_MEM_NVM_LEN (offset + size).toNat with beyond | inside
  · exact Or.inl (by rw [envm_write, if_pos beyond])
  · rcases hsecures : securesMcu offset size buf with _ | _
    · by_cases hin : InFlash part offset size
      · obtain ⟨accel, hwrite⟩ := @envm_write_overlay part noFaults buf offset size hin hsecures f
          fun _ _ => rfl
        exact Or.inr ⟨hin, rfl, by rw [hwrite]⟩
      · left
        have hback : (offset + size).toNat ≤ offset.toNat := by
          by_contra hover
          exact hin ⟨by bv_omega, by bv_omega⟩
        rw [envm_write_flash inside hsecures]
        rcases Nat.eq_zero_or_pos (offset + size).toNat with zero | pos
        · exact program_beyond (hend (BitVec.eq_of_toNat_eq zero))
        · exact program_empty inside hback pos
    · exact Or.inl (by rw [envm_write, if_neg (by omega), hsecures, if_pos rfl])

/-- A call keeps the flash unsecured. -/
theorem called_unsecure {f f' : Flash} {c : Call} (h : Called part f c f')
    (hend : ¬ c.EndsAtZero part) (hunsecure : Unsecure f) : Unsecure f' := by
  rcases called_cases h hend with same | ⟨hin, hsecures, hstore⟩
  · rw [Unsecure, same]
    exact hunsecure
  · rw [Unsecure, hstore]
    have haddr := part.address
    have hfin := hin.fin
    by_cases hcovers : c.offset.toNat ≤ KINETIS_FLASH_FSEC_OFFSET ∧
        KINETIS_FLASH_FSEC_OFFSET < c.offset.toNat + c.size.toNat
    · obtain ⟨k, hk⟩ := Nat.exists_eq_add_of_le hcovers.1
      have hbyte := @getElem?_bytes c.buf 0#32 c.size.toNat k (by omega)
      rw [hk, store_add hbyte]
      -- this is the byte that the guard looks at
      have hsum : (c.offset + c.size).toNat = c.offset.toNat + c.size.toNat := by bv_omega
      rw [securesMcu, hsum, decide_eq_false_iff_not] at hsecures
      have hguard := not_not.1 fun hne => hsecures ⟨hcovers.1, hcovers.2, hne⟩
      rw [hk] at hguard
      rw [← hguard]
      congr 2
      bv_omega
    · rw [store_outside (by rw [length_bytes]; omega)]
      exact hunsecure

/-- A call for nothing, or for something beyond the flash, does not change the flash. -/
theorem called_empty {f f' : Flash} {c : Call} (h : Called part f c f')
    (hend : ¬ c.EndsAtZero part) (hempty : c.Empty part) : f'.nvm = f.nvm := by
  rcases called_cases h hend with same | ⟨hin, -, -⟩
  · exact same
  · have hpos := hin.pos
    have hfin := hin.fin
    rcases hempty with zero | beyond
    · rw [zero] at hpos
      exact absurd hpos (by decide)
    · omega

/-- A call whose range does not end at 0 inside the flash. -/
def CalledApart (part : Part) (f : Flash) (c : Call) (f' : Flash) : Prop :=
  Called part f c f' ∧ ¬ c.EndsAtZero part

/-- A flash as it comes: erased, and unsecured. -/
def delivered : Flash := { erased with nvm := fun _ => 0xfe#8 }

/-- A call of 16 bytes that end behind the byte. -/
def near : Call := ⟨0x400#32, fun _ => 0xfe#8, 16#32⟩

end UBoot.Kinetis
