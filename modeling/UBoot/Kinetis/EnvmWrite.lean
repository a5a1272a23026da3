/-
# Writes to the Kinetis flash

A call of `envm_write` puts the source over the flash sector by sector, and stops at the first
command that fails. What keeps the microcontroller from being secured is a test of the range,
which holds when the end of the range is not 0 modulo 2^32.
-/

import UBoot.Kinetis.Envm

namespace UBoot.Kinetis

open UBoot.Lib

variable {part : Part} {faults : Faults} {buf : U32 → Byte}

/-! ## Bytes of the source -/

@[simp] theorem length_bytes (src : U32) (n : Nat) : (bytes buf src n).length = n := by
  simp [bytes]

theorem getElem?_bytes {src : U32} {n k : Nat} (h : k < n) :
    (bytes buf src n)[k]? = some (buf (src + BitVec.ofNat 32 k)) := by
  simp [bytes, h]

theorem bytes_add (src : U32) (n k : Nat) :
    bytes buf src (n + k) = bytes buf src n ++ bytes buf (src + BitVec.ofNat 32 n) k := by
  rw [bytes, List.range_add, List.map_append, List.map_map, bytes, bytes]
  congr 2
  funext i
  simp [BitVec.ofNat_add, BitVec.add_assoc]

/-! ## A sector -/

/-- In a sector the acceleration RAM holds the source over the flash. -/
theorem fillAccel_eq {f : Flash} {sect off : Nat} {source : List Byte} {i : Nat}
    (hin : part.InSector sect i) (hfit : off + source.length ≤ part.FLASH_SECTOR_SIZE) :
    fillAccel part sect off (off + source.length) source f (i - sect * part.FLASH_SECTOR_SIZE) =
      store f.nvm (sect * part.FLASH_SECTOR_SIZE + off) source i := by
  obtain ⟨k, rfl⟩ := Nat.exists_eq_add_of_le hin.1
  have hk : k < part.FLASH_SECTOR_SIZE := by
    have := hin.2
    rw [Nat.add_mul] at this
    omega
  rw [Nat.add_sub_cancel_left, fillAccel]
  rcases Nat.lt_or_ge k off with before | after
  · rw [store_outside (Or.inl before), store_outside (by omega),
      store_outside (m := f.nvm) (by omega)]
    have := @store_add _ f.accel 0 k (slice f.nvm (sect * part.FLASH_SECTOR_SIZE) off) _
      (getElem?_slice f.nvm before)
    rwa [Nat.zero_add] at this
  · obtain ⟨j, rfl⟩ := Nat.exists_eq_add_of_le after
    rcases Nat.lt_or_ge j source.length with inside | behind
    · rw [store_add (List.getElem?_eq_getElem inside), ← Nat.add_assoc,
        store_add (List.getElem?_eq_getElem inside)]
    · obtain ⟨r, rfl⟩ := Nat.exists_eq_add_of_le behind
      have rest := @store_add _ (store f.accel 0 (slice f.nvm (sect * part.FLASH_SECTOR_SIZE) off))
        (off + source.length) r _ _
        (getElem?_slice f.nvm (i := sect * part.FLASH_SECTOR_SIZE + (off + source.length))
          (n := part.FLASH_SECTOR_SIZE - (off + source.length)) (by omega))
      rw [store_outside (by omega), store_outside (m := f.nvm) (by omega), ← Nat.add_assoc off, rest,
        Nat.add_assoc]

/-- A sector is written, and nothing else. -/
theorem program_sector_ok {f : Flash} {sect sect_offset src size : U32}
    (hsect : sect.toNat < part.CONFIG_MEM_NVM_LEN / part.FLASH_SECTOR_SIZE)
    (hfit : sect_offset.toNat + size.toNat ≤ part.FLASH_SECTOR_SIZE)
    (herase : faults f.commands.length = none)
    (hprogram : faults (f.commands.length + 1) = none) :
    ∃ accel, kinetis_flash_program_sector part faults buf sect sect_offset src size f =
      ({ nvm := store f.nvm (sect.toNat * part.FLASH_SECTOR_SIZE + sect_offset.toNat)
          (bytes buf src size.toNat)
         accel := accel
         commands := f.commands ++ [.erase sect.toNat, .program sect.toNat] }, .returns 0) := by
  have hsum : (sect_offset + size).toNat = sect_offset.toNat + size.toNat := by
    rcases part.sector with h | h <;> rw [h] at hfit <;> bv_omega
  have haccel := part.half
  refine ⟨fillAccel part sect.toNat sect_offset.toNat (sect_offset.toNat + size.toNat)
    (bytes buf src size.toNat) f, ?_⟩
  rw [kinetis_flash_program_sector, if_neg (by omega), if_neg (by omega), if_neg (by omega)]
  simp only [kinetis_ftfl_erase_sector, kinetis_ftfl_program_section, kinetis_ftfl_command, herase,
    hprogram, List.length_append, List.length_singleton, ne_eq, not_true_eq_false, if_false,
    List.append_assoc, List.cons_append, List.nil_append]
  rw [hsum]
  congr 2
  funext i
  split
  · next hin =>
      have := @fillAccel_eq part f sect.toNat sect_offset.toNat (bytes buf src size.toNat) i hin
        (by simpa using hfit)
      rw [length_bytes] at this
      simp only [this]
      exact BitVec.allOnes_and
  · next hout =>
      refine (store_outside ?_).symm
      rw [length_bytes]
      simp only [Part.InSector, not_and, not_lt, Nat.add_mul] at hout
      omega

/-- When a command fails, the sector is as the command leaves it, and everything else as it
was. -/
theorem program_sector_fail {f : Flash} {sect sect_offset src size : U32}
    (hsect : sect.toNat < part.CONFIG_MEM_NVM_LEN / part.FLASH_SECTOR_SIZE)
    (hfit : sect_offset.toNat + size.toNat ≤ part.FLASH_SECTOR_SIZE) {k : Nat} (hk : k < 2)
    (hbefore : ∀ j < k, faults (f.commands.length + j) = none)
    (hfault : faults (f.commands.length + k) ≠ none) :
    ∃ f', kinetis_flash_program_sector part faults buf sect sect_offset src size f =
        (f', .returns (- EIO)) ∧
      (∀ i, ¬ part.InSector sect.toNat i → f'.nvm i = f.nvm i) ∧
      f'.commands = f.commands ++ [.erase sect.toNat, .program sect.toNat].take (k + 1) := by
  have hsum : (sect_offset + size).toNat = sect_offset.toNat + size.toNat := by
    rcases part.sector with h | h <;> rw [h] at hfit <;> bv_omega
  have haccel := part.half
  rw [kinetis_flash_program_sector, if_neg (by omega), if_neg (by omega), if_neg (by omega)]
  simp only [kinetis_ftfl_erase_sector, kinetis_ftfl_program_section, kinetis_ftfl_command]
  obtain ⟨left, hleft⟩ := Option.ne_none_iff_exists'.1 hfault
  obtain rfl | rfl : k = 0 ∨ k = 1 := by omega
  · simp only [Nat.add_zero] at hleft
    rw [hleft]
    exact ⟨_, rfl, fun i hi => if_neg hi, rfl⟩
  · rw [show faults f.commands.length = none from hbefore 0 (by decide)]
    simp only [List.length_append, List.length_singleton, hleft, ne_eq, not_true_eq_false,
      if_false]
    refine ⟨_, rfl, fun i hi => ?_, by simp [List.append_assoc]⟩
    exact (if_neg hi).trans (if_neg hi)

/-! ## The pieces of a range -/

section Range

variable {dest_addr size : U32}

/-- A range inside the flash. -/
structure InFlash (part : Part) (dest_addr size : U32) : Prop where
  pos : 0 < size.toNat
  fin : dest_addr.toNat + size.toNat ≤ part.CONFIG_MEM_NVM_LEN

/-- The first sector of a range, and the last. -/
def firstSect (part : Part) (dest_addr : U32) : Nat := dest_addr.toNat / part.FLASH_SECTOR_SIZE
def lastSect (part : Part) (dest_addr size : U32) : Nat :=
  (dest_addr.toNat + size.toNat - 1) / part.FLASH_SECTOR_SIZE

/-- Where the piece in a sector begins, and where it ends. -/
def pieceStart (part : Part) (dest_addr : U32) (sect : Nat) : Nat :=
  max (sect * part.FLASH_SECTOR_SIZE) dest_addr.toNat
def pieceEnd (part : Part) (dest_addr size : U32) (sect : Nat) : Nat :=
  min ((sect + 1) * part.FLASH_SECTOR_SIZE) (dest_addr.toNat + size.toNat)

theorem sectorSize_toNat : part.sectorSize.toNat = part.FLASH_SECTOR_SIZE := by
  rw [Part.sectorSize, BitVec.toNat_ofNat]
  rcases part.sector with h | h <;> rw [h]

theorem first_toNat : (dest_addr / part.sectorSize).toNat = firstSect part dest_addr := by
  rw [BitVec.toNat_udiv, sectorSize_toNat, firstSect]

theorem last_toNat (h : InFlash part dest_addr size) :
    ((dest_addr + size - 1#32) / part.sectorSize).toNat = lastSect part dest_addr size := by
  have := h.pos
  have := h.fin
  have := part.address
  rw [BitVec.toNat_udiv, sectorSize_toNat, lastSect]
  congr 1
  bv_omega

theorem Part.size_pos (part : Part) : 0 < part.FLASH_SECTOR_SIZE := by
  rcases part.sector with h | h <;> rw [h] <;> decide

theorem InFlash.lt (h : InFlash part dest_addr size) : dest_addr.toNat + size.toNat < 2 ^ 32 :=
  (h.fin.trans part.address).trans_lt (by decide)

theorem sectBase_toNat {sect : U32} (hlt : sect.toNat * part.FLASH_SECTOR_SIZE < 2 ^ 32) :
    (sect * part.sectorSize).toNat = sect.toNat * part.FLASH_SECTOR_SIZE := by
  rw [BitVec.toNat_mul, sectorSize_toNat, Nat.mod_eq_of_lt hlt]

theorem firstBase_toNat : (dest_addr / part.sectorSize * part.sectorSize).toNat =
    firstSect part dest_addr * part.FLASH_SECTOR_SIZE := by
  have hle : firstSect part dest_addr * part.FLASH_SECTOR_SIZE ≤ dest_addr.toNat :=
    Nat.div_mul_le_self _ _
  rw [← first_toNat] at hle ⊢
  exact sectBase_toNat (hle.trans_lt dest_addr.isLt)

theorem firstOffset_toNat : (dest_addr - dest_addr / part.sectorSize * part.sectorSize).toNat =
    dest_addr.toNat - firstSect part dest_addr * part.FLASH_SECTOR_SIZE := by
  rw [BitVec.toNat_sub_of_le, firstBase_toNat]
  rw [BitVec.le_def, firstBase_toNat]
  exact Nat.div_mul_le_self _ _

theorem pieceStart_first :
    pieceStart part dest_addr (firstSect part dest_addr) = dest_addr.toNat :=
  max_eq_right (Nat.div_mul_le_self _ _)

theorem pieceStart_later {sect : Nat} (h : firstSect part dest_addr < sect) :
    pieceStart part dest_addr sect = sect * part.FLASH_SECTOR_SIZE :=
  max_eq_left (Nat.le_of_lt ((Nat.div_lt_iff_lt_mul part.size_pos).1 h))

theorem pieceEnd_last :
    pieceEnd part dest_addr size (lastSect part dest_addr size) =
      dest_addr.toNat + size.toNat := by
  have hlt := Nat.lt_mul_of_div_lt (Nat.lt_succ_self (lastSect part dest_addr size)) part.size_pos
  exact min_eq_right (Nat.le_of_pred_lt hlt)

theorem pieceEnd_earlier {sect : Nat} (h : sect < lastSect part dest_addr size) :
    pieceEnd part dest_addr size sect = (sect + 1) * part.FLASH_SECTOR_SIZE :=
  min_eq_left (((Nat.le_div_iff_mul_le part.size_pos).1 h).trans (Nat.sub_le _ _))

/-- Behind the last piece there is none. -/
theorem le_pieceStart_of_last {sect : Nat} (hlast : lastSect part dest_addr size < sect) :
    dest_addr.toNat + size.toNat ≤ pieceStart part dest_addr sect :=
  (Nat.le_of_pred_lt (Nat.lt_mul_of_div_lt hlast part.size_pos)).trans (Nat.le_max_left _ _)

theorem sectBase_lt (h : InFlash part dest_addr size) {sect : Nat}
    (hlast : sect ≤ lastSect part dest_addr size) :
    sect * part.FLASH_SECTOR_SIZE < dest_addr.toNat + size.toNat :=
  ((Nat.le_div_iff_mul_le part.size_pos).1 hlast).trans_lt
    (Nat.sub_lt (Nat.add_pos_right _ h.pos) Nat.one_pos)

theorem pieceStart_lt (h : InFlash part dest_addr size) {sect : Nat}
    (hfirst : firstSect part dest_addr ≤ sect) (hlast : sect ≤ lastSect part dest_addr size) :
    pieceStart part dest_addr sect < pieceEnd part dest_addr size sect := by
  have hbehind : dest_addr.toNat < (sect + 1) * part.FLASH_SECTOR_SIZE :=
    (Nat.div_lt_iff_lt_mul part.size_pos).1 (Nat.lt_succ_of_le hfirst)
  refine max_lt (lt_min ?_ (sectBase_lt h hlast)) (lt_min hbehind (Nat.lt_add_of_pos_right h.pos))
  exact Nat.mul_lt_mul_of_pos_right (Nat.lt_succ_self sect) part.size_pos

theorem sectOffset_toNat {sect : U32} (hfirst : firstSect part dest_addr ≤ sect.toNat) :
    sect.toNat * part.FLASH_SECTOR_SIZE +
        (sectOffset part dest_addr (dest_addr / part.sectorSize) sect).toNat =
      pieceStart part dest_addr sect.toNat := by
  rw [sectOffset]
  split
  · next heq =>
      rw [heq, firstOffset_toNat, first_toNat, pieceStart_first]
      exact Nat.add_sub_cancel' (Nat.div_mul_le_self _ _)
  · next hne =>
      have hlater : firstSect part dest_addr < sect.toNat := lt_of_le_of_ne hfirst fun heq =>
        hne (BitVec.eq_of_toNat_eq (heq.symm.trans first_toNat.symm))
      exact (pieceStart_later hlater).symm

theorem sectLen_toNat (h : InFlash part dest_addr size) {sect : U32}
    (hfirst : firstSect part dest_addr ≤ sect.toNat)
    (hlast : sect.toNat ≤ lastSect part dest_addr size) :
    (sectLen part dest_addr size (dest_addr / part.sectorSize)
        ((dest_addr + size - 1#32) / part.sectorSize) sect).toNat =
      pieceEnd part dest_addr size sect.toNat - pieceStart part dest_addr sect.toNat := by
  have hfirst_iff : sect = dest_addr / part.sectorSize ↔ sect.toNat = firstSect part dest_addr := by
    rw [← first_toNat, BitVec.toNat_inj]
  have hlast_iff : sect = (dest_addr + size - 1#32) / part.sectorSize ↔
      sect.toNat = lastSect part dest_addr size := by
    rw [← last_toNat h, BitVec.toNat_inj]
  have hboth_iff : dest_addr / part.sectorSize = (dest_addr + size - 1#32) / part.sectorSize ↔
      firstSect part dest_addr = lastSect part dest_addr size := by
    rw [← first_toNat, ← last_toNat h, BitVec.toNat_inj]
  rw [sectLen]
  simp only [hfirst_iff, hlast_iff, hboth_iff]
  split_ifs with hboth hone hend
  · have hone := le_antisymm (hlast.trans_eq hboth.symm) hfirst
    rw [hone, pieceStart_first, hboth, pieceEnd_last, Nat.add_sub_cancel_left]
  · have hearlier := lt_of_le_of_ne (hfirst.trans hlast) hboth
    have hle : dest_addr.toNat - firstSect part dest_addr * part.FLASH_SECTOR_SIZE ≤
        part.FLASH_SECTOR_SIZE := by
      rw [firstSect, Nat.sub_le_iff_le_add', ← Nat.succ_mul]
      exact Nat.le_of_lt ((Nat.div_lt_iff_lt_mul part.size_pos).1 (Nat.lt_succ_self _))
    rw [BitVec.toNat_sub_of_le (by rwa [BitVec.le_def, firstOffset_toNat, sectorSize_toNat]),
      firstOffset_toNat, sectorSize_toNat, hone, pieceStart_first, pieceEnd_earlier hearlier,
      Nat.succ_mul]
    have := Nat.div_mul_le_self dest_addr.toNat part.FLASH_SECTOR_SIZE
    rw [← firstSect] at this
    omega
  · have hlater := lt_of_le_of_ne hfirst (Ne.symm hone)
    have hbase := sectBase_lt h hlast
    have hsum : (dest_addr + size).toNat = dest_addr.toNat + size.toNat :=
      BitVec.toNat_add_of_lt h.lt
    have heq := hlast_iff.2 hend
    rw [← heq, BitVec.toNat_sub_of_le, sectBase_toNat (hbase.trans h.lt), hsum,
      pieceStart_later hlater, hend, pieceEnd_last]
    rw [BitVec.le_def, sectBase_toNat (hbase.trans h.lt), hsum]
    exact Nat.le_of_lt hbase
  · have hlater := lt_of_le_of_ne hfirst (Ne.symm hone)
    have hearlier := lt_of_le_of_ne hlast hend
    rw [sectorSize_toNat, pieceStart_later hlater, pieceEnd_earlier hearlier, Nat.succ_mul,
      Nat.add_sub_cancel_left]

/-- The numbers that the loop computes for a sector. -/
theorem piece (h : InFlash part dest_addr size) {sect : U32}
    (hfirst : firstSect part dest_addr ≤ sect.toNat)
    (hlast : sect.toNat ≤ lastSect part dest_addr size) :
    sect.toNat * part.FLASH_SECTOR_SIZE +
        (sectOffset part dest_addr (dest_addr / part.sectorSize) sect).toNat =
      pieceStart part dest_addr sect.toNat ∧
    (sectLen part dest_addr size (dest_addr / part.sectorSize)
        ((dest_addr + size - 1#32) / part.sectorSize) sect).toNat =
      pieceEnd part dest_addr size sect.toNat - pieceStart part dest_addr sect.toNat ∧
    sect * part.sectorSize + sectOffset part dest_addr (dest_addr / part.sectorSize) sect -
        dest_addr = BitVec.ofNat 32 (pieceStart part dest_addr sect.toNat - dest_addr.toNat) ∧
    pieceStart part dest_addr sect.toNat < pieceEnd part dest_addr size sect.toNat ∧
    sect.toNat < part.CONFIG_MEM_NVM_LEN / part.FLASH_SECTOR_SIZE := by
  have hlt := pieceStart_lt h hfirst hlast
  have hoff := sectOffset_toNat hfirst
  have hstart : pieceStart part dest_addr sect.toNat < 2 ^ 32 :=
    (hlt.trans_le (Nat.min_le_right _ _)).trans h.lt
  refine ⟨hoff, sectLen_toNat h hfirst hlast, ?_, hlt, ?_⟩
  · have hsum : (sect * part.sectorSize +
        sectOffset part dest_addr (dest_addr / part.sectorSize) sect).toNat =
          pieceStart part dest_addr sect.toNat := by
      have hbase := @sectBase_toNat part sect ((sectBase_lt h hlast).trans h.lt)
      rw [← hoff, ← hbase]
      exact BitVec.toNat_add_of_lt (by rwa [hbase, hoff])
    have hle : dest_addr.toNat ≤ pieceStart part dest_addr sect.toNat := Nat.le_max_right _ _
    apply BitVec.eq_of_toNat_eq
    rw [BitVec.toNat_sub_of_le (by rwa [BitVec.le_def, hsum]), hsum, BitVec.toNat_ofNat,
      Nat.mod_eq_of_lt ((Nat.sub_le _ _).trans_lt hstart)]
  · obtain ⟨m, hm⟩ := part.whole
    have hbase := (sectBase_lt h hlast).trans_le h.fin
    rw [hm, Nat.mul_comm] at hbase
    rw [hm, Nat.mul_div_cancel_left m part.size_pos]
    exact Nat.lt_of_mul_lt_mul_left hbase

/-! ## The loop over the sectors -/

/-- The commands for some sectors. -/
def sectorCommands : Nat → Nat → List Command
  | 0, _ => []
  | n + 1, sect => .erase sect :: .program sect :: sectorCommands n (sect + 1)

/-- A piece and the rest of the range behind it. -/
theorem store_pieces (h : InFlash part dest_addr size) (nvm : Nat → Byte) {sect n : Nat}
    (hfirst : firstSect part dest_addr ≤ sect) (hn : sect + (n + 1) = lastSect part dest_addr size + 1)
    (hlt : pieceStart part dest_addr sect < pieceEnd part dest_addr size sect) :
    store (store nvm (pieceStart part dest_addr sect)
          (bytes buf (BitVec.ofNat 32 (pieceStart part dest_addr sect - dest_addr.toNat))
            (pieceEnd part dest_addr size sect - pieceStart part dest_addr sect)))
        (pieceStart part dest_addr (sect + 1))
        (bytes buf (BitVec.ofNat 32 (pieceStart part dest_addr (sect + 1) - dest_addr.toNat))
          (dest_addr.toNat + size.toNat - pieceStart part dest_addr (sect + 1))) =
      store nvm (pieceStart part dest_addr sect)
        (bytes buf (BitVec.ofNat 32 (pieceStart part dest_addr sect - dest_addr.toNat))
          (dest_addr.toNat + size.toNat - pieceStart part dest_addr sect)) := by
  -- either this is the last piece, or the next one follows
  have hnext : (pieceEnd part dest_addr size sect = dest_addr.toNat + size.toNat ∧
        dest_addr.toNat + size.toNat ≤ pieceStart part dest_addr (sect + 1)) ∨
      (pieceEnd part dest_addr size sect = pieceStart part dest_addr (sect + 1) ∧
        pieceStart part dest_addr (sect + 1) ≤ dest_addr.toNat + size.toNat) := by
    have hle : sect ≤ lastSect part dest_addr size := by omega
    rcases Nat.eq_or_lt_of_le hle with rfl | hlt
    · exact .inl ⟨pieceEnd_last, le_pieceStart_of_last (Nat.lt_succ_self _)⟩
    · rw [pieceEnd_earlier hlt, pieceStart_later (Nat.lt_succ_of_le hfirst)]
      exact .inr ⟨rfl, (sectBase_lt h hlt).le⟩
  have hstart : dest_addr.toNat ≤ pieceStart part dest_addr sect := Nat.le_max_right _ _
  rcases hnext with ⟨hlast, hle⟩ | ⟨hmore, hle⟩
  · rw [hlast, Nat.sub_eq_zero_of_le hle]
    exact store_nil _ _
  · have happend := store_append nvm (pieceStart part dest_addr sect)
      (bytes buf (BitVec.ofNat 32 (pieceStart part dest_addr sect - dest_addr.toNat))
        (pieceEnd part dest_addr size sect - pieceStart part dest_addr sect))
      (bytes buf (BitVec.ofNat 32 (pieceStart part dest_addr (sect + 1) - dest_addr.toNat))
        (dest_addr.toNat + size.toNat - pieceStart part dest_addr (sect + 1)))
    rw [length_bytes, Nat.add_sub_cancel' (Nat.le_of_lt hlt), hmore] at happend
    rw [hmore, happend, show dest_addr.toNat + size.toNat - pieceStart part dest_addr sect =
      (pieceStart part dest_addr (sect + 1) - pieceStart part dest_addr sect) +
        (dest_addr.toNat + size.toNat - pieceStart part dest_addr (sect + 1)) by omega, bytes_add,
      ← BitVec.ofNat_add, show pieceStart part dest_addr sect - dest_addr.toNat +
        (pieceStart part dest_addr (sect + 1) - pieceStart part dest_addr sect) =
          pieceStart part dest_addr (sect + 1) - dest_addr.toNat by omega]

theorem sect_succ (h : InFlash part dest_addr size) {sect : U32}
    (hlast : sect.toNat ≤ lastSect part dest_addr size) : (sect + 1#32).toNat = sect.toNat + 1 := by
  have := h.fin
  have := part.address
  rw [lastSect] at hlast
  rcases part.sector with hS | hS <;> rw [hS] at hlast <;> bv_omega

/-- A piece fits in its sector. -/
theorem piece_fit (h : InFlash part dest_addr size) {sect : U32}
    (hfirst : firstSect part dest_addr ≤ sect.toNat)
    (hlast : sect.toNat ≤ lastSect part dest_addr size) :
    (sectOffset part dest_addr (dest_addr / part.sectorSize) sect).toNat +
        (sectLen part dest_addr size (dest_addr / part.sectorSize)
          ((dest_addr + size - 1#32) / part.sectorSize) sect).toNat ≤ part.FLASH_SECTOR_SIZE := by
  obtain ⟨hoff, hlen, -, hlt, -⟩ := piece h hfirst hlast
  rw [hlen]
  rw [pieceEnd, Nat.add_mul] at hlt ⊢
  omega

/-- All sectors from one on are written. -/
theorem programSectors_ok (h : InFlash part dest_addr size) {n : Nat} {sect : U32} {f : Flash}
    (hfirst : firstSect part dest_addr ≤ sect.toNat)
    (hn : sect.toNat + n = lastSect part dest_addr size + 1)
    (hok : ∀ k < 2 * n, faults (f.commands.length + k) = none) :
    ∃ accel, programSectors part faults buf dest_addr size (dest_addr / part.sectorSize)
        ((dest_addr + size - 1#32) / part.sectorSize) n sect f =
      ({ nvm := store f.nvm (pieceStart part dest_addr sect.toNat)
          (bytes buf (BitVec.ofNat 32 (pieceStart part dest_addr sect.toNat - dest_addr.toNat))
            (dest_addr.toNat + size.toNat - pieceStart part dest_addr sect.toNat))
         accel := accel
         commands := f.commands ++ sectorCommands n sect.toNat }, .returns 0) := by
  induction n generalizing sect f with
  | zero =>
      have hpast : dest_addr.toNat + size.toNat ≤ pieceStart part dest_addr sect.toNat :=
        le_pieceStart_of_last (Nat.lt_of_succ_le hn.ge)
      refine ⟨f.accel, ?_⟩
      rw [Nat.sub_eq_zero_of_le hpast, programSectors, sectorCommands, List.append_nil]
      exact congrArg (fun nvm => (Flash.mk nvm f.accel f.commands, Outcome.returns (0 : Int)))
        (store_nil f.nvm _).symm
  | succ n ih =>
      obtain ⟨hoff, hlen, hsrc, hlt, hsect⟩ := piece h hfirst (by omega)
      have hfit := piece_fit h hfirst (by omega)
      obtain ⟨accel, hwrite⟩ := @program_sector_ok part faults buf f sect _
        (sect * part.sectorSize + sectOffset part dest_addr (dest_addr / part.sectorSize) sect -
          dest_addr) _ hsect hfit
        (hok 0 (by omega)) (hok 1 (by omega))
      rw [hoff, hlen, hsrc] at hwrite
      have hsucc : (sect + 1#32).toNat = sect.toNat + 1 := sect_succ h (by omega)
      obtain ⟨accel', hrest⟩ := @ih (sect + 1#32)
        { nvm := store f.nvm (pieceStart part dest_addr sect.toNat)
            (bytes buf (BitVec.ofNat 32 (pieceStart part dest_addr sect.toNat - dest_addr.toNat))
              (pieceEnd part dest_addr size sect.toNat - pieceStart part dest_addr sect.toNat))
          accel := accel
          commands := f.commands ++ [.erase sect.toNat, .program sect.toNat] }
        (by omega) (by omega) (fun k hk => by
          have := hok (2 + k) (by omega)
          rwa [List.length_append, List.length_cons, List.length_singleton, Nat.add_assoc])
      refine ⟨accel', ?_⟩
      rw [programSectors, hsrc, hwrite]
      simp only
      rw [hrest, hsucc, store_pieces h f.nvm hfirst hn hlt, List.append_assoc]
      rfl

/-- When a command fails, the sectors behind its own are as they were. -/
theorem programSectors_fail (h : InFlash part dest_addr size) {n : Nat} {sect : U32} {f : Flash}
    (hfirst : firstSect part dest_addr ≤ sect.toNat)
    (hn : sect.toNat + n = lastSect part dest_addr size + 1) {k : Nat} (hk : k < 2 * n)
    (hbefore : ∀ j < k, faults (f.commands.length + j) = none)
    (hfault : faults (f.commands.length + k) ≠ none) :
    ∃ f', programSectors part faults buf dest_addr size (dest_addr / part.sectorSize)
        ((dest_addr + size - 1#32) / part.sectorSize) n sect f = (f', .returns (- EIO)) ∧
      (∀ i, (sect.toNat + k / 2 + 1) * part.FLASH_SECTOR_SIZE ≤ i → f'.nvm i = f.nvm i) ∧
      f'.commands = f.commands ++ (sectorCommands n sect.toNat).take (k + 1) := by
  induction n generalizing sect f k with
  | zero => omega
  | succ n ih =>
      obtain ⟨hoff, hlen, hsrc, hlt, hsect⟩ := piece h hfirst (by omega)
      have hfit := piece_fit h hfirst (by omega)
      rw [programSectors, sectorCommands]
      rcases Nat.lt_or_ge k 2 with here | later
      · obtain ⟨f', hfail, hsame, hcommands⟩ := @program_sector_fail part faults buf f sect _
          (sect * part.sectorSize + sectOffset part dest_addr (dest_addr / part.sectorSize) sect -
            dest_addr) _ hsect hfit k here hbefore hfault
        refine ⟨f', by rw [hfail]; rfl, fun i hi => hsame i fun hin => ?_, ?_⟩
        · have := hin.2
          rw [show sect.toNat + k / 2 + 1 = sect.toNat + 1 by omega] at hi
          omega
        · rw [hcommands]
          match k, here with
          | 0, _ => rfl
          | 1, _ => rfl
      · obtain ⟨k, rfl⟩ := Nat.exists_eq_add_of_le' later
        obtain ⟨accel, hwrite⟩ := @program_sector_ok part faults buf f sect _
          (sect * part.sectorSize + sectOffset part dest_addr (dest_addr / part.sectorSize) sect -
            dest_addr) _ hsect hfit
          (hbefore 0 (by omega)) (hbefore 1 (by omega))
        have hsucc : (sect + 1#32).toNat = sect.toNat + 1 := sect_succ h (by omega)
        rw [hwrite]
        simp only
        generalize hf₁ : Flash.mk _ accel _ = f₁
        have hcount : ∀ j, f₁.commands.length + j = f.commands.length + (j + 2) := by
          intro j
          rw [← hf₁, List.length_append, List.length_cons, List.length_singleton]
          omega
        obtain ⟨f', hrest, hsame, hcommands⟩ := @ih (sect + 1#32) f₁ (by omega) (by omega) k
          (by omega) (fun j hj => hcount j ▸ hbefore (j + 2) (by omega)) (hcount k ▸ hfault)
        refine ⟨f', hrest, fun i hi => ?_, ?_⟩
        · rw [hsucc, show sect.toNat + 1 + k / 2 + 1 = sect.toNat + (k + 2) / 2 + 1 by omega]
            at hsame
          refine (hsame i hi).trans ?_
          rw [← hf₁]
          refine store_outside (Or.inr ?_)
          rw [length_bytes]
          have hmul := Nat.mul_le_mul_right part.FLASH_SECTOR_SIZE
            (show sect.toNat + 1 ≤ sect.toNat + (k + 2) / 2 + 1 by omega)
          rw [Nat.add_mul] at hmul
          omega
        · rw [hcommands, ← hf₁, hsucc, List.append_assoc]
          rfl

/-- `envm_write` of a range inside the flash is the loop over its sectors. -/
theorem envm_write_inFlash (h : InFlash part dest_addr size)
    (hsecures : securesMcu dest_addr size buf = false) {f f' : Flash} {rv : Int}
    (hloop : programSectors part faults buf dest_addr size (dest_addr / part.sectorSize)
      ((dest_addr + size - 1#32) / part.sectorSize)
      (lastSect part dest_addr size + 1 - firstSect part dest_addr) (dest_addr / part.sectorSize) f =
        (f', .returns rv)) :
    envm_write part faults dest_addr buf size f =
      (f', .returns (if rv < 0 then 0#32 else size)) := by
  have := h.fin
  have := part.address
  rw [envm_write, if_neg (by bv_omega), hsecures, if_neg (by decide), kinetis_flash_program]
  simp only [last_toNat h, first_toNat, hloop]

/-- The first sector is not behind the last. -/
theorem first_le_last (h : InFlash part dest_addr size) :
    firstSect part dest_addr ≤ lastSect part dest_addr size :=
  Nat.div_le_div_right (by have := h.pos; omega)

/-- When every command succeeds, the flash holds the source over what it held. -/
theorem envm_write_overlay (h : InFlash part dest_addr size)
    (hsecures : securesMcu dest_addr size buf = false) (f : Flash)
    (hok : ∀ k < 2 * (lastSect part dest_addr size + 1 - firstSect part dest_addr),
      faults (f.commands.length + k) = none) :
    ∃ accel, envm_write part faults dest_addr buf size f =
      ({ nvm := store f.nvm dest_addr.toNat (bytes buf 0#32 size.toNat)
         accel := accel
         commands := f.commands ++ sectorCommands
          (lastSect part dest_addr size + 1 - firstSect part dest_addr)
          (firstSect part dest_addr) }, .returns size) := by
  have hle := first_le_last h
  obtain ⟨accel, hloop⟩ := @programSectors_ok part faults buf dest_addr size h _
    (dest_addr / part.sectorSize) f first_toNat.ge (by rw [first_toNat]; omega) hok
  have hstart : pieceStart part dest_addr (firstSect part dest_addr) = dest_addr.toNat :=
    Nat.max_eq_right (Nat.div_mul_le_self _ _)
  refine ⟨accel, ?_⟩
  rw [envm_write_inFlash h hsecures hloop, if_neg (by decide), first_toNat, hstart, Nat.sub_self,
    Nat.add_sub_cancel_left]

/-- When one of the commands fails the call returns 0, and no sector behind that command's own has
changed. -/
theorem envm_write_fail (h : InFlash part dest_addr size)
    (hsecures : securesMcu dest_addr size buf = false) (f : Flash) {k : Nat}
    (hk : k < 2 * (lastSect part dest_addr size + 1 - firstSect part dest_addr))
    (hbefore : ∀ j < k, faults (f.commands.length + j) = none)
    (hfault : faults (f.commands.length + k) ≠ none) :
    ∃ f', envm_write part faults dest_addr buf size f = (f', .returns 0#32) ∧
      (∀ i, (firstSect part dest_addr + k / 2 + 1) * part.FLASH_SECTOR_SIZE ≤ i →
        f'.nvm i = f.nvm i) ∧
      f'.commands = f.commands ++ (sectorCommands
        (lastSect part dest_addr size + 1 - firstSect part dest_addr)
        (firstSect part dest_addr)).take (k + 1) := by
  have hle := first_le_last h
  obtain ⟨f', hloop, hsame, hcommands⟩ := @programSectors_fail part faults buf dest_addr size h _
    (dest_addr / part.sectorSize) f first_toNat.ge (by rw [first_toNat]; omega) k hk hbefore hfault
  rw [first_toNat] at hsame hcommands
  exact ⟨f', by rw [envm_write_inFlash h hsecures hloop, if_pos (by decide)], hsame, hcommands⟩

/-- A call for a range inside the flash, with a source that does not secure the
microcontroller. When every command succeeds the flash holds the source over what it held, and
the sectors of the range were erased and programmed, each once. When one of the commands fails
the call returns 0, and no sector behind that command's own has changed. -/
theorem envm_write_range (h : InFlash part dest_addr size)
    (hsecures : securesMcu dest_addr size buf = false) (f : Flash) :
    ((∀ k < 2 * (lastSect part dest_addr size + 1 - firstSect part dest_addr),
        faults (f.commands.length + k) = none) →
      ∃ accel, envm_write part faults dest_addr buf size f =
        ({ nvm := store f.nvm dest_addr.toNat (bytes buf 0#32 size.toNat)
           accel := accel
           commands := f.commands ++ sectorCommands
            (lastSect part dest_addr size + 1 - firstSect part dest_addr)
            (firstSect part dest_addr) }, .returns size)) ∧
    ∀ k < 2 * (lastSect part dest_addr size + 1 - firstSect part dest_addr),
      (∀ j < k, faults (f.commands.length + j) = none) →
      faults (f.commands.length + k) ≠ none →
      ∃ f', envm_write part faults dest_addr buf size f = (f', .returns 0#32) ∧
        (∀ i, (firstSect part dest_addr + k / 2 + 1) * part.FLASH_SECTOR_SIZE ≤ i →
          f'.nvm i = f.nvm i) ∧
        f'.commands = f.commands ++ (sectorCommands
          (lastSect part dest_addr size + 1 - firstSect part dest_addr)
          (firstSect part dest_addr)).take (k + 1) :=
  ⟨envm_write_overlay h hsecures f,
    fun _ hk hbefore hfault => envm_write_fail h hsecures f hk hbefore hfault⟩

/-- The K70 with 1 MB of flash. -/
def K70 : Part where
  FLASH_SECTOR_SIZE := 4096
  FLASH_PROG_ACCEL_SIZE := 16384
  CONFIG_MEM_NVM_LEN := 1048576
  sector := by decide
  half := by decide
  accel := by decide
  whole := by decide
  address := by decide
  conf := by decide

/-- A flash that is erased. -/
def erased : Flash where
  nvm := fun _ => 0xff#8
  accel := fun _ => 0
  commands := []

theorem envm_write_range_K70 :
    ∃ accel, envm_write K70 (fun _ => none) 0x1ffe#32 (fun _ => 7) 4#32 erased =
      ({ nvm := store erased.nvm 0x1ffe (bytes (fun _ => 7) 0#32 4)
         accel := accel
         commands := [.erase 1, .program 1, .erase 2, .program 2] }, .returns 4#32) :=
  (@envm_write_range K70 _ _ _ _ ⟨by decide, by decide⟩ (by decide) erased).1
    fun _ _ => rfl

end Range

end UBoot.Kinetis
