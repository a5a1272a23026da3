/-
# The sector of an address

The two searches find the sector of every address of their flash. The first one ends without a
sector behind the flash; the second one leaves its table there, and in front of a bank it takes the
first sector.
-/

import UBoot.Lpc.EnvmWrite

namespace UBoot.Lpc

theorem begins_succ (base : Nat) (sizes : List Nat) {i : Nat} (h : i < sizes.length) :
    begins base sizes (i + 1) = begins base sizes i + sizes[i] := by
  rw [begins, begins, List.take_add_one, List.getElem?_eq_getElem h, Option.toList_some,
    List.sum_append, List.sum_singleton, Nat.add_assoc]

theorem begins_lt (base : Nat) {sizes : List Nat} (hpos : ∀ s ∈ sizes, 0 < s) {i : Nat}
    (h : i < sizes.length) : begins base sizes i < begins base sizes (i + 1) := by
  rw [begins_succ base sizes h]
  exact Nat.lt_add_of_pos_right (hpos _ (List.getElem_mem h))

theorem begins_le (base : Nat) (sizes : List Nat) (i : Nat) :
    begins base sizes i ≤ base + sizes.sum := by
  have hsplit := congrArg List.sum (List.take_append_drop i sizes)
  rw [List.sum_append] at hsplit
  rw [begins]
  omega

namespace Lpc178x

/-- The sizes of the sectors. -/
abbrev sizes : List Nat := flash_bsize.map BitVec.toNat

/-- The parts: 512, 256 or 128 KB. -/
theorem iap_init_cases (val : U32) :
    lpc178x_iap_init val = (0x80000#32, 30#32) ∨ lpc178x_iap_init val = (0x40000#32, 22#32) ∨
      lpc178x_iap_init val = (0x20000#32, 18#32) := by
  unfold lpc178x_iap_init
  split
  · split
    · exact .inl rfl
    · exact .inr (.inl rfl)
  · split
    · exact .inl rfl
    · split
      · exact .inr (.inl rfl)
      · exact .inr (.inr rfl)

/-- The table has an entry for each sector, and they make up the flash. -/
theorem iap_init_spec (val : U32) :
    (lpc178x_iap_init val).2.toNat ≤ sizes.length ∧
      begins 0 sizes (lpc178x_iap_init val).2.toNat = (lpc178x_iap_init val).1.toNat := by
  obtain h | h | h := iap_init_cases val
  · rw [h]
    decide
  · rw [h]
    decide
  · rw [h]
    decide

theorem findLoop_spec (addr : U32) (n i : Nat) (sect_base : U32) (hn : i + n ≤ sizes.length)
    (hbase : sect_base.toNat = begins 0 sizes i) (hle : sect_base ≤ addr) :
    ∃ s, findLoop addr n i sect_base = some s ∧
      (s = -1#32 ∨ begins 0 sizes s.toNat ≤ addr.toNat ∧ addr.toNat < begins 0 sizes (s.toNat + 1)) := by
  induction n generalizing i sect_base with
  | zero => exact ⟨-1#32, rfl, .inl rfl⟩
  | succ n ih =>
      have hlength : sizes.length = 30 := rfl
      have hi : i < flash_bsize.length := by
        change i < 30
        omega
      have hnext := begins_succ 0 sizes (i := i) (by omega)
      rw [List.getElem_map] at hnext
      have htotal : begins 0 sizes (i + 1) ≤ 0x80000 := begins_le 0 sizes (i + 1)
      have hsum : (sect_base + flash_bsize[i]).toNat = begins 0 sizes (i + 1) := by
        rw [BitVec.toNat_add, hbase, ← hnext]
        omega
      rw [findLoop, List.getElem?_eq_getElem hi]
      dsimp only
      split
      · rename_i hin
        have hlt := BitVec.lt_def.mp hin.2
        have hsmall : (BitVec.ofNat 32 i).toNat = i := by
          rw [BitVec.toNat_ofNat]
          omega
        refine ⟨_, rfl, .inr ?_⟩
        rw [hsmall, ← hbase, ← hsum]
        exact ⟨BitVec.le_def.mp hle, hlt⟩
      · rename_i hout
        rw [not_and, BitVec.not_lt] at hout
        exact ih (i + 1) (sect_base + flash_bsize[i]) (by omega) hsum (hout hle)

theorem valid (val : U32) : (chip val).Valid where
  block := .inl rfl
  start_lt _ i hi := by
    apply begins_lt 0 (by decide)
    exact hi.trans_le (iap_init_spec val).1
  start_end _ := (begins_le 0 sizes _).trans_lt (by decide)
  found _ addr s _ hfind hlt := by
    obtain ⟨s', hrun, hcase⟩ := findLoop_spec addr (lpc178x_iap_init val).2.toNat 0 0#32
      (by rw [Nat.zero_add]; exact (iap_init_spec val).1) rfl (BitVec.le_def.mpr (Nat.zero_le _))
    have hsame : s' = s := Option.some.inj (hrun.symm.trans hfind)
    rw [hsame] at hcase
    obtain rfl | hin := hcase
    · -- there is no sector of this number
      have hcount := (iap_init_spec val).1
      have hlt' := BitVec.lt_def.mp hlt
      change 0xffffffff < (lpc178x_iap_init val).2.toNat at hlt'
      have hlength : sizes.length = 30 := rfl
      omega
    · exact hin
  finds _ addr _ _ := by
    obtain ⟨s, hrun, -⟩ := findLoop_spec addr (lpc178x_iap_init val).2.toNat 0 0#32
      (by rw [Nat.zero_add]; exact (iap_init_spec val).1) rfl (BitVec.le_def.mpr (Nat.zero_le _))
    exact ⟨s, hrun⟩
  accepted _ _ _ := Nat.zero_le _
  inside _ dest_addr size _ hend := by
    change dest_addr.toNat + size.toNat ≤ begins 0 sizes (lpc178x_iap_init val).2.toNat at hend
    have hflash := (iap_init_spec val).1
    rw [(iap_init_spec val).2] at hend
    apply decide_eq_false
    rw [gt_iff_lt, BitVec.not_lt, BitVec.le_def, BitVec.toNat_add]
    exact (Nat.mod_le _ _).trans hend

end Lpc178x

namespace Lpc43xx

/-- The sizes of the sectors of a bank. -/
abbrev sizes : List Nat := flash_layout.flatMap fun row => List.replicate row.1 row.2.toNat

/-- A row of the table, for an address that is not in front of it. -/
theorem findRow_spec (addr size : U32) (n : Nat) (current sector : U32) (hle : current ≤ addr)
    (hend : current.toNat + n * size.toNat < 2 ^ 32) :
    (∃ j < n, findRow addr size n current sector = .inl (sector + BitVec.ofNat 32 j) ∧
        current.toNat + j * size.toNat ≤ addr.toNat ∧
        addr.toNat < current.toNat + (j + 1) * size.toNat) ∨
      current.toNat + n * size.toNat ≤ addr.toNat ∧
        findRow addr size n current sector =
          .inr (current + BitVec.ofNat 32 (n * size.toNat), sector + BitVec.ofNat 32 n) := by
  induction n generalizing current sector with
  | zero =>
      refine .inr ⟨?_, ?_⟩
      · rw [Nat.zero_mul, Nat.add_zero]
        exact BitVec.le_def.mp hle
      · rw [findRow, Nat.zero_mul, BitVec.add_zero, BitVec.add_zero]
  | succ n ih =>
      rw [Nat.add_mul, Nat.one_mul] at hend
      have hsum : (current + size).toNat = current.toNat + size.toNat := by
        rw [BitVec.toNat_add]
        omega
      rw [findRow]
      split
      · rename_i hlt
        rw [BitVec.lt_def, hsum] at hlt
        refine .inl ⟨0, n.succ_pos, by rw [BitVec.add_zero], ?_, ?_⟩
        · rw [Nat.zero_mul, Nat.add_zero]
          exact BitVec.le_def.mp hle
        · rw [Nat.zero_add, Nat.one_mul]
          exact hlt
      · rename_i hge
        rw [BitVec.not_lt] at hge
        obtain ⟨j, hj, hrun, hlow, hhigh⟩ | ⟨hout, hrun⟩ :=
          ih (current + size) (sector + 1#32) hge (by omega)
        · refine .inl ⟨j + 1, by omega, ?_, ?_, ?_⟩
          · rw [hrun, BitVec.ofNat_add, BitVec.add_assoc, BitVec.add_comm 1#32]
          · rw [hsum] at hlow
            rw [Nat.add_mul, Nat.one_mul]
            omega
          · rw [hsum] at hhigh
            rw [Nat.add_mul, Nat.one_mul]
            omega
        · rw [hsum] at hout
          refine .inr ⟨by rw [Nat.add_mul, Nat.one_mul]; omega, ?_⟩
          rw [hrun, Nat.add_mul, Nat.one_mul, Nat.add_comm (n * size.toNat), BitVec.ofNat_add,
            BitVec.ofNat_toNat, BitVec.setWidth_eq, BitVec.add_assoc, Nat.add_comm n 1,
            BitVec.ofNat_add, BitVec.add_assoc]

/-- The begins of the small sectors, and of the large ones. -/
theorem begins_sizes (base : Nat) :
    (∀ i ≤ 8, begins base sizes i = base + i * 0x2000) ∧
      ∀ j ≤ 7, begins base sizes (8 + j) = base + 0x10000 + j * 0x10000 := by
  have hsmall : ∀ i < 9, (sizes.take i).sum = i * 0x2000 := by decide
  have hlarge : ∀ j < 8, (sizes.take (8 + j)).sum = 0x10000 + j * 0x10000 := by decide
  constructor
  · intro i hi
    rw [begins, hsmall i (by omega)]
  · intro j hj
    rw [begins, hlarge j (by omega), Nat.add_assoc]

theorem base_toNat (bank : Bool) : (base bank).toNat = 0x1a000000 ∨ (base bank).toNat = 0x1b000000 := by
  cases bank
  · exact .inl rfl
  · exact .inr rfl

/-- `find_sector` at or behind the begin of a bank. -/
theorem find_sector_spec (addr : U32) (bank : Bool) (hle : base bank ≤ addr) :
    (∃ s, find_sector addr bank = some s ∧ s.toNat < 15 ∧
        begins (base bank).toNat sizes s.toNat ≤ addr.toNat ∧
        addr.toNat < begins (base bank).toNat sizes (s.toNat + 1)) ∨
      find_sector addr bank = none ∧ (base bank).toNat + 0x80000 ≤ addr.toNat := by
  obtain ⟨hsmall, hlarge⟩ := begins_sizes (base bank).toNat
  have hbase := base_toNat bank
  have hrow : (0x2000#32 : U32).toNat = 0x2000 := rfl
  have hrow' : (0x10000#32 : U32).toNat = 0x10000 := rfl
  rw [find_sector, flash_layout, findLayout, if_neg (by decide)]
  obtain ⟨j, hj, hrun, hlow, hhigh⟩ | ⟨hout, hrun⟩ :=
    findRow_spec addr 0x2000#32 8 (base bank) 0#32 hle (by omega)
  · have hs : (0#32 + BitVec.ofNat 32 j).toNat = j := by
      rw [BitVec.zero_add, BitVec.toNat_ofNat]
      omega
    rw [hrun]
    refine .inl ⟨_, rfl, ?_⟩
    rw [hs, hsmall j (by omega), hsmall (j + 1) (by omega)]
    exact ⟨by omega, hlow, hhigh⟩
  · rw [hrun]
    dsimp only
    rw [findLayout, if_neg (by decide)]
    have hcurrent : (base bank + BitVec.ofNat 32 (8 * (0x2000#32 : U32).toNat)).toNat =
        (base bank).toNat + 0x10000 := by
      rw [BitVec.toNat_add, BitVec.toNat_ofNat]
      omega
    obtain ⟨j, hj, hrun', hlow, hhigh⟩ | ⟨hout', hrun'⟩ :=
      findRow_spec addr 0x10000#32 7 (base bank + BitVec.ofNat 32 (8 * (0x2000#32 : U32).toNat))
        (0#32 + BitVec.ofNat 32 8) (by rw [BitVec.le_def, hcurrent]; omega) (by omega)
    · have hs : (0#32 + BitVec.ofNat 32 8 + BitVec.ofNat 32 j).toNat = 8 + j := by
        rw [BitVec.zero_add, BitVec.toNat_add, BitVec.toNat_ofNat, BitVec.toNat_ofNat]
        omega
      rw [hrun']
      refine .inl ⟨_, rfl, ?_⟩
      rw [hcurrent] at hlow hhigh
      rw [hs, hlarge j (by omega), Nat.add_assoc 8 j 1, hlarge (j + 1) (by omega)]
      exact ⟨by omega, hlow, hhigh⟩
    · rw [hrun']
      rw [hcurrent] at hout'
      exact .inr ⟨rfl, by omega⟩

theorem start_eq (bank : Bool) (i : Nat) :
    chip.start bank i = begins (base bank).toNat sizes i := rfl

theorem find_sector_eq : chip.find_sector = find_sector := by
  rw [chip]

theorem start_zero (bank : Bool) : chip.start bank 0 = (base bank).toNat := by
  rw [start_eq, begins, List.take_zero, List.sum_nil, Nat.add_zero]

theorem start_sectors (bank : Bool) :
    chip.start bank (chip.sectors bank).toNat = (base bank).toNat + 0x80000 := by
  have hlarge := (begins_sizes (base bank).toNat).2 7 (Nat.le_refl 7)
  rw [start_eq, Nat.add_assoc] at *
  exact hlarge

theorem valid : chip.Valid where
  block := .inr rfl
  start_lt bank i hi := begins_lt _ (by decide) hi
  start_end bank := by
    have hbase := base_toNat bank
    rw [start_sectors]
    omega
  found bank addr s hle hfind _ := by
    rw [start_zero] at hle
    rw [find_sector_eq] at hfind
    obtain ⟨s', hrun, -, hin⟩ | ⟨hnone, -⟩ := find_sector_spec addr bank (BitVec.le_def.mpr hle)
    · have hsame : s' = s := Option.some.inj (hrun.symm.trans hfind)
      rw [hsame, ← start_eq, ← start_eq] at hin
      exact hin
    · exact absurd (hnone.symm.trans hfind) nofun
  finds bank addr hle hlt := by
    rw [start_zero] at hle
    rw [start_sectors] at hlt
    rw [find_sector_eq]
    obtain ⟨s, hrun, -⟩ | ⟨-, hout⟩ := find_sector_spec addr bank (BitVec.le_def.mpr hle)
    · exact ⟨s, hrun⟩
    · omega
  accepted offset size h := by
    rw [start_zero, ← BitVec.le_def]
    by_cases hbank : CONFIG_MEM_NVM2_BASE ≤ offset
    · have hsecond : chip.bank offset = true := decide_eq_true hbank
      rw [hsecond]
      exact hbank
    · have hfirst : chip.bank offset = false := decide_eq_false hbank
      rw [hfirst]
      by_contra hbelow
      rw [BitVec.not_le] at hbank hbelow
      change offset < CONFIG_MEM_NVM_BASE at hbelow
      have hrefused : chip.accepts offset size = false := by
        change (!((decide (offset < CONFIG_MEM_NVM_BASE) || _) &&
          (decide (offset < CONFIG_MEM_NVM2_BASE) || _))) = false
        rw [decide_eq_true hbelow, decide_eq_true hbank]
        rfl
      rw [hrefused] at h
      cases h
  inside bank dest_addr size hle hend := by
    rw [start_zero] at hle
    rw [start_sectors] at hend
    apply decide_eq_false
    rw [gt_iff_lt, BitVec.not_lt, BitVec.le_def]
    have hlength : (if bank then CONFIG_MEM_NVM2_LEN else CONFIG_MEM_NVM_LEN).toNat = 0x80000 := by
      cases bank <;> rfl
    omega

end Lpc43xx

/-! ## Both chips -/

/-- On each chip a write is right on every content and buffer if and only if it is refused before
anything is erased, or fits. -/
theorem envm_write_rejects_first_iff (val offset size : U32) :
    ((∀ mem buf, ∃ result,
        Lpc178x.envm_write val ⟨mem, [], []⟩ offset buf size = some result ∧
          Sound (Lpc178x.chip val) mem offset buf size result) ↔
      Refused (Lpc178x.chip val) offset size ∨ Fits (Lpc178x.chip val) offset size) ∧
    ((∀ mem buf, ∃ result,
        Lpc43xx.envm_write ⟨mem, [], []⟩ offset buf size = some result ∧
          Sound Lpc43xx.chip mem offset buf size result) ↔
      Refused Lpc43xx.chip offset size ∨ Fits Lpc43xx.chip offset size) :=
  ⟨(Lpc178x.valid val).rejectsFirst_iff offset size, Lpc43xx.valid.rejectsFirst_iff offset size⟩

/-- One byte at offset 128 of an LPC1788, behind which nothing can be programmed. -/
theorem not_envm_write_rejects_first : ¬
    ((∀ val offset size mem buf, ∃ result,
        Lpc178x.envm_write val ⟨mem, [], []⟩ offset buf size = some result ∧
          Sound (Lpc178x.chip val) mem offset buf size result) ∧
      ∀ offset size mem buf, ∃ result,
        Lpc43xx.envm_write ⟨mem, [], []⟩ offset buf size = some result ∧
          Sound Lpc43xx.chip mem offset buf size result) := by
  rintro ⟨hall, -⟩
  obtain (hcheck | ⟨first, last, hfirst, hlast, hout, -⟩) |
      ⟨first, last, -, -, -, -, -, -, haligned, -⟩ :=
    (Lpc178x.valid 0x08000004#32).refused_or_fits (hall 0x08000004#32 128#32 1#32)
  · exact absurd hcheck (by decide)
  · have hsector : (Lpc178x.chip 0x08000004#32).find_sector 128#32 false = some 0#32 := by decide
    rw [show first = 0#32 from Option.some.inj (hfirst.symm.trans hsector),
      show last = 0#32 from Option.some.inj (hlast.symm.trans hsector)] at hout
    exact absurd hout (by decide)
  · exact absurd haligned (by decide)

end UBoot.Lpc
