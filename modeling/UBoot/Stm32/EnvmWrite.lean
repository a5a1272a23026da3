/-
# Writes to the STM32 flash

A call of `envm_write` erases the blocks of its range and programs the source. The bit of the
control register that selects the second bank is set when a block of that bank is erased, and
nothing clears it: a block of the first bank cannot be erased after that.
-/

import UBoot.Stm32.Envm

namespace UBoot.Stm32

variable {chip : Chip}

/-! ## The table of blocks -/

theorem blockStart_mono {a b : Nat} (h : a ≤ b) : blockStart chip a ≤ blockStart chip b := by
  obtain ⟨k, rfl⟩ := Nat.exists_eq_add_of_le h
  rw [blockStart, blockStart, List.take_add, List.sum_append]
  omega

theorem blockStart_drop (n m : Nat) :
    blockStart chip (n + m) = blockStart chip n + (((flash_bsize chip).drop n).take m).sum := by
  rw [blockStart, blockStart, List.take_add, List.sum_append, Nat.add_assoc]

theorem blockStart_lt_succ {n : Nat} (h : n < (flash_bsize chip).length) :
    blockStart chip n < blockStart chip (n + 1) := by
  revert n
  cases chip <;> decide

theorem blockStart_length :
    blockStart chip (flash_bsize chip).length = STM32_FLASH_BASE + STM32_FLASH_SIZE chip := by
  cases chip <;> decide

theorem blockStart_words {n : Nat} (h : n ≤ (flash_bsize chip).length) :
    4 ∣ blockStart chip n := by
  revert n
  cases chip <;> decide

theorem end_lt : STM32_FLASH_BASE + STM32_FLASH_SIZE chip < 2 ^ 28 := by
  cases chip <;> decide

theorem length_le : (flash_bsize chip).length ≤ 24 := by
  cases chip <;> decide

/-- The loop finds a block that begins at the address, if there is one. -/
theorem getBlock_cases (addr : U32) (table : List Nat) (base : U32) (i : Nat) :
    (∃ k < table.length, getBlock addr table base i = (i + k : Nat) ∧
      addr = base + BitVec.ofNat 32 (table.take k).sum) ∨
    (getBlock addr table base i = -EINVAL ∧
      ∀ k < table.length, addr ≠ base + BitVec.ofNat 32 (table.take k).sum) := by
  induction table generalizing base i with
  | nil => exact Or.inr ⟨rfl, fun k hk => absurd hk (Nat.not_lt_zero k)⟩
  | cons bsize rest ih =>
      rw [getBlock]
      split
      · next here => exact Or.inl ⟨0, Nat.succ_pos _, rfl, by simpa using here⟩
      · next other =>
          rcases ih (base + BitVec.ofNat 32 bsize) (i + 1) with ⟨k, hk, hget, haddr⟩ | ⟨hget, hnone⟩
          · refine Or.inl ⟨k + 1, Nat.succ_lt_succ hk, ?_, ?_⟩
            · rw [hget, Nat.add_right_comm, Nat.add_assoc]
            · rw [haddr, List.take_succ_cons, List.sum_cons, BitVec.ofNat_add, BitVec.add_assoc]
          · refine Or.inr ⟨hget, fun k hk => ?_⟩
            cases k with
            | zero => simpa using other
            | succ k =>
                rw [List.take_succ_cons, List.sum_cons, BitVec.ofNat_add, ← BitVec.add_assoc]
                exact hnone k (Nat.lt_of_succ_lt_succ hk)

/-- The address is where a block begins. -/
def IsStart (chip : Chip) (addr : U32) (n : Nat) : Prop :=
  n < (flash_bsize chip).length ∧ addr.toNat = blockStart chip n

theorem isStart_iff {addr : U32} {n : Nat} : IsStart chip addr n ↔ n < (flash_bsize chip).length ∧
    addr = BitVec.ofNat 32 STM32_FLASH_BASE +
      BitVec.ofNat 32 ((flash_bsize chip).take n).sum := by
  refine and_congr_right fun hn => ?_
  have hle : blockStart chip n ≤ blockStart chip (flash_bsize chip).length := blockStart_mono hn.le
  rw [blockStart_length] at hle
  have hend := @end_lt chip
  rw [← BitVec.ofNat_add, ← BitVec.toNat_inj, BitVec.toNat_ofNat, Nat.mod_eq_of_lt]
  · rfl
  · rw [blockStart] at hle
    omega

theorem get_block_cases (addr : U32) :
    (∃ n, IsStart chip addr n ∧ stm32_flash_get_block chip addr = n) ∨
    (stm32_flash_get_block chip addr = -EINVAL ∧ ∀ n, ¬ IsStart chip addr n) := by
  rcases getBlock_cases addr (flash_bsize chip) (BitVec.ofNat 32 STM32_FLASH_BASE) 0 with
    ⟨k, hk, hget, haddr⟩ | ⟨hget, hnone⟩
  · refine Or.inl ⟨k, isStart_iff.2 ⟨hk, haddr⟩, ?_⟩
    rw [stm32_flash_get_block, hget, Nat.zero_add]
  · exact Or.inr ⟨hget, fun n hn => hnone n hn.1 (isStart_iff.1 hn).2⟩

/-- The loop takes blocks until they are as long as the range, and no more. -/
theorem lastBlock_eq {size : Nat} {table : List Nat} {erasesize : Nat} (num : Nat)
    (h : size ≤ erasesize + table.sum) :
    ∃ m ≤ table.length, lastBlock size table erasesize num = some (num + m) ∧
      size ≤ erasesize + (table.take m).sum ∧
      ∀ j < m, erasesize + (table.take j).sum < size := by
  induction table generalizing erasesize num with
  | nil =>
      refine ⟨0, Nat.le_refl _, ?_, by simpa using h, fun j hj => absurd hj (Nat.not_lt_zero j)⟩
      rw [lastBlock, if_neg (by simpa using h)]
      rfl
  | cons bsize rest ih =>
      rw [List.sum_cons] at h
      rw [lastBlock]
      split
      · next more =>
          obtain ⟨m, hm, hlast, hcovers, hleast⟩ := @ih (erasesize + bsize) (num + 1) (by omega)
          refine ⟨m + 1, Nat.succ_le_succ hm, ?_, ?_, fun j hj => ?_⟩
          · rw [hlast, Nat.add_right_comm, Nat.add_assoc]
          · rw [List.take_succ_cons, List.sum_cons]
            omega
          · cases j with
            | zero => simpa using more
            | succ j =>
                have := hleast j (Nat.lt_of_succ_lt_succ hj)
                rw [List.take_succ_cons, List.sum_cons]
                omega
      · next enough =>
          exact ⟨0, Nat.zero_le _, rfl, by simpa using enough, fun j hj => absurd hj (Nat.not_lt_zero j)⟩

/-- A block and a range have something in common. -/
def Meets (chip : Chip) (offset size : U32) (n : Nat) : Prop :=
  n < (flash_bsize chip).length ∧ blockStart chip n < offset.toNat + size.toNat ∧
    offset.toNat < blockStart chip (n + 1)

/-- The blocks of a range that begins at a block and ends inside the flash. -/
theorem lastBlock_meets {offset size : U32} {n : Nat} (hstart : IsStart chip offset n)
    (hend : offset.toNat + size.toNat ≤ STM32_FLASH_BASE + STM32_FLASH_SIZE chip) :
    ∃ m, n + m ≤ (flash_bsize chip).length ∧
      lastBlock size.toNat ((flash_bsize chip).drop n) 0 n = some (n + m) ∧
      offset.toNat + size.toNat ≤ blockStart chip (n + m) ∧
      ∀ j, Meets chip offset size j ↔ n ≤ j ∧ j < n + m := by
  obtain ⟨hn, haddr⟩ := hstart
  have hall := @blockStart_drop chip n ((flash_bsize chip).length - n)
  rw [Nat.add_sub_cancel' hn.le, blockStart_length,
    List.take_of_length_le (by rw [List.length_drop])] at hall
  obtain ⟨m, hm, hlast, hcovers, hleast⟩ := @lastBlock_eq size.toNat ((flash_bsize chip).drop n) 0 n
    (by omega)
  rw [List.length_drop] at hm
  have hfin : offset.toNat + size.toNat ≤ blockStart chip (n + m) := by
    rw [blockStart_drop]
    omega
  refine ⟨m, by omega, hlast, hfin, fun j => ⟨fun ⟨hj, hbegin, hover⟩ => ?_, fun ⟨hge, hlt⟩ => ?_⟩⟩
  · constructor
    · by_contra hbefore
      have : blockStart chip (j + 1) ≤ blockStart chip n := blockStart_mono (by omega)
      omega
    · by_contra hbehind
      have : blockStart chip (n + m) ≤ blockStart chip j := blockStart_mono (by omega)
      omega
  · obtain ⟨k, rfl⟩ := Nat.exists_eq_add_of_le hge
    have hlen : n + k < (flash_bsize chip).length := by omega
    have hless := hleast k (by omega)
    have hnext := blockStart_lt_succ hlen
    have hsum := @blockStart_drop chip n k
    exact ⟨hlen, by omega, by omega⟩

/-! ## The control register -/

theorem secondBank_or (a b : U32) : secondBank (a ||| b) = (secondBank a || secondBank b) := BitVec.getLsbD_or

/-- Another bit is cleared. -/
theorem secondBank_and_not {cr mask : U32} (h : secondBank mask = false) : secondBank (cr &&& ~~~mask) = secondBank cr := by
  rw [secondBank] at h
  rw [secondBank, BitVec.getLsbD_and, BitVec.getLsbD_not, h]
  exact Bool.and_true _

/-- The number that is put into the four bits for it. -/
theorem sect_bits {cr others : U32} {k : Nat} (hk : k < 16)
    (hothers : ∀ i < 4, others.getLsbD (3 + i) = false) :
    ((cr &&& ~~~(STM32_FLASH_CR_SECT_MSK <<< STM32_FLASH_CR_SECT_SHIFT) |||
      (BitVec.ofNat 32 k <<< STM32_FLASH_CR_SECT_SHIFT ||| others)).extractLsb'
        STM32_FLASH_CR_SECT_SHIFT 4).toNat = k := by
  have hbits : (cr &&& ~~~(STM32_FLASH_CR_SECT_MSK <<< STM32_FLASH_CR_SECT_SHIFT) |||
      (BitVec.ofNat 32 k <<< STM32_FLASH_CR_SECT_SHIFT ||| others)).extractLsb'
        STM32_FLASH_CR_SECT_SHIFT 4 = BitVec.ofNat 4 k := by
    refine BitVec.eq_of_getLsbD_eq fun i hi => ?_
    have hmask : (STM32_FLASH_CR_SECT_MSK <<< STM32_FLASH_CR_SECT_SHIFT).getLsbD (3 + i) = true := by
      revert i
      decide
    simp only [BitVec.getLsbD_extractLsb', BitVec.getLsbD_or, BitVec.getLsbD_and,
      BitVec.getLsbD_not, show STM32_FLASH_CR_SECT_SHIFT + i = 3 + i from rfl, hmask, hothers i hi]
    simp only [BitVec.getLsbD_shiftLeft, BitVec.getLsbD_ofNat, STM32_FLASH_CR_SECT_SHIFT,
      Nat.add_sub_cancel_left, hi, show 3 + i < 32 by omega, show ¬ 3 + i < 3 by omega,
      show i < 32 by omega, decide_true, decide_false, Bool.not_true, Bool.not_false,
      Bool.and_false, Bool.false_or, Bool.or_false, Bool.true_and]
  rw [hbits, BitVec.toNat_ofNat, Nat.mod_eq_of_lt hk]

/-- Selecting a block leaves the bit for the second bank set. -/
theorem secondBank_selectBlock {cr : U32} {n : Nat} (htwo : chip = .STM32F43X)
    (hn : n < (flash_bsize chip).length) :
    secondBank (selectBlock chip n cr) = (secondBank cr || decide (12 ≤ n)) := by
  have hlen : n < 24 := by
    subst htwo
    exact hn
  have hk : ∀ k < 12, secondBank (BitVec.ofNat 32 k <<< STM32_FLASH_CR_SECT_SHIFT) = false := by decide
  have hv : ∀ v, secondBank (STM32_FLASH_CR_BLCK v) = v := by decide
  have hmask : secondBank (STM32_FLASH_CR_SECT_MSK <<< STM32_FLASH_CR_SECT_SHIFT) = false := by decide
  have hser : secondBank STM32_FLASH_CR_SER = false := by decide
  rw [selectBlock, if_pos htwo]
  simp only [decide_eq_true_eq]
  rw [secondBank_or, secondBank_or, secondBank_or, hser, Bool.or_false, hv, hk _ (by split <;> omega),
    Bool.false_or, secondBank_and_not hmask]

/-- A block of the first bank is selected when the bit for the second is clear, and one of the
second at any time. -/
theorem selected_selectBlock {cr : U32} {n : Nat} (hn : n < (flash_bsize chip).length)
    (hbank : chip = .STM32F43X → secondBank cr → 12 ≤ n) :
    selected chip (selectBlock chip n cr ||| STM32_FLASH_CR_START) = n := by
  have hlen := @length_le chip
  by_cases htwo : chip = .STM32F43X
  · have hbit : secondBank (selectBlock chip n cr ||| STM32_FLASH_CR_START) = decide (12 ≤ n) := by
      rw [secondBank_or, show secondBank STM32_FLASH_CR_START = false by decide, Bool.or_false,
        secondBank_selectBlock htwo hn]
      rcases hold : secondBank cr with _ | _
      · rfl
      · rw [decide_eq_true (hbank htwo hold), Bool.or_true]
    rw [selected, hbit, selectBlock, if_pos htwo]
    simp only [decide_eq_true_eq]
    rw [BitVec.or_assoc, BitVec.or_assoc, BitVec.or_assoc, sect_bits (by split <;> omega)]
    · simp only [htwo, true_and]
      split <;> omega
    · rcases decide (12 ≤ n) with _ | _ <;> decide
  · have hshort : n < 16 := by
      revert hn
      cases chip with
      | STM32F43X => exact absurd rfl htwo
      | STM32F2 => exact fun hn => hn.trans (by decide)
      | STM32F7 => exact fun hn => hn.trans (by decide)
    rw [selected, if_neg fun h => htwo h.1, Nat.add_zero, selectBlock, if_neg htwo,
      BitVec.or_assoc, BitVec.or_assoc, sect_bits hshort (by decide)]

/-! ## Erasing and programming -/

/-- An address in the blocks from one to before another. -/
def InBlocks (chip : Chip) (n fin i : Nat) : Prop := blockStart chip n ≤ i ∧ i < blockStart chip fin

/-- The loop erases the blocks it is meant to. -/
theorem eraseBlocks_spec {count n : Nat} (f : Flash) (hn : n + count ≤ (flash_bsize chip).length)
    (hready : f.busy = false)
    (hbank : chip = .STM32F43X → secondBank f.cr → 0 < count → 12 ≤ n) :
    (eraseBlocks chip count n f).erased = f.erased ++ List.range' n count ∧
    (∀ i, InBlocks chip n (n + count) i → (eraseBlocks chip count n f).nvm i = 0xff#8) ∧
    (∀ i, ¬ InBlocks chip n (n + count) i → (eraseBlocks chip count n f).nvm i = f.nvm i) ∧
    (eraseBlocks chip count n f).busy = false ∧
    (chip = .STM32F43X → secondBank (eraseBlocks chip count n f).cr →
      secondBank f.cr ∨ 0 < count ∧ 12 < n + count) := by
  induction count generalizing n f with
  | zero =>
      exact ⟨(List.append_nil _).symm, fun i hi => absurd (hi.1.trans_lt hi.2) (lt_irrefl _),
        fun i _ => rfl, hready, fun _ hset => Or.inl hset⟩
  | succ count ih =>
      have hone : n < (flash_bsize chip).length := by omega
      have hselected := @selected_selectBlock chip f.cr n hone
        fun htwo hset => hbank htwo hset (Nat.succ_pos _)
      have hcr : chip = .STM32F43X →
          secondBank ((selectBlock chip n f.cr ||| STM32_FLASH_CR_START) &&& ~~~STM32_FLASH_CR_START) =
            (secondBank f.cr || decide (12 ≤ n)) := fun htwo => by
        rw [secondBank_and_not (by decide), secondBank_or,
          show secondBank STM32_FLASH_CR_START = false by decide, Bool.or_false,
          secondBank_selectBlock htwo hone]
      have hstep : waitReady (start chip { f with cr := selectBlock chip n f.cr }) =
          { nvm := fun i =>
              if blockStart chip n ≤ i ∧ i < blockStart chip (n + 1) then 0xff#8 else f.nvm i
            cr := (selectBlock chip n f.cr ||| STM32_FLASH_CR_START) &&& ~~~STM32_FLASH_CR_START
            busy := false
            erased := f.erased ++ [n] } := by
        simp only [start, waitReady, hselected]
      rw [eraseBlocks, hstep]
      generalize hf : Flash.mk _ _ _ _ = f₁
      obtain ⟨herased, hin, hout, hidle, hset⟩ := @ih (n + 1) f₁ (by omega) (by rw [← hf])
        (fun htwo hset _ => by
          rw [← hf, hcr htwo] at hset
          rcases hold : secondBank f.cr with _ | _
          · rw [hold, Bool.false_or, decide_eq_true_eq] at hset
            omega
          · have := hbank htwo hold (Nat.succ_pos _)
            omega)
      have hle : blockStart chip (n + 1) ≤ blockStart chip (n + (count + 1)) :=
        blockStart_mono (by omega)
      have hlt := blockStart_lt_succ hone
      rw [show n + 1 + count = n + (count + 1) by omega] at hin hout hset
      refine ⟨?_, fun i hi => ?_, fun i hi => ?_, hidle, fun htwo h => ?_⟩
      · rw [herased, ← hf, List.append_assoc]
        rfl
      · by_cases hrest : InBlocks chip (n + 1) (n + (count + 1)) i
        · exact hin i hrest
        · rw [hout i hrest, ← hf]
          refine if_pos ⟨hi.1, ?_⟩
          by_contra hbehind
          exact hrest ⟨not_lt.1 hbehind, hi.2⟩
      · rw [hout i fun hrest => hi ⟨hlt.le.trans hrest.1, hrest.2⟩, ← hf]
        exact if_neg fun hhere => hi ⟨hhere.1, hhere.2.trans_le hle⟩
      · rcases hset htwo h with hold | hlast
        · rw [← hf, hcr htwo, Bool.or_eq_true, decide_eq_true_eq] at hold
          exact hold.imp_right fun h => ⟨Nat.succ_pos _, by omega⟩
        · exact Or.inr ⟨Nat.succ_pos _, hlast.2⟩

/-- The loop clears the bits that the source has clear, in the words it is meant to. -/
theorem programWords_spec {buf : U32 → Byte} {words : Nat} {dst src : U32} (f : Flash)
    (hend : dst.toNat + 4 * words < 2 ^ 32) (hready : f.busy = false) :
    (∀ k < 4 * words, (programWords buf words dst src f).nvm (dst.toNat + k) =
      f.nvm (dst.toNat + k) &&& buf (src + BitVec.ofNat 32 k)) ∧
    (∀ i, (i < dst.toNat ∨ dst.toNat + 4 * words ≤ i) →
      (programWords buf words dst src f).nvm i = f.nvm i) ∧
    (programWords buf words dst src f).busy = false ∧
    (programWords buf words dst src f).cr = f.cr ∧
    (programWords buf words dst src f).erased = f.erased := by
  induction words generalizing dst src f with
  | zero => exact ⟨fun k hk => absurd hk (Nat.not_lt_zero k), fun _ _ => rfl, hready, rfl, rfl⟩
  | succ words ih =>
      have hnext : (dst + 4#32).toNat = dst.toNat + 4 := by bv_omega
      rw [programWords]
      simp only [waitReady]
      generalize hf : Flash.mk _ _ _ _ = f₁
      obtain ⟨hin, hout, hidle, hcr, herased⟩ := @ih (dst + 4#32) (src + 4#32) f₁ (by omega)
        (by rw [← hf])
      rw [hnext] at hin hout
      refine ⟨fun k hk => ?_, fun i hi => ?_, hidle, by rw [hcr, ← hf], by rw [herased, ← hf]⟩
      · rcases Nat.lt_or_ge k 4 with here | later
        · rw [hout _ (Or.inl (by omega)), ← hf]
          simp only [Nat.add_sub_cancel_left]
          exact if_pos ⟨Nat.le_add_right _ _, by omega⟩
        · obtain ⟨k, rfl⟩ := Nat.exists_eq_add_of_le later
          have hbyte := hin k (by omega)
          rw [show dst.toNat + 4 + k = dst.toNat + (4 + k) by omega] at hbyte
          rw [hbyte, ← hf, BitVec.ofNat_add, BitVec.add_assoc]
          exact congrArg (· &&& _) (if_neg (by omega))
      · rw [hout i (by omega), ← hf]
        exact if_neg (by omega)

end UBoot.Stm32
