/-
# Runs of writes to the STM32 flash

What one call of `envm_write` does, and what a run of calls does. A call writes what it is meant
to as long as its range does not wrap, and as long as no earlier call has written to the second
bank when it writes to the first.
-/

import UBoot.Stm32.EnvmWrite

namespace UBoot.Stm32

variable {chip : Chip}

/-- A call of `envm_write` -/
structure Call where
  offset : U32
  buf : U32 → Byte
  size : U32

/-- A call begins where a block begins, and ends inside the flash. -/
def Call.Accepted (chip : Chip) (c : Call) : Prop :=
  (∃ n, IsStart chip c.offset n) ∧
    c.offset.toNat + c.size.toNat ≤ STM32_FLASH_BASE + STM32_FLASH_SIZE chip

/-- A call begins where a block begins, and its end wraps and passes the test. -/
def Call.Wraps (chip : Chip) (c : Call) : Prop :=
  (∃ n, IsStart chip c.offset n) ∧ 2 ^ 32 ≤ c.offset.toNat + c.size.toNat ∧
    (c.offset + c.size).toNat ≤ STM32_FLASH_BASE + STM32_FLASH_SIZE chip

/-- A call erases a block of the first bank, or one of the second. -/
def Call.ErasesFirst (chip : Chip) (c : Call) : Prop :=
  c.Accepted chip ∧ 0 < c.size.toNat ∧ c.offset.toNat < blockStart chip 12
def Call.ErasesSecond (chip : Chip) (c : Call) : Prop :=
  c.Accepted chip ∧ 0 < c.size.toNat ∧ blockStart chip 12 < c.offset.toNat + c.size.toNat

/-- What a call is meant to do. One that is accepted erases the blocks of its range, each once,
and the range holds the source afterwards. One that is not does nothing. -/
structure WritesIntended (chip : Chip) (f : Flash) (c : Call) (f' : Flash) (outcome : Outcome U32) :
    Prop where
  accepted : c.Accepted chip → outcome = .returns c.size ∧
    ∃ n count, (∀ j, Meets chip c.offset c.size j ↔ n ≤ j ∧ j < n + count) ∧
      f'.erased = f.erased ++ List.range' n count ∧
      (∀ k < c.size.toNat, f'.nvm (c.offset.toNat + k) = c.buf (BitVec.ofNat 32 k)) ∧
      ∀ i, ¬ InBlocks chip n (n + count) i → f'.nvm i = f.nvm i
  rejected : ¬ c.Accepted chip → outcome = .returns 0#32 ∧ f'.erased = f.erased ∧ f'.nvm = f.nvm

/-- A call that is not accepted, and does not wrap, changes nothing. -/
theorem envm_write_rejected {f : Flash} {c : Call} (hwraps : ¬ c.Wraps chip)
    (hrejected : ¬ c.Accepted chip) :
    envm_write chip c.offset c.buf c.size f = (f, .returns 0#32) := by
  rw [envm_write]
  split_ifs with hrange
  · rfl
  · have herase : stm32_flash_erase chip c.offset c.size f = (f, .returns (-EINVAL)) := by
      rcases @get_block_cases chip c.offset with ⟨n, hstart, -⟩ | ⟨hget, -⟩
      · have hend := @end_lt chip
        rcases Nat.lt_or_ge (c.offset.toNat + c.size.toNat) (2 ^ 32) with fits | wraps
        · exact absurd ⟨⟨n, hstart⟩, by bv_omega⟩ hrejected
        · exact absurd ⟨⟨n, hstart⟩, wraps, by omega⟩ hwraps
      · rw [stm32_flash_erase, hget]
        rfl
    rw [herase]
    rfl

/-- A call that is accepted erases its blocks and programs its source. -/
theorem envm_write_accepted {f : Flash} {c : Call} (hready : f.busy = false)
    (hbank : chip = .STM32F43X → secondBank f.cr → ¬ c.ErasesFirst chip)
    (haccepted : c.Accepted chip) :
    ∃ f' n count, envm_write chip c.offset c.buf c.size f = (f', .returns c.size) ∧
      (∀ j, Meets chip c.offset c.size j ↔ n ≤ j ∧ j < n + count) ∧
      f'.erased = f.erased ++ List.range' n count ∧
      (∀ k < c.size.toNat, f'.nvm (c.offset.toNat + k) = c.buf (BitVec.ofNat 32 k)) ∧
      (∀ i, ¬ InBlocks chip n (n + count) i → f'.nvm i = f.nvm i) ∧
      f'.busy = false ∧
      (chip = .STM32F43X → secondBank f'.cr → secondBank f.cr ∨ c.ErasesSecond chip) := by
  have hend := haccepted.2
  rcases @get_block_cases chip c.offset with ⟨n, hstart, hget⟩ | ⟨-, hnone⟩
  case inr =>
    obtain ⟨n, hstart⟩ := haccepted.1
    exact absurd hstart (hnone n)
  obtain ⟨count, hlen, hlast, hcovers, hmeets⟩ := lastBlock_meets hstart hend
  have htop := @end_lt chip
  have hbase : STM32_FLASH_BASE ≤ c.offset.toNat := by
    rw [hstart.2]
    exact Nat.le_add_right _ _
  have hsize : 0 < count → 0 < c.size.toNat := fun hcount => by
    have := ((hmeets n).2 ⟨Nat.le_refl _, by omega⟩).2.1
    have := hstart.2
    omega
  -- the blocks are erased
  obtain ⟨herased, hin, hout, hidle, hset⟩ := @eraseBlocks_spec chip count n
    (stm32_flash_cr_unlock f) hlen hready (fun htwo hset hcount => by
      rw [stm32_flash_cr_unlock, secondBank_and_not (by decide)] at hset
      by_contra hfirst
      refine hbank htwo hset ⟨haccepted, hsize hcount, ?_⟩
      rw [hstart.2]
      exact (blockStart_lt_succ hstart.1).trans_le (blockStart_mono (by omega)))
  generalize hf₁ : eraseBlocks chip count n (stm32_flash_cr_unlock f) = f₁ at *
  have herase : stm32_flash_erase chip c.offset c.size f = (stm32_flash_cr_lock { f₁ with
      cr := f₁.cr &&& ~~~(STM32_FLASH_CR_SER |||
        STM32_FLASH_CR_SECT_MSK <<< STM32_FLASH_CR_SECT_SHIFT) }, .returns 0) := by
    rw [stm32_flash_erase, hget, if_neg (by omega), Int.toNat_natCast, hlast, ← hf₁]
    simp only [hready, Nat.add_sub_cancel_left, Bool.false_eq_true, if_false]
  generalize hf₂ : stm32_flash_cr_lock _ = f₂ at herase
  have hcr₂ : secondBank f₂.cr = secondBank f₁.cr := by
    rw [← hf₂, stm32_flash_cr_lock, secondBank_or, secondBank_and_not (by decide)]
    exact Bool.or_false _
  have hnvm₂ : f₂.nvm = f₁.nvm := by rw [← hf₂]; rfl
  have hbusy₂ : f₂.busy = false := by rw [← hf₂]; exact hidle
  have herased₂ : f₂.erased = f₁.erased := by rw [← hf₂]; rfl
  -- the words are programmed
  have hwords : ((c.size + 4#32 - 1#32) / 4#32).toNat = (c.size.toNat + 3) / 4 := by
    rw [BitVec.toNat_udiv]
    congr 1
    bv_omega
  obtain ⟨hprog, hbeside, hdone, hcr, hlog⟩ := @programWords_spec c.buf ((c.size.toNat + 3) / 4)
    c.offset 0#32
    { stm32_flash_cr_unlock f₂ with cr := (stm32_flash_cr_unlock f₂).cr ||| STM32_FLASH_CR_PG }
    (by omega) hbusy₂
  refine ⟨(stm32_flash_program c.offset c.buf c.size f₂).1, n, count, ?_, hmeets, ?_, ?_, ?_, ?_, ?_⟩
  · rw [envm_write, if_neg (by bv_omega), herase]
    simp only [stm32_flash_program, hbusy₂, Bool.false_eq_true, if_false]
    rfl
  all_goals
    simp only [stm32_flash_program, hbusy₂, hwords, Bool.false_eq_true, if_false,
      stm32_flash_cr_lock]
  · rw [hlog]
    exact herased₂.trans herased
  · intro k hk
    have hbyte := hprog k (by omega)
    rw [BitVec.zero_add] at hbyte
    rw [hbyte]
    refine (congrArg (· &&& _) ?_).trans BitVec.allOnes_and
    exact (congrFun hnvm₂ _).trans (hin _ ⟨by rw [hstart.2]; omega, by omega⟩)
  · intro i hi
    rw [hbeside i ?_]
    · exact (congrFun hnvm₂ _).trans (hout i hi)
    · -- blocks end between words
      obtain ⟨a, ha⟩ := blockStart_words hlen
      obtain ⟨b, hb⟩ := blockStart_words hstart.1.le
      have hoff := hstart.2
      rw [InBlocks, not_and_or, not_le, not_lt] at hi
      omega
  · exact hdone
  · intro htwo hsecond
    rw [secondBank_or, secondBank_and_not (by decide), hcr, secondBank_or, stm32_flash_cr_unlock,
      secondBank_and_not (by decide), hcr₂, show secondBank STM32_FLASH_CR_PG = false by decide,
      show secondBank STM32_FLASH_CR_LOCK = false by decide, Bool.or_false, Bool.or_false] at hsecond
    rcases hset htwo hsecond with hold | ⟨hcount, hlast⟩
    · rw [stm32_flash_cr_unlock, secondBank_and_not (by decide)] at hold
      exact Or.inl hold
    · have hmeet := ((hmeets (n + count - 1)).2 ⟨by omega, by omega⟩).2.1
      have hle : blockStart chip 12 ≤ blockStart chip (n + count - 1) := blockStart_mono (by omega)
      exact Or.inr ⟨haccepted, hsize hcount, by omega⟩

/-! ## Runs -/

/-- The flash after a call of `envm_write`, and after several. -/
def afterCall (chip : Chip) (f : Flash) (c : Call) : Flash :=
  (envm_write chip c.offset c.buf c.size f).1

/-- The flash after a reset and `envm_init`. -/
def initialized (nvm : Nat → Byte) : Flash :=
  envm_init { nvm := nvm, cr := STM32_FLASH_CR_LOCK, busy := false, erased := [] }

/-- Between calls the flash is ready, and the bit for the second bank comes from a call that
erased there. -/
def Ready (chip : Chip) (calls : List Call) (f : Flash) : Prop :=
  f.busy = false ∧
    (chip = .STM32F43X → secondBank f.cr → ∃ c ∈ calls, c.ErasesSecond chip)

/-- A call does what it is meant to, and leaves the flash ready. -/
theorem afterCall_ready {calls : List Call} {f : Flash} {c : Call} (hready : Ready chip calls f)
    (hwraps : ¬ c.Wraps chip)
    (hbanks : chip = .STM32F43X → ∀ b ∈ calls, ¬ (b.ErasesSecond chip ∧ c.ErasesFirst chip)) :
    WritesIntended chip f c (afterCall chip f c) (envm_write chip c.offset c.buf c.size f).2 ∧
      Ready chip (calls ++ [c]) (afterCall chip f c) := by
  rw [afterCall]
  by_cases haccepted : c.Accepted chip
  · obtain ⟨f', n, count, hwrite, hmeets, herased, hsource, hother, hidle, hset⟩ :=
      envm_write_accepted hready.1 (fun htwo hsecond hfirst => by
        obtain ⟨b, hb, hbsecond⟩ := hready.2 htwo hsecond
        exact hbanks htwo b hb ⟨hbsecond, hfirst⟩) haccepted
    rw [hwrite]
    refine ⟨⟨fun _ => ⟨rfl, n, count, hmeets, herased, hsource, hother⟩, absurd haccepted⟩, hidle,
      fun htwo hsecond => ?_⟩
    rcases hset htwo hsecond with hold | hnew
    · obtain ⟨b, hb, hbsecond⟩ := hready.2 htwo hold
      exact ⟨b, List.mem_append_left _ hb, hbsecond⟩
    · exact ⟨c, List.mem_append_right _ (List.mem_singleton_self c), hnew⟩
  · rw [envm_write_rejected hwraps haccepted]
    refine ⟨⟨fun h => absurd h haccepted, fun _ => ⟨rfl, rfl, rfl⟩⟩, hready.1,
      fun htwo hsecond => ?_⟩
    obtain ⟨b, hb, hbsecond⟩ := hready.2 htwo hsecond
    exact ⟨b, List.mem_append_left _ hb, hbsecond⟩

/-- The calls of a run do not wrap, and on a chip with two banks none of them erases in the
first bank behind one that erased in the second. -/
structure Ordered (chip : Chip) (calls : List Call) : Prop where
  unwrapped : ∀ c ∈ calls, ¬ c.Wraps chip
  banks : chip = .STM32F43X →
    calls.Pairwise fun b c => ¬ (b.ErasesSecond chip ∧ c.ErasesFirst chip)

theorem Ordered.before {calls : List Call} {c : Call} (h : Ordered chip (calls ++ [c])) :
    Ordered chip calls :=
  ⟨fun b hb => h.unwrapped b (List.mem_append_left _ hb),
    fun htwo => (List.pairwise_append.1 (h.banks htwo)).1⟩

/-- The last call of a run does what it is meant to, if the calls before left the flash ready. -/
theorem Ordered.last {calls : List Call} {c : Call} {f : Flash} (h : Ordered chip (calls ++ [c]))
    (hready : Ready chip calls f) :
    WritesIntended chip f c (afterCall chip f c) (envm_write chip c.offset c.buf c.size f).2 ∧
      Ready chip (calls ++ [c]) (afterCall chip f c) :=
  afterCall_ready hready (h.unwrapped c (List.mem_append_right _ (List.mem_singleton_self c)))
    fun htwo b hb => (List.pairwise_append.1 (h.banks htwo)).2.2 b hb c (List.mem_singleton_self c)

theorem secondBank_initialized (nvm : Nat → Byte) : secondBank (initialized nvm).cr = false := by
  have hcr : (initialized nvm).cr = (initialized fun _ => 0).cr := rfl
  rw [hcr]
  decide

/-- A run leaves the flash ready. -/
theorem run_ready {nvm : Nat → Byte} {calls : List Call} (h : Ordered chip calls) :
    Ready chip calls (calls.foldl (afterCall chip) (initialized nvm)) := by
  induction calls using List.reverseRecOn with
  | nil =>
      refine ⟨rfl, fun _ hset => ?_⟩
      rw [List.foldl_nil, secondBank_initialized] at hset
      exact absurd hset (by decide)
  | append_singleton calls c ih =>
      rw [List.foldl_append]
      exact (h.last (ih h.before)).2

/-- Every call of a run does what it is meant to. -/
theorem writes_intended (nvm : Nat → Byte) {calls : List Call} {c : Call}
    (h : Ordered chip (calls ++ [c])) :
    WritesIntended chip (calls.foldl (afterCall chip) (initialized nvm)) c
      (afterCall chip (calls.foldl (afterCall chip) (initialized nvm)) c)
      (envm_write chip c.offset c.buf c.size
        (calls.foldl (afterCall chip) (initialized nvm))).2 :=
  (h.last (run_ready h.before)).1

/-- 16 bytes for the beginning of the first bank, and for that of the second. -/
def lower : Call := ⟨0x08000000#32, fun _ => 7, 16#32⟩
def upper : Call := ⟨0x08100000#32, fun _ => 7, 16#32⟩

theorem writes_intended_upwards :
    WritesIntended .STM32F43X (afterCall .STM32F43X (initialized fun _ => 0xff) lower) upper
      (afterCall .STM32F43X (afterCall .STM32F43X (initialized fun _ => 0xff) lower) upper)
      (envm_write .STM32F43X upper.offset upper.buf upper.size
        (afterCall .STM32F43X (initialized fun _ => 0xff) lower)).2 := by
  refine @writes_intended .STM32F43X (fun _ => 0xff) [lower] upper ⟨?_, fun _ => ?_⟩
  · intro c hc hwraps
    simp only [List.cons_append, List.nil_append, List.mem_cons, List.not_mem_nil, or_false] at hc
    rcases hc with rfl | rfl
    · exact absurd hwraps.2.1 (by decide)
    · exact absurd hwraps.2.1 (by decide)
  · refine List.pairwise_pair.2 fun h => ?_
    exact absurd h.2.2.2 (by decide)

/-- The first bank behind the second: block 12 is erased a second time, and block 0 not. A range
that wraps is looked for behind the table. -/
theorem writes_unintended :
    (afterCall .STM32F43X (afterCall .STM32F43X (initialized fun _ => 0xff) upper) lower).erased =
      [12, 12] ∧ lower.Accepted .STM32F43X ∧
    (envm_write .STM32F2 0x08000000#32 (fun _ => 7) 0xf8000000#32 (initialized fun _ => 0xff)).2 =
      .overruns := by
  refine ⟨by decide, ⟨⟨0, by decide, by decide⟩, by decide⟩, by decide⟩

end UBoot.Stm32
