/-
# Words of the flash

What `flash_add_byte` builds and `flash_write_cfiword` programs, byte by byte, in both byte
orders. A word that is put together from bytes has these bytes in memory, and the check
whether it can be programmed is a check of each byte.
-/

import UBoot.Flash.CfiWrite
import UBoot.Lib.Bursts

namespace UBoot.CfiFlash

open UBoot.Lib

variable {n : Nat} {order : ByteOrder}

/-! ## Bytes of a word -/

theorem lane_lt (order : ByteOrder) {j : Nat} (h : j < n) : lane order n j < n := by
  cases order with
  | little => exact h
  | big =>
      show n - 1 - j < n
      omega

theorem lane_lane {j : Nat} (h : j < n) : lane order n (lane order n j) = j := by
  cases order with
  | little => rfl
  | big =>
      show n - 1 - (n - 1 - j) = j
      omega

theorem lane_inj (order : ByteOrder) {i j : Nat} (hi : i < n) (hj : j < n) (h : lane order n i = lane order n j) :
    i = j := by rw [← lane_lane hi, h, lane_lane hj]

theorem getLsbD_byteOf (w : BitVec (8 * n)) (j : Nat) {t : Nat} (h : t < 8) :
    (byteOf order w j).getLsbD t = w.getLsbD (8 * lane order n j + t) := by
  rw [byteOf, BitVec.getLsbD_extractLsb']
  simp [h]

/-- A word is its bytes. -/
theorem word_ext (order : ByteOrder) {w w' : BitVec (8 * n)} (h : ∀ j < n, byteOf order w j = byteOf order w' j) :
    w = w' := by
  refine BitVec.eq_of_getLsbD_eq fun i hi => ?_
  have inside : i / 8 < n := by omega
  have byte := congrArg (fun c => c.getLsbD (i % 8)) (h (lane order n (i / 8)) (lane_lt order inside))
  rw [getLsbD_byteOf _ _ (by omega), getLsbD_byteOf _ _ (by omega), lane_lane inside,
    Nat.div_add_mod] at byte
  exact byte

@[simp]
theorem byteOf_and (a b : BitVec (8 * n)) (j : Nat) :
    byteOf order (a &&& b) j = byteOf order a j &&& byteOf order b j := by
  refine BitVec.eq_of_getLsbD_eq fun t ht => ?_
  rw [BitVec.getLsbD_and, getLsbD_byteOf _ _ ht, getLsbD_byteOf _ _ ht, getLsbD_byteOf _ _ ht,
    BitVec.getLsbD_and]

/-- A bit of the bytes that are read so far. -/
theorem getLsbD_flash_read (m : Content) (addr : Nat) {i : Nat} (hi : i < 8 * n) (count : Nat) :
    ((List.range count).foldl
      (fun w j => w ||| (m (addr + j)).setWidth (8 * n) <<< (8 * lane order n j))
        0#(8 * n)).getLsbD i =
      (List.range count).any fun j =>
        decide (8 * lane order n j ≤ i) && (m (addr + j)).getLsbD (i - 8 * lane order n j) := by
  induction count with
  | zero => simp
  | succ count ih =>
      rw [List.range_succ, List.foldl_append, List.any_append, List.foldl_cons, List.foldl_nil,
        BitVec.getLsbD_or, ih]
      congr 1
      by_cases behind : 8 * lane order n count ≤ i
      · simp [hi, behind]
      · simp [behind]

/-- The bytes of a word that is read are those in memory. -/
theorem byteOf_flash_read (m : Content) (addr : Nat) {j : Nat} (hj : j < n) :
    byteOf order (flash_read order n m addr) j = m (addr + j) := by
  refine BitVec.eq_of_getLsbD_eq fun t ht => ?_
  have inside : 8 * lane order n j + t < 8 * n := by
    have := lane_lt order hj
    omega
  rw [getLsbD_byteOf _ _ ht, flash_read, getLsbD_flash_read m addr inside, Bool.eq_iff_iff]
  simp only [List.any_eq_true, List.mem_range, Bool.and_eq_true, decide_eq_true_eq]
  constructor
  · rintro ⟨i, hi, le, bit⟩
    have short := BitVec.lt_of_getLsbD bit
    obtain rfl : i = j := lane_inj order hi hj (by omega)
    rwa [Nat.add_sub_cancel_left] at bit
  · intro bit
    exact ⟨j, hj, by omega, by rwa [Nat.add_sub_cancel_left]⟩

/-! ## A word from bytes -/

/-- The bytes move on by one. -/
theorem byteOf_add {w : BitVec (8 * n)} {c : UChar} {j : Nat} (h : j + 1 < n) :
    byteOf order (flash_add_byte order w c) j = byteOf order w (j + 1) := by
  refine BitVec.eq_of_getLsbD_eq fun t ht => ?_
  rw [getLsbD_byteOf _ _ ht, getLsbD_byteOf _ _ ht]
  cases order with
  | little =>
      simp only [flash_add_byte, lane, BitVec.getLsbD_or, BitVec.getLsbD_ushiftRight,
        BitVec.getLsbD_shiftLeft]
      have low : 8 * j + t < 8 * (n - 1) := by omega
      simp only [low, decide_true, Bool.not_true, Bool.and_false, Bool.false_and, Bool.or_false]
      congr 1
      omega
  | big =>
      simp only [flash_add_byte, lane, BitVec.getLsbD_or, BitVec.getLsbD_shiftLeft,
        BitVec.getLsbD_setWidth]
      have inside : 8 * (n - 1 - j) + t < 8 * n := by omega
      have high : ¬ 8 * (n - 1 - j) + t < 8 := by omega
      rw [BitVec.getLsbD_of_ge c _ (by omega)]
      simp only [inside, high, decide_true, decide_false, Bool.not_false, Bool.true_and,
        Bool.and_false, Bool.or_false]
      congr 1
      omega

/-- The new byte is the last. -/
theorem byteOf_add_last {w : BitVec (8 * n)} {c : UChar} (h : 0 < n) :
    byteOf order (flash_add_byte order w c) (n - 1) = c := by
  refine BitVec.eq_of_getLsbD_eq fun t ht => ?_
  rw [getLsbD_byteOf _ _ ht]
  cases order with
  | little =>
      simp only [flash_add_byte, lane, BitVec.getLsbD_or, BitVec.getLsbD_ushiftRight,
        BitVec.getLsbD_shiftLeft, BitVec.getLsbD_setWidth]
      rw [BitVec.getLsbD_of_ge w _ (by omega), Nat.add_sub_cancel_left]
      have inside : 8 * (n - 1) + t < 8 * n := by omega
      have short : t < 8 * n := by omega
      simp [inside, short]
  | big =>
      simp only [flash_add_byte, lane, BitVec.getLsbD_or, BitVec.getLsbD_shiftLeft,
        BitVec.getLsbD_setWidth, Nat.sub_self, Nat.mul_zero, Nat.zero_add]
      have short : t < 8 * n := by omega
      simp [ht, short]

/-- As many bytes as a word has are the word. -/
theorem byteOf_foldl (bytes : List UChar) (w : BitVec (8 * n)) {j : Nat} (hj : j < n) :
    byteOf order (bytes.foldl (flash_add_byte order) w) j =
      if j + bytes.length < n then byteOf order w (j + bytes.length)
      else bytes.getD (j + bytes.length - n) 0#8 := by
  induction bytes generalizing w with
  | nil => simp [hj]
  | cons c bytes ih =>
      rw [List.foldl_cons, ih, List.length_cons]
      by_cases inside : j + bytes.length < n
      · rw [if_pos inside]
        by_cases last : j + bytes.length + 1 < n
        · rw [byteOf_add last, if_pos (by omega), Nat.add_assoc]
        · have eq : j + bytes.length = n - 1 := by omega
          rw [eq, byteOf_add_last (by omega), if_neg (by omega),
            show j + (bytes.length + 1) - n = 0 by omega]
          rfl
      · rw [if_neg inside, if_neg (by omega),
          show j + (bytes.length + 1) - n = (j + bytes.length - n) + 1 by omega]
        rfl

theorem byteOf_word {bytes : List UChar} (length : bytes.length = n) (w : BitVec (8 * n)) {j : Nat}
    (hj : j < n) : byteOf order (bytes.foldl (flash_add_byte order) w) j = bytes.getD j 0#8 := by
  rw [byteOf_foldl bytes w hj, if_neg (by omega), length, Nat.add_sub_cancel]

/-! ## Words as cells -/

/-- The words of the flash. -/
def wordsOf (n : Nat) (m : Content) (k : Nat) : Fin n → UChar := fun j => m (k * n + j)

/-- What a word becomes. -/
def program (old new : Fin n → UChar) : Fin n → UChar := fun j => old j &&& new j

/-- A return code and a content stand for whether all bursts are programmed, and the words. -/
structure Ran (n : Nat) (out : Int × Content) (ran : Bool × (Nat → Fin n → UChar)) : Prop where
  rc : out.1 = if ran.1 then 0 else ERR_NOT_ERASED
  words : wordsOf n out.2 = ran.2

namespace Ran

variable {out : Int × Content} {ran : Bool × (Nat → Fin n → UChar)}

theorem zero_iff (h : Ran n out ran) : out.1 = 0 ↔ ran.1 = true := by
  rw [h.rc]
  cases ran.1 <;> decide

theorem not_erased_iff (h : Ran n out ran) : out.1 = ERR_NOT_ERASED ↔ ran.1 = false := by
  rw [h.rc]
  cases ran.1 <;> decide

end Ran

variable {m : Content} {k : Nat} {want : Nat → Fin n → UChar}

/-- The words are all of the content. -/
theorem wordsOf_inj (hn : 0 < n) {m' : Content} (h : wordsOf n m = wordsOf n m') : m = m' := by
  funext a
  have word := congrFun (congrFun h (a / n)) ⟨a % n, Nat.mod_lt a hn⟩
  simpa [wordsOf, Nat.div_add_mod'] using word

theorem flash_write_words {cword : BitVec (8 * n)}
    (h : ∀ j : Fin n, byteOf order cword j = want k j) :
    wordsOf n (flash_write order cword m (k * n)) =
      Function.update (wordsOf n m) k (program (wordsOf n m k) (want k)) := by
  funext i j
  by_cases eq : i = k
  · subst eq
    rw [Function.update_self, wordsOf, flash_write, if_pos ⟨by omega, by omega⟩,
      Nat.add_sub_cancel_left, h]
    rfl
  · rw [Function.update_of_ne eq, wordsOf, flash_write, if_neg]
    · rfl
    · rintro ⟨low, high⟩
      rcases Nat.lt_or_gt_of_ne eq with lt | gt
      · have := Nat.mul_le_mul_right n (Nat.succ_le_of_lt lt)
        rw [Nat.succ_mul] at this
        omega
      · have := Nat.mul_le_mul_right n (Nat.succ_le_of_lt gt)
        rw [Nat.succ_mul] at this
        omega

/-- The check of a word. -/
theorem check_iff {cword : BitVec (8 * n)} (h : ∀ j : Fin n, byteOf order cword j = want k j) :
    flash_read order n m (k * n) &&& cword = cword ↔
      Takes program want (wordsOf n m) k := by
  rw [Takes]
  constructor
  · intro eq
    funext j
    have byte := congrArg (byteOf order · j) eq
    simp only [byteOf_and, byteOf_flash_read m _ j.isLt, h] at byte
    exact byte
  · intro eq
    refine word_ext order fun j hj => ?_
    rw [byteOf_and, byteOf_flash_read m _ hj, h ⟨j, hj⟩]
    exact congrFun eq ⟨j, hj⟩

theorem flash_write_cfiword_ran {cword : BitVec (8 * n)}
    (h : ∀ j : Fin n, byteOf order cword j = want k j) :
    Ran n (flash_write_cfiword order m (k * n) cword)
      (runBursts program want (wordsOf n m) [[k]]) := by
  have check := check_iff (m := m) h
  by_cases takes : Takes program want (wordsOf n m) k
  · rw [flash_write_cfiword, if_pos (check.mpr takes), runBursts, if_pos ⟨k, by simp, takes⟩]
    exact ⟨rfl, flash_write_words h⟩
  · rw [flash_write_cfiword, if_neg (mt check.mp takes), runBursts, if_neg (by simpa using takes)]
    exact ⟨rfl, rfl⟩

/-! ## Buffers -/

/-- The bytes of the source are the words that are wanted. -/
def Source (want : Nat → Fin n → UChar) (k count : Nat) (src : List UChar) : Prop :=
  ∀ i < count, ∀ j : Fin n, src.getD (i * n + j) 0#8 = want (k + i) j

theorem Source.head (order : ByteOrder) {count : Nat} {src : List UChar} (h : Source want k (count + 1) src)
    (j : Fin n) : byteOf order (flash_read order n (sourceAt src) 0) j = want k j := by
  rw [byteOf_flash_read _ _ j.isLt, sourceAt]
  simpa using h 0 (by omega) j

theorem Source.tail {count : Nat} {src : List UChar} (h : Source want k (count + 1) src) :
    Source want (k + 1) count (src.drop n) := by
  intro i hi j
  have next := h (i + 1) (by omega) j
  rw [List.getD_eq_getElem?_getD, List.getElem?_drop, show n + (i * n + j) = (i + 1) * n + j by
    rw [Nat.succ_mul]; omega, ← List.getD_eq_getElem?_getD, next]
  congr 1
  omega

/-- The check of a buffer is passed when some word can be programmed. -/
theorem flash_check_flag_iff (order : ByteOrder) {count : Nat} {src : List UChar} (h : Source want k count src) :
    flash_check_flag order n m src (k * n) count ↔
      ∃ i ∈ List.range' k count, Takes program want (wordsOf n m) i := by
  induction count generalizing k src with
  | zero => simp [flash_check_flag]
  | succ count ih =>
      have first := check_iff (m := m) (k := k) (h.head order)
      rw [flash_check_flag, List.range'_succ]
      simp only [List.mem_cons, exists_eq_or_imp]
      by_cases takes : Takes program want (wordsOf n m) k
      · simp [first.mpr takes, takes]
      · rw [if_neg (mt first.mp takes), ← Nat.succ_mul, ih h.tail]
        simp [takes]

theorem flash_write_buffer_words {count : Nat} {src : List UChar}
    (h : Source want k count src) :
    wordsOf n (flash_write_buffer order n src (k * n) count m) =
      programAll program want (wordsOf n m) (List.range' k count) := by
  induction count generalizing k src m with
  | zero => rfl
  | succ count ih =>
      rw [flash_write_buffer, ← Nat.succ_mul, ih h.tail, flash_write_words (h.head order),
        List.range'_succ, programAll, programAll, List.foldl_cons]

theorem flash_write_cfibuffer_ran {len : Nat} {src : List UChar}
    (h : Source want k (len / n) src) :
    Ran n (flash_write_cfibuffer order n m (k * n) src len)
      (runBursts program want (wordsOf n m) [List.range' k (len / n)]) := by
  have check := flash_check_flag_iff order (m := m) h
  by_cases takes : ∃ i ∈ List.range' k (len / n), Takes program want (wordsOf n m) i
  · rw [flash_write_cfibuffer, if_pos (check.mpr takes), runBursts, if_pos takes]
    exact ⟨rfl, flash_write_buffer_words h⟩
  · rw [flash_write_cfibuffer, if_neg (mt check.mp takes), runBursts, if_neg takes]
    exact ⟨rfl, rfl⟩

end UBoot.CfiFlash
