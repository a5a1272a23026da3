/-
# Writing to CFI flash in bursts

`write_buff` programs words in bursts, which are single words, or what goes into a buffer.
A buffer is refused when none of its words can be programmed, where it should be refused
when one of them can not. So the word-by-word build is always right, and the buffered one
when `Clean` or `Stops` holds of its bursts.
-/

import UBoot.Flash.CfiWords
import UBoot.Lib.Memory

namespace UBoot.CfiFlash

open UBoot.Lib

/-! ## The bursts -/

section Bursts

variable (info : CfiInfo) (buffered : Bool)

/-- How many words are programmed at once. -/
def burstLength (wp cnt : Nat) : Nat :=
  if buffered ∧ info.buffer_size ≠ 1 then
    min (buffered_size info - wp % buffered_size info) cnt / info.portwidth
  else 1

/-- The bursts of the aligned part and the tail. -/
def bodyBursts : Nat → Nat → Nat → List (List Nat)
  | 0, _, _ => []
  | fuel + 1, wp, cnt =>
      if info.portwidth ≤ cnt then
        let words := burstLength info buffered wp cnt
        List.range' (wp / info.portwidth) words ::
          bodyBursts fuel (wp + words * info.portwidth) (cnt - words * info.portwidth)
      else if cnt = 0 then []
      else [[wp / info.portwidth]]

/-- The bursts, as indices of words. -/
def bursts (addr cnt : Nat) : List (List Nat) :=
  let n := info.portwidth
  let aln := addr % n
  if aln ≠ 0 then
    [addr / n] :: bodyBursts info buffered (cnt - (n - aln) + 1) ((addr / n + 1) * n) (cnt - (n - aln))
  else bodyBursts info buffered (cnt + 1) addr cnt

end Bursts

/-! ## Their lengths -/

section Lengths

variable {info : CfiInfo} {buffered : Bool} {k cnt : Nat}

theorem portwidth_pos (info : CfiInfo) : 0 < info.portwidth := by
  obtain ⟨k, -, h⟩ := info.port
  rw [h]
  exact Nat.two_pow_pos k

/-- A buffer has whole words. -/
theorem portwidth_dvd_buffered_size (multi : info.buffer_size ≠ 1) :
    info.portwidth ∣ buffered_size info := by
  obtain ⟨p, -, port⟩ := info.port
  obtain ⟨c, chip, le⟩ := info.chip
  obtain ⟨b, buffer, h⟩ := info.buffer
  have small : info.chipwidth ≤ info.buffer_size := h.resolve_right multi
  rw [chip, buffer] at small
  rw [chip, port] at le
  have cb := (Nat.pow_le_pow_iff_right (by decide)).mp small
  have cp := (Nat.pow_le_pow_iff_right (by decide)).mp le
  rw [buffered_size, port, chip, buffer, Nat.pow_div cp (by decide), ← Nat.pow_add]
  exact Nat.pow_dvd_pow 2 (by omega)

/-- A burst has a word at least, and no more than there is. -/
theorem burstLength_bounds (buffered : Bool) (h : info.portwidth ≤ cnt) :
    0 < burstLength info buffered (k * info.portwidth) cnt ∧
      burstLength info buffered (k * info.portwidth) cnt * info.portwidth ≤ cnt := by
  have hn := portwidth_pos info
  rw [burstLength]
  split
  · next multi =>
      obtain ⟨b, size⟩ := portwidth_dvd_buffered_size multi.2
      have positive : 0 < buffered_size info := by
        rw [buffered_size]
        obtain ⟨c, chip, le⟩ := info.chip
        obtain ⟨e, buffer, -⟩ := info.buffer
        refine Nat.mul_pos (Nat.div_pos le ?_) ?_
        · rw [chip]
          exact Nat.two_pow_pos c
        · rw [buffer]
          exact Nat.two_pow_pos e
      have hb : 0 < b := Nat.pos_of_mul_pos_left (size ▸ positive)
      have rest : buffered_size info - k * info.portwidth % buffered_size info =
          (b - k % b) * info.portwidth := by
        rw [size, Nat.mul_comm k, Nat.mul_mod_mul_left, ← Nat.mul_sub, Nat.mul_comm]
      have some_left : 0 < b - k % b := Nat.sub_pos_of_lt (Nat.mod_lt k hb)
      rw [rest]
      refine ⟨Nat.div_pos (le_min ?_ h) hn, ?_⟩
      · exact Nat.le_mul_of_pos_left _ some_left
      · exact (Nat.div_mul_le_self _ _).trans (min_le_right _ _)
  · exact ⟨by decide, by rwa [Nat.one_mul]⟩

/-- The bursts are all words, each once. -/
theorem flatten_bodyBursts {fuel : Nat} (enough : cnt < fuel) :
    (bodyBursts info buffered fuel (k * info.portwidth) cnt).flatten =
      List.range' k ((cnt + info.portwidth - 1) / info.portwidth) := by
  have hn := portwidth_pos info
  induction fuel generalizing k cnt with
  | zero => omega
  | succ fuel ih =>
      rw [bodyBursts]
      split
      · next more =>
          obtain ⟨words_pos, fits⟩ := burstLength_bounds buffered (k := k) more
          set words := burstLength info buffered (k * info.portwidth) cnt
          have taken : 0 < words * info.portwidth := Nat.mul_pos words_pos hn
          rw [List.flatten_cons, ← Nat.add_mul, ih (by omega), Nat.mul_div_cancel _ hn,
            List.range'_append_1]
          congr 1
          rw [show cnt + info.portwidth - 1 =
            (cnt - words * info.portwidth + info.portwidth - 1) + words * info.portwidth by omega,
            Nat.add_mul_div_right _ _ hn, Nat.add_comm]
      · next less =>
          split
          · next none =>
              rw [none, Nat.zero_add, Nat.div_eq_of_lt (by omega)]
              rfl
          · next some =>
              have one : (cnt + info.portwidth - 1) / info.portwidth = 1 := by
                rw [show cnt + info.portwidth - 1 = cnt - 1 + info.portwidth by omega,
                  Nat.add_div_right _ hn, Nat.div_eq_of_lt (by omega)]
              rw [one, Nat.mul_div_cancel _ hn]
              rfl

theorem bodyBursts_nonempty {fuel : Nat} :
    ∀ burst ∈ bodyBursts info buffered fuel (k * info.portwidth) cnt, burst ≠ [] := by
  induction fuel generalizing k cnt with
  | zero => simp [bodyBursts]
  | succ fuel ih =>
      rw [bodyBursts]
      split
      · next more =>
          obtain ⟨words_pos, -⟩ := burstLength_bounds buffered (k := k) more
          refine List.forall_mem_cons.mpr ⟨?_, ?_⟩
          · simp only [ne_eq, List.range'_eq_nil_iff]
            omega
          · rw [← Nat.add_mul]
            exact ih
      · split <;> simp

/-- The words in which the bytes are. -/
theorem flatten_bursts (info : CfiInfo) (buffered : Bool) (addr cnt : Nat) :
    (bursts info buffered addr cnt).flatten =
      List.range' (addr / info.portwidth)
        ((addr % info.portwidth + cnt + info.portwidth - 1) / info.portwidth) := by
  have hn := portwidth_pos info
  have aln_lt := Nat.mod_lt addr hn
  simp only [bursts]
  split
  · next unaligned =>
      set aln := addr % info.portwidth
      rw [List.flatten_cons, flatten_bodyBursts (Nat.lt_succ_self _), List.singleton_append,
        ← List.range'_succ]
      congr 1
      by_cases more : info.portwidth - aln ≤ cnt
      · rw [show aln + cnt + info.portwidth - 1 =
          cnt - (info.portwidth - aln) + info.portwidth - 1 + info.portwidth by omega,
          Nat.add_div_right _ hn]
      · have one : (aln + cnt + info.portwidth - 1) / info.portwidth = 1 := by
          rw [show aln + cnt + info.portwidth - 1 = aln + cnt - 1 + info.portwidth by omega,
            Nat.add_div_right _ hn, Nat.div_eq_of_lt (by omega)]
        rw [one, show cnt - (info.portwidth - aln) + info.portwidth - 1 = info.portwidth - 1 by omega,
          Nat.div_eq_of_lt (by omega)]
  · next aligned =>
      rw [not_not] at aligned
      have place : addr = addr / info.portwidth * info.portwidth := by
        have := Nat.div_add_mod' addr info.portwidth
        omega
      rw [aligned, Nat.zero_add, place, flatten_bodyBursts (Nat.lt_succ_self _),
        Nat.mul_div_cancel _ hn]

theorem bursts_nonempty (info : CfiInfo) (buffered : Bool) (addr cnt : Nat) :
    ∀ burst ∈ bursts info buffered addr cnt, burst ≠ [] := by
  simp only [bursts]
  split
  · exact List.forall_mem_cons.mpr ⟨by simp, bodyBursts_nonempty⟩
  · next aligned =>
      have place : addr = addr / info.portwidth * info.portwidth := by
        have := Nat.div_add_mod' addr info.portwidth
        omega
      rw [place]
      exact bodyBursts_nonempty

/-- The word-by-word build. -/
theorem bodyBursts_single {fuel wp : Nat} :
    ∀ burst ∈ bodyBursts info false fuel wp cnt, ∃ i, burst = [i] := by
  induction fuel generalizing wp cnt with
  | zero => simp [bodyBursts]
  | succ fuel ih =>
      rw [bodyBursts]
      split
      · exact List.forall_mem_cons.mpr ⟨⟨wp / info.portwidth, rfl⟩, ih⟩
      · split <;> simp

theorem bursts_single (info : CfiInfo) (addr cnt : Nat) :
    ∀ burst ∈ bursts info false addr cnt, ∃ i, burst = [i] := by
  simp only [bursts]
  split
  · exact List.forall_mem_cons.mpr ⟨⟨_, rfl⟩, bodyBursts_single⟩
  · exact bodyBursts_single

end Lengths

/-! ## write_buff in bursts -/

section Runs

variable {info : CfiInfo} {order : ByteOrder} {buffered : Bool} {m : Content} {k : Nat}
variable {src : List UChar}

/-- What is wanted of the words. -/
def image (n : Nat) (m : Content) (addr : Nat) (src : List UChar) : Nat → Fin n → UChar :=
  wordsOf n (store m addr src)

/-- The content of the words while the bursts are programmed. -/
def runWords (info : CfiInfo) (m : Content) (addr : Nat) (src : List UChar)
    (bursts : List (List Nat)) : Bool × (Nat → Fin info.portwidth → UChar) :=
  runBursts program (image info.portwidth m addr src) (wordsOf info.portwidth m) bursts

/-- The bytes of the flash before the source, the source, and the bytes of the flash behind. -/
theorem getD_merged (f : Content) {n aln : Nat} (h : aln + src.length ≤ n) {j : Nat} (hj : j < n) :
    ((List.range' 0 aln).map f ++ src ++
      (List.range' (aln + src.length) (n - (aln + src.length))).map f).getD j 0#8 =
      store f aln src j := by
  rw [List.getD_eq_getElem?_getD, store]
  by_cases before : j < aln
  · rw [List.append_assoc, List.getElem?_append_left (by simpa using before), if_neg (by omega)]
    simp [before]
  · rw [if_pos (by omega), List.append_assoc,
      List.getElem?_append_right (by simp only [List.length_map, List.length_range']; omega)]
    simp only [List.length_map, List.length_range']
    by_cases inside : j - aln < src.length
    · rw [List.getElem?_append_left inside, List.getElem?_eq_getElem inside]
      rfl
    · rw [List.getElem?_append_right (by omega), List.getElem?_eq_none (l := src) (by omega)]
      have behind : j - aln - src.length < n - (aln + src.length) := by omega
      have place : aln + src.length + (j - aln - src.length) = j := by omega
      simp [behind, place]

/-- The word that is put together around bytes of the source is the one that is wanted. -/
theorem byteOf_merged {aln : Nat} (h : aln + src.length ≤ info.portwidth) (j : Fin info.portwidth) :
    byteOf order
      (addFlash info order m (k * info.portwidth) (aln + src.length)
        (info.portwidth - (aln + src.length))
        (addSource info order src (addFlash info order m (k * info.portwidth) 0 aln 0))) j =
      image info.portwidth m (k * info.portwidth + aln) src k j := by
  have merged := getD_merged (fun j => m (k * info.portwidth + j)) h j.isLt
  simp only [addFlash, addSource]
  rw [← List.foldl_map (f := fun i => m (k * info.portwidth + i)),
    ← List.foldl_map (f := fun i => m (k * info.portwidth + i)), ← List.foldl_append,
    ← List.foldl_append, ← List.append_assoc, byteOf_word ?_ _ j.isLt, merged, image, wordsOf]
  · rw [store, store]
    by_cases inside : aln ≤ (j : Nat)
    · rw [if_pos inside, if_pos (by omega), Nat.add_sub_add_left]
    · rw [if_neg inside, if_neg (by omega)]
  · simp only [List.length_append, List.length_map, List.length_range']
    omega

/-- Words of the source alone. -/
theorem source_image {count : Nat} (h : count * info.portwidth ≤ src.length) :
    Source (image info.portwidth m (k * info.portwidth) src) k count src := by
  intro i hi j
  have inside : i * info.portwidth + j < src.length := by
    have := Nat.mul_le_mul_right info.portwidth (Nat.succ_le_of_lt hi)
    rw [Nat.succ_mul] at this
    omega
  have found : src[i * info.portwidth + j]? = some src[i * info.portwidth + j] :=
    List.getElem?_eq_getElem inside
  rw [List.getD_eq_getElem?_getD, found, image, wordsOf, Nat.add_mul, Nat.add_assoc,
    store_add found]
  rfl

/-- A full word of the source. -/
theorem byteOf_full (full : info.portwidth ≤ src.length) (j : Fin info.portwidth) :
    byteOf order (addSource info order (src.take info.portwidth) 0) j =
      image info.portwidth m (k * info.portwidth) src k j := by
  have one : 1 * info.portwidth ≤ src.length := by rwa [Nat.one_mul]
  have source : src.getD j 0#8 = image info.portwidth m (k * info.portwidth) src k j := by
    simpa using source_image (m := m) (k := k) one 0 (by decide) j
  rw [addSource, byteOf_word (by simpa using full) _ j.isLt, ← source,
    List.getD_eq_getElem?_getD, List.getElem?_take_of_lt j.isLt, ← List.getD_eq_getElem?_getD]

/-- One turn of the loop is one burst. -/
theorem writeAligned_ran (order : ByteOrder) (buffered : Bool) (m : Content) (k : Nat)
    (full : info.portwidth ≤ src.length) :
    (writeAligned info order buffered m (k * info.portwidth) src).1 =
        burstLength info buffered (k * info.portwidth) src.length * info.portwidth ∧
      Ran info.portwidth (writeAligned info order buffered m (k * info.portwidth) src).2
        (runWords info m (k * info.portwidth) src
          [List.range' k (burstLength info buffered (k * info.portwidth) src.length)]) := by
  obtain ⟨-, fits⟩ := burstLength_bounds (k := k) buffered full
  rw [writeAligned, runWords]
  rw [burstLength] at fits ⊢
  split
  · next multi =>
      rw [if_pos multi] at fits
      refine ⟨?_, flash_write_cfibuffer_ran (source_image fits)⟩
      show _ - _ % _ = _
      have := Nat.div_add_mod' (min (buffered_size info -
        k * info.portwidth % buffered_size info) src.length) info.portwidth
      omega
  · exact ⟨(Nat.one_mul _).symm, flash_write_cfiword_ran (byteOf_full full)⟩

/-- What is wanted behind a burst, when the words there are what they were. -/
theorem image_drop {n addr c i : Nat} {m' : Content} (h : addr + c ≤ i * n)
    (same : wordsOf n m' i = wordsOf n m i) :
    image n m addr src i = image n m' (addr + c) (src.drop c) i := by
  funext j
  have old : m' (i * n + j) = m (i * n + j) := congrFun same j
  rw [image, image, wordsOf, wordsOf, store, store, if_pos (by omega), if_pos (by omega),
    List.getElem?_drop, old, show c + (i * n + (j : Nat) - (addr + c)) = i * n + j - addr by omega]

/-- A burst behind which the others are programmed. -/
theorem runWords_cons {addr c : Nat} {burst : List Nat} {bursts : List (List Nat)}
    {out : Int × Content} (ran : Ran info.portwidth out (runWords info m addr src [burst]))
    (behind : ∀ i ∈ bursts.flatten, i ∉ burst ∧ addr + c ≤ i * info.portwidth) :
    runWords info m addr src (burst :: bursts) =
      if out.1 = 0 then runWords info out.2 (addr + c) (src.drop c) bursts
      else runWords info m addr src [burst] := by
  have same : ∀ i ∈ bursts.flatten,
      wordsOf info.portwidth out.2 i = wordsOf info.portwidth m i := by
    intro i hi
    rw [ran.words, runWords, runBursts_of_notMem (by simpa using (behind i hi).1)]
  have rc := ran.rc
  rw [runWords] at rc
  rw [runWords, runBursts_cons]
  cases all : (runBursts program (image info.portwidth m addr src) (wordsOf info.portwidth m)
      [burst]).1 with
  | false =>
      rw [all] at rc
      rw [if_neg (by decide), rc, if_neg (by decide), runWords]
  | true =>
      rw [all] at rc
      rw [if_pos rfl, rc, if_pos (if_pos rfl), runWords, ran.words, runWords]
      exact runBursts_congr fun i hi => image_drop (behind i hi).2 (same i hi)

theorem writeTail_ran (short : src.length < info.portwidth) :
    Ran info.portwidth (writeTail info order m (k * info.portwidth) src)
      (runWords info m (k * info.portwidth) src (if src.length = 0 then [] else [[k]])) := by
  rw [writeTail]
  split
  · exact ⟨rfl, rfl⟩
  · have fits : 0 + src.length ≤ info.portwidth := by omega
    exact flash_write_cfiword_ran fun j => by simpa [addFlash] using byteOf_merged (k := k) fits j

/-- The aligned part and the tail. -/
theorem writeBody_ran (info : CfiInfo) (order : ByteOrder) (buffered : Bool) (m : Content)
    (k : Nat) {fuel : Nat} (enough : src.length < fuel) :
    ∃ out, writeBody info order buffered fuel m (k * info.portwidth) src = some out ∧
      Ran info.portwidth out (runWords info m (k * info.portwidth) src
        (bodyBursts info buffered fuel (k * info.portwidth) src.length)) := by
  have hn := portwidth_pos info
  induction fuel generalizing m k src with
  | zero => omega
  | succ fuel ih =>
      rw [writeBody, bodyBursts, Nat.mul_div_cancel _ hn]
      split
      · next full =>
          obtain ⟨words_pos, fits⟩ := burstLength_bounds (k := k) buffered full
          obtain ⟨taken, ran⟩ := writeAligned_ran order buffered m k full
          set words := burstLength info buffered (k * info.portwidth) src.length
          have some_taken : 0 < words * info.portwidth := Nat.mul_pos words_pos hn
          have left : src.length - words * info.portwidth < fuel := by omega
          obtain ⟨out, body, rest⟩ := @ih (src.drop (words * info.portwidth))
            (writeAligned info order buffered m (k * info.portwidth) src).2.2 (k + words) (by rwa [List.length_drop])
          rw [List.length_drop] at rest
          simp only []
          rw [runWords_cons (c := words * info.portwidth) ran, taken, ← Nat.add_mul]
          · split
            · exact ⟨_, rfl, ran⟩
            · next passed =>
                rw [if_pos (not_not.mp passed)]
                exact ⟨out, body, rest⟩
          · intro i hi
            rw [← Nat.add_mul, flatten_bodyBursts left, List.mem_range'_1] at hi
            refine ⟨?_, ?_⟩
            · rw [List.mem_range'_1]
              omega
            · rw [← Nat.add_mul]
              exact Nat.mul_le_mul_right _ hi.1
      · next short =>
          exact ⟨_, rfl, writeTail_ran (Nat.lt_of_not_le short)⟩

/-- `write_buff` returns, and what it does is to program the bursts. -/
theorem write_buff_ran (info : CfiInfo) (order : ByteOrder) (buffered : Bool) (m : Content)
    (src : List UChar) (addr : Nat) :
    ∃ out, write_buff info order buffered m src addr = some out ∧
      Ran info.portwidth out
        (runWords info m addr src (bursts info buffered addr src.length)) := by
  have hn := portwidth_pos info
  have aln_lt := Nat.mod_lt addr hn
  have place := Nat.div_add_mod' addr info.portwidth
  rw [write_buff, bursts]
  simp only []
  split
  · next unaligned =>
      set aln := addr % info.portwidth
      set k := addr / info.portwidth
      set first := src.take (info.portwidth - aln)
      set rest := src.drop (info.portwidth - aln) with hrest
      have wp : addr - aln = k * info.portwidth := by omega
      have first_le : first.length ≤ info.portwidth - aln := List.length_take_le _ _
      have fits : aln + first.length ≤ info.portwidth := by omega
      have start : k * info.portwidth + aln = addr := by omega
      have whole : aln + (info.portwidth - aln) = info.portwidth := by omega
      have behind : addr + (info.portwidth - aln) = (k + 1) * info.portwidth := by
        rw [Nat.succ_mul]
        omega
      -- Behind the bytes of the source, the word is filled up unless it is full already.
      have fill : ∀ cword, (if rest.length = 0 then
          addFlash info order m (addr - aln) (aln + first.length)
            (info.portwidth - (aln + first.length)) cword
          else cword) =
          addFlash info order m (k * info.portwidth) (aln + first.length)
            (info.portwidth - (aln + first.length)) cword := by
        intro cword
        rw [wp]
        split
        · rfl
        · next more =>
            have full : first.length = info.portwidth - aln := by
              rw [hrest, List.length_drop] at more
              rw [List.length_take]
              omega
            rw [full, whole, Nat.sub_self]
            rfl
      have step : (if rest.length = 0 then info.portwidth else aln + first.length) =
          info.portwidth := by
        split
        · rfl
        · next more =>
            rw [hrest, List.length_drop] at more
            rw [List.length_take]
            omega
      have source : ∀ j : Fin info.portwidth,
          image info.portwidth m addr first k j = image info.portwidth m addr src k j := by
        intro j
        rw [image, image, wordsOf, wordsOf, store, store]
        split
        · rw [List.getElem?_take_of_lt (by omega)]
        · rfl
      have word : ∀ j : Fin info.portwidth, byteOf order
          (addFlash info order m (k * info.portwidth) (aln + first.length)
            (info.portwidth - (aln + first.length))
            (addSource info order first (addFlash info order m (k * info.portwidth) 0 aln 0))) j =
          image info.portwidth m addr src k j := by
        intro j
        rw [byteOf_merged fits j, start]
        exact source j
      have ran := flash_write_cfiword_ran (m := m) word
      rw [fill, step, wp, runWords_cons (c := info.portwidth - aln) ran]
      · split
        · exact ⟨_, rfl, ran⟩
        · next passed =>
            rw [if_pos (not_not.mp passed), ← Nat.succ_mul, behind]
            obtain ⟨out, body, rest_ran⟩ := writeBody_ran info order buffered _ (k + 1)
              (Nat.lt_succ_self rest.length)
            refine ⟨out, body, ?_⟩
            rw [hrest, List.length_drop] at rest_ran
            exact rest_ran
      · intro i hi
        rw [flatten_bodyBursts (Nat.lt_succ_self _), List.mem_range'_1] at hi
        refine ⟨?_, ?_⟩
        · rw [List.mem_singleton]
          omega
        · rw [behind]
          exact Nat.mul_le_mul_right _ hi.1
  · next aligned =>
      have start : addr = addr / info.portwidth * info.portwidth := by omega
      obtain ⟨out, body, ran⟩ := writeBody_ran info order buffered m
        (addr / info.portwidth) (Nat.lt_succ_self src.length)
      rw [← start] at body ran
      refine ⟨out, ?_, ran⟩
      rw [not_not.mp aligned, Nat.sub_zero]
      exact body

end Runs

/-! ## What is expected of write_buff -/

section Correct

variable {info : CfiInfo} {order : ByteOrder} {buffered : Bool} {m : Content}
variable {src : List UChar} {addr k : Nat}

/-- A byte of the source in a word needs a bit of the flash to become 1. -/
def NeedsErase (n : Nat) (m : Content) (addr : Nat) (src : List UChar) (k : Nat) : Prop :=
  ∃ j b, src[j]? = some b ∧ (addr + j) / n = k ∧ m (addr + j) &&& b ≠ b

/-- When 0 is returned, the source is in the flash and nothing else is changed. A word that
needs an erase is refused. And the word-by-word build returns 0 for the same. -/
structure Correct (info : CfiInfo) (order : ByteOrder) (buffered : Bool) (m : Content)
    (src : List UChar) (addr : Nat) : Prop where
  written : ∀ m', write_buff info order buffered m src addr = some (0, m') → m' = store m addr src
  refused : ∀ k, NeedsErase info.portwidth m addr src k →
    ∃ m', write_buff info order buffered m src addr = some (ERR_NOT_ERASED, m') ∧
      ∀ a, k * info.portwidth ≤ a → a < (k + 1) * info.portwidth → m' a = m a
  agrees : ∀ m', write_buff info order buffered m src addr = some (0, m') ↔
    write_buff info order false m src addr = some (0, m')

theorem takes_iff (hn : 0 < info.portwidth) :
    Takes program (image info.portwidth m addr src) (wordsOf info.portwidth m) k ↔
      ¬ NeedsErase info.portwidth m addr src k := by
  constructor
  · rintro takes ⟨j, b, hj, rfl, erase⟩
    have byte := congrFun takes ⟨(addr + j) % info.portwidth, Nat.mod_lt _ hn⟩
    simp only [program, wordsOf, image, Nat.div_add_mod', store_add hj] at byte
    exact erase byte
  · intro none
    funext j
    simp only [program, wordsOf, image, store]
    split
    · next le =>
        cases hb : src[k * info.portwidth + j - addr]? with
        | none => exact BitVec.and_self
        | some b =>
            by_contra erase
            refine none ⟨_, b, hb, ?_, ?_⟩
            · rw [Nat.add_sub_of_le le, Nat.mul_comm, Nat.mul_add_div hn,
                Nat.div_eq_of_lt j.isLt, Nat.add_zero]
            · rwa [Nat.add_sub_of_le le]
    · exact BitVec.and_self

/-- Each byte of the source is in a word that is programmed. -/
theorem mem_bursts {j : Nat} (h : j < src.length) :
    (addr + j) / info.portwidth ∈ (bursts info buffered addr src.length).flatten := by
  have hn := portwidth_pos info
  have place := Nat.div_add_mod' addr info.portwidth
  rw [flatten_bursts, List.mem_range'_1]
  refine ⟨Nat.div_le_div_right (Nat.le_add_right _ _), ?_⟩
  have total := Nat.div_add_mod' (addr % info.portwidth + src.length + info.portwidth - 1)
    info.portwidth
  have part := Nat.mod_lt (addr % info.portwidth + src.length + info.portwidth - 1) hn
  rw [Nat.div_lt_iff_lt_mul hn, Nat.add_mul]
  omega

/-- Words that are not programmed are wanted as they are. -/
theorem image_of_notMem (h : k ∉ (bursts info buffered addr src.length).flatten) :
    image info.portwidth m addr src k = wordsOf info.portwidth m k := by
  have hn := portwidth_pos info
  funext j
  rw [image, wordsOf, wordsOf, store]
  split
  · next le =>
      rw [List.getElem?_eq_none]
      · rfl
      · by_contra inside
        refine h ?_
        have mem := @mem_bursts info buffered src addr _ (Nat.lt_of_not_le inside)
        rwa [Nat.add_sub_of_le le, Nat.mul_comm, Nat.mul_add_div hn, Nat.div_eq_of_lt j.isLt,
          Nat.add_zero] at mem
  · rfl

theorem nodup_bursts (info : CfiInfo) (buffered : Bool) (addr cnt : Nat) :
    (bursts info buffered addr cnt).flatten.Nodup := by
  rw [flatten_bursts]
  exact List.nodup_range'

/-- The bursts are programmed as they should be. -/
def SoundBursts (info : CfiInfo) (buffered : Bool) (m : Content) (src : List UChar)
    (addr : Nat) : Prop :=
  Sound program (image info.portwidth m addr src) (wordsOf info.portwidth m)
    (bursts info buffered addr src.length)

namespace SoundBursts

/-- When all bursts are programmed, the source is in the flash. -/
theorem content {out : Int × Content} (sound : SoundBursts info buffered m src addr)
    (ran : Ran info.portwidth out
      (runWords info m addr src (bursts info buffered addr src.length)))
    (zero : out.1 = 0) : out.2 = store m addr src := by
  refine wordsOf_inj (portwidth_pos info) (ran.words.trans ?_)
  funext k
  by_cases mem : k ∈ (bursts info buffered addr src.length).flatten
  · obtain ⟨burst, hb, hi⟩ := List.mem_flatten.mp mem
    exact sound.written (ran.zero_iff.mp zero) burst hb k hi
  · exact (runBursts_of_notMem mem).trans (image_of_notMem mem).symm

/-- A word that needs an erase is left alone. -/
theorem refusal {out : Int × Content} (sound : SoundBursts info buffered m src addr)
    (ran : Ran info.portwidth out
      (runWords info m addr src (bursts info buffered addr src.length)))
    (erase : NeedsErase info.portwidth m addr src k) :
    out.1 = ERR_NOT_ERASED ∧ wordsOf info.portwidth out.2 k = wordsOf info.portwidth m k := by
  obtain ⟨j, b, hj, rfl, -⟩ := id erase
  have inside : j < src.length := (List.getElem?_eq_some_iff.mp hj).1
  obtain ⟨burst, hb, hi⟩ := List.mem_flatten.mp (@mem_bursts info buffered src addr j inside)
  obtain ⟨reported, same⟩ := sound.refused burst hb _ hi fun takes =>
    (takes_iff (portwidth_pos info)).mp takes erase
  exact ⟨ran.not_erased_iff.mpr reported, by rw [ran.words]; exact same⟩

/-- 0 is returned when no word needs an erase, and then the source is in the flash. -/
theorem returns_zero_iff (order : ByteOrder) (sound : SoundBursts info buffered m src addr)
    (m' : Content) :
    write_buff info order buffered m src addr = some (0, m') ↔
      (∀ k, ¬ NeedsErase info.portwidth m addr src k) ∧ m' = store m addr src := by
  obtain ⟨out, returned, ran⟩ := write_buff_ran info order buffered m src addr
  rw [returned]
  constructor
  · intro zero
    obtain rfl := Option.some.inj zero
    refine ⟨fun k erase => ?_, sound.content ran rfl⟩
    exact absurd (sound.refusal ran erase).1 (show (0 : Int) ≠ ERR_NOT_ERASED by decide)
  · rintro ⟨none, rfl⟩
    have clean : Clean program (image info.portwidth m addr src) (wordsOf info.portwidth m)
        (bursts info buffered addr src.length) :=
      fun _ _ k _ => (takes_iff (portwidth_pos info)).mpr (none k)
    have zero : out.1 = 0 := ran.zero_iff.mpr
      (clean.all (nodup_bursts _ _ _ _) (bursts_nonempty _ _ _ _))
    rw [← sound.content ran zero, ← zero]

end SoundBursts

/-- The word-by-word build. -/
theorem soundBursts_words : SoundBursts info false m src addr :=
  (sound_iff (nodup_bursts _ _ _ _) (bursts_nonempty _ _ _ _)).mpr
    (clean_or_stops_singletons (bursts_single _ _ _))

/-- `write_buff` is right when its bursts are. -/
theorem correct_iff_soundBursts :
    Correct info order buffered m src addr ↔ SoundBursts info buffered m src addr := by
  obtain ⟨out, returned, ran⟩ := write_buff_ran info order buffered m src addr
  have hn := portwidth_pos info
  constructor
  · rintro ⟨written, refused, -⟩
    rw [returned] at written refused
    constructor
    · intro all burst _ k _
      have zero : out.1 = 0 := ran.zero_iff.mpr all
      have content := written out.2 (by rw [← zero])
      show (runWords info m addr src (bursts info buffered addr src.length)).2 k = _
      rw [← ran.words, content]
      rfl
    · intro burst _ k _ no
      have erase : NeedsErase info.portwidth m addr src k := by
        by_contra none
        exact no ((takes_iff hn).mpr none)
      obtain ⟨m', h, same⟩ := refused k erase
      obtain rfl := Option.some.inj h
      refine ⟨ran.not_erased_iff.mp rfl, ?_⟩
      show (runWords info m addr src (bursts info buffered addr src.length)).2 k = _
      rw [← ran.words]
      funext j
      exact same _ (Nat.le_add_right _ _) (by rw [Nat.succ_mul]; omega)
  · intro sound
    refine ⟨fun m' h => ((sound.returns_zero_iff order m').mp h).2, ?_, fun m' => ?_⟩
    · intro k erase
      obtain ⟨rc, same⟩ := sound.refusal ran erase
      refine ⟨out.2, by rw [returned, ← rc], fun a low high => ?_⟩
      rw [Nat.succ_mul] at high
      have word := congrFun same ⟨a - k * info.portwidth, by omega⟩
      simpa only [wordsOf, Nat.add_sub_of_le low] using word
    · rw [sound.returns_zero_iff, soundBursts_words.returns_zero_iff]

/-- `write_buff` is right when none of its words needs an erase; or when a buffer is refused,
in front of which no word is changed that needs an erase. -/
theorem write_buff_correct_iff (info : CfiInfo) (order : ByteOrder) (buffered : Bool)
    (m : Content) (src : List UChar) (addr : Nat) :
    Correct info order buffered m src addr ↔
      Clean program (image info.portwidth m addr src) (wordsOf info.portwidth m)
          (bursts info buffered addr src.length) ∨
        Stops program (image info.portwidth m addr src) (wordsOf info.portwidth m)
          (bursts info buffered addr src.length) :=
  Iff.trans correct_iff_soundBursts
    (sound_iff (nodup_bursts _ _ _ _) (bursts_nonempty _ _ _ _))

/-- Without buffers it is always right. -/
theorem write_buff_words_correct : Correct info order false m src addr :=
  correct_iff_soundBursts.2 soundBursts_words

/-- A chip with buffers of two words. -/
def twoWordBuffers : CfiInfo :=
  ⟨2, 2, 4, ⟨1, by decide⟩, ⟨1, by decide⟩, ⟨2, by decide⟩⟩

/-- The second word of a buffer is not erased, but the first is. -/
theorem write_buff_not_erased :
    ¬ ∀ (info : CfiInfo) (order : ByteOrder) (buffered : Bool) (m : Content) (src : List UChar)
      (addr : Nat), Correct info order buffered m src addr := by
  intro claim
  have correct := claim twoWordBuffers .big true (fun a => if a = 2 then 0x00#8 else 0xff#8)
    [1#8, 2#8, 3#8, 4#8] 0
  obtain ⟨m', h, -⟩ := correct.refused 1 ⟨2, 3#8, rfl, rfl, by decide⟩
  have rc := congrArg (Option.map Prod.fst) h
  revert rc
  rw [show (write_buff twoWordBuffers .big true (fun a => if a = 2 then 0x00#8 else 0xff#8)
    [1#8, 2#8, 3#8, 4#8] 0).map Prod.fst = some 0 by decide]
  simp [ERR_NOT_ERASED]

end Correct

end UBoot.CfiFlash
