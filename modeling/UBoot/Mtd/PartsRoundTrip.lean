/-
# Reading what was written

What `generate_mtdparts` writes for a list of devices is read by `parse_mtdparts` as the same
list, when it is `Regular`: no partition is too small to be read, no two of a device begin at
the same offset, and generated names are those that the text gives.
-/

import UBoot.Mtd.PartsText

namespace UBoot.Mtd

/-! ## Numbers -/

private theorem xdigit_digits : ∀ d : Fin 10, xdigit (digitChar d) = some d.val := by decide

theorem xdigit_digitChar {d : Nat} (h : d < 10) : xdigit (digitChar d) = some d :=
  xdigit_digits ⟨d, h⟩

/-- Decimal digits in front of something else. -/
theorem strtoulDigits_decimal {digits n : Nat} (h : n < 10 ^ digits) (rest : List Byte) :
    strtoulDigits 10 0 (decimal digits n ++ rest) = strtoulDigits 10 (BitVec.ofNat 32 n) rest := by
  induction digits generalizing n rest with
  | zero =>
      obtain rfl : n = 0 := by simpa using h
      rfl
  | succ digits ih =>
      rw [decimal]
      split
      · next small =>
          rw [List.singleton_append, strtoulDigits, xdigit_digitChar small]
          simp [small]
      · next large =>
          have low : n % 10 < 10 := Nat.mod_lt n (by decide)
          have value : BitVec.ofNat 32 (n / 10) * BitVec.ofNat 32 10 + BitVec.ofNat 32 (n % 10) =
              BitVec.ofNat 32 n := by
            rw [← BitVec.ofNat_mul, ← BitVec.ofNat_add, Nat.div_add_mod']
          rw [List.append_assoc, ih (by rw [Nat.pow_succ] at h; omega), List.singleton_append,
            strtoulDigits, xdigit_digitChar low]
          simp only [low, if_true]
          rw [value]

/-- The first digit of a number that is not 0. -/
theorem decimal_head {digits n : Nat} (pos : 0 < n) (h : n < 10 ^ digits) :
    ∃ d cs, d < 10 ∧ d ≠ 0 ∧ decimal digits n = digitChar d :: cs := by
  induction digits generalizing n with
  | zero => simp at h; omega
  | succ digits ih =>
      rw [decimal]
      split
      · next small => exact ⟨n, [], small, by omega, rfl⟩
      · next large =>
          rw [Nat.pow_succ] at h
          obtain ⟨d, cs, hd, hd', eq⟩ := @ih (n / 10) (by omega) (by omega)
          exact ⟨d, cs ++ [digitChar (n % 10)], hd, hd', by rw [eq]; rfl⟩

/-- The text is empty or begins with one of these. -/
def HeadIn (cs rest : List Byte) : Prop := ∀ c, rest.head? = some c → c ∈ cs

theorem HeadIn.mono {cs cs' rest : List Byte} (h : HeadIn cs rest) (sub : cs ⊆ cs') :
    HeadIn cs' rest := fun c hc => sub (h c hc)

theorem HeadIn.ite {cs rest : List Byte} (h : HeadIn cs rest) (b : Bool) {c : Byte} (hc : c ∈ cs)
    (text : List Byte) : HeadIn cs ((if b then c :: text else []) ++ rest) := by
  cases b with
  | false => simpa using h
  | true => simpa [HeadIn] using hc

/-- What may follow a partition: `,` and `;`. -/
def partEnds : List Byte := [0x2c#8, 0x3b#8]

/-- What may follow a number: `@`, `(`, `r`, `,` and `;`. -/
def numberEnds : List Byte := [0x40#8, 0x28#8, 0x72#8, 0x2c#8, 0x3b#8]

theorem xdigit_numberEnds : ∀ c ∈ numberEnds, xdigit c = none := by decide

theorem HeadIn.digits {rest : List Byte} (h : HeadIn numberEnds rest) (result : U32) :
    strtoulDigits 10 result rest = (result, rest) := by
  cases rest with
  | nil => rfl
  | cons c rest => rw [strtoulDigits, xdigit_numberEnds c (h c rfl)]

private theorem digitChar_ne_zero : ∀ d : Fin 10, d ≠ 0 → digitChar d ≠ 0x30#8 := by decide

theorem simple_strtoul_decimal {digits n : Nat} (pos : 0 < n) (h : n < 10 ^ digits)
    (rest : List Byte) :
    simple_strtoul (decimal digits n ++ rest) 0 = strtoulDigits 10 (BitVec.ofNat 32 n) rest := by
  obtain ⟨d, cs, hd, hd', eq⟩ := decimal_head pos h
  have first : (decimal digits n ++ rest).head? ≠ some 0x30#8 := by
    rw [eq]
    simpa using digitChar_ne_zero ⟨d, hd⟩ (by simpa [Fin.ext_iff] using hd')
  rw [simple_strtoul, if_neg first, if_pos rfl, strtoulDigits_decimal h]

/-- A number with a suffix. -/
theorem memsize_parse_suffix {n : Nat} (pos : 0 < n) (h : n < 10 ^ 10) {c : Byte}
    (stop : xdigit c = none) (rest : List Byte) :
    simple_strtoul (decimal 10 n ++ c :: rest) 0 = (BitVec.ofNat 32 n, c :: rest) := by
  rw [simple_strtoul_decimal pos h, strtoulDigits, stop]

theorem shift_back {size : U32} {bits : Nat} (whole : size.toNat % 2 ^ bits = 0) :
    BitVec.ofNat 32 (size.toNat / 2 ^ bits) <<< bits = size := by
  refine BitVec.eq_of_toNat_eq ?_
  have back : size.toNat / 2 ^ bits * 2 ^ bits = size.toNat :=
    Nat.div_mul_cancel (Nat.dvd_of_mod_eq_zero whole)
  have small : size.toNat / 2 ^ bits < 2 ^ 32 := (Nat.div_le_self _ _).trans_lt size.isLt
  rw [BitVec.toNat_shiftLeft, BitVec.toNat_ofNat, Nat.mod_eq_of_lt small, Nat.shiftLeft_eq, back,
    Nat.mod_eq_of_lt size.isLt]

theorem quotient_pos {size k : Nat} (pos : 0 < size) (whole : size % k = 0) : 0 < size / k := by
  rcases Nat.eq_zero_or_pos (size / k) with zero | h
  · have := Nat.div_add_mod' size k
    rw [zero, whole] at this
    omega
  · exact h

theorem toNat_pos {x : U32} (h : x ≠ 0#32) : 0 < x.toNat :=
  Nat.pos_of_ne_zero fun zero => h (BitVec.eq_of_toNat_eq zero)

theorem quotient_small (size : U32) (k : Nat) : size.toNat / k < 10 ^ 10 :=
  (Nat.div_le_self _ _).trans_lt (size.isLt.trans (by decide))

/-- What `memsize_format` writes: a number with a suffix, or a number. -/
theorem memsize_format_cases (size : U32) :
    (∃ bits c, (c, bits) ∈ [(0x67#8, 30), (0x6d#8, 20), (0x6b#8, 10)] ∧
      size.toNat % 2 ^ bits = 0 ∧
      memsize_format size = decimal 10 (size.toNat / 2 ^ bits) ++ [c]) ∨
    memsize_format size = decimal 10 size.toNat := by
  by_cases g : size.toNat % 2 ^ 30 = 0
  · exact Or.inl ⟨30, 0x67#8, by simp, g, if_pos g⟩
  by_cases m : size.toNat % 2 ^ 20 = 0
  · exact Or.inl ⟨20, 0x6d#8, by simp, m, (if_neg g).trans (if_pos m)⟩
  by_cases k : size.toNat % 2 ^ 10 = 0
  · exact Or.inl ⟨10, 0x6b#8, by simp, k, ((if_neg g).trans (if_neg m)).trans (if_pos k)⟩
  · exact Or.inr (((if_neg g).trans (if_neg m)).trans (if_neg k))

/-- `memsize_parse` reads what `memsize_format` writes. -/
theorem memsize_round_trip {size : U32} (pos : size ≠ 0#32) {rest : List Byte}
    (ends : HeadIn numberEnds rest) :
    memsize_parse (memsize_format size ++ rest) = (size, rest) := by
  rcases memsize_format_cases size with ⟨bits, c, suffix, whole, eq⟩ | eq
  · have digits : xdigit c = none := by
      simp only [List.mem_cons, Prod.mk.injEq, List.not_mem_nil, or_false] at suffix
      rcases suffix with ⟨rfl, -⟩ | ⟨rfl, -⟩ | ⟨rfl, -⟩ <;> decide
    have number := memsize_parse_suffix (quotient_pos (toNat_pos pos) whole)
      (quotient_small size (2 ^ bits)) digits rest
    have back := shift_back whole
    rw [memsize_parse, eq, List.append_assoc, List.singleton_append, number]
    simp only [List.mem_cons, Prod.mk.injEq, List.not_mem_nil, or_false] at suffix
    rcases suffix with ⟨rfl, rfl⟩ | ⟨rfl, rfl⟩ | ⟨rfl, rfl⟩ <;> simpa using back
  · rw [memsize_parse, eq, simple_strtoul_decimal (toNat_pos pos) (size.isLt.trans (by decide)),
      ends.digits, BitVec.ofNat_toNat, BitVec.setWidth_eq]
    cases rest with
    | nil => rfl
    | cons c rest =>
        have head := ends c rfl
        simp only [numberEnds, List.mem_cons, List.not_mem_nil, or_false] at head
        rcases head with rfl | rfl | rfl | rfl | rfl <;> rfl

/-- The text of a number begins with a digit. -/
theorem memsize_format_head {size : U32} (pos : size ≠ 0#32) :
    ∃ d cs, d < 10 ∧ memsize_format size = digitChar d :: cs := by
  rcases memsize_format_cases size with ⟨bits, c, -, whole, eq⟩ | eq
  · obtain ⟨d, cs, hd, -, digits⟩ :=
      decimal_head (quotient_pos (toNat_pos pos) whole) (quotient_small size (2 ^ bits))
    exact ⟨d, cs ++ [c], hd, by rw [eq, digits, List.cons_append]⟩
  · obtain ⟨d, cs, hd, -, digits⟩ :=
      @decimal_head 10 _ (toNat_pos pos) (size.isLt.trans (by decide))
    exact ⟨d, cs, hd, eq.trans digits⟩

/-! ## A partition -/

private theorem digitChar_ne_dash : ∀ d : Fin 10, digitChar d ≠ 0x2d#8 := by decide

theorem sizeParse_text {size : U32} (large : MIN_PART_SIZE ≤ size) {rest : List Byte}
    (ends : HeadIn numberEnds rest) :
    sizeParse (memsize_format size ++ rest) = some (size, rest) := by
  have pos : size ≠ 0#32 := by
    rintro rfl
    exact absurd large (by decide)
  obtain ⟨d, cs, hd, head⟩ := memsize_format_head pos
  have parse := memsize_round_trip pos ends
  rw [head, List.cons_append] at parse ⊢
  rw [sizeParse, if_neg (digitChar_ne_dash ⟨d, hd⟩), parse]
  simp only [if_neg (BitVec.not_lt.2 large)]

/-- The offset that is written. -/
def writtenOffset (prev_part : Option NamedPart) (part : NamedPart) : U32 :=
  if gap prev_part part then part.offset else OFFSET_NOT_SPECIFIED

theorem offsetParse_text {offset : U32} (b : Bool) (pos : b → offset ≠ 0#32) {rest : List Byte}
    (ends : HeadIn [0x28#8, 0x72#8, 0x2c#8, 0x3b#8] rest) :
    offsetParse ((if b then 0x40#8 :: memsize_format offset else []) ++ rest) =
      (if b then offset else OFFSET_NOT_SPECIFIED, rest) := by
  cases b with
  | true =>
      have ends : HeadIn numberEnds rest := ends.mono (by decide)
      exact memsize_round_trip (pos rfl) ends
  | false =>
      cases rest with
      | nil => rfl
      | cons c rest =>
          have other : c ≠ 0x40#8 := by
            rintro rfl
            exact absurd (ends _ rfl) (by decide)
          simp [offsetParse, other]

/-- A text that ends with a mark is found, and so is what follows it. -/
theorem upTo_mark {mark : Byte} {text : List Byte} (free : mark ∉ text) (rest : List Byte) :
    (text ++ mark :: rest).takeWhile (· ≠ mark) = text ∧
      text.length ≠ (text ++ mark :: rest).length ∧
      (text ++ mark :: rest).drop (text.length + 1) = rest := by
  refine ⟨?_, ?_, ?_⟩
  · rw [List.takeWhile_append_of_pos (by
      intro c hc
      have other : c ≠ mark := fun eq => free (eq ▸ hc)
      simpa using other)]
    simp
  · simp only [List.length_append, List.length_cons]
    omega
  · rw [← List.drop_drop, List.drop_left]
    rfl

theorem nameParse_text {name : List Byte} (b : Bool) (ok : b = false → name ≠ [] ∧ 0x29#8 ∉ name)
    {rest : List Byte} (ends : HeadIn [0x72#8, 0x2c#8, 0x3b#8] rest) :
    nameParse ((if b then [] else 0x28#8 :: (name ++ [0x29#8])) ++ rest) =
      some (if b then none else some name, rest) := by
  cases b with
  | true =>
      cases rest with
      | nil => rfl
      | cons c rest =>
          have other : c ≠ 0x28#8 := by
            rintro rfl
            exact absurd (ends _ rfl) (by decide)
          simp [nameParse, other]
  | false =>
      obtain ⟨nonempty, closed⟩ := ok rfl
      obtain ⟨inside, shorter, behind⟩ := upTo_mark closed rest
      have text : 0x28#8 :: (name ++ [0x29#8]) ++ rest = 0x28#8 :: (name ++ 0x29#8 :: rest) := by
        simp
      simp only [Bool.false_eq_true, if_false]
      rw [text, nameParse, if_pos rfl]
      simp only [inside]
      rw [if_neg shorter, if_neg nonempty, behind]

theorem roParse_text (ro : Bool) {rest : List Byte} (ends : HeadIn partEnds rest) :
    roParse ((if ro then ascii "ro" else []) ++ rest) = (ro, rest) := by
  cases ro with
  | true => rfl
  | false =>
      rcases rest with _ | ⟨c, _ | ⟨c', rest⟩⟩
      · rfl
      · rfl
      · have other : c ≠ 0x72#8 := by
          rintro rfl
          exact absurd (ends _ rfl) (by decide)
        simp [roParse, other]

/-- A partition that can be written. -/
structure NamedPart.Writable (prev_part : Option NamedPart) (part : NamedPart) : Prop where
  large : MIN_PART_SIZE ≤ part.size
  offset : gap prev_part part → part.offset ≠ 0#32
  given : part.auto_name = false → part.name ≠ [] ∧ 0x29#8 ∉ part.name
  auto : part.auto_name → part.name = autoName part.size (writtenOffset prev_part part)

/-- `part_parse` reads what was written for a partition. -/
theorem part_parse_text {prev_part : Option NamedPart} {part : NamedPart}
    (ok : part.Writable prev_part) {rest next : List Byte} (ends : HeadIn partEnds rest)
    (follows : nextParse part.size rest = some next) :
    part_parse (part.text prev_part ++ rest) =
      some ({ part with offset := writtenOffset prev_part part }, next) := by
  have ends_ro : HeadIn [0x72#8, 0x2c#8, 0x3b#8]
      ((if part.ro then ascii "ro" else []) ++ rest) :=
    (ends.mono (by decide)).ite part.ro (by decide) [0x6f#8]
  have ends_name : HeadIn [0x28#8, 0x72#8, 0x2c#8, 0x3b#8]
      ((if part.auto_name then [] else 0x28#8 :: (part.name ++ [0x29#8])) ++
        ((if part.ro then ascii "ro" else []) ++ rest)) := by
    cases part.auto_name with
    | true => exact ends_ro.mono (by decide)
    | false => intro c hc; simp at hc; simp [← hc]
  have ends_offset : HeadIn numberEnds
      ((if gap prev_part part then 0x40#8 :: memsize_format part.offset else []) ++
        ((if part.auto_name then [] else 0x28#8 :: (part.name ++ [0x29#8])) ++
          ((if part.ro then ascii "ro" else []) ++ rest))) :=
    (ends_name.mono (by decide)).ite _ (by decide) _
  rw [part_parse, NamedPart.text]
  simp only [List.append_assoc, sizeParse_text ok.large ends_offset,
    offsetParse_text _ ok.offset ends_name, nameParse_text _ ok.given ends_ro,
    roParse_text _ ends, Option.bind_eq_bind, Option.bind_some, follows]
  have auto := ok.auto
  rcases part with ⟨size, offset, name, auto_name, ro⟩
  cases auto_name with
  | false => rfl
  | true =>
      exact congrArg (fun n => some (NamedPart.mk size _ n true ro, next)) (auto rfl).symm

/-! ## The partitions of a device -/

/-- A partition that has its size and passes. -/
def NamedPart.Valid (id : NamedIds) (part : NamedPart) : Prop := part.validate id = (0, part)

theorem NamedPart.Valid.offset_ne {id : NamedIds} {part : NamedPart} (h : part.Valid id) :
    part.offset ≠ OFFSET_NOT_SPECIFIED := by
  intro last
  have wraps : ∀ size : U32, part.offset + size ≤ part.offset := fun size => by
    rw [last, BitVec.le_def]
    have := (OFFSET_NOT_SPECIFIED + size).isLt
    exact Nat.le_of_lt_succ this
  have fails : (part_validate id.ids ⟨0, part.size, part.offset⟩).1 = 1 := by
    have kept : (if part.size = SIZE_REMAINING then
        (⟨0, id.ids.size - part.offset, part.offset⟩ : PartInfo)
        else ⟨0, part.size, part.offset⟩).offset = part.offset := by split_ifs <;> rfl
    simp only [part_validate]
    generalize (if part.size = SIZE_REMAINING then
      (⟨0, id.ids.size - part.offset, part.offset⟩ : PartInfo)
      else ⟨0, part.size, part.offset⟩) = info at kept ⊢
    rw [kept, if_pos (wraps info.size)]
    split_ifs <;> rfl
  have rc : (part_validate id.ids ⟨0, part.size, part.offset⟩).1 = 0 := congrArg Prod.fst h
  rw [fails] at rc
  exact absurd rc (by decide)

/-- Where a partition begins that has no offset. -/
def runningOffset (prev_part : Option NamedPart) : U32 :=
  (prev_part.map fun prev => prev.offset + prev.size).getD 0#32

/-- An offset that is not written is the running one. -/
theorem writtenOffset_running {id : NamedIds} {prev_part : Option NamedPart} {part : NamedPart}
    (valid : part.Valid id) :
    (if writtenOffset prev_part part = OFFSET_NOT_SPECIFIED then runningOffset prev_part
      else writtenOffset prev_part part) = part.offset := by
  rw [writtenOffset]
  cases close : gap prev_part part with
  | true => simp [valid.offset_ne]
  | false => cases prev_part <;> simp_all [gap, runningOffset]

/-- Partitions that can be written. -/
def PartsWritable (prev_part : Option NamedPart) : List NamedPart → Prop
  | [] => True
  | part :: parts =>
      part.Writable prev_part ∧ (parts ≠ [] → part.size ≠ SIZE_REMAINING) ∧
        PartsWritable (some part) parts

/-- What is written behind a partition. -/
def moreParts (part : NamedPart) (parts : List NamedPart) : List Byte :=
  if parts = [] then [] else 0x2c#8 :: partsText (some part) parts

theorem partsText_cons (prev_part : Option NamedPart) (part : NamedPart) (parts : List NamedPart) :
    partsText prev_part (part :: parts) = part.text prev_part ++ moreParts part parts := by
  cases parts with
  | nil => simp [partsText, moreParts]
  | cons part' parts => simp [partsText, moreParts]

theorem NamedPart.Writable.head {prev_part : Option NamedPart} {part : NamedPart}
    (ok : part.Writable prev_part) :
    ∃ d cs, d < 10 ∧ part.text prev_part = digitChar d :: cs := by
  have pos : part.size ≠ 0#32 := by
    intro zero
    have large := ok.large
    rw [zero] at large
    exact absurd large (by decide)
  obtain ⟨d, cs, hd, eq⟩ := memsize_format_head pos
  exact ⟨d, _, hd, by rw [NamedPart.text, eq]; rfl⟩

theorem partsText_length {prev_part : Option NamedPart} {parts : List NamedPart}
    (ok : PartsWritable prev_part parts) : parts.length ≤ (partsText prev_part parts).length := by
  induction parts generalizing prev_part with
  | nil => exact Nat.zero_le _
  | cons part parts ih =>
      obtain ⟨d, cs, -, head⟩ := ok.1.head
      have rest := ih ok.2.2
      rw [partsText_cons, head]
      cases parts with
      | nil => simp
      | cons part' parts => simp [moreParts] at rest ⊢; omega

/-- Behind a partition there is a comma and more of them, or the end. -/
theorem nextParse_moreParts {part : NamedPart} {parts : List NamedPart}
    (fill : parts ≠ [] → part.size ≠ SIZE_REMAINING) {rest : List Byte}
    (stop : HeadIn [0x3b#8] rest) :
    HeadIn partEnds (moreParts part parts ++ rest) ∧
      nextParse part.size (moreParts part parts ++ rest) =
        some (partsText (some part) parts ++ rest) := by
  by_cases last : parts = []
  · rw [moreParts, if_pos last, last]
    refine ⟨stop.mono (by decide), ?_⟩
    cases rest with
    | nil => rfl
    | cons c rest =>
        obtain rfl : c = 0x3b#8 := by simpa using stop c rfl
        rfl
  · rw [moreParts, if_neg last]
    refine ⟨?_, by simp [nextParse, fill last]⟩
    intro c hc
    obtain rfl : 0x2c#8 = c := by simpa using hc
    decide

private theorem digitChar_ne_semicolon : ∀ d : Fin 10, digitChar d ≠ 0x3b#8 := by decide

/-- The loop of `device_parse` reads the partitions that were written. -/
theorem partsParse_text {id : NamedIds} {prev_part : Option NamedPart} {parts : List NamedPart}
    (ok : PartsWritable prev_part parts) (valid : ∀ part ∈ parts, part.Valid id)
    {rest : List Byte} (stop : HeadIn [0x3b#8] rest) {fuel : Nat} (h : parts.length < fuel) :
    partsParse id fuel (runningOffset prev_part) (partsText prev_part parts ++ rest) =
      some (parts, rest) := by
  induction parts generalizing prev_part fuel with
  | nil =>
      obtain ⟨fuel, rfl⟩ := Nat.exists_eq_succ_of_ne_zero (Nat.ne_of_gt h)
      cases rest with
      | nil => simp [partsParse, partsText]
      | cons c rest =>
          have head : c = 0x3b#8 := by simpa using stop c rfl
          simp [partsParse, partsText, head]
  | cons part parts ih =>
      obtain ⟨fuel, rfl⟩ := Nat.exists_eq_succ_of_ne_zero (Nat.ne_of_gt (Nat.zero_lt_of_lt h))
      obtain ⟨writable, fill, others⟩ := ok
      have valid_part : part.Valid id := valid part List.mem_cons_self
      obtain ⟨ends, follows⟩ := nextParse_moreParts fill stop
      have read := part_parse_text writable ends follows
      have again : partsParse id fuel (part.offset + part.size)
          (partsText (some part) parts ++ rest) = some (parts, rest) :=
        ih others (fun q hq => valid q (List.mem_cons_of_mem _ hq)) (Nat.lt_of_succ_lt_succ h)
      have more : ¬(part.text prev_part ++ (moreParts part parts ++ rest) = [] ∨
          (part.text prev_part ++ (moreParts part parts ++ rest)).head? = some 0x3b#8) := by
        obtain ⟨d, cs, hd, head⟩ := writable.head
        simpa [head] using digitChar_ne_semicolon ⟨d, hd⟩
      have offset : (if writtenOffset prev_part part = OFFSET_NOT_SPECIFIED then
          { part with offset := runningOffset prev_part }
          else { part with offset := writtenOffset prev_part part }) = part := by
        have running := @writtenOffset_running id prev_part part valid_part
        split_ifs with none
        · rw [if_pos none] at running
          rw [running]
        · rw [if_neg none] at running
          rw [running]
      rw [partsText_cons, List.append_assoc, partsParse, if_neg more, read]
      simp only [Option.bind_eq_bind, Option.bind_some]
      rw [offset, show part.validate id = (0, part) from valid_part]
      simp [again]

/-- A partition behind all others is added last. -/
theorem sortAdd_last {part : NamedPart} {parts : List NamedPart}
    (h : ∀ pi ∈ parts, pi.offset < part.offset) : sortAdd part parts = some (parts ++ [part]) := by
  induction parts with
  | nil => rfl
  | cons pi parts ih =>
      have behind : pi.offset < part.offset := h pi List.mem_cons_self
      have other : ¬(part.offset = pi.offset ∧ pi.offset = 0#32) := by
        rintro ⟨eq, -⟩
        rw [eq] at behind
        exact absurd behind (BitVec.lt_irrefl _)
      rw [sortAdd, if_neg other, if_neg (BitVec.not_le.2 behind),
        ih fun q hq => h q (List.mem_cons_of_mem _ hq)]
      rfl

/-- Partitions in order stay in order. -/
theorem sortAdd_foldlM {parts list : List NamedPart}
    (sorted : (list ++ parts).Pairwise fun a b => a.offset < b.offset) :
    parts.foldlM (fun list part => sortAdd part list) list = some (list ++ parts) := by
  induction parts generalizing list with
  | nil => simp
  | cons part parts ih =>
      have last : ∀ pi ∈ list, pi.offset < part.offset := fun pi hpi =>
        (List.pairwise_append.1 sorted).2.2 pi hpi part List.mem_cons_self
      rw [List.foldlM_cons, sortAdd_last last, Option.bind_eq_bind, Option.bind_some,
        ih (by simpa using sorted)]
      simp

/-! ## The devices -/

/-- A name that was given can be written between brackets. -/
def NamedPart.Named (part : NamedPart) : Prop :=
  part.auto_name = false → part.name ≠ [] ∧ 0x29#8 ∉ part.name

/-- Partitions are sorted, and only the first may begin at 0. -/
def SortedParts (parts : List NamedPart) : Prop :=
  parts.Pairwise fun a b => a.offset ≤ b.offset ∧ b.offset ≠ 0#32

/-- What holds of every device. -/
structure NamedDevice.Ok (mtdids : List NamedIds) (dev : NamedDevice) : Prop where
  found : mtdids.find? (·.mtd_id = dev.id.mtd_id) = some dev.id
  plain : 0x3a#8 ∉ dev.id.mtd_id
  nonempty : dev.parts ≠ []
  valid : ∀ part ∈ dev.parts, part.Valid dev.id
  named : ∀ part ∈ dev.parts, part.Named
  sorted : SortedParts dev.parts

/-- Generated names say the size and the offset that is written. -/
def AutoNames (prev_part : Option NamedPart) : List NamedPart → Prop
  | [] => True
  | part :: parts =>
      (part.auto_name → part.name = autoName part.size (writtenOffset prev_part part)) ∧
        AutoNames (some part) parts

/-- A device whose text says all about it. -/
structure NamedDevice.Regular (dev : NamedDevice) : Prop where
  large : ∀ part ∈ dev.parts, MIN_PART_SIZE ≤ part.size
  fill : ∀ part ∈ dev.parts.dropLast, part.size ≠ SIZE_REMAINING
  distinct : dev.parts.Pairwise fun a b => a.offset ≠ b.offset
  names : AutoNames none dev.parts

theorem partsWritable_of {prev_part : Option NamedPart} {parts : List NamedPart}
    (large : ∀ part ∈ parts, MIN_PART_SIZE ≤ part.size)
    (fill : ∀ part ∈ parts.dropLast, part.size ≠ SIZE_REMAINING)
    (names : AutoNames prev_part parts) (named : ∀ part ∈ parts, part.Named)
    (sorted : SortedParts parts) (offset : prev_part.isSome → ∀ part ∈ parts, part.offset ≠ 0#32) :
    PartsWritable prev_part parts := by
  induction parts generalizing prev_part with
  | nil => trivial
  | cons part parts ih =>
      have behind := List.pairwise_cons.1 sorted
      refine ⟨⟨large part List.mem_cons_self, ?_, named part List.mem_cons_self, names.1⟩, ?_, ?_⟩
      · intro close
        cases prev_part with
        | none => simpa [gap] using close
        | some prev => exact offset rfl part List.mem_cons_self
      · intro more
        refine fill part ?_
        rw [List.dropLast_cons_of_ne_nil more]
        exact List.mem_cons_self
      · refine ih (fun q hq => large q (List.mem_cons_of_mem _ hq)) (fun q hq => ?_) names.2
          (fun q hq => named q (List.mem_cons_of_mem _ hq)) behind.2
          (fun _ q hq => (behind.1 q hq).2)
        refine fill q ?_
        rw [List.dropLast_cons_of_ne_nil (by rintro rfl; simp at hq)]
        exact List.mem_cons_of_mem _ hq

theorem NamedDevice.Ok.writable {mtdids : List NamedIds} {dev : NamedDevice} (ok : dev.Ok mtdids)
    (regular : dev.Regular) : PartsWritable none dev.parts :=
  partsWritable_of regular.large regular.fill regular.names ok.named ok.sorted nofun

theorem NamedDevice.Ok.increasing {mtdids : List NamedIds} {dev : NamedDevice}
    (ok : dev.Ok mtdids) (regular : dev.Regular) :
    dev.parts.Pairwise fun a b => a.offset < b.offset :=
  (ok.sorted.and regular.distinct).imp fun {_ _} h =>
    BitVec.lt_of_le_ne h.1.1 h.2

/-- `device_parse` reads what was written for a device. -/
theorem device_parse_text {mtdids : List NamedIds} {devices : List NamedDevice} {dev : NamedDevice}
    (ok : dev.Ok mtdids) (regular : dev.Regular)
    (fresh : device_find devices dev.id.type dev.id.num = none) {rest : List Byte}
    (stop : HeadIn [0x3b#8] rest) :
    device_parse mtdids devices (dev.text ++ rest) = some (dev, rest.drop 1) := by
  have text : dev.text ++ rest =
      dev.id.mtd_id ++ 0x3a#8 :: (partsText none dev.parts ++ rest) := by simp [NamedDevice.text]
  obtain ⟨mtd_id, shorter, behind⟩ := upTo_mark ok.plain (partsText none dev.parts ++ rest)
  have fuel : dev.parts.length < (partsText none dev.parts ++ rest).length + 1 := by
    have := partsText_length (ok.writable regular)
    rw [List.length_append]
    omega
  have read := partsParse_text (ok.writable regular) ok.valid stop fuel
  have order := @sortAdd_foldlM dev.parts [] (ok.increasing regular)
  rw [text, device_parse]
  simp only [mtd_id]
  rw [if_neg shorter, ok.found]
  simp only [Option.bind_eq_bind, Option.bind_some, fresh, Option.map_none, Option.getD_none, behind]
  rw [show (0#32 : U32) = runningOffset none from rfl, read]
  simp only [Option.bind_some]
  rw [if_neg ok.nonempty, order]
  rfl

/-- Two devices have different types or numbers. -/
def Apart (a b : NamedDevice) : Prop := ¬(a.id.type = b.id.type ∧ a.id.num = b.id.num)

theorem device_find_eq_none {devices : List NamedDevice} {dev : NamedDevice} :
    device_find devices dev.id.type dev.id.num = none ↔ ∀ d ∈ devices, Apart d dev := by
  simp [device_find, Apart]

theorem devicesText_cons (dev : NamedDevice) (devices : List NamedDevice) :
    devicesText (dev :: devices) =
      dev.text ++ (if devices.isEmpty then [] else 0x3b#8 :: devicesText devices) := by
  cases devices with
  | nil => simp [devicesText]
  | cons dev' devices => simp [devicesText]

theorem devicesText_length (devices : List NamedDevice) :
    devices.length ≤ (devicesText devices).length := by
  induction devices with
  | nil => exact Nat.zero_le _
  | cons dev devices ih =>
      rw [devicesText_cons]
      cases devices with
      | nil =>
          simp [NamedDevice.text]
          omega
      | cons dev' devices =>
          simp only [List.length_cons, List.isEmpty_cons, Bool.false_eq_true, if_false,
            List.length_append] at ih ⊢
          omega

/-- The loop of `parse_mtdparts` reads the devices that were written. -/
theorem devicesParse_text {mtdids : List NamedIds} {list devices : List NamedDevice}
    (ok : ∀ dev ∈ devices, dev.Ok mtdids) (regular : ∀ dev ∈ devices, dev.Regular)
    (apart : (list ++ devices).Pairwise Apart) {fuel : Nat} (h : devices.length < fuel) :
    devicesParse mtdids fuel list (devicesText devices) = some (list ++ devices) := by
  induction devices generalizing list fuel with
  | nil =>
      obtain ⟨fuel, rfl⟩ := Nat.exists_eq_succ_of_ne_zero (Nat.ne_of_gt h)
      simp [devicesParse, devicesText]
  | cons dev devices ih =>
      obtain ⟨fuel, rfl⟩ := Nat.exists_eq_succ_of_ne_zero (Nat.ne_of_gt (Nat.zero_lt_of_lt h))
      have fresh : device_find list dev.id.type dev.id.num = none :=
        device_find_eq_none.2 fun d hd =>
          (List.pairwise_append.1 apart).2.2 d hd dev List.mem_cons_self
      have stop : HeadIn [0x3b#8]
          (if devices.isEmpty then [] else 0x3b#8 :: devicesText devices) := by
        intro c hc
        cases devices with
        | nil => simp at hc
        | cons dev' devices => simpa using Eq.symm (by simpa using hc)
      have behind : (if devices.isEmpty then [] else 0x3b#8 :: devicesText devices).drop 1 =
          devicesText devices := by
        cases devices with
        | nil => rfl
        | cons dev' devices => rfl
      have read := device_parse_text (ok dev List.mem_cons_self)
        (regular dev List.mem_cons_self) fresh stop
      have more : devicesText (dev :: devices) ≠ [] := by
        intro empty
        have := devicesText_length (dev :: devices)
        rw [empty] at this
        exact absurd this (by simp)
      rw [devicesParse, if_neg more, devicesText_cons, read]
      simp only [Option.bind_eq_bind, Option.bind_some, fresh, Option.isSome_none,
        Bool.false_eq_true, if_false, behind]
      rw [ih (fun d hd => ok d (List.mem_cons_of_mem _ hd))
        (fun d hd => regular d (List.mem_cons_of_mem _ hd)) (by simpa using apart)
        (Nat.lt_of_succ_lt_succ h)]
      simp

/-- `parse_mtdparts` reads what `generate_mtdparts` writes. -/
theorem parse_mtdparts_text {mtdids : List NamedIds} {devices : List NamedDevice}
    (ok : ∀ dev ∈ devices, dev.Ok mtdids) (apart : devices.Pairwise Apart)
    (nonempty : devices ≠ []) (regular : ∀ dev ∈ devices, dev.Regular) :
    parse_mtdparts mtdids (ascii "mtdparts=" ++ devicesText devices) = some devices := by
  have length := devicesText_length devices
  have more : devicesText devices ≠ [] := by
    intro empty
    rw [empty] at length
    exact nonempty (List.length_eq_zero_iff.1 (Nat.le_zero.1 length))
  have drop : (ascii "mtdparts=" ++ devicesText devices).drop 9 = devicesText devices :=
    List.drop_left' (by simp [ascii])
  have take : (ascii "mtdparts=" ++ devicesText devices).take 9 = ascii "mtdparts=" :=
    List.take_left' (by simp [ascii])
  rw [parse_mtdparts, take, if_neg (by simp)]
  simp only [drop]
  rw [if_neg more]
  exact @devicesParse_text _ [] _ ok regular (by simpa using apart) _ (Nat.lt_succ_of_le length)

end UBoot.Mtd
