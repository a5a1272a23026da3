/-
# Printed values are parsed

What `print_data` shows of a value, taken as words, is parsed by `fdt_parse_prop`. Cells are printed
in the order of the host and stored in the order of the tree. A value that may be strings is printed
as strings, also where the first of them is empty.
-/

import UBoot.Image.CmdFdt

namespace UBoot.CmdFdt

/-! ## Numbers with something behind them -/

/-- No number goes on here. -/
def Stops (tail : List Byte) : Prop := ∀ c ∈ tail.head?, xdigit c = none

theorem strtoulDigits_stop {tail : List Byte} (h : Stops tail) (base : Nat) (result : BitVec 32) :
    strtoulDigits base result tail = (result, tail) := by
  cases tail with
  | nil => rfl
  | cons c tail => rw [strtoulDigits, h c rfl]

private theorem xdigit_hexDigits : ∀ d : Fin 16, xdigit (hex_asc d) = some d.val := by decide

theorem xdigit_hex_asc {d : Nat} (h : d < 16) : xdigit (hex_asc d) = some d :=
  xdigit_hexDigits ⟨d, h⟩

private theorem hexDigits_ne : ∀ d : Fin 16, hex_asc d ≠ 0x78#8 ∧ hex_asc d ≠ blank := by decide

theorem hex_asc_ne {d : Nat} (h : d < 16) : hex_asc d ≠ 0x78#8 ∧ hex_asc d ≠ blank :=
  hexDigits_ne ⟨d, h⟩

theorem strtoulDigits_hex_asc {d : Nat} (h : d < 16) (n : Nat) (rest : List Byte) :
    strtoulDigits 16 (BitVec.ofNat 32 n) (hex_asc d :: rest) =
      strtoulDigits 16 (BitVec.ofNat 32 (n * 16 + d)) rest := by
  rw [strtoulDigits, xdigit_hex_asc h, BitVec.ofNat_add, BitVec.ofNat_mul]
  exact if_pos h

/-- The digits of a number. -/
theorem strtoulDigits_hex (n : Nat) (rest : List Byte) :
    strtoulDigits 16 0 (hex n ++ rest) = strtoulDigits 16 (BitVec.ofNat 32 n) rest := by
  fun_induction hex n generalizing rest with
  | case1 n hlt =>
      have hfirst := strtoulDigits_hex_asc hlt 0 rest
      rw [Nat.zero_mul, Nat.zero_add] at hfirst
      exact hfirst
  | case2 n hge ih =>
      rw [List.append_assoc, ih, List.singleton_append,
        strtoulDigits_hex_asc (Nat.mod_lt _ (by decide)), Nat.div_add_mod']

theorem hex_head (n : Nat) : ∃ d < 16, ∃ digits, hex n = hex_asc d :: digits := by
  fun_induction hex n with
  | case1 n hlt => exact ⟨n, hlt, [], rfl⟩
  | case2 n hge ih =>
      obtain ⟨d, hd, digits, heq⟩ := ih
      exact ⟨d, hd, digits ++ [hex_asc (n % 16)], by rw [heq]; rfl⟩

theorem blank_notMem_hex (n : Nat) : blank ∉ hex n := by
  fun_induction hex n with
  | case1 n hlt => simpa using (hex_asc_ne hlt).2.symm
  | case2 n hge ih =>
      rw [List.mem_append, not_or]
      exact ⟨ih, by simpa using (hex_asc_ne (Nat.mod_lt n (by decide : 0 < 16))).2.symm⟩

/-- `0x%x` is read as its number. -/
theorem simple_strtoul_cell (v : BitVec 32) {tail : List Byte} (h : Stops tail) :
    simple_strtoul (0x30 :: 0x78 :: hex v.toNat ++ tail) 0 = (v, tail) := by
  obtain ⟨d, hd, digits, heq⟩ := hex_head v.toNat
  have hmark : hexMark (0x78 :: (hex v.toNat ++ tail)) = true := by
    rw [heq]
    simp [hexMark, xdigit_hex_asc hd]
  have hcell : simple_strtoul (0x30 :: 0x78 :: hex v.toNat ++ tail) 0 =
      strtoulDigits 16 0 (hex v.toNat ++ tail) := by
    rw [List.cons_append, List.cons_append, simple_strtoul, List.tail_cons, if_pos hmark,
      List.tail_cons]
    exact if_pos rfl
  rw [hcell, strtoulDigits_hex, strtoulDigits_stop h, BitVec.ofNat_toNat, BitVec.setWidth_eq]

/-- `%02x` is read as its byte. -/
theorem simple_strtoul_byte (b : Byte) {tail : List Byte} (h : Stops tail) :
    simple_strtoul (hexByte b ++ tail) 16 = (b.setWidth 32, tail) := by
  have hb := b.isLt
  have hhigh : b.toNat / 16 < 16 := by omega
  have hlow : b.toNat % 16 < 16 := Nat.mod_lt _ (by decide)
  have hmark : hexMark (hex_asc (b.toNat % 16) :: tail) = false := by
    cases tail with
    | nil => rfl
    | cons c tail => simp [hexMark, (hex_asc_ne hlow).1]
  have hdigits : strtoulDigits 16 0 (hexByte b ++ tail) = (b.setWidth 32, tail) := by
    have hfirst := strtoulDigits_hex_asc hhigh 0 (hex_asc (b.toNat % 16) :: tail)
    rw [strtoulDigits_hex_asc hlow, strtoulDigits_stop h, Nat.zero_mul, Nat.zero_add,
      Nat.div_add_mod', BitVec.ofNat_toNat] at hfirst
    exact hfirst
  rw [simple_strtoul]
  split
  · next hzero =>
      have hzero' : hex_asc (b.toNat / 16) = 0x30#8 := Option.some.inj hzero
      rw [← hdigits, hexByte, List.cons_append, hzero', List.tail_cons, List.cons_append,
        List.nil_append, if_neg (by rw [hmark]; decide)]
      rfl
  · exact hdigits

/-! ## Lists -/

/-- The words of a list behind its opening bracket. -/
def wordsOf (closing : Byte) : List (List Byte) → List (List Byte)
  | [] => [[closing]]
  | [item] => [item ++ [closing]]
  | item :: items => item :: wordsOf closing items

theorem wordsOf_ne_nil (closing : Byte) (items : List (List Byte)) : wordsOf closing items ≠ [] := by
  fun_cases wordsOf closing items with
  | case1 => exact List.cons_ne_nil _ _
  | case2 => exact List.cons_ne_nil _ _
  | case3 => exact List.cons_ne_nil _ _

theorem intercalate_wordsOf (closing : Byte) (items : List (List Byte)) :
    [blank].intercalate (wordsOf closing items) = [blank].intercalate items ++ [closing] := by
  fun_induction wordsOf closing items with
  | case1 => rfl
  | case2 item => simp
  | case3 item items hne ih =>
      have hitems : items ≠ [] := fun heq => hne heq
      rw [List.intercalate_cons_of_ne_nil (wordsOf_ne_nil closing items),
        List.intercalate_cons_of_ne_nil hitems, ih]
      simp only [List.append_assoc]

theorem blank_notMem_wordsOf {closing : Byte} (hclosing : blank ≠ closing)
    {items : List (List Byte)} (h : ∀ item ∈ items, blank ∉ item) :
    ∀ word ∈ wordsOf closing items, blank ∉ word := by
  fun_induction wordsOf closing items with
  | case1 => simpa using hclosing
  | case2 item => simpa [hclosing] using h
  | case3 item items hne ih =>
      rw [List.forall_mem_cons] at h ⊢
      exact ⟨h.1, ih h.2⟩

/-- The words of a list that is printed: the opening bracket is in the first one. -/
theorem splitOn_listText {opening closing : Byte} (hopening : blank ≠ opening)
    (hclosing : blank ≠ closing) (items : List (List Byte)) (h : ∀ item ∈ items, blank ∉ item) :
    ∃ first rest, wordsOf closing items = first :: rest ∧
      (listText opening closing items).splitOn blank = (opening :: first) :: rest := by
  cases hwords : wordsOf closing items with
  | nil => exact absurd hwords (wordsOf_ne_nil closing items)
  | cons first rest =>
      refine ⟨first, rest, rfl, ?_⟩
      have htext : listText opening closing items =
          [blank].intercalate ((opening :: first) :: rest) := by
        rw [listText, List.cons_append, ← intercalate_wordsOf, hwords,
          List.intercalate_cons_cons_left]
      have hnot := blank_notMem_wordsOf hclosing h
      rw [hwords, List.forall_mem_cons] at hnot
      rw [htext]
      refine List.splitOn_intercalate blank ?_ (List.cons_ne_nil _ _)
      rw [List.forall_mem_cons, List.mem_cons, not_or]
      exact ⟨⟨hopening, hnot.1⟩, hnot.2⟩

theorem cellsLoop_cell (v : BitVec 32) (tail : List Byte) (h : Stops tail)
    (hblank : tail.head? ≠ some blank) (rest : List (List Byte)) (data : List Byte) (len : Nat) :
    cellsLoop (0x30 :: 0x78 :: hex v.toNat ++ tail) rest data len =
      cellsLoop tail rest (data ++ be32 v) (len + 4) := by
  have hskip : tail.dropWhile (· = blank) = tail := by
    cases tail with
    | nil => rfl
    | cons c tail =>
        refine List.dropWhile_cons_of_neg ?_
        simpa using hblank
  have hnumber := simple_strtoul_cell v h
  rw [List.cons_append, List.cons_append] at hnumber ⊢
  rw [cellsLoop, if_neg (by decide), hnumber]
  dsimp only
  rw [if_pos (by simp only [List.length_cons, List.length_append]; omega), hskip]

/-- A list of cells, from the first one on. -/
theorem cellsLoop_words (cells : List (BitVec 32)) (hne : cells ≠ []) {first : List Byte}
    {rest : List (List Byte)} (hwords : wordsOf cellsEnd
      (cells.map fun v => 0x30 :: 0x78 :: hex v.toNat) = first :: rest) (data : List Byte)
    (len : Nat) : cellsLoop first rest data len =
      ⟨data ++ cells.flatMap be32, len + 4 * cells.length, some 0⟩ := by
  induction cells generalizing first rest data len with
  | nil => exact absurd rfl hne
  | cons v cells ih =>
      cases cells with
      | nil =>
          cases hwords
          rw [cellsLoop_cell v _ (by simp [Stops, cellsEnd, xdigit]) (by decide), cellsLoop,
            if_pos rfl]
          simp
      | cons v' cells =>
          obtain ⟨first', rest', hnext⟩ := List.exists_cons_of_ne_nil (wordsOf_ne_nil cellsEnd
            ((v' :: cells).map fun v => 0x30 :: 0x78 :: hex v.toNat))
          have hcell := cellsLoop_cell v [] (by simp [Stops]) (by simp) (first' :: rest') data len
          rw [List.append_nil] at hcell
          have hsplit : (0x30 :: 0x78 :: hex v.toNat) :: first' :: rest' = first :: rest :=
            (congrArg (_ :: ·) hnext).symm.trans hwords
          cases hsplit
          rw [hcell, cellsLoop, ih (List.cons_ne_nil _ _) hnext]
          simp only [List.flatMap_cons, List.length_cons, List.append_assoc]
          congr 1
          omega

theorem bytesLoop_byte (b : Byte) (tail : List Byte) (h : Stops tail)
    (rest : List (List Byte)) (data : List Byte) (len : Nat) :
    bytesLoop (hexByte b ++ tail) rest data len = bytesLoop tail rest (data ++ [b]) (len + 1) := by
  have hb := b.isLt
  have hhigh : b.toNat / 16 < 16 := by omega
  have hdigit := xdigit_hex_asc hhigh
  have hend : hex_asc (b.toNat / 16) ≠ bytesEnd := by
    intro heq
    rw [heq] at hdigit
    exact nomatch hdigit
  have hnumber := simple_strtoul_byte b h
  rw [hexByte, List.cons_append] at hnumber ⊢
  rw [bytesLoop_cons (hex_asc_ne hhigh).2 hend, hnumber, if_pos (by rw [hdigit]; rfl)]
  have hsame : (b.setWidth 32).setWidth 8 = b := by
    rw [BitVec.setWidth_setWidth_of_le b (by decide), BitVec.setWidth_eq]
  rw [hsame]

/-- A list of bytes, from the first one on. -/
theorem bytesLoop_words (bytes : List Byte) (hne : bytes ≠ []) {first : List Byte}
    {rest : List (List Byte)} (hwords : wordsOf bytesEnd (bytes.map hexByte) = first :: rest)
    (data : List Byte) (len : Nat) : bytesLoop first rest data len =
      ⟨data ++ bytes, len + bytes.length, some 0⟩ := by
  induction bytes generalizing first rest data len with
  | nil => exact absurd rfl hne
  | cons b bytes ih =>
      cases bytes with
      | nil =>
          cases hwords
          rw [bytesLoop_byte b _ (by simp [Stops, bytesEnd, xdigit]), bytesLoop_end]
          rfl
      | cons b' bytes =>
          obtain ⟨first', rest', hnext⟩ := List.exists_cons_of_ne_nil
            (wordsOf_ne_nil bytesEnd ((b' :: bytes).map hexByte))
          have hbyte := bytesLoop_byte b [] (by simp [Stops]) (first' :: rest') data len
          rw [List.append_nil] at hbyte
          have hsplit : hexByte b :: first' :: rest' = first :: rest :=
            (congrArg (_ :: ·) hnext).symm.trans hwords
          cases hsplit
          rw [hbyte, bytesLoop_next, ih (List.cons_ne_nil _ _) hnext]
          simp only [List.length_cons, List.append_assoc, List.singleton_append]
          congr 1
          omega

/-! ## Cells of a host -/

/-- Each cell reads the same from both ends. -/
def Palindromic : List Byte → Prop
  | a :: b :: c :: d :: data => a = d ∧ b = c ∧ Palindromic data
  | _ => True

theorem be32_append (a b c d : Byte) : be32 (a ++ b ++ c ++ d) = [a, b, c, d] := by
  have hextract {n : Nat} {x : Byte} (h : ∀ i < 8, (a ++ b ++ c ++ d).getLsbD (n + i) = x.getLsbD i) :
      (a ++ b ++ c ++ d).extractLsb' n 8 = x := by
    refine BitVec.eq_of_getLsbD_eq fun i hi => ?_
    rw [BitVec.getLsbD_extractLsb', h i hi]
    simp [hi]
  have hbits (n : Nat) : (a ++ b ++ c ++ d).getLsbD n =
      if n < 8 then d.getLsbD n
      else if n < 16 then c.getLsbD (n - 8)
      else if n < 24 then b.getLsbD (n - 16)
      else a.getLsbD (n - 24) := by
    simp only [BitVec.getLsbD_append]
    grind
  rw [be32, List.cons.injEq, List.cons.injEq, List.cons.injEq, List.cons.injEq]
  refine ⟨hextract ?_, hextract ?_, hextract ?_, hextract ?_, rfl⟩ <;>
  · intro i hi
    rw [hbits]
    grind

/-- Behind the last cell there is nothing. -/
theorem nil_of_short {data : List Byte}
    (hshort : ∀ a b c d rest, data = a :: b :: c :: d :: rest → False)
    (h : data.length % 4 = 0) : data = [] := by
  match data with
  | [] => rfl
  | [_] | [_, _] | [_, _, _] => exact absurd h (by simp)
  | a :: b :: c :: d :: data => exact absurd rfl (hshort a b c d data)

/-- What is stored of the cells of a host. -/
theorem stored_bigEndian {data : List Byte} (h : data.length % 4 = 0) :
    (cellsOf false data).flatMap be32 = data := by
  fun_induction cellsOf false data with
  | case1 a b c d data ih =>
      simp only [List.length_cons] at h
      rw [List.flatMap_cons, ih (by omega), if_neg Bool.false_ne_true, be32_append]
      rfl
  | case2 data hshort =>
      obtain rfl := nil_of_short hshort h
      rfl

theorem stored_littleEndian {data : List Byte} (h : data.length % 4 = 0) :
    (cellsOf true data).flatMap be32 = data ↔ Palindromic data := by
  fun_induction cellsOf true data with
  | case1 a b c d data ih =>
      simp only [List.length_cons] at h
      rw [List.flatMap_cons, if_pos rfl, be32_append, Palindromic, ← ih (by omega)]
      simp only [List.cons_append, List.nil_append, List.cons.injEq]
      grind
  | case2 data hshort =>
      obtain rfl := nil_of_short hshort h
      exact iff_of_true rfl trivial

theorem cellsOf_length (littleEndian : Bool) {data : List Byte} (h : data.length % 4 = 0) :
    4 * (cellsOf littleEndian data).length = data.length := by
  fun_induction cellsOf littleEndian data with
  | case1 a b c d data ih =>
      simp only [List.length_cons] at h ⊢
      have := ih (by omega)
      omega
  | case2 data hshort =>
      obtain rfl := nil_of_short hshort h
      rfl

/-! ## Strings -/

/-- A sequence of strings that are not empty and can be printed, with their terminators. -/
def IsStrings (data : List Byte) : Prop :=
  ∃ words : List (List Byte), words ≠ [] ∧ (∀ word ∈ words, word ≠ [] ∧ ∀ c ∈ word, isprint c) ∧
    data = words.flatMap (· ++ [0])

/-- What is passed by the loop is a string, and there is nothing behind it or another one. -/
theorem printableLoop_split {s : List Byte} (h : printableLoop s = true) :
    ∃ word rest, s = word ++ 0 :: rest ∧ (∀ c ∈ word, isprint c) ∧
      (rest ≠ [] → printableLoop rest = true ∧ rest.head? ≠ some 0) := by
  induction s with
  | nil => exact nomatch h
  | cons c s ih =>
      rw [printableLoop.eq_def] at h
      dsimp only at h
      split at h
      · next hzero =>
          subst hzero
          refine ⟨[], s, rfl, nofun, fun hne => ?_⟩
          cases s with
          | nil => exact absurd rfl hne
          | cons d s =>
              dsimp only at h
              split at h
              · exact nomatch h
              · next hd => exact ⟨h, by simpa using hd⟩
      · split at h
        · next hprint =>
            obtain ⟨word, rest, rfl, hword, hrest⟩ := ih h
            exact ⟨c :: word, rest, rfl, List.forall_mem_cons.mpr ⟨hprint, hword⟩, hrest⟩
        · exact nomatch h

theorem isprint_ne_zero {c : Byte} (h : isprint c = true) : c ≠ 0 := by
  rintro rfl
  exact absurd h (by decide)

theorem strings_cons {word : List Byte} (hword : ∀ c ∈ word, isprint c) (rest : List Byte) :
    strings (word ++ 0 :: rest) = word :: strings rest := by
  have htake : (word ++ 0 :: rest).takeWhile (· ≠ 0) = word := by
    rw [List.takeWhile_append_of_pos fun c hc => by simpa using isprint_ne_zero (hword c hc)]
    simp
  have hdrop : (word ++ 0 :: rest).dropWhile (· ≠ 0) = 0 :: rest := by
    rw [List.dropWhile_append_of_pos fun c hc => by simpa using isprint_ne_zero (hword c hc)]
    simp
  rw [strings.eq_def]
  split
  · next hnil => exact absurd hnil (by simp)
  · next c s heq => rw [← heq, htake, hdrop, List.drop_one, List.tail_cons]

/-- The strings that are printed are those of the value, and only the first may be empty. -/
theorem strings_spec {s : List Byte} (h : printableLoop s = true) :
    ∃ first rest, strings s = first :: rest ∧ s = (first :: rest).flatMap (· ++ [0]) ∧
      (∀ word ∈ first :: rest, ∀ c ∈ word, isprint c) ∧ (∀ word ∈ rest, word ≠ []) ∧
      (first = [] ↔ s.head? = some 0) := by
  induction hn : s.length using Nat.strong_induction_on generalizing s with
  | _ n ih =>
      obtain ⟨word, behind, rfl, hword, hbehind⟩ := printableLoop_split h
      have hhead : word = [] ↔ (word ++ 0 :: behind).head? = some 0 := by
        cases word with
        | nil => exact iff_of_true rfl rfl
        | cons c word =>
            refine iff_of_false (List.cons_ne_nil _ _) fun heq => ?_
            exact isprint_ne_zero (hword c (.head _)) (Option.some.inj heq)
      by_cases hnil : behind = []
      · subst hnil
        refine ⟨word, [], ?_, ?_, ?_, nofun, hhead⟩
        · rw [strings_cons hword, strings]
        · simp
        · simpa using hword
      · obtain ⟨hloop, hzero⟩ := hbehind hnil
        obtain ⟨first, rest, hstrings, hsplit, hprint, hrest, hfirst⟩ :=
          ih behind.length (by rw [← hn, List.length_append, List.length_cons]; omega) hloop rfl
        refine ⟨word, first :: rest, ?_, ?_, ?_, ?_, hhead⟩
        · rw [strings_cons hword, hstrings]
        · rw [List.flatMap_cons, ← hsplit, List.append_assoc]
          rfl
        · exact List.forall_mem_cons.mpr ⟨hword, hprint⟩
        · exact List.forall_mem_cons.mpr ⟨mt hfirst.mp hzero, hrest⟩

theorem stringsLoop_eq (newp : List Byte) (rest : List (List Byte)) (data : List Byte) (len : Nat) :
    stringsLoop newp rest data len = ⟨data ++ (newp :: rest).flatMap (· ++ [0]),
      len + ((newp :: rest).flatMap (· ++ [0])).length, some 0⟩ := by
  induction rest generalizing newp data len with
  | nil => simp [stringsLoop]
  | cons next rest ih =>
      rw [stringsLoop, ih]
      simp only [List.flatMap_cons, List.length_append, List.append_assoc, List.length_singleton]
      congr 1
      omega

/-! ## Round trips -/

/-- What is shown of a value is parsed as this value, and strings are shown only where it is
strings. -/
def RoundTrip (littleEndian : Bool) (data : List Byte) : Prop :=
  match print_data littleEndian data with
  | .nothing => True
  | .strings words => IsStrings data ∧
      ((∀ c ∈ words.head?.bind List.head?, c ≠ cellsBegin ∧ c ≠ bytesBegin) →
        fdt_parse_prop words = ⟨data, data.length, some 0⟩)
  | .cells text => fdt_parse_prop (text.splitOn blank) = ⟨data, data.length, some 0⟩
  | .bytes text => fdt_parse_prop (text.splitOn blank) = ⟨data, data.length, some 0⟩

section RoundTrip

variable {data : List Byte}

theorem parse_cells (cells : List (BitVec 32)) (hne : cells ≠ []) :
    fdt_parse_prop ((listText cellsBegin cellsEnd
      (cells.map fun p => 0x30 :: 0x78 :: hex p.toNat)).splitOn blank) =
        ⟨cells.flatMap be32, 4 * cells.length, some 0⟩ := by
  obtain ⟨first, rest, hwords, hsplit⟩ := splitOn_listText
    (by decide : blank ≠ cellsBegin) (by decide : blank ≠ cellsEnd)
    (cells.map fun p => 0x30 :: 0x78 :: hex p.toNat) (by
      intro item hitem
      obtain ⟨v, -, rfl⟩ := List.mem_map.mp hitem
      simpa [blank] using blank_notMem_hex v.toNat)
  have hloop := cellsLoop_words cells hne hwords [] 0
  rw [List.nil_append, Nat.zero_add] at hloop
  rw [hsplit, fdt_parse_prop]
  exact (if_pos rfl).trans hloop

theorem parse_bytes (hne : data ≠ []) :
    fdt_parse_prop ((listText bytesBegin bytesEnd (data.map hexByte)).splitOn blank) =
      ⟨data, data.length, some 0⟩ := by
  obtain ⟨first, rest, hwords, hsplit⟩ := splitOn_listText
    (by decide : blank ≠ bytesBegin) (by decide : blank ≠ bytesEnd) (data.map hexByte) (by
      intro item hitem
      obtain ⟨b, -, rfl⟩ := List.mem_map.mp hitem
      have hb := b.isLt
      have hhigh := (hex_asc_ne (d := b.toNat / 16) (by omega)).2.symm
      have hlow := (hex_asc_ne (Nat.mod_lt b.toNat (by decide : 0 < 16))).2.symm
      simp [hexByte, hhigh, hlow])
  have hloop := bytesLoop_words data hne hwords [] 0
  rw [List.nil_append, Nat.zero_add] at hloop
  rw [hsplit, fdt_parse_prop]
  exact (if_neg (by decide)).trans ((if_pos rfl).trans hloop)

theorem parse_strings {first : List Byte} (rest : List (List Byte))
    (h : ∀ c ∈ first.head?, c ≠ cellsBegin ∧ c ≠ bytesBegin) :
    fdt_parse_prop (first :: rest) = ⟨(first :: rest).flatMap (· ++ [0]),
      ((first :: rest).flatMap (· ++ [0])).length, some 0⟩ := by
  have hloop := stringsLoop_eq first rest [] 0
  rw [List.nil_append, Nat.zero_add] at hloop
  rw [← hloop]
  cases first with
  | nil => rfl
  | cons c first => exact (if_neg (h c rfl).1).trans (if_neg (h c rfl).2)

/-- A value that is taken for strings is strings if the first is not empty. -/
theorem isStrings_iff (h : printableLoop data = true) : IsStrings data ↔ data.head? ≠ some 0 := by
  constructor
  · rintro ⟨words, hne, hwords, rfl⟩ hzero
    obtain ⟨word, words, rfl⟩ := List.exists_cons_of_ne_nil hne
    obtain ⟨hword, hprint⟩ := hwords word (.head _)
    obtain ⟨c, word, rfl⟩ := List.exists_cons_of_ne_nil hword
    exact isprint_ne_zero (hprint c (.head _)) (Option.some.inj hzero)
  · intro hzero
    obtain ⟨first, rest, -, hsplit, hprint, hrest, hfirst⟩ := strings_spec h
    refine ⟨first :: rest, List.cons_ne_nil _ _, ?_, hsplit⟩
    rw [List.forall_mem_cons] at hprint ⊢
    exact ⟨⟨mt hfirst.mp hzero, hprint.1⟩, fun word hword => ⟨hrest word hword, hprint.2 word hword⟩⟩

theorem roundTrip_cells {littleEndian : Bool} (hnil : data ≠ [])
    (hprintable : is_printable_string data = false) (hcells : data.length % 4 = 0) :
    RoundTrip littleEndian data ↔ littleEndian = true → Palindromic data := by
  have hne : cellsOf littleEndian data ≠ [] := by
    intro heq
    have hlength := cellsOf_length littleEndian hcells
    rw [heq] at hlength
    exact hnil (List.eq_nil_of_length_eq_zero hlength.symm)
  rw [RoundTrip, print_data, if_neg hnil, hprintable, if_neg Bool.false_ne_true, if_pos hcells]
  dsimp only
  rw [parse_cells _ hne, cellsOf_length _ hcells]
  cases littleEndian with
  | false =>
      rw [stored_bigEndian hcells]
      exact iff_of_true rfl nofun
  | true =>
      rw [Parsed.mk.injEq, stored_littleEndian hcells]
      simp

theorem roundTrip_strings {littleEndian : Bool} (hnil : data ≠ [])
    (hprintable : is_printable_string data = true) :
    RoundTrip littleEndian data ↔ data.head? ≠ some 0 := by
  have hloop : printableLoop data = true := (of_decide_eq_true hprintable).2.2
  obtain ⟨first, rest, hstrings, hsplit, -⟩ := strings_spec hloop
  rw [RoundTrip, print_data, if_neg hnil, if_pos hprintable, ← isStrings_iff hloop]
  dsimp only
  rw [hstrings]
  refine ⟨And.left, fun hdata => ⟨hdata, fun hbegin => ?_⟩⟩
  rw [parse_strings rest hbegin, ← hsplit]

/-- Values are printed so that they can be parsed, except cells on a host of the other byte order
that are not the same in both, and strings of which the first is empty. -/
theorem roundTrip_iff (littleEndian : Bool) (data : List Byte) :
    RoundTrip littleEndian data ↔
      (is_printable_string data = true → data.head? ≠ some 0) ∧
        (is_printable_string data = false → data.length % 4 = 0 → littleEndian = true →
          Palindromic data) := by
  by_cases hnil : data = []
  · subst hnil
    exact iff_of_true trivial ⟨nofun, fun _ _ _ => trivial⟩
  · cases hprintable : is_printable_string data with
    | true =>
        rw [roundTrip_strings hnil hprintable]
        exact ⟨fun h => ⟨fun _ => h, nofun⟩, fun h => h.1 rfl⟩
    | false =>
        by_cases hcells : data.length % 4 = 0
        · rw [roundTrip_cells hnil hprintable hcells]
          exact ⟨fun h => ⟨nofun, fun _ _ => h⟩, fun h => h.2 rfl hcells⟩
        · rw [RoundTrip, print_data, if_neg hnil, hprintable, if_neg Bool.false_ne_true,
            if_neg hcells]
          exact iff_of_true (parse_bytes hnil) ⟨nofun, fun _ h => absurd h hcells⟩

/-- The cell 1 of a tree, on a little-endian host. -/
theorem not_roundTrip : ¬∀ littleEndian data, data ≠ [] → RoundTrip littleEndian data := by
  intro h
  have hcell := (roundTrip_cells (List.cons_ne_nil _ _) (by decide) (by decide)).mp
    (h true [0, 0, 0, 1] (List.cons_ne_nil _ _)) rfl
  exact absurd hcell.1 (by decide)

end RoundTrip

end UBoot.CmdFdt
