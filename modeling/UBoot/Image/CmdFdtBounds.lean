/-
# Values that are parsed in bounds

Which words `fdt_parse_prop` can be given so that it neither reads behind the last of them nor
stores more than there is room for. A list is cut into tokens at its blanks. A token is converted
from its beginning on, and what is left of it is taken for the next number.
-/

import UBoot.Image.CmdFdtPrint

namespace UBoot.CmdFdt

def SCRATCHPAD : Nat := 1024

/-! ## Tokens -/

/-- What is between the blanks of a word. In front of the first blank there is a token in any
case. -/
def tokens : List Byte → List (List Byte)
  | [] => []
  | c :: w => (c :: w).takeWhile (· ≠ blank) ::
      tokens (((c :: w).dropWhile (· ≠ blank)).dropWhile (· = blank))
termination_by w => w.length
decreasing_by
  by_cases hc : c = blank
  · have hle := (List.dropWhile_suffix (l := w) (· = blank)).length_le
    rw [List.dropWhile_cons_of_neg (by simpa using hc), List.dropWhile_cons_of_pos (by simpa using hc)]
    rw [List.length_cons]
    omega
  · have hle := (List.dropWhile_suffix (l := w) (· ≠ blank)).length_le
    have hle' := (List.dropWhile_suffix (l := w.dropWhile (· ≠ blank)) (· = blank)).length_le
    rw [List.dropWhile_cons_of_pos (by simpa using hc), List.length_cons]
    omega

/-- The tokens of words up to the end of the list, and whether there is an end. -/
def listTokens (closing : Byte) (tokens : List Byte → List (List Byte)) :
    List (List Byte) → List (List Byte) × Bool
  | [] => ([], false)
  | word :: words =>
      let behind := if closing ∈ word then ([], true) else listTokens closing tokens words
      (tokens (word.takeWhile (· ≠ closing)) ++ behind.1, behind.2)

/-- All of a token is converted as one number. -/
def IsNumber (base : Nat) (token : List Byte) : Prop :=
  token ≠ [] ∧ (simple_strtoul token base).2 = []

/-- How many numbers are converted, and whether all tokens are. Where nothing can be converted,
`last` more are stored. -/
def conversions (base last : Nat) : List (List Byte) → Nat × Bool
  | [] => (0, true)
  | token :: tokens =>
      let left := (simple_strtoul token base).2
      if left.length < token.length then
        let behind := conversions base last (if left = [] then tokens else left :: tokens)
        (behind.1 + 1, behind.2)
      else (last, false)
termination_by tokens => (tokens.map List.length).sum + tokens.length
decreasing_by
  split
  · simp only [List.map_cons, List.sum_cons, List.length_cons]
    omega
  · have hlt : (simple_strtoul token base).2.length < token.length := by assumption
    simp only [List.map_cons, List.sum_cons, List.length_cons]
    omega

/-- A list: the base of its numbers, the bytes that are stored for one, what is stored in the end if
nothing can be converted, its tokens, and whether it is closed. -/
structure ValueList where
  base : Nat
  width : Nat
  last : Nat
  tokens : List (List Byte)
  closed : Bool

def ValueList.conversions (v : ValueList) : Nat × Bool := CmdFdt.conversions v.base v.last v.tokens

/-- The list is closed, and its tokens are numbers. -/
def ValueList.WellFormed (v : ValueList) : Prop :=
  v.closed = true ∧ ∀ token ∈ v.tokens, IsNumber v.base token

def cellList (words : List (List Byte)) : ValueList where
  base := 0
  width := 4
  last := 1
  tokens := (listTokens cellsEnd tokens words).1
  closed := (listTokens cellsEnd tokens words).2

/-- Blanks in front of a byte do not matter. -/
def byteList (words : List (List Byte)) : ValueList where
  base := 16
  width := 1
  last := 0
  tokens := (listTokens bytesEnd (fun word => tokens (word.dropWhile (· = blank))) words).1
  closed := (listTokens bytesEnd (fun word => tokens (word.dropWhile (· = blank))) words).2

/-- The list of cells or bytes that words are, if they are not strings. -/
def asList (first : List Byte) (rest : List (List Byte)) : Option ValueList :=
  match first with
  | [] => none
  | c :: cp =>
      if c = cellsBegin then some (cellList (cp :: rest))
      else if c = bytesBegin then some (byteList (cp :: rest))
      else none

/-- What is expected of words. -/
structure InBounds (first : List Byte) (rest : List (List Byte)) : Prop where
  reads : (fdt_parse_prop (first :: rest)).ret ≠ none
  room : (fdt_parse_prop (first :: rest)).data.length ≤ SCRATCHPAD
  rejects : ∀ v ∈ asList first rest, ¬v.WellFormed → (fdt_parse_prop (first :: rest)).ret ≠ some 0
  len_eq : (fdt_parse_prop (first :: rest)).len = (fdt_parse_prop (first :: rest)).data.length

/-- A list of which all is converted is closed and has no number that goes on as another one, and
there is room for what is converted. -/
def Fits (first : List Byte) (rest : List (List Byte)) : Prop :=
  match asList first rest with
  | some v => v.width * v.conversions.1 ≤ SCRATCHPAD ∧ (v.conversions.2 = true → v.WellFormed)
  | none => ((first :: rest).map fun word => word.length + 1).sum ≤ SCRATCHPAD

/-! ## Tokens and numbers -/

/-- Behind a token there is a blank, or the end of the list or of the word. -/
def Behind (closing : Byte) (tail : List Byte) : Prop :=
  ∀ c ∈ tail.head?, c = blank ∨ c = closing

/-- Numbers end where the list ends. -/
structure Closing (closing : Byte) : Prop where
  xdigit_eq : xdigit closing = none
  ne_mark : closing ≠ 0x78
  ne_blank : closing ≠ blank

theorem closing_cellsEnd : Closing cellsEnd := ⟨by decide, by decide, by decide⟩

theorem closing_bytesEnd : Closing bytesEnd := ⟨by decide, by decide, by decide⟩

section Numbers

variable {closing : Byte} {token tail : List Byte}

theorem Behind.stops (hc : Closing closing) (h : Behind closing tail) :
    Stops tail ∧ tail.head? ≠ some 0x78 := by
  constructor
  · intro c hmem
    obtain rfl | rfl := h c hmem
    · decide
    · exact hc.xdigit_eq
  · intro heq
    obtain hx | hx := h _ heq
    · exact absurd hx (by decide)
    · exact hc.ne_mark hx.symm

theorem strtoulDigits_append (h : Stops tail) (base : Nat) (result : BitVec 32) :
    strtoulDigits base result (token ++ tail) =
      ((strtoulDigits base result token).1, (strtoulDigits base result token).2 ++ tail) := by
  fun_induction strtoulDigits base result token with
  | case1 result => exact strtoulDigits_stop h base result
  | case2 result c cp value hdigit hlt ih =>
      rw [List.cons_append, strtoulDigits, hdigit]
      exact (if_pos hlt).trans ih
  | case3 result c cp value hdigit hge =>
      rw [List.cons_append, strtoulDigits, hdigit]
      exact if_neg hge
  | case4 result c cp hdigit => rw [List.cons_append, strtoulDigits, hdigit]

theorem hexMark_append (h : Stops tail) (hmark : tail.head? ≠ some 0x78) :
    hexMark (token ++ tail) = hexMark token := by
  rcases token with _ | ⟨x, _ | ⟨d, token⟩⟩
  · rcases tail with _ | ⟨x, _ | ⟨d, tail⟩⟩
    · rfl
    · rfl
    · have hx : x ≠ 0x78#8 := fun heq => hmark (congrArg some heq)
      simp [hexMark, hx]
  · cases tail with
    | nil => rfl
    | cons d tail => simp [hexMark, h d rfl]
  · rfl

/-- A number ends inside its token. -/
theorem simple_strtoul_append (hc : Closing closing) (h : Behind closing tail) (base : Nat) :
    simple_strtoul (token ++ tail) base =
      ((simple_strtoul token base).1, (simple_strtoul token base).2 ++ tail) := by
  obtain ⟨hstops, hmark⟩ := h.stops hc
  cases token with
  | nil =>
      have hzero : tail.head? ≠ some 0x30#8 := fun heq => by cases hstops _ heq
      rw [List.nil_append, simple_strtoul, if_neg hzero, strtoulDigits_stop hstops]
      rfl
  | cons c cp =>
      rw [simple_strtoul, simple_strtoul, List.cons_append, List.tail_cons, List.tail_cons,
        hexMark_append hstops hmark]
      by_cases hzero : c = 0x30#8
      · have heq {s : List Byte} : (c :: s).head? = some 0x30#8 := congrArg some hzero
        rw [if_pos heq, if_pos heq]
        split
        · next hx =>
            cases cp with
            | nil => cases hx
            | cons x cp => exact strtoulDigits_append hstops _ _
        · exact strtoulDigits_append hstops _ _
      · have hne {s : List Byte} : (c :: s).head? ≠ some 0x30#8 :=
          fun heq => hzero (Option.some.inj heq)
        rw [if_neg hne, if_neg hne]
        rw [← List.cons_append]
        exact strtoulDigits_append hstops _ _

theorem simple_strtoul_suffix (base : Nat) (token : List Byte) :
    (simple_strtoul token base).2 <:+ token := by
  rw [simple_strtoul]
  split
  · split
    · exact (strtoulDigits_suffix _ _ _).trans
        ((List.tail_suffix _).trans (List.tail_suffix _))
    · exact (strtoulDigits_suffix _ _ _).trans (List.tail_suffix _)
  · exact strtoulDigits_suffix _ _ _

end Numbers

section Tokens

variable {closing : Byte} {token tail : List Byte}

theorem dropWhile_idem (tail : List Byte) :
    (tail.dropWhile (· = blank)).dropWhile (· = blank) = tail.dropWhile (· = blank) := by
  cases hskip : tail.dropWhile (· = blank) with
  | nil => rfl
  | cons c w =>
      have hhead := List.head?_dropWhile_not (fun b => decide (b = blank)) tail
      rw [hskip] at hhead
      exact List.dropWhile_cons_of_neg (by simpa using hhead)

/-- Skipping blanks and cutting at the end of the list. -/
theorem takeWhile_skip (hc : Closing closing) (tail : List Byte) :
    (tail.dropWhile (· = blank)).takeWhile (· ≠ closing) =
        (tail.takeWhile (· ≠ closing)).dropWhile (· = blank) ∧
      (closing ∈ tail.dropWhile (· = blank) ↔ closing ∈ tail) := by
  induction tail with
  | nil => exact ⟨rfl, Iff.rfl⟩
  | cons c tail ih =>
      by_cases hblank : c = blank
      · have hne : c ≠ closing := hblank ▸ hc.ne_blank.symm
        rw [List.dropWhile_cons_of_pos (by simpa using hblank),
          List.takeWhile_cons_of_pos (by simpa using hne),
          List.dropWhile_cons_of_pos (by simpa using hblank), List.mem_cons, or_iff_right hne.symm]
        exact ih
      · rw [List.dropWhile_cons_of_neg (by simpa using hblank)]
        refine ⟨?_, Iff.rfl⟩
        by_cases hend : c = closing
        · rw [List.takeWhile_cons_of_neg (by simpa using hend)]
          rfl
        · rw [List.takeWhile_cons_of_pos (by simpa using hend),
            List.dropWhile_cons_of_neg (by simpa using hblank)]

/-- A token, and what is behind it. -/
theorem tokens_append (hne : token ++ tail ≠ []) (hblank : blank ∉ token)
    (h : ∀ c ∈ tail.head?, c = blank) :
    tokens (token ++ tail) = token :: tokens (tail.dropWhile (· = blank)) := by
  have htoken : ∀ b ∈ token, (decide (b ≠ blank)) = true := by
    intro b hb
    have : b ≠ blank := fun heq => hblank (heq ▸ hb)
    simpa using this
  have htail : tail.takeWhile (· ≠ blank) = [] ∧ tail.dropWhile (· ≠ blank) = tail := by
    cases tail with
    | nil => exact ⟨rfl, rfl⟩
    | cons b tail =>
        obtain rfl := h b rfl
        exact ⟨List.takeWhile_cons_of_neg (by simp), List.dropWhile_cons_of_neg (by simp)⟩
  obtain ⟨c, w, heq⟩ := List.exists_cons_of_ne_nil hne
  rw [heq, tokens, ← heq, List.takeWhile_append_of_pos htoken, htail.1, List.append_nil,
    List.dropWhile_append_of_pos htoken, htail.2]

/-- The part of a word in front of its first blank or the end of the list. -/
theorem exists_token (closing : Byte) (newp : List Byte) : ∃ token tail, newp = token ++ tail ∧
    blank ∉ token ∧ closing ∉ token ∧ Behind closing tail := by
  let p : Byte → Bool := fun b => b ≠ blank ∧ b ≠ closing
  have hall : ∀ b ∈ newp.takeWhile p, b ≠ blank ∧ b ≠ closing := by
    intro b hb
    have hp : p b = true := List.mem_takeWhile_imp hb
    exact of_decide_eq_true hp
  refine ⟨newp.takeWhile p, newp.dropWhile p, List.takeWhile_append_dropWhile.symm,
    fun hmem => (hall _ hmem).1 rfl, fun hmem => (hall _ hmem).2 rfl, fun c hmem => ?_⟩
  have hhead := List.head?_dropWhile_not p newp
  rw [hmem] at hhead
  have hp : p c = false := by simpa using hhead
  have hnot : ¬(c ≠ blank ∧ c ≠ closing) := of_decide_eq_false hp
  tauto

/-- The first token of a list. -/
theorem listTokens_token (tok : List Byte → List (List Byte)) (hc : Closing closing)
    (hnot : closing ∉ token) (htail : Behind closing tail)
    (htok : ∀ tail', (∀ c ∈ tail'.head?, c = blank) → tail' = tail.takeWhile (· ≠ closing) →
      tok (token ++ tail') = token :: tok (tail'.dropWhile (· = blank)))
    (rest : List (List Byte)) :
    listTokens closing tok ((token ++ tail) :: rest) =
      (token :: (listTokens closing tok (tail.dropWhile (· = blank) :: rest)).1,
        (listTokens closing tok (tail.dropWhile (· = blank) :: rest)).2) := by
  have htoken : ∀ b ∈ token, (decide (b ≠ closing)) = true := by
    intro b hb
    have : b ≠ closing := fun heq => hnot (heq ▸ hb)
    simpa using this
  have hblank : ∀ c ∈ (tail.takeWhile (· ≠ closing)).head?, c = blank := by
    cases tail with
    | nil => nofun
    | cons b tail =>
        intro c hmem
        by_cases hb : b = closing
        · rw [List.takeWhile_cons_of_neg (by simpa using hb)] at hmem
          exact nomatch hmem
        · rw [List.takeWhile_cons_of_pos (by simpa using hb)] at hmem
          cases hmem
          exact (htail b rfl).resolve_right hb
  have hmem : closing ∈ token ++ tail ↔ closing ∈ tail := by
    rw [List.mem_append, or_iff_right hnot]
  obtain ⟨hcut, hsame⟩ := takeWhile_skip hc tail
  rw [listTokens, listTokens, List.takeWhile_append_of_pos htoken, htok _ hblank rfl, hcut]
  simp only [hmem, hsame, List.cons_append]

end Tokens

/-! ## The loops -/

/-- What a loop does with a list: so much is stored, and this is returned. -/
structure Does (v : ValueList) (data : List Byte) (len : Nat) (r : Parsed) : Prop where
  stored : r.data.length = data.length + v.width * v.conversions.1
  counted : r.len = len + v.width * v.conversions.1
  ret_eq : r.ret =
    if v.conversions.2 = true then (if v.closed = true then some 0 else none) else some 1

section Loops

variable {rest : List (List Byte)} {data : List Byte} {len : Nat} {newp : List Byte}

/-- Nothing is left of a word. -/
theorem listTokens_next {closing : Byte} (tok : List Byte → List (List Byte)) (h : tok [] = [])
    (words : List (List Byte)) :
    listTokens closing tok ([] :: words) = listTokens closing tok words := by
  rw [listTokens, if_neg List.not_mem_nil]
  exact Prod.ext (by rw [List.takeWhile_nil, h, List.nil_append]) rfl

theorem listTokens_end (closing : Byte) (tok : List Byte → List (List Byte)) (h : tok [] = [])
    (cp : List Byte) (words : List (List Byte)) :
    listTokens closing tok ((closing :: cp) :: words) = ([], true) := by
  rw [listTokens, if_pos (.head _), List.takeWhile_cons_of_neg (by simp), h]
  rfl

theorem does_nothing {v : ValueList} (h : v.tokens = []) :
    Does v data len ⟨data, len, if v.closed = true then some 0 else none⟩ := by
  have hnone : v.conversions = (0, true) := by
    rw [ValueList.conversions, h, conversions]
  refine ⟨?_, ?_, ?_⟩ <;> rw [hnone]
  · rfl
  · rfl
  · exact (if_pos rfl).symm

/-- A number is converted, and what is left of its token is the next one. -/
theorem Does.convert {v : ValueList} {token left data' : List Byte} {ts : List (List Byte)}
    {len' : Nat} {r : Parsed} (htokens : v.tokens = token :: ts)
    (hleft : (simple_strtoul token v.base).2 = left) (hlt : left.length < token.length)
    (hdata : data'.length = data.length + v.width) (hlen : len' = len + v.width)
    (h : Does { v with tokens := if left = [] then ts else left :: ts } data' len' r) :
    Does v data len r := by
  have hcount : v.conversions =
      ((conversions v.base v.last (if left = [] then ts else left :: ts)).1 + 1,
        (conversions v.base v.last (if left = [] then ts else left :: ts)).2) := by
    rw [ValueList.conversions, htokens, conversions, hleft]
    exact if_pos hlt
  obtain ⟨hstored, hcounted, hret⟩ := h
  rw [ValueList.conversions] at hstored hcounted hret
  dsimp only at hstored hcounted hret
  refine ⟨?_, ?_, ?_⟩ <;> rw [hcount]
  · rw [hstored, hdata, Nat.mul_succ]
    omega
  · rw [hcounted, hlen, Nat.mul_succ]
    omega
  · exact hret

/-- Nothing can be converted. -/
theorem Does.stuck {v : ValueList} {token data' : List Byte} {ts : List (List Byte)} {len' : Nat}
    (htokens : v.tokens = token :: ts)
    (hge : ¬(simple_strtoul token v.base).2.length < token.length)
    (hdata : data'.length = data.length + v.width * v.last)
    (hlen : len' = len + v.width * v.last) : Does v data len ⟨data', len', some 1⟩ := by
  have hcount : v.conversions = (v.last, false) := by
    rw [ValueList.conversions, htokens, conversions]
    exact if_neg hge
  refine ⟨?_, ?_, ?_⟩ <;> rw [hcount]
  · exact hdata
  · exact hlen
  · exact (if_neg Bool.false_ne_true).symm

theorem cellList_token {token tail : List Byte} (hne : token ++ tail ≠ [])
    (hhead : (token ++ tail).head? ≠ some cellsEnd) (hblank : blank ∉ token)
    (hnot : cellsEnd ∉ token) (htail : Behind cellsEnd tail) :
    cellList ((token ++ tail) :: rest) =
      { cellList (tail.dropWhile (· = blank) :: rest) with
        tokens := token :: (cellList (tail.dropWhile (· = blank) :: rest)).tokens } := by
  have hlist := listTokens_token tokens closing_cellsEnd hnot htail (by
    rintro tail' hblanks rfl
    refine tokens_append ?_ hblank hblanks
    intro hnil
    obtain ⟨htoken, hcut⟩ := List.append_eq_nil_iff.mp hnil
    subst htoken
    cases tail with
    | nil => exact hne rfl
    | cons c tail =>
        rw [List.nil_append, List.head?_cons] at hhead
        rw [List.takeWhile_cons_of_pos (by simpa using hhead)] at hcut
        exact List.cons_ne_nil _ _ hcut) rest
  rw [cellList, hlist]
  rfl

theorem skip_left {left tail : List Byte} (hblank : blank ∉ left) :
    (left ++ tail).dropWhile (· = blank) =
      if left = [] then tail.dropWhile (· = blank) else left ++ tail := by
  cases left with
  | nil => rfl
  | cons c left =>
      rw [if_neg (List.cons_ne_nil _ _)]
      have hc : c ≠ blank := fun heq => hblank (heq ▸ .head _)
      exact List.dropWhile_cons_of_neg (by simpa using hc)

/-- Behind a number, what is left of its token is the next one. -/
theorem cellList_left {left tail : List Byte} (hblank : blank ∉ left) (hnot : cellsEnd ∉ left)
    (htail : Behind cellsEnd tail) :
    cellList ((left ++ tail).dropWhile (· = blank) :: rest) =
      { cellList (tail.dropWhile (· = blank) :: rest) with
        tokens := if left = [] then (cellList (tail.dropWhile (· = blank) :: rest)).tokens
          else left :: (cellList (tail.dropWhile (· = blank) :: rest)).tokens } := by
  rw [skip_left hblank]
  by_cases hleft : left = []
  · rw [if_pos hleft, if_pos hleft]
  · rw [if_neg hleft, if_neg hleft]
    refine cellList_token (by simp [hleft]) ?_ hblank hnot htail
    obtain ⟨c, w, rfl⟩ := List.exists_cons_of_ne_nil hleft
    exact fun heq => hnot (Option.some.inj heq ▸ .head _)

theorem cellsLoop_does : Does (cellList (newp :: rest)) data len (cellsLoop newp rest data len) := by
  have hnil : tokens [] = [] := by rw [tokens]
  fun_induction cellsLoop newp rest data len with
  | case1 data len =>
      have hlist : listTokens cellsEnd tokens [[]] = ([], false) := by
        rw [listTokens_next tokens hnil]
        rfl
      have hopen : (cellList [[]]).closed = false := congrArg Prod.snd hlist
      have h : Does (cellList [[]]) data len _ := does_nothing (congrArg Prod.fst hlist)
      rwa [hopen] at h
  | case2 data len newp rest ih =>
      have hlist : cellList ([] :: newp :: rest) = cellList (newp :: rest) := by
        rw [cellList, listTokens_next tokens hnil]
        rfl
      rw [hlist]
      exact ih
  | case3 rest data len cp =>
      have hlist := listTokens_end cellsEnd tokens hnil cp rest
      have hclosed : (cellList ((cellsEnd :: cp) :: rest)).closed = true :=
        congrArg Prod.snd hlist
      have h : Does (cellList ((cellsEnd :: cp) :: rest)) data len _ :=
        does_nothing (congrArg Prod.fst hlist)
      rwa [hclosed] at h
  | case4 rest data len c cp hend number hlt ih =>
      obtain ⟨token, tail, heq, hblank, hnot, htail⟩ := exists_token cellsEnd (c :: cp)
      have hnumber : number = ((simple_strtoul token 0).1, (simple_strtoul token 0).2 ++ tail) := by
        rw [← simple_strtoul_append closing_cellsEnd htail, ← heq]
      have hsub := (simple_strtoul_suffix 0 token).subset
      rw [hnumber, cellList_left (fun hmem => hblank (hsub hmem)) (fun hmem => hnot (hsub hmem))
        htail] at ih
      rw [hnumber, heq, List.length_append, List.length_append] at hlt
      rw [hnumber, heq, cellList_token (heq ▸ List.cons_ne_nil c cp)
        (heq ▸ fun hhead => hend (Option.some.inj hhead)) hblank hnot htail]
      have hadvance : (simple_strtoul token 0).2.length < token.length := by omega
      refine Does.convert rfl rfl hadvance ?_ rfl ih
      rw [List.length_append]
      rfl
  | case5 rest data len c cp hend number hge =>
      obtain ⟨token, tail, heq, hblank, hnot, htail⟩ := exists_token cellsEnd (c :: cp)
      have hnumber : number = ((simple_strtoul token 0).1, (simple_strtoul token 0).2 ++ tail) := by
        rw [← simple_strtoul_append closing_cellsEnd htail, ← heq]
      rw [hnumber, heq, List.length_append, List.length_append] at hge
      rw [heq, cellList_token (heq ▸ List.cons_ne_nil c cp)
        (heq ▸ fun hhead => hend (Option.some.inj hhead)) hblank hnot htail]
      have hstuck : ¬(simple_strtoul token 0).2.length < token.length := by omega
      refine Does.stuck rfl hstuck ?_ rfl
      rw [List.length_append]
      rfl

theorem byteList_skip (newp : List Byte) :
    byteList (newp :: rest) = byteList (newp.dropWhile (· = blank) :: rest) := by
  obtain ⟨hcut, hsame⟩ := takeWhile_skip closing_bytesEnd newp
  simp only [byteList, listTokens, hcut, hsame, dropWhile_idem]

theorem byteList_token {token tail : List Byte} (hne : token ≠ []) (hblank : blank ∉ token)
    (hnot : bytesEnd ∉ token) (htail : Behind bytesEnd tail) :
    byteList ((token ++ tail) :: rest) =
      { byteList (tail :: rest) with tokens := token :: (byteList (tail :: rest)).tokens } := by
  have hlist := listTokens_token (fun word => tokens (word.dropWhile (· = blank)))
    closing_bytesEnd hnot htail (fun tail' hblanks _ => by
      rw [skip_left hblank, if_neg hne, dropWhile_idem]
      exact tokens_append (by simp [hne]) hblank hblanks) rest
  rw [byteList_skip tail, byteList, hlist]
  rfl

theorem byteList_left {left tail : List Byte} (hblank : blank ∉ left) (hnot : bytesEnd ∉ left)
    (htail : Behind bytesEnd tail) :
    byteList ((left ++ tail) :: rest) =
      { byteList (tail :: rest) with
        tokens := if left = [] then (byteList (tail :: rest)).tokens
          else left :: (byteList (tail :: rest)).tokens } := by
  by_cases hleft : left = []
  · subst hleft
    rfl
  · rw [if_neg hleft]
    exact byteList_token hleft hblank hnot htail

/-- Where there is no digit, nothing is converted. -/
theorem simple_strtoul_none {c : Byte} (h : xdigit c = none) (cp : List Byte) (base : Nat) :
    (simple_strtoul (c :: cp) base).2 = c :: cp := by
  have hzero : (c :: cp).head? ≠ some 0x30#8 := by
    intro heq
    rw [Option.some.inj heq] at h
    exact nomatch h
  rw [simple_strtoul, if_neg hzero, strtoulDigits, h]

theorem skipped_ne {newp cp : List Byte} {c : Byte}
    (hskip : newp.dropWhile (· = blank) = c :: cp) : c ≠ blank := by
  have hhead := List.head?_dropWhile_not (fun b => decide (b = blank)) newp
  rw [hskip] at hhead
  simpa using hhead

theorem token_ne_nil {closing c : Byte} {cp token tail : List Byte} (hblank : c ≠ blank)
    (hend : c ≠ closing) (heq : c :: cp = token ++ tail) (htail : Behind closing tail) :
    token ≠ [] := by
  rintro rfl
  rw [List.nil_append] at heq
  subst heq
  obtain hc | hc := htail c rfl
  · exact hblank hc
  · exact hend hc

theorem bytesLoop_does : Does (byteList (newp :: rest)) data len (bytesLoop newp rest data len) := by
  have hnil : tokens (([] : List Byte).dropWhile (· = blank)) = [] := by
    rw [List.dropWhile_nil, tokens]
  have hended (cp : List Byte) (rest : List (List Byte)) (data : List Byte) (len : Nat) :
      Does (byteList ((bytesEnd :: cp) :: rest)) data len ⟨data, len, some 0⟩ := by
    have hlist := listTokens_end bytesEnd
      (fun word => tokens (word.dropWhile (· = blank))) hnil cp rest
    have hclosed : (byteList ((bytesEnd :: cp) :: rest)).closed = true := congrArg Prod.snd hlist
    have h : Does (byteList ((bytesEnd :: cp) :: rest)) data len _ :=
      does_nothing (congrArg Prod.fst hlist)
    rwa [hclosed] at h
  have hnext (words : List (List Byte)) : byteList ([] :: words) = byteList words := by
    rw [byteList, listTokens_next (fun word => tokens (word.dropWhile (· = blank))) hnil]
    rfl
  fun_induction bytesLoop newp rest data len with
  | case1 newp rest data len hend =>
      cases newp with
      | nil => exact nomatch hend
      | cons c cp =>
          obtain rfl := Option.some.inj hend
          exact hended cp rest data len
  | case2 newp data len hend hskip =>
      rw [byteList_skip, hskip, hnext]
      exact does_nothing rfl
  | case3 newp data len hend hskip newp' rest ih =>
      rw [byteList_skip, hskip, hnext]
      exact ih
  | case4 newp rest data len hend c cp hskip hdigit number ih =>
      have hc : c ≠ bytesEnd := by
        rintro rfl
        exact absurd hdigit (by decide)
      have hadvance := simple_strtoul_lt hdigit cp
      obtain ⟨token, tail, heq, hblank, hnot, htail⟩ := exists_token bytesEnd (c :: cp)
      have hne := token_ne_nil (skipped_ne hskip) hc heq htail
      have hnumber : number =
          ((simple_strtoul token 16).1, (simple_strtoul token 16).2 ++ tail) := by
        rw [← simple_strtoul_append closing_bytesEnd htail, ← heq]
      have hsub := (simple_strtoul_suffix 16 token).subset
      rw [hnumber, byteList_left (fun hmem => hblank (hsub hmem)) (fun hmem => hnot (hsub hmem))
        htail] at ih
      rw [heq, simple_strtoul_append closing_bytesEnd htail, List.length_append,
        List.length_append] at hadvance
      rw [byteList_skip, hskip, hnumber, heq, byteList_token hne hblank hnot htail]
      have hlt : (simple_strtoul token 16).2.length < token.length := by omega
      refine Does.convert rfl rfl hlt ?_ rfl ih
      rw [List.length_append]
      rfl
  | case5 newp rest data len hend c cp hskip hdigit =>
      rw [byteList_skip, hskip]
      by_cases hc : c = bytesEnd
      · subst hc
        exact hended cp rest data len
      · obtain ⟨token, tail, heq, hblank, hnot, htail⟩ := exists_token bytesEnd (c :: cp)
        have hne := token_ne_nil (skipped_ne hskip) hc heq htail
        obtain ⟨c', w, rfl⟩ := List.exists_cons_of_ne_nil hne
        obtain rfl : c = c' := (List.cons.inj heq).1
        have hnone := simple_strtoul_none (Option.not_isSome_iff_eq_none.mp hdigit) w 16
        have hstuck : ¬(simple_strtoul (c :: w) 16).2.length < (c :: w).length := by
          rw [hnone]
          exact Nat.lt_irrefl _
        rw [if_neg hc, heq, byteList_token hne hblank hnot htail]
        exact Does.stuck rfl hstuck rfl rfl

end Loops

/-! ## Words in bounds -/

section Words

variable {first : List Byte} {rest : List (List Byte)}

/-- Words that are a list. -/
theorem parse_list {v : ValueList} (h : asList first rest = some v) :
    Does v [] 0 (fdt_parse_prop (first :: rest)) := by
  cases first with
  | nil => exact nomatch h
  | cons c cp =>
      rw [asList] at h
      rw [fdt_parse_prop]
      split at h
      · next hc =>
          cases h
          rw [if_pos hc]
          exact cellsLoop_does
      · next hc =>
          split at h
          · next hb =>
              cases h
              rw [if_neg hc, if_pos hb]
              exact bytesLoop_does
          · cases h

/-- Words that are strings. -/
theorem parse_none (h : asList first rest = none) :
    fdt_parse_prop (first :: rest) = stringsLoop first rest [] 0 := by
  cases first with
  | nil => rfl
  | cons c cp =>
      rw [asList] at h
      rw [fdt_parse_prop]
      split at h
      · cases h
      · next hc =>
          split at h
          · cases h
          · next hb => rw [if_neg hc, if_neg hb]

theorem inBounds_of_list {v : ValueList} (h : asList first rest = some v) :
    InBounds first rest ↔
      v.width * v.conversions.1 ≤ SCRATCHPAD ∧ (v.conversions.2 = true → v.WellFormed) := by
  obtain ⟨hstored, hcounted, hret⟩ := parse_list h
  rw [List.length_nil, Nat.zero_add] at hstored
  rw [Nat.zero_add] at hcounted
  constructor
  · rintro ⟨hreads, hroom, hrejects, -⟩
    refine ⟨hstored ▸ hroom, fun hall => ?_⟩
    by_contra hnot
    rw [if_pos hall] at hret
    split at hret
    · exact hrejects v h hnot hret
    · exact hreads hret
  · rintro ⟨hroom, hwell⟩
    refine ⟨fun hnone => ?_, hstored ▸ hroom, fun u hu hnot hzero => ?_, hcounted.trans hstored.symm⟩
    · rw [hnone] at hret
      split at hret
      · next hall =>
          rw [if_pos (hwell hall).1] at hret
          exact nomatch hret
      · exact nomatch hret
    · cases h.symm.trans hu
      rw [hzero] at hret
      split at hret
      · next hall => exact hnot (hwell hall)
      · exact nomatch hret

/-- Words are parsed in bounds if a list that is converted to its end is well formed, and there is
room. -/
theorem inBounds_iff (first : List Byte) (rest : List (List Byte)) :
    InBounds first rest ↔ Fits first rest := by
  rw [Fits]
  cases h : asList first rest with
  | some v => exact inBounds_of_list h
  | none =>
      have hparse := parse_none h
      rw [stringsLoop_eq, List.nil_append, Nat.zero_add] at hparse
      have hlength : ((first :: rest).flatMap (· ++ [0])).length =
          ((first :: rest).map fun word => word.length + 1).sum := by
        rw [List.length_flatMap]
        simp only [List.length_append, List.length_singleton]
      constructor
      · rintro ⟨-, hroom, -, -⟩
        rw [hparse] at hroom
        exact hlength ▸ hroom
      · intro hroom
        refine ⟨?_, ?_, ?_, ?_⟩
        · rw [hparse]
          exact nofun
        · rw [hparse]
          exact hlength ▸ hroom
        · rw [h]
          exact nofun
        · rw [hparse]

/-- A list that is only opened. -/
theorem not_inBounds : ¬∀ first rest,
    ((first :: rest).map fun word => word.length + 1).sum < 256 → InBounds first rest := by
  intro h
  refine (h [cellsBegin] [] (by decide)).reads ?_
  rw [fdt_parse_prop]
  refine (congrArg Parsed.ret (if_pos rfl)).trans ?_
  rw [cellsLoop]

end Words

end UBoot.CmdFdt
