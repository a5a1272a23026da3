/-
# Values of properties as text

`fdt_parse_prop` and `print_data` of `common/cmd_fdt.c`. A value is given as words of the command
line: a list of cells, a list of bytes, or strings. A list goes on in the next word where one ends,
and it is taken for granted that there is one.
-/

import UBoot.LibGeneric.Strtoul
import Mathlib.Data.List.Infix

namespace UBoot.CmdFdt

def blank : Byte := 0x20
def cellsBegin : Byte := 0x3c
def cellsEnd : Byte := 0x3e
def bytesBegin : Byte := 0x5b
def bytesEnd : Byte := 0x5d

/-! ## Where a number ends -/

theorem strtoulDigits_suffix (base : Nat) (result : BitVec 32) (cp : List Byte) :
    (strtoulDigits base result cp).2 <:+ cp := by
  fun_induction strtoulDigits base result cp with
  | case1 => exact List.suffix_rfl
  | case2 result c cp value hdigit hlt ih => exact ih.trans (List.suffix_cons c cp)
  | case3 => exact List.suffix_rfl
  | case4 => exact List.suffix_rfl

theorem xdigit_lt {c : Byte} {value : Nat} (h : xdigit c = some value) : value < 16 := by
  simp only [xdigit, BitVec.le_def] at h
  split at h
  · next hc =>
      cases h
      have : c.toNat ≤ 0x39 := hc.2
      omega
  · split at h
    · next hc =>
        cases h
        have : c.toNat ≤ 0x46 := hc.2
        omega
    · split at h
      · next hc =>
          cases h
          have : c.toNat ≤ 0x66 := hc.2
          omega
      · cases h

/-- A hexadecimal digit is converted. -/
theorem simple_strtoul_lt {c : Byte} (h : (xdigit c).isSome) (cp : List Byte) :
    (simple_strtoul (c :: cp) 16).2.length < (c :: cp).length := by
  rw [List.length_cons, Nat.lt_succ_iff, simple_strtoul]
  split
  · split
    · exact ((strtoulDigits_suffix _ _ _).trans (List.tail_suffix cp)).length_le
    · exact (strtoulDigits_suffix _ _ _).length_le
  · obtain ⟨value, hvalue⟩ := Option.isSome_iff_exists.mp h
    rw [if_neg (by decide), strtoulDigits, hvalue]
    dsimp only
    rw [if_pos (xdigit_lt hvalue)]
    exact (strtoulDigits_suffix _ _ _).length_le

/-! ## Parsing -/

/-- What is stored, the length that is told, and what is returned: nothing if `newval[count]` is
dereferenced before. -/
structure Parsed where
  data : List Byte
  len : Nat
  ret : Option Nat
  deriving DecidableEq

/-- `__cpu_to_be32`, as it is stored -/
def be32 (v : BitVec 32) : List Byte :=
  [v.extractLsb' 24 8, v.extractLsb' 16 8, v.extractLsb' 8 8, v.extractLsb' 0 8]

/-- The loop over cells, with what is left of a word and the words behind it. -/
def cellsLoop (newp : List Byte) (rest : List (List Byte)) (data : List Byte) (len : Nat) :
    Parsed :=
  match newp with
  | [] =>
      match rest with
      | [] => ⟨data, len, none⟩
      | newp :: rest => cellsLoop newp rest data len
  | c :: cp =>
      if c = cellsEnd then ⟨data, len, some 0⟩
      else
        let number := simple_strtoul (c :: cp) 0
        -- If the ptr didn't advance, something went wrong
        if number.2.length < (c :: cp).length then
          cellsLoop (number.2.dropWhile (· = blank)) rest (data ++ be32 number.1) (len + 4)
        else ⟨data ++ be32 number.1, len + 4, some 1⟩
termination_by (rest.map List.length).sum + rest.length + newp.length
decreasing_by
  · simp only [List.map_cons, List.sum_cons, List.length_cons, List.length_nil]
    omega
  · have hskip := (List.dropWhile_suffix (l := (simple_strtoul (c :: cp) 0).2)
      (· = blank)).length_le
    have hlt : (simple_strtoul (c :: cp) 0).2.length < (c :: cp).length := by assumption
    omega

/-- The loop over bytes. -/
def bytesLoop (newp : List Byte) (rest : List (List Byte)) (data : List Byte) (len : Nat) :
    Parsed :=
  if newp.head? = some bytesEnd then ⟨data, len, some 0⟩
  else
    match h : newp.dropWhile (· = blank) with
    | [] =>
        match rest with
        | [] => ⟨data, len, none⟩
        | newp :: rest => bytesLoop newp rest data len
    | c :: cp =>
        if hdigit : (xdigit c).isSome then
          let number := simple_strtoul (c :: cp) 16
          bytesLoop number.2 rest (data ++ [number.1.setWidth 8]) (len + 1)
        else ⟨data, len, some (if c = bytesEnd then 0 else 1)⟩
termination_by (rest.map List.length).sum + rest.length + newp.length
decreasing_by
  · simp only [List.map_cons, List.sum_cons, List.length_cons]
    omega
  · have hskip := (List.dropWhile_suffix (l := newp) (· = blank)).length_le
    have hlt := simple_strtoul_lt hdigit cp
    rw [h] at hskip
    omega

section BytesLoop

variable {rest : List (List Byte)} {data : List Byte} {len : Nat}

theorem bytesLoop_end (cp : List Byte) :
    bytesLoop (bytesEnd :: cp) rest data len = ⟨data, len, some 0⟩ := by
  rw [bytesLoop.eq_def]
  exact if_pos rfl

theorem bytesLoop_nil : bytesLoop [] [] data len = ⟨data, len, none⟩ := by
  rw [bytesLoop.eq_def]
  rfl

theorem bytesLoop_next (newp : List Byte) :
    bytesLoop [] (newp :: rest) data len = bytesLoop newp rest data len := by
  rw [bytesLoop.eq_def]
  rfl

/-- In front of something that is neither a blank nor the end. -/
theorem bytesLoop_cons {c : Byte} {cp : List Byte} (hblank : c ≠ blank) (hend : c ≠ bytesEnd) :
    bytesLoop (c :: cp) rest data len =
      if (xdigit c).isSome then
        bytesLoop (simple_strtoul (c :: cp) 16).2 rest
          (data ++ [(simple_strtoul (c :: cp) 16).1.setWidth 8]) (len + 1)
      else ⟨data, len, some 1⟩ := by
  have hskip : (c :: cp).dropWhile (· = blank) = c :: cp :=
    List.dropWhile_cons_of_neg (by simpa using hblank)
  rw [bytesLoop.eq_def, if_neg (by simpa using hend)]
  split
  · next heq => exact absurd (hskip.symm.trans heq) (List.cons_ne_nil _ _)
  · next c' cp' heq =>
      cases hskip.symm.trans heq
      rw [if_neg hend]
      rfl

theorem head_of_skip {newp : List Byte} (h : newp.head? = some bytesEnd) :
    newp.dropWhile (· = blank) = newp := by
  cases newp with
  | nil => rfl
  | cons c cp =>
      have hc : c = bytesEnd := Option.some.inj h
      exact List.dropWhile_cons_of_neg (by rw [hc]; decide)

/-- Blanks in front are skipped. -/
theorem bytesLoop_skip (newp : List Byte) :
    bytesLoop newp rest data len = bytesLoop (newp.dropWhile (· = blank)) rest data len := by
  by_cases hend : newp.head? = some bytesEnd
  · rw [head_of_skip hend]
  · rw [bytesLoop.eq_def newp, if_neg hend]
    split
    · next hskip =>
        rw [hskip, bytesLoop.eq_def []]
        rfl
    · next c cp hskip =>
        have hblank : c ≠ blank := by
          have hhead := List.head?_dropWhile_not (fun b => decide (b = blank)) newp
          rw [hskip] at hhead
          simpa using hhead
        rw [hskip]
        by_cases hc : c = bytesEnd
        · subst hc
          rw [bytesLoop_end, dif_neg (by decide)]
          rfl
        · rw [bytesLoop_cons hblank hc, if_neg hc]
          rfl

end BytesLoop

/-- The strings with their terminators. -/
def stringsLoop (newp : List Byte) (rest : List (List Byte)) (data : List Byte) (len : Nat) :
    Parsed :=
  match rest with
  | [] => ⟨data ++ (newp ++ [0]), len + (newp.length + 1), some 0⟩
  | next :: rest => stringsLoop next rest (data ++ (newp ++ [0])) (len + (newp.length + 1))

/-- `fdt_parse_prop`, with as many words as `count` -/
def fdt_parse_prop (newval : List (List Byte)) : Parsed :=
  match newval with
  | [] => ⟨[], 0, none⟩
  | newp :: rest =>
      match newp with
      | [] => stringsLoop newp rest [] 0
      | c :: cp =>
          if c = cellsBegin then cellsLoop cp rest [] 0
          else if c = bytesBegin then bytesLoop cp rest [] 0
          else stringsLoop newp rest [] 0

/-! ## Printing -/

/-- `isprint`, by the ranges of its table -/
def isprint (c : Byte) : Bool := (0x20 ≤ c ∧ c ≤ 0x7e) ∨ 0xa0 ≤ c

/-- The loop of `is_printable_string`. -/
def printableLoop : List Byte → Bool
  | [] => false
  | c :: s =>
      if c = 0 then
        match s with
        | [] => true
        | d :: _ => if d = 0 then false else printableLoop s
      else if isprint c then printableLoop s
      else false

def is_printable_string (data : List Byte) : Bool :=
  data ≠ [] ∧ data.getLast? = some 0 ∧ printableLoop data

/-- The strings that are printed. -/
def strings (data : List Byte) : List (List Byte) :=
  match data with
  | [] => []
  | c :: s => (c :: s).takeWhile (· ≠ 0) :: strings (((c :: s).dropWhile (· ≠ 0)).drop 1)
termination_by data.length
decreasing_by
  have hle := (List.dropWhile_suffix (l := c :: s) (· ≠ 0)).length_le
  rw [List.length_drop]
  rw [List.length_cons] at hle ⊢
  omega

/-- A digit of `%x`. -/
def hex_asc (d : Nat) : Byte := BitVec.ofNat 8 (if d < 10 then 0x30 + d else 0x57 + d)

/-- `%x` -/
def hex (n : Nat) : List Byte :=
  if n < 16 then [hex_asc n] else hex (n / 16) ++ [hex_asc (n % 16)]

/-- `%02x` of a byte -/
def hexByte (b : Byte) : List Byte := [hex_asc (b.toNat / 16), hex_asc (b.toNat % 16)]

/-- The cells of a value, as the host reads them. -/
def cellsOf (littleEndian : Bool) : List Byte → List (BitVec 32)
  | a :: b :: c :: d :: data =>
      (if littleEndian then d ++ c ++ b ++ a else a ++ b ++ c ++ d) :: cellsOf littleEndian data
  | _ => []

/-- A list with its brackets. -/
def listText (opening closing : Byte) (items : List (List Byte)) : List Byte :=
  opening :: [blank].intercalate items ++ [closing]

inductive Printed
  | nothing
  | strings (words : List (List Byte))
  | cells (text : List Byte)
  | bytes (text : List Byte)

/-- `print_data`; quotes and commas between strings are left out. -/
def print_data (littleEndian : Bool) (data : List Byte) : Printed :=
  if data = [] then .nothing
  else if is_printable_string data then .strings (strings data)
  else if data.length % 4 = 0 then
    .cells (listText cellsBegin cellsEnd
      ((cellsOf littleEndian data).map fun p => 0x30 :: 0x78 :: hex p.toNat))
  else .bytes (listText bytesBegin bytesEnd (data.map hexByte))

end UBoot.CmdFdt
