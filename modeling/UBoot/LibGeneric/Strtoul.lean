/-
# Numbers in strings

`simple_strtoul` of `lib_generic/vsprintf.c`, on the bytes of a string without its
terminating NUL, with a 32 bit `unsigned long`.
-/

import UBoot.LibGeneric.Crc32

namespace UBoot

/-- The bytes of a string literal. -/
def ascii (s : String) : List Byte :=
  s.toList.map fun c => BitVec.ofNat 8 c.toNat

/-- A string in memory: no byte of it is the terminator. -/
abbrev CString := { s : List Byte // 0#8 ∉ s }

/-- The value of a hexadecimal digit, or nothing if `isxdigit` fails. -/
def xdigit (c : Byte) : Option Nat :=
  if 0x30#8 ≤ c ∧ c ≤ 0x39#8 then some (c.toNat - 0x30)
  else if 0x41#8 ≤ c ∧ c ≤ 0x46#8 then some (c.toNat - 0x41 + 10)
  else if 0x61#8 ≤ c ∧ c ≤ 0x66#8 then some (c.toNat - 0x61 + 10)
  else none

/-- The digit loop of `simple_strtoul`. -/
def strtoulDigits (base : Nat) : BitVec 32 → List Byte → BitVec 32 × List Byte
  | result, [] => (result, [])
  | result, c :: cp =>
      match xdigit c with
      | some value =>
          if value < base then
            strtoulDigits base (result * BitVec.ofNat 32 base + BitVec.ofNat 32 value) cp
          else (result, c :: cp)
      | none => (result, c :: cp)

/-- `*cp == 'x' && isxdigit(cp[1])` -/
def hexMark (cp : List Byte) : Bool :=
  match cp with
  | x :: d :: _ => x = 0x78#8 ∧ (xdigit d).isSome
  | _ => false

/-- `simple_strtoul`: the number, and what `endp` points to. A base of 0 is
octal after a leading zero and decimal otherwise, and `0x` makes it 16. -/
def simple_strtoul (cp : List Byte) (base : Nat) : BitVec 32 × List Byte :=
  if cp.head? = some 0x30#8 then
    if hexMark cp.tail then strtoulDigits 16 0 cp.tail.tail
    else strtoulDigits (if base = 0 then 8 else base) 0 cp.tail
  else strtoulDigits (if base = 0 then 10 else base) 0 cp

end UBoot
