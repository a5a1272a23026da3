/-
# References to variables

`process_macros` of `common/main.c`. It is a machine over the characters of a command with a
budget for what it writes: a `$` is kept back until the character behind it is read, and so is
all that follows `$(` until a bracket closes it. What it writes is compared with `expand`, which
replaces the references `$(name)` and `${name}` and copies everything else. Kept back characters
are lost at the end of the command, and a `$` that was kept back hides a reference behind it.
-/

import UBoot.LibGeneric.Strtoul

namespace UBoot.Main

/-! ## The machine -/

def dollar : Byte := 0x24#8
def backslash : Byte := 0x5c#8
def quote : Byte := 0x27#8

/-- `state` from 0 to 3. Behind an opening bracket there are the characters read since
`varname_start`. -/
inductive Scan
  | waiting
  | dollar
  | name (read : List Byte)
  | quoted
  deriving DecidableEq

/-- The variables of `process_macros`, with the characters written so far. -/
structure Macros where
  state : Scan
  prev : Byte
  output : List Byte
  outputcnt : Nat

/-- `*(output++) = c; outputcnt--` -/
def Macros.emit (c : Byte) (m : Macros) : Macros :=
  { m with output := m.output ++ [c], outputcnt := m.outputcnt - 1 }

/-- `while ((*envval) && outputcnt)` -/
def Macros.emitAll : List Byte → Macros → Macros
  | [], m => m
  | c :: value, m => if m.outputcnt = 0 then m else Macros.emitAll value (m.emit c)

/-- `c == '(' || c == '{'` -/
def opens (c : Byte) : Bool := c = 0x28#8 || c = 0x7b#8

/-- `c == ')' || c == '}'` -/
def closes (c : Byte) : Bool := c = 0x29#8 || c = 0x7d#8

section Machine

variable (cbsize : Nat) (getenv : List Byte → Option CString)

/-- The value of a variable, or nothing. -/
def valueOf (name : List Byte) : List Byte := ((getenv name).map Subtype.val).getD []

/-- The `switch`, for a character that may have been escaped. Without result when a name leaves
`envname`. -/
def Macros.switch (escaped : Bool) (c : Byte) (m : Macros) : Option Macros :=
  match m.state with
  | .waiting =>
      if c = quote ∧ m.prev ≠ backslash then some { m with state := .quoted }
      else if c = dollar ∧ m.prev ≠ backslash then some { m with state := .dollar }
      else some (m.emit c)
  | .dollar =>
      if opens c then some { m with state := .name [] }
      else
        let m := Macros.emit dollar { m with state := .waiting }
        some (if m.outputcnt ≠ 0 then m.emit c else m)
  | .name read =>
      let read := if escaped then read ++ [backslash] else read
      if closes c then
        if read.length < cbsize then
          some (Macros.emitAll (valueOf getenv read) { m with state := .waiting })
        else none
      else some { m with state := .name (read ++ [c]) }
  | .quoted =>
      if c = quote ∧ m.prev ≠ backslash then some { m with state := .waiting }
      else some (m.emit c)

/-- `while (inputcnt && outputcnt)` -/
def macrosLoop : List Byte → Macros → Option Macros
  | [], m => some m
  | c :: input, m =>
      if m.outputcnt = 0 then some m
      else if m.state ≠ .quoted ∧ c = backslash ∧ m.prev ≠ backslash then
        match input with
        | [] => some m
        | c' :: input => do
            let m ← Macros.switch cbsize getenv true c' { m with prev := c }
            macrosLoop input { m with prev := c' }
      else do
        let m ← m.switch cbsize getenv false c
        macrosLoop input { m with prev := c }

/-- `process_macros`: what is written to `output` from its begin on. -/
def process_macros (input : List Byte) : Option (List Byte) := do
  let m ← macrosLoop cbsize getenv input ⟨.waiting, 0#8, [], cbsize⟩
  return (if m.outputcnt ≠ 0 then m.output else m.output.dropLast) ++ [0#8]

end Machine

/-! ## References -/

/-- The bracket that closes a reference. -/
def closing (c : Byte) : Byte := if c = 0x28#8 then 0x29#8 else 0x7d#8

/-- A reference at the begin of a string: its name, and what is behind it. -/
def reference : List Byte → Option (List Byte × List Byte)
  | d :: c :: rest =>
      let name := rest.takeWhile (· ≠ closing c)
      if d = dollar ∧ opens c ∧ name.length < rest.length then
        some (name, rest.drop (name.length + 1))
      else none
  | _ => none

theorem reference_length {s name rest : List Byte} (h : reference s = some (name, rest)) :
    rest.length < s.length := by
  match s with
  | [] => cases h
  | [_] => cases h
  | d :: c :: s =>
      simp only [reference] at h
      split at h
      · cases h
        rw [List.length_drop, List.length_cons, List.length_cons]
        omega
      · cases h

/-- Each reference is replaced by the value of its variable, and every other character is
copied. -/
def expand (getenv : List Byte → Option CString) (s : List Byte) : List Byte :=
  match h : reference s with
  | some (name, rest) =>
      have : rest.length < s.length := reference_length h
      valueOf getenv name ++ expand getenv rest
  | none =>
      match s with
      | [] => []
      | c :: s => c :: expand getenv s
termination_by s.length

end UBoot.Main
