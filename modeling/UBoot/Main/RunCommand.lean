/-
# Running a line of commands

`run_command` of `common/main.c`, with `find_cmd` of `common/command.c`. The line is copied to
`cmdbuf` and cut into tokens there. Whether a character is escaped is read from the one in front of
it, and the first character of `cmdbuf` has none. What the commands do to the board is a parameter;
the locals of the loop are carried along with a record of every token that was handled.
-/

import UBoot.Main.ParseLine

namespace UBoot.Main

def semicolon : Byte := 0x3b#8

/-- `CMD_FLAG_BOOTD` -/
def CMD_FLAG_BOOTD : Nat := 2

/-- What the commands work on, with `ctrlc_was_pressed`. -/
structure Board (W : Type) where
  world : W
  ctrlc_was_pressed : Bool

def clear_ctrlc {W : Type} (board : Board W) : Board W := { board with ctrlc_was_pressed := false }

/-- A `cmd_tbl_t`; `bootd` is `cmdtp->cmd == do_bootd`. A command may leave `argv` changed. -/
structure Cmd (limit : Nat) (W : Type) where
  name : List Byte
  maxargs : Nat
  repeatable : Nat
  bootd : Bool
  cmd : Nat → Nat → Argv limit → Board W → Int × Argv limit × Board W

/-! ## The command table -/

section Table

variable {maxargs : Nat} {W : Type}

/-- The loop of `find_cmd_tbl`: a full match, or the only abbreviation. -/
def findCmdLoop (cmd : List Byte) : List (Cmd maxargs W) → Option (Cmd maxargs W) → Nat →
    Option (Cmd maxargs W)
  | [], temp, n_found => if n_found = 1 then temp else none
  | cmdtp :: table, temp, n_found =>
      -- `strncmp (cmd, cmdtp->name, len) == 0`
      if cmdtp.name.take cmd.length = cmd then
        if cmd.length = cmdtp.name.length then some cmdtp
        else findCmdLoop cmd table (some cmdtp) (n_found + 1)
      else findCmdLoop cmd table temp n_found

/-- `find_cmd`: the name is compared up to its first dot. -/
def find_cmd (table : List (Cmd maxargs W)) (cmd : List Byte) : Option (Cmd maxargs W) :=
  findCmdLoop (cmd.takeWhile (· ≠ 0x2e#8)) table none 0

end Table

/-! ## One token -/

/-- A call of a command function. -/
structure Call where
  argc : Nat
  argv : List Slot

/-- A token, what `process_macros` made of it, and the call it led to. -/
structure Handled where
  token : List Byte
  finaltoken : List Byte
  call : Option Call

/-- The locals of `run_command` with the board, and what was handled so far. `stopped` is the
`return -1` behind `had_ctrlc`. -/
structure Shell (maxargs : Nat) (W : Type) where
  board : Board W
  argv : Argv maxargs
  flag : Nat
  repeatable : Nat
  rc : Int
  stopped : Bool
  handled : List Handled

/-- The locals when the line is about to be cut. `argv` is what the stack holds. -/
def Shell.start {maxargs : Nat} {W : Type} (board : Board W) (argv : Argv maxargs) (flag : Nat) :
    Shell maxargs W :=
  ⟨clear_ctrlc board, argv, flag, 1, 0, false, []⟩

section Run

variable (cbsize : Nat) {maxargs : Nat} {W : Type} (getenv : W → List Byte → Option CString)
  (table : List (Cmd maxargs W))

/-- Keeps what was done with a token. -/
def Shell.record {maxargs : Nat} {W : Type} (handled : Handled) (s : Shell maxargs W) :
    Shell maxargs W :=
  { s with handled := s.handled ++ [handled] }

/-- The end of an iteration in which no command was called. -/
def Shell.fail {maxargs : Nat} {W : Type} (s : Shell maxargs W) : Shell maxargs W :=
  { s with rc := -1 }

/-- `(cmdtp->cmd) (cmdtp, flag, argc, argv)` and what is done with its result. -/
def Shell.call {maxargs : Nat} {W : Type} (s : Shell maxargs W) (cmdtp : Cmd maxargs W)
    (argc : Nat) : Shell maxargs W :=
  let (ret, argv, board) := cmdtp.cmd s.flag argc s.argv s.board
  { s with
    board := board
    argv := argv
    rc := if ret ≠ 0 then -1 else s.rc
    repeatable := s.repeatable &&& cmdtp.repeatable
    stopped := board.ctrlc_was_pressed }

@[simp] theorem Shell.call_handled {maxargs : Nat} {W : Type} (s : Shell maxargs W)
    (cmdtp : Cmd maxargs W) (argc : Nat) : (s.call cmdtp argc).handled = s.handled := rfl

@[simp] theorem Shell.call_stopped {maxargs : Nat} {W : Type} (s : Shell maxargs W)
    (cmdtp : Cmd maxargs W) (argc : Nat) :
    (s.call cmdtp argc).stopped = (s.call cmdtp argc).board.ctrlc_was_pressed := rfl

/-- The text that `finaltoken` holds. -/
def finalText (token : List Byte) (w : W) : Option (List Byte) :=
  (process_macros cbsize (getenv w) token).map (·.takeWhile (· ≠ 0#8))

/-- What an iteration of `run_command` does with its token. -/
def runToken (token : List Byte) (s : Shell maxargs W) : Option (Shell maxargs W) := do
  let finaltoken ← finalText cbsize getenv token s.board.world
  let (argc, argv) := parse_line finaltoken s.argv
  let s := { s with argv := argv }
  if argc = 0 then
    return s.fail.record ⟨token, finaltoken, none⟩
  match argv.slots.head? with
  | some (.arg name) =>
      match find_cmd table name with
      | none => return s.fail.record ⟨token, finaltoken, none⟩
      | some cmdtp =>
          if argc > cmdtp.maxargs then
            return s.fail.record ⟨token, finaltoken, none⟩
          else if cmdtp.bootd ∧ s.flag &&& CMD_FLAG_BOOTD ≠ 0 then
            return s.fail.record ⟨token, finaltoken, none⟩
          else
            let s := { s with flag := if cmdtp.bootd then s.flag ||| CMD_FLAG_BOOTD else s.flag }
            return (s.call cmdtp argc).record ⟨token, finaltoken, some ⟨argc, argv.slots⟩⟩
  | _ => none

/-! ## The separators -/

/-- `*(sep-1) != '\\'`, with what stands in front of `sep` in `cmdbuf`, last character first.
Without result in front of `cmdbuf`. -/
def unescaped (passed : List Byte) : Option Bool := passed.head?.map (· ≠ backslash)

/-- `inquotes` behind a character. -/
def quoteStep (passed : List Byte) (inquotes : Bool) (c : Byte) : Option Bool :=
  if c = quote then (unescaped passed).map (inquotes ^^ ·) else some inquotes

/-- The condition of the `break`; `sep != str` if there is something in the token. -/
def separates (passed token : List Byte) (inquotes : Bool) (c : Byte) : Option Bool :=
  if inquotes = false ∧ c = semicolon ∧ token ≠ [] then unescaped passed else some false

/-- The `for` loop over `sep`: the token, what stands in front of `sep`, and what `sep` points
to. -/
def findSep : List Byte → List Byte → Bool → List Byte →
    Option (List Byte × List Byte × List Byte)
  | passed, token, _, [] => some (token, passed, [])
  | passed, token, inquotes, c :: ahead => do
      let inquotes ← quoteStep passed inquotes c
      if ← separates passed token inquotes c then some (token, passed, c :: ahead)
      else findSep (c :: passed) (token ++ [c]) inquotes ahead

theorem findSep_length {passed token ahead : List Byte} {inquotes : Bool}
    {token' passed' sep : List Byte}
    (h : findSep passed token inquotes ahead = some (token', passed', sep)) :
    token'.length + sep.length = token.length + ahead.length := by
  induction ahead generalizing passed token inquotes with
  | nil =>
      cases h
      rfl
  | cons c ahead ih =>
      obtain ⟨inquotes', -, h⟩ := Option.bind_eq_some_iff.mp h
      obtain ⟨separator, -, h⟩ := Option.bind_eq_some_iff.mp h
      split at h
      · cases h
        rfl
      · rw [ih h, List.length_append, List.length_singleton, List.length_cons]
        omega

/-- `while (*str)`. Behind a token the separator in `cmdbuf` is a NUL. -/
def commandLoop : List Byte → List Byte → Shell maxargs W → Option (Shell maxargs W)
  | _, [], s => some s
  | passed, c :: str, s =>
      match _hfound : findSep passed [] false (c :: str) with
      | none => none
      | some (token, passed, sep) => do
          let s ← runToken cbsize getenv table token s
          if s.stopped then return s
          match _hsep : sep with
          | [] => some s
          | _ :: str => commandLoop (0#8 :: passed) str s
termination_by _ str => str.length
decreasing_by
  have := findSep_length _hfound
  rw [_hsep] at this
  simp only [List.length_cons, List.length_nil] at this ⊢
  omega

/-- `run_command` -/
def run_command (cmd : Option CString) (flag : Nat) (board : Board W) (argv : Argv maxargs) :
    Option (Int × Shell maxargs W) :=
  let s := Shell.start board argv flag
  match cmd with
  | none => some (-1, s)
  | some cmd =>
      if cmd.1 = [] then some (-1, s)
      else if cmd.1.length ≥ cbsize then some (-1, s)
      else do
        let s ← commandLoop cbsize getenv table [] cmd.1 s
        return (if s.stopped then -1 else if s.rc ≠ 0 then s.rc else s.repeatable, s)

end Run

end UBoot.Main
