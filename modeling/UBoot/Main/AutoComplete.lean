/-
# Completion of a line

`cmd_auto_complete` of `common/command.c` with the functions that collect the candidates, and
`env_complete` of `common/env_common.c`. A string is the list of its characters without the NUL. A
pointer that is behind the NUL of a candidate, or an argument in front of the first one, makes the
result `none`.
-/

import UBoot.Main.ParseLine
import UBoot.Image.Bootm

namespace UBoot.Main

open UBoot.Bootm (find_cmd_tbl)

/-- What is fixed for a board. No board has less than 8 for `CONFIG_SYS_MAXARGS`. -/
structure Console where
  CONFIG_SYS_PROMPT : List Byte
  CONFIG_SYS_CBSIZE : Nat
  CONFIG_SYS_MAXARGS : Nat
  three_le : 3 ≤ CONFIG_SYS_MAXARGS

/-- What the completion uses of a `cmd_tbl_t`: `complete` is `var_complete`, which is the only
handler that is ever installed, or NULL. -/
structure Completable where
  name : List Byte
  complete : Bool

/-- The entries of the environment, each of them without its NUL. An empty one would be its end. -/
abbrev Variables := {entries : List (List Byte) // [] ∉ entries}

def dots : List Byte := [0x2e#8, 0x2e#8, 0x2e#8]

/-- The places in `cmdv`, two of which are for the dots and the NULL. -/
def maxv : Nat := 20

/-- `sizeof(tmp_buf)` in `var_complete` -/
def tmpSize : Nat := 512

/-! ## The candidates -/

/-- The loop of `env_complete`. -/
def envLoop (var : List Byte) : (found bufsz : Nat) → List (List Byte) → List (List Byte)
  | _, _, [] => []
  | found, bufsz, lval :: env =>
      let name := lval.takeWhile (· ≠ 0x3d#8)
      if 0 < var.length ∧ (name.length < var.length ∨ lval.take var.length ≠ var) then
        envLoop var found bufsz env
      else if maxv - 2 ≤ found ∨ bufsz < name.length + 1 then [dots]
      else name :: envLoop var (found + 1) (bufsz - (name.length + 1)) env

/-- `env_complete` -/
def env_complete (env : Variables) (var : List Byte) : List (List Byte) :=
  envLoop var 0 tmpSize env.1

/-- `last_char == '\0' || last_char == ' ' || last_char == '\t'` -/
def space (last_char : Option Byte) : Bool := last_char.all blank

/-- `var_complete` -/
def var_complete (env : Variables) (argv : List (List Byte)) (last_char : Option Byte) :
    List (List Byte) :=
  if space last_char ∧ argv.length = 1 then env_complete env []
  else
    match argv with
    | [_, var] => if space last_char then [] else env_complete env var
    | _ => []

/-- The loop of `complete_cmdv` for the full list. -/
def listLoop : (found : Nat) → List Completable → List (List Byte)
  | _, [] => []
  | found, cmdtp :: table =>
      if maxv - 2 ≤ found then [dots] else cmdtp.name :: listLoop (found + 1) table

/-- The loop of `complete_cmdv` for the partial matches. -/
def matchLoop (cmd : List Byte) (len : Nat) : (found : Nat) → List Completable → List (List Byte)
  | _, [] => []
  | found, cmdtp :: table =>
      if cmdtp.name.length < len then matchLoop cmd len found table
      else if cmd.take len ≠ cmdtp.name.take len then matchLoop cmd len found table
      else if maxv - 2 ≤ found then [dots]
      else cmdtp.name :: matchLoop cmd len (found + 1) table

/-- `complete_cmdv`: the strings of `cmdv`. -/
def complete_cmdv (table : List Completable) (env : Variables) (argv : List (List Byte))
    (last_char : Option Byte) : List (List Byte) :=
  match argv with
  | [] => listLoop 0 table
  | cmd :: args =>
      if args ≠ [] ∨ space last_char then
        match find_cmd_tbl Completable.name cmd table with
        | none => []
        | some cmdtp => if cmdtp.complete then var_complete env argv last_char else []
      else matchLoop cmd (cmd.takeWhile (· ≠ 0x2e#8)).length 0 table

/-! ## The line -/

/-- The loop of `make_argv`, with the places that are left in `argv`. -/
def makeArgvLoop : (places : Nat) → List Byte → List (List Byte)
  | 0, _ => []
  | places + 1, s =>
      let s := s.dropWhile blank
      if s = [] then []
      else
        s.takeWhile (! blank ·) ::
          match s.dropWhile (! blank ·) with
          | [] => []
          | _ :: s => makeArgvLoop places s

/-- `make_argv` -/
def make_argv (s : List Byte) (argvsz : Nat) : List (List Byte) := makeArgvLoop (argvsz - 1) s

/-- The inner loop of `find_common_prefix`. -/
def agreeLoop : (len : Nat) → (s t : List Byte) → Nat
  | len + 1, a :: s, b :: t => if b ≠ a then 0 else agreeLoop len s t + 1
  | _, _, _ => 0

/-- `find_common_prefix` -/
def find_common_prefix : List (List Byte) → Nat
  | [] => 0
  | anchor :: cmdv => cmdv.foldl (fun len t => agreeLoop len anchor t) anchor.length

/-- What the caller sees: the buffer, `*np` and `*colp`. -/
structure Typed where
  buf : List Byte
  np : Nat
  colp : Nat
  deriving DecidableEq

/-- The end of `cmd_auto_complete` for a string and a separator to append. -/
def appendFits (c : Console) (line : Typed) (s sep : List Byte) : Typed :=
  let k := s.length + sep.length
  if c.CONFIG_SYS_CBSIZE - 2 ≤ line.np + k then line
  else ⟨line.buf ++ (s ++ sep), line.np + k, line.colp + k⟩

/-- `cmd_auto_complete`: what it returns, and the line. -/
def cmd_auto_complete (c : Console) (table : List Completable) (env : Variables)
    (prompt : List Byte) (line : Typed) : Option (Bool × Typed) :=
  if prompt ≠ c.CONFIG_SYS_PROMPT then some (false, line)
  else
    let argv := make_argv line.buf (c.CONFIG_SYS_MAXARGS + 1)
    let cmdv := complete_cmdv table env argv line.buf.getLast?
    match cmdv with
    | [] => some (decide (argv.length ≤ 1), line)
    | [cmd] =>
        -- `argv[argc - 1]`, and `cmdv[0] + k`
        argv.getLast?.bind fun last =>
          if cmd.length < last.length then none
          else some (true, appendFits c line (cmd.drop last.length) [0x20#8])
    | cmd :: _ =>
        let j := find_common_prefix cmdv
        if j = 0 then some (true, line)
        else
          argv.getLast?.bind fun last =>
            if last.length < j then
              some (true, appendFits c line ((cmd.drop last.length).take (j - last.length)) [])
            else some (true, line)

end UBoot.Main
