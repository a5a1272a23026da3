/-
# The environment in RAM

`common/cmd_nvedit.c`. The environment is a buffer of `ENV_SIZE` bytes holding
strings `name=value`, each ended by a NUL, with one more NUL at the end. A
variable is deleted by moving what follows it down in place, and set by deleting
it and appending a new definition at the end.

Every access to the buffer is checked here, and so is every use of an element of
`argv`. A computation ends in a `Fault` where the C code would read or write past
the buffer, run past the end of a string or use a null pointer.
-/

import UBoot.LibGeneric.Strtoul

namespace UBoot.Env

/-- Where the C code would leave defined behaviour: an access outside the buffer
or the string at hand, or the use of an argument that is `NULL` or absent. -/
inductive Fault
  | outOfBuffer
  | missingArgument
  deriving DecidableEq

/-- A computation whose memory accesses are checked. -/
abbrev Checked := Except Fault

/-- `env_data[i]` -/
def load (data : List Byte) (i : Nat) : Checked Byte :=
  match data[i]? with
  | some b => .ok b
  | none => .error .outOfBuffer

/-- `env_data[i] = b` -/
def store (data : List Byte) (i : Nat) (b : Byte) : Checked (List Byte) :=
  if i < data.length then .ok (data.set i b) else .error .outOfBuffer

/-- Copies a string and its NUL to `env_data + i`. -/
def strcpy (data : List Byte) (i : Nat) (s : List Byte) : Checked (List Byte) :=
  if i + s.length < data.length then
    .ok (data.take i ++ s ++ 0#8 :: data.drop (i + s.length + 1))
  else .error .outOfBuffer

/-- The index of the first NUL from `i` on. -/
def strend (data : List Byte) (i : Nat) : Checked Nat :=
  match (data.drop i).findIdx? (· = 0#8) with
  | some k => .ok (i + k)
  | none => .error .outOfBuffer

/-- `'='` -/
def equals : Byte := 0x3D#8

/-! ## Looking a variable up -/

/-- `envmatch`: the index of the value if the string at `i2` is a definition of
`s1`. A match that includes the NUL of both strings runs past their ends. -/
def envmatch (data : List Byte) : List Byte → Nat → Checked (Option Nat)
  | [], i2 => do
      let c ← load data i2
      if c = 0#8 then .error .outOfBuffer
      else return if c = equals then some (i2 + 1) else none
  | s :: s1, i2 => do
      if s = (← load data i2) then
        if s = equals then return some (i2 + 1) else envmatch data s1 (i2 + 1)
      else return none

/-- The search loop of `getenv`, from the string at `i` on. -/
def getenvFrom (data : List Byte) (name : CString) : Nat → Nat → Checked (Option Nat)
  | 0, _ => .error .outOfBuffer
  | fuel + 1, i => do
      if (← load data i) = 0#8 then return none
      let nxt ← strend data i
      match ← envmatch data name.1 i with
      | some val => return some val
      | none => getenvFrom data name fuel (nxt + 1)

/-- `getenv`: the index of the value. Every round moves on by a byte at least, so
that the rounds cannot be more than the bytes. -/
def getenv (data : List Byte) (name : CString) : Checked (Option Nat) :=
  getenvFrom data name (data.length + 1) 0

/-- The string a pointer into the buffer points to. -/
def stringAt (data : List Byte) (i : Nat) : Checked (List Byte) := do
  let nxt ← strend data i
  return (data.drop i).take (nxt - i)

/-- The definition `_do_setenv` finds: its first byte, its NUL, and its value. -/
structure Found where
  env : Nat
  nxt : Nat
  oldval : Nat
  deriving DecidableEq

/-- The search loop of `_do_setenv`, from the string at `env` on. -/
def findFrom (data : List Byte) (name : CString) : Nat → Nat → Checked (Option Found)
  | 0, _ => .error .outOfBuffer
  | fuel + 1, env => do
      if (← load data env) = 0#8 then return none
      let nxt ← strend data env
      match ← envmatch data name.1 env with
      | some oldval => return some ⟨env, nxt, oldval⟩
      | none => findFrom data name fuel (nxt + 1)

/-- `search if variable with this name already exists` -/
def findOld (data : List Byte) (name : CString) : Checked (Option Found) :=
  findFrom data name (data.length + 1) 0

/-! ## Deleting a definition -/

/-- The loop that moves the rest of the table from `nxt` down to `env`; it ends
behind the last string and returns the index of that string's NUL. -/
def moveDown : Nat → List Byte → Nat → Nat → Checked (List Byte × Nat)
  | 0, _, _, _ => .error .outOfBuffer
  | fuel + 1, data, env, nxt => do
      let c ← load data nxt
      let data ← store data env c
      if c = 0#8 then
        if (← load data (nxt + 1)) = 0#8 then return (data, env)
        else moveDown fuel data (env + 1) (nxt + 1)
      else moveDown fuel data (env + 1) (nxt + 1)

/-- `Delete any existing definition`: the last one, the only one, or one with
others behind it. -/
def deleteOld (data : List Byte) (old : Found) : Checked (List Byte) := do
  let nxt := old.nxt + 1
  if (← load data nxt) = 0#8 then
    if old.env > 0 then store data old.env 0#8
    else store (← store data old.env 0#8) (old.env + 1) 0#8
  else
    let (data, env) ← moveDown data.length data old.env nxt
    store data (env + 1) 0#8

/-! ## Appending a definition -/

/-- `for (env=env_data; *env || *(env+1); ++env)` -/
def doubleNul : List Byte → Checked Nat
  | a :: b :: data => do
      if a = 0#8 ∧ b = 0#8 then return 0
      return (← doubleNul (b :: data)) + 1
  | _ => .error .outOfBuffer

/-- Where a new definition goes. -/
def endOfVars (data : List Byte) : Checked Nat := do
  let env ← doubleNul data
  return if env > 0 then env + 1 else env

/-- `len`: the name, `=` or a blank before each word, and two NULs. -/
def defLength (name : CString) (vals : List CString) : Nat :=
  name.1.length + 2 + (vals.map (·.1.length + 1)).sum

/-- The loop over the words; `sep` is `'='` before the first and `' '` before the
others. The result is also the index of the last NUL written. -/
def putWords (data : List Byte) (env : Nat) : Byte → List CString → Checked (List Byte × Nat)
  | _, [] => return (data, env)
  | sep, val :: vals => do
      let data ← store data env sep
      let data ← strcpy data (env + 1) val.1
      putWords data (env + 1 + val.1.length) 0x20#8 vals

/-- Writes `name=words` and the two NULs at `env`. -/
def putVar (data : List Byte) (env : Nat) (name : CString) (vals : List CString) :
    Checked (List Byte) := do
  let data ← strcpy data env name.1
  let (data, env) ← putWords data (env + name.1.length) equals vals
  store data (env + 1) 0#8

/-! ## `_do_setenv` -/

/-- What a build fixes. `ethaddrOnce` is `CONFIG_ETHADDR` in a build with
`CONFIG_OVERWRITE_ETHADDR_ONCE`. -/
structure Config where
  envOverwrite : Bool
  hasUid : Bool
  ethaddrOnce : Option CString
  consoleMux : Bool
  cmdNet : Bool
  baudrate_table : List (BitVec 32)

/-- The arguments of one call, `argv[1]` and `argv[2], argv[3], …`, an absent
element being `NULL`. `assigned` is what `iomux_doenv` returns for these arguments,
or a nonzero number if `console_assign` or `serial_assign` refuses the device. -/
structure Args where
  flag : BitVec 32 := 0
  argc : Nat
  name : CString
  words : List (Option CString)
  assigned : Nat := 0

/-- `argv[i + 2]` -/
def Args.word (args : Args) (i : Nat) : Option CString :=
  args.words[i]?.join

/-- The string behind a pointer. -/
def deref (s : Option CString) : Checked CString :=
  match s with
  | some s => .ok s
  | none => .error .missingArgument

/-- The RAM copy, and the variables that follow its contents. -/
structure EnvRam where
  crc : BitVec 32
  data : List Byte
  env_id : BitVec 32
  baudrate : BitVec 32
  bi_ip_addr : BitVec 32
  load_addr : BitVec 32
  bootFile : List Byte

/-- `ENV_SIZE` -/
def EnvRam.ENV_SIZE (env : EnvRam) : Nat := env.data.length

/-- `env_crc_update` -/
def env_crc_update (env : EnvRam) : EnvRam :=
  { env with crc := crc32 0 env.data }

def isConsole (name : CString) : Bool :=
  name.1 = ascii "stdin" ∨ name.1 = ascii "stdout" ∨ name.1 = ascii "stderr"

/-- `Check for console redirection`; a number is returned from `_do_setenv`. -/
def redirectConsole (cfg : Config) (args : Args) : Checked (Option Nat) := do
  if isConsole args.name then
    if args.argc < 3 then return some 1
    if cfg.consoleMux then
      -- `strdup(NULL)` is `NULL`, for which `iomux_doenv` returns 1
      let i := if (args.word 0).isNone then 1 else args.assigned
      return if i ≠ 0 then some i else none
    else
      let _ ← deref (args.word 0)
      return if args.assigned ≠ 0 then some 1 else none
  else return none

/-- `strcmp` with a string at `env_data + i`: are they the same. -/
def sameString (data : List Byte) : Nat → List Byte → Checked Bool
  | i, [] => return (← load data i) = 0#8
  | i, s :: str => do
      if (← load data i) = s then sameString data (i + 1) str else return false

/-- `Ethernet Address and serial# can be set only once` -/
def cantOverwrite (cfg : Config) (args : Args) (data : List Byte) (oldval : Nat) :
    Checked Bool := do
  if cfg.envOverwrite then return false
  if args.name.1 = ascii "serial#" then return !cfg.hasUid || args.flag ≠ 0xdeaf4add#32
  if args.name.1 = ascii "ethaddr" then
    match cfg.ethaddrOnce with
    | some ethaddr => return !(← sameString data oldval ethaddr.1)
    | none => return true
  return false

/-- `Switch to new baudrate if new baudrate is supported`; nothing if it is not. -/
def switchBaudrate (cfg : Config) (args : Args) (env : EnvRam) : Checked (Option EnvRam) := do
  if args.name.1 = ascii "baudrate" then
    let baudrate := (simple_strtoul (← deref (args.word 0)).1 10).1
    return if baudrate ∈ cfg.baudrate_table then some { env with baudrate := baudrate } else none
  else return some env

/-- One number of an address in dotted notation, and the string behind it. -/
def ipaddrPart (s : List Byte) : BitVec 32 × List Byte :=
  let (val, e) := simple_strtoul s 10
  (val &&& 0xFF#32, e.tail)

/-- The address in `argv[2]`, in the order of the network. -/
def ipaddr (s : List Byte) : BitVec 32 :=
  let (a, s) := ipaddrPart s
  let (b, s) := ipaddrPart s
  let (c, s) := ipaddrPart s
  let (d, _) := ipaddrPart s
  a ||| (b <<< 8) ||| (c <<< 16) ||| (d <<< 24)

/-- `copy_filename` into a buffer of `size` bytes. -/
def copy_filename (src : List Byte) (size : Nat) : List Byte :=
  let quote := 0x22#8
  if src.head? = some quote then ((src.tail).takeWhile (· ≠ quote)).take (size - 2)
  else (src.takeWhile (· ≠ quote)).take (size - 1)

/-- `Some variables should be updated when the corresponding entry in the
environment is changed` -/
def followChange (cfg : Config) (name val : CString) (env : EnvRam) : EnvRam :=
  if name.1 = ascii "ipaddr" then { env with bi_ip_addr := ipaddr val.1 }
  else if name.1 = ascii "loadaddr" then { env with load_addr := (simple_strtoul val.1 16).1 }
  else if cfg.cmdNet ∧ name.1 = ascii "bootfile" then
    { env with bootFile := copy_filename val.1 128 }
  else env

/-- `argv[2], …, argv[argc - 1]` as strings. -/
def Args.vals (args : Args) : Checked (List CString) :=
  (List.range (args.argc - 2)).mapM fun i => deref (args.word i)

/-- `Delete only ?` and what follows it: the new definition is appended. -/
def define (cfg : Config) (args : Args) (env : EnvRam) : Checked (Nat × EnvRam) := do
  match args.word 0 with
  | none => return (0, env_crc_update env)
  | some val =>
      if args.argc < 3 then return (0, env_crc_update env)
      let at_end ← endOfVars env.data
      let vals ← args.vals
      if defLength args.name vals > env.ENV_SIZE - at_end then return (1, env)
      let data ← putVar env.data at_end args.name vals
      return (0, followChange cfg args.name val (env_crc_update { env with data := data }))

/-- Deletes the definition found, if that is allowed; the number is one returned
from `_do_setenv`. -/
def removeOld (cfg : Config) (args : Args) (env : EnvRam) (old : Found) :
    Checked (Option Nat × EnvRam) := do
  if ← cantOverwrite cfg args env.data old.oldval then return (some 1, env)
  match ← switchBaudrate cfg args env with
  | none => return (some 1, env)
  | some env => return (none, { env with data := ← deleteOld env.data old })

/-- `_do_setenv`: the return value and the environment. -/
def _do_setenv (cfg : Config) (args : Args) (env : EnvRam) : Checked (Nat × EnvRam) := do
  if equals ∈ args.name.1 then return (1, env)
  let env := { env with env_id := env.env_id + 1 }
  let old ← findOld env.data args.name
  match ← redirectConsole cfg args with
  | some rc => return (rc, env)
  | none =>
      match old with
      | none => define cfg args env
      | some old =>
          match ← removeOld cfg args env old with
          | (some rc, env) => return (rc, env)
          | (none, env) => define cfg args env

/-- The arguments `setenv` passes on. -/
def setenvArgs (varname : CString) (varvalue : Option CString) (assigned : Nat) : Args where
  argc := if varvalue.isNone ∨ varvalue = some ⟨[], by simp⟩ then 2 else 3
  name := varname
  words := [varvalue, none]
  assigned := assigned

/-- `setenv` -/
def setenv (cfg : Config) (varname : CString) (varvalue : Option CString) (assigned : Nat)
    (env : EnvRam) : Checked (Nat × EnvRam) :=
  _do_setenv cfg (setenvArgs varname varvalue assigned) env

end UBoot.Env
