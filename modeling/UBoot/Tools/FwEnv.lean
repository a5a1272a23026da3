/-
# The environment tools of the host

`tools/env/fw_env.c`: `fw_env_open`, and how `fw_setenv` writes the environment back. The
environment is at the beginning of one erase block of its device, and every operation
succeeds. Then `flash_write_buf` erases the block and writes the image.
-/

import UBoot.Env.RedundantFlash
import UBoot.Env.RedundantNand
import UBoot.Env.EnvMap

namespace UBoot.Tools

open UBoot.Env

/-- The host, with the size of its `long`. -/
inductive Host
  | long4
  | long8
  deriving DecidableEq

/-- `sizeof (long)` -/
def Host.sizeof_long : Host → Nat
  | .long4 => 4
  | .long8 => 8

/-- `getenvsize` -/
def getenvsize (host : Host) (CONFIG_ENV_SIZE : Nat) (HaveRedundEnv : Bool) : Nat :=
  let rc := CONFIG_ENV_SIZE - host.sizeof_long
  if HaveRedundEnv then rc - 1 else rc

/-- `ENV_HEADER_SIZE` of U-Boot -/
def ENV_HEADER_SIZE (redundant : Bool) : Nat := if redundant then 5 else 4

section Host

variable {size : Nat} (host : Host)

/-- `crc32 (0, environment.data, ENV_SIZE)`, where `size` is the `ENV_SIZE` of U-Boot. -/
def dataCrc (redundant : Bool) (data : Vector Byte size) : BitVec 32 :=
  crc32 0 (data.toList.take (getenvsize host (size + ENV_HEADER_SIZE redundant) redundant))

/-! ## Images -/

/-- An image: `struct env_image_single`, or `struct env_image_redundant` without its flags,
which no checksum covers. -/
structure EnvImage (size : Nat) where
  crc : BitVec 32
  data : Vector Byte size

/-- The test of `fw_env_open`. -/
def EnvImage.ToolAccepts (redundant : Bool) (image : EnvImage size) : Prop :=
  dataCrc host redundant image.data = image.crc

/-- The test of `env_init` and `env_relocate_spec`. -/
def EnvImage.UBootAccepts (image : EnvImage size) : Prop :=
  crc32 0 image.data.toList = image.crc

/-- What `fw_env_close` writes. -/
def toolImage (redundant : Bool) (data : Vector Byte size) : EnvImage size :=
  ⟨dataCrc host redundant data, data⟩

/-- What `saveenv` writes. -/
def ubootImage (data : Vector Byte size) : EnvImage size := ⟨crc32 0 data.toList, data⟩

/-! ## Two environments -/

/-- `enum flag_scheme`, where there are flags: two NOR devices, or two NAND devices. -/
inductive FlagScheme
  | boolean
  | incremental
  deriving DecidableEq

def active_flag : Byte := 1#8
def obsolete_flag : Byte := 0#8

/-- `struct environment`, with `dev_current`. -/
structure Environment (size : Nat) where
  dev_current : Area
  image : EnvT size

/-- `crc0_ok` and `crc1_ok` -/
def ToolCrcOk (image : EnvT size) : Prop := dataCrc host true image.data = image.crc

instance instDecidableToolCrcOk (image : EnvT size) : Decidable (ToolCrcOk host image) :=
  inferInstanceAs (Decidable (_ = _))

/-- The choice between two valid copies. -/
def newestDevice (flag_scheme : FlagScheme) (flag0 flag1 : Byte) : Area :=
  match flag_scheme with
  | .boolean =>
      if flag0 = active_flag ∧ flag1 = obsolete_flag then .env
      else if flag0 = obsolete_flag ∧ flag1 = active_flag then .redund
      else if flag0 = flag1 then .env
      else if flag0 = 0xFF#8 then .env
      else if flag1 = 0xFF#8 then .redund
      else .env
  | .incremental =>
      if flag0 = 255#8 ∧ flag1 = 0#8 then .redund
      else if (flag1 = 255#8 ∧ flag0 = 0#8) ∨ flag0 ≥ flag1 then .env
      else .redund

/-- `memcpy (environment.data, default_environment, sizeof default_environment)` -/
def withDefault (default_environment : List Byte) (image : EnvT size) : EnvT size :=
  { image with data := .ofFn fun i => default_environment.getD i image.data[i] }

/-- `fw_env_open` -/
def fw_env_open (flag_scheme : FlagScheme) (default_environment : List Byte)
    (store : Store size) : Environment size :=
  let addr0 := store .env
  let addr1 := store .redund
  if ToolCrcOk host addr0 ∧ ¬ ToolCrcOk host addr1 then ⟨.env, addr0⟩
  else if ¬ ToolCrcOk host addr0 ∧ ToolCrcOk host addr1 then ⟨.redund, addr1⟩
  else if ¬ ToolCrcOk host addr0 ∧ ¬ ToolCrcOk host addr1 then
    ⟨.env, withDefault default_environment addr0⟩
  else
    let dev_current := newestDevice flag_scheme addr0.flags addr1.flags
    ⟨dev_current, store dev_current⟩

/-- `flash_write`, for two devices. -/
def flash_write (flag_scheme : FlagScheme) (environment : Environment size)
    (store : Store size) : Store size :=
  let image := environment.image
  match flag_scheme with
  | .incremental =>
      Function.update store environment.dev_current.other { image with flags := image.flags + 1#8 }
  | .boolean =>
      let store := Function.update store environment.dev_current.other
        { image with flags := active_flag }
      -- NOR flash only clears bits
      let old := store environment.dev_current
      Function.update store environment.dev_current { old with flags := old.flags &&& obsolete_flag }

/-- `fw_env_close`: the checksum is updated, and the environment written back. -/
def fw_env_close (flag_scheme : FlagScheme) (environment : Environment size)
    (store : Store size) : Store size :=
  let image := environment.image
  flash_write flag_scheme
    { environment with image := { image with crc := dataCrc host true image.data } } store

/-- `fw_setenv`: the device that is written, and both devices afterwards. What it makes of
the variables is `data`. -/
def fw_setenv (flag_scheme : FlagScheme) (default_environment : List Byte)
    (data : Vector Byte size) (store : Store size) : Area × Store size :=
  let environment := fw_env_open host flag_scheme default_environment store
  let environment := { environment with image := { environment.image with data := data } }
  (environment.dev_current.other, fw_env_close host flag_scheme environment store)

end Host

end UBoot.Tools

/-!
## Setting a variable from the host

`fw_getenv`, `fw_env_write` and `fw_setenv` of `tools/env/fw_env.c`. They work on the
`data` of the environment that `fw_env_open` gives, which may be longer than
`ENV_SIZE`: the header of the host is the larger one when its `long` has 8 bytes.
Every access to `data` is checked as in the model of `cmd_nvedit.c`.
-/

namespace UBoot.Tools

open UBoot.Env

/-- What a build of the tools fixes. `ethaddrOnce` is `CONFIG_ETHADDR` in a build with
`CONFIG_OVERWRITE_ETHADDR_ONCE`. -/
structure Setup where
  host : Host
  default_environment : List Byte
  envOverwrite : Bool
  ethaddrOnce : Option (List Byte)

/-! ## The variables -/

/-- `for (nxt = env; *nxt; ++nxt)`: the index of the NUL, or nothing where a byte from
`ENV_SIZE` on is none. -/
def strendWithin (ENV_SIZE : Nat) (data : List Byte) : Nat → Nat → Checked (Option Nat)
  | 0, _ => .error .outOfBuffer
  | fuel + 1, nxt => do
      if (← load data nxt) = 0#8 then return some nxt
      if nxt ≥ ENV_SIZE then return none
      strendWithin ENV_SIZE data fuel (nxt + 1)

/-- What the loop over the strings of the environment comes to. -/
inductive Search
  | notTerminated
  | absent
  | found (old : Found)
  deriving DecidableEq

/-- The loop of `fw_getenv` and of `fw_env_write`, from the string at `env` on. -/
def searchFrom (ENV_SIZE : Nat) (data : List Byte) (name : CString) : Nat → Nat → Checked Search
  | 0, _ => .error .outOfBuffer
  | fuel + 1, env => do
      if (← load data env) = 0#8 then return .absent
      match ← strendWithin ENV_SIZE data (data.length + 1) env with
      | none => return .notTerminated
      | some nxt =>
          match ← envmatch data name.1 env with
          | some oldval => return .found ⟨env, nxt, oldval⟩
          | none => searchFrom ENV_SIZE data name fuel (nxt + 1)

/-- The whole loop. Every round moves on by a byte at least. -/
def search (ENV_SIZE : Nat) (data : List Byte) (name : CString) : Checked Search :=
  searchFrom ENV_SIZE data name (data.length + 1) 0

/-- `fw_getenv` on an open environment: the string it points to. -/
def getenvIn (ENV_SIZE : Nat) (data : List Byte) (name : CString) :
    Checked (Option (List Byte)) := do
  match ← search ENV_SIZE data name with
  | .found old => return some (← stringAt data old.oldval)
  | _ => return none

/-- `Ethernet Address and serial# can be set only once` -/
def setOnlyOnce (setup : Setup) (name oldval : List Byte) : Bool :=
  !setup.envOverwrite &&
    (name = ascii "serial#" ||
      (name = ascii "ethaddr" && setup.ethaddrOnce.all (oldval ≠ ·)))

/-- The two branches of the deletion, with `c` the byte behind the definition: the NUL
over its first byte, or the rest of the table moved down. -/
def dropDefinition (data : List Byte) (old : Found) (c : Byte) : Checked (List Byte × Nat) :=
  if c = 0#8 then do return (← Env.store data old.env 0#8, old.env)
  else Env.moveDown data.length data old.env (old.nxt + 1)

/-- `Delete any existing definition` -/
def deleteDefinition (data : List Byte) (old : Found) : Checked (List Byte) := do
  let c ← load data (old.nxt + 1)
  let (data, env) ← dropDefinition data old c
  Env.store data (env + 1) 0#8

/-- `name=value` and two NULs at `env`. -/
def putDefinition (data : List Byte) (env : Nat) (name value : List Byte) :
    Checked (List Byte) := do
  let data ← strcpy data env name
  let env := env + name.length
  let data ← Env.store data env equals
  let data ← strcpy data (env + 1) value
  Env.store data (env + 1 + value.length + 1) 0#8

/-- `Append new definition at the end` -/
def appendDefinition (ENV_SIZE : Nat) (data : List Byte) (name value : List Byte) :
    Checked (Int × List Byte) := do
  let env ← endOfVars data
  if ((name.length + 2 + (value.length + 1) : Nat) : Int) > (ENV_SIZE : Int) - env then
    return (-1, data)
  else return (0, ← putDefinition data env name value)

/-- `fw_env_write`, where a `value` that is `NULL` is the empty one. -/
def fw_env_write (setup : Setup) (ENV_SIZE : Nat) (data : List Byte) (name : CString)
    (value : List Byte) : Checked (Int × List Byte) := do
  match ← search ENV_SIZE data name with
  | .notTerminated => return (-1, data)
  | .absent =>
      if value = [] then return (0, data)
      else appendDefinition ENV_SIZE data name.1 value
  | .found old =>
      if setOnlyOnce setup name.1 (← stringAt data old.oldval) then return (-1, data)
      else
        let data ← deleteDefinition data old
        if value = [] then return (0, data)
        else appendDefinition ENV_SIZE data name.1 value

/-! ## The flash -/

variable {size : Nat}

/-- The environment in flash: one copy, or two with flags. -/
inductive Flash (size : Nat)
  | single (image : EnvImage size)
  | redundant (flag_scheme : FlagScheme) (store : Store size)

/-- `HaveRedundEnv` -/
def Flash.haveRedundEnv : Flash size → Bool
  | .single _ => false
  | .redundant _ _ => true

/-- `ENV_SIZE` -/
def Flash.ENV_SIZE (setup : Setup) (flash : Flash size) : Nat :=
  getenvsize setup.host (size + ENV_HEADER_SIZE flash.haveRedundEnv) flash.haveRedundEnv

/-- `environment.data` after `fw_env_open`. -/
def Flash.data (setup : Setup) : Flash size → Vector Byte size
  | .single image =>
      if dataCrc setup.host false image.data = image.crc then image.data
      else .ofFn fun i => setup.default_environment.getD i (image.data.get i)
  | .redundant flag_scheme store =>
      (fw_env_open setup.host flag_scheme setup.default_environment store).image.data

/-- What `fw_env_open` and `fw_env_close` make of the flash when `data` is written in
between. -/
def Flash.write (setup : Setup) (data : Vector Byte size) : Flash size → Flash size
  | .single _ => .single (toolImage setup.host false data)
  | .redundant flag_scheme store =>
      .redundant flag_scheme
        (fw_setenv setup.host flag_scheme setup.default_environment data store).2

/-- `fw_getenv` -/
def Flash.fw_getenv (setup : Setup) (flash : Flash size) (name : CString) :
    Checked (Option (List Byte)) :=
  getenvIn (flash.ENV_SIZE setup) (flash.data setup).toList name

/-- The bytes of the environment as a vector again. -/
def ofBytes (bytes : List Byte) : Vector Byte size :=
  .ofFn fun i => bytes.getD i 0

/-- `fw_setenv` for `argv[1], argv[2], …`: the return value and the flash. The result of
`fw_env_write` is not used. -/
def Flash.fw_setenv (setup : Setup) (flash : Flash size) :
    List CString → Checked (Int × Flash size)
  | [] => return (-1, flash)
  | name :: words => do
      let (_, data) ← fw_env_write setup (flash.ENV_SIZE setup) (flash.data setup).toList name
        (joinWords words)
      return (0, flash.write setup (ofBytes data))

end UBoot.Tools
