/-
# The sub-commands of bootm

`do_bootm_subcommand` and `bootm_start` of `common/cmd_bootm.c`, and
`find_cmd_tbl` of `common/command.c`. The state of the machine is the `state` word
of `images`: `bootm_start` clears it before it can fail and sets one bit on
success, and every other sub-command compares the word with its own bit as
integers, adds the bit, and then runs its action.

What the images hold, how the ramdisk and the device tree are moved and what the
function of the operating system does are answers of the environment. A session
is a sequence of sub-commands, and its history says which actions ran.
-/

import UBoot.Image.Multi
import UBoot.LibGeneric.Strtoul
import UBoot.Lib.Run

namespace UBoot.Bootm

open UBoot.Lib UBoot.Image

/-- The configuration of a board. -/
structure Config where
  ramdiskHigh : Bool
  ofLibfdt : Bool
  bootMapSize : Bool
  fit : Bool
  gzip : Bool
  bzip2 : Bool
  lzma : Bool
  lzo : Bool

/-- The entries of `cmd_bootm_sub`. -/
inductive SubCommand
  | start
  | loados
  | ramdisk
  | fdt
  | cmdline
  | bdt
  | prep
  | go
  deriving DecidableEq

namespace SubCommand

/-- `BOOTM_STATE_START` to `BOOTM_STATE_OS_GO`, the `cmd` field of the entry. -/
def state : SubCommand → Nat
  | .start => 0x01
  | .loados => 0x02
  | .ramdisk => 0x04
  | .fdt => 0x08
  | .cmdline => 0x10
  | .bdt => 0x20
  | .prep => 0x40
  | .go => 0x80

def name : SubCommand → List Byte
  | .start => ascii "start"
  | .loados => ascii "loados"
  | .ramdisk => ascii "ramdisk"
  | .fdt => ascii "fdt"
  | .cmdline => ascii "cmdline"
  | .bdt => ascii "bdt"
  | .prep => ascii "prep"
  | .go => ascii "go"

/-- The place in the order in which the usage text lists the sub-commands. -/
def place : SubCommand → Nat
  | .start => 0
  | .loados => 1
  | .ramdisk => 2
  | .fdt => 3
  | .cmdline => 4
  | .bdt => 5
  | .prep => 6
  | .go => 7

/-- A comparison of bits is a comparison of places. -/
theorem state_lt_state {c d : SubCommand} : c.state < d.state ↔ c.place < d.place := by
  cases c <;> cases d <;> decide

end SubCommand

/-- `cmd_bootm_sub` -/
def cmd_bootm_sub (cfg : Config) : List SubCommand :=
  let high : List SubCommand := if cfg.ramdiskHigh then [.ramdisk] else []
  let tree : List SubCommand := if cfg.ofLibfdt then [.fdt] else []
  .start :: .loados :: high ++ tree ++ [.cmdline, .bdt, .prep, .go]

section CommandTable

variable {α : Type} (name : α → List Byte)

/-- The loop of `find_cmd_tbl` over the names that start with `cmd`, which has no
dot any more; `temp` is the last one found and `n_found` counts them. -/
def findCommand (cmd : List Byte) : Option α → Nat → List α → Option α
  | temp, n_found, [] => if n_found = 1 then temp else none
  | temp, n_found, entry :: table =>
      if cmd <+: name entry then
        if cmd.length = (name entry).length then some entry
        else findCommand cmd (some entry) (n_found + 1) table
      else findCommand cmd temp n_found table

/-- `find_cmd_tbl`: a name in full, or the start of exactly one name. What follows
a dot is not compared. -/
def find_cmd_tbl (cmd : List Byte) (table : List α) : Option α :=
  findCommand name (cmd.takeWhile (· ≠ 0x2E#8)) none 0 table

end CommandTable

/-- `image_info_t` -/
structure ImageInfo where
  start : U32
  stop : U32
  image_start : U32
  image_len : U32
  load : U32
  comp : Byte
  type : Byte
  os : Byte
  deriving DecidableEq

/-- What the sub-commands use of `bootm_headers_t`. -/
structure Images where
  legacy_hdr_valid : Bool
  fit_uname_os : Bool
  os : ImageInfo
  ep : U32
  rd_start : U32
  rd_end : U32
  ft_addr : U32
  ft_len : U32
  initrd_start : U32
  initrd_end : U32
  verify : Bool
  state : Nat
  deriving DecidableEq

/-- `memset ((void *)&images, 0, sizeof (images))` -/
def Images.zero : Images where
  legacy_hdr_valid := false
  fit_uname_os := false
  os := ⟨0, 0, 0, 0, 0, 0, 0, 0⟩
  ep := 0
  rd_start := 0
  rd_end := 0
  ft_addr := 0
  ft_len := 0
  initrd_start := 0
  initrd_end := 0
  verify := false
  state := 0

/-- What `genimg_get_format` makes of the image `boot_get_kernel` returned, and what
the functions that read its parameters return. -/
inductive OsHeader
  | legacy (type comp os : Byte) (stop load : U32)
  | fit (type comp os : Option Byte) (stop : U32) (load : Option U32)
  | unknown

/-- What `bootm_start` finds, as long as it asks. -/
structure Found where
  verify : Bool
  os_hdr : U32
  image_start : U32
  image_len : U32
  legacy_hdr_valid : Bool
  fit_uname_os : Bool
  header : OsHeader
  legacy_ep : U32
  fit_ep : Option U32
  ramdisk : Option (U32 × U32)
  fdt : Option (U32 × U32)

/-- `IH_TYPE_KERNEL`, `IH_TYPE_MULTI` and `IH_OS_LINUX` -/
def IH_TYPE_KERNEL : Byte := 2
def IH_TYPE_MULTI : Byte := 4
def IH_OS_LINUX : Byte := 5

/-- `get image parameters`. The error is what `images` holds when `bootm_start`
returns 1. -/
def osParameters (cfg : Config) (header : OsHeader) (images : Images) : Except Images Images :=
  match header with
  | .legacy type comp os stop load =>
      .ok { images with os := { images.os with type, comp, os, stop, load } }
  | .fit type comp os stop load =>
      if cfg.fit then
        match type with
        | none => .error images
        | some type =>
            let images := { images with os := { images.os with type } }
            match comp with
            | none => .error images
            | some comp =>
                let images := { images with os := { images.os with comp } }
                match os with
                | none => .error images
                | some os =>
                    let images := { images with os := { images.os with os, stop } }
                    match load with
                    | none => .error images
                    | some load => .ok { images with os := { images.os with load } }
      else .error images
  | .unknown => .error images

/-- `find kernel entry point` -/
def entryPoint (cfg : Config) (found : Found) (images : Images) : Except Images Images :=
  if images.legacy_hdr_valid then .ok { images with ep := found.legacy_ep }
  else if cfg.fit && images.fit_uname_os then
    match found.fit_ep with
    | none => .error images
    | some ep => .ok { images with ep }
  else .error images

/-- `find ramdisk`, and the device tree -/
def ramdiskAndTree (cfg : Config) (found : Found) (images : Images) : Except Images Images :=
  if (images.os.type = IH_TYPE_KERNEL ∨ images.os.type = IH_TYPE_MULTI) ∧
      images.os.os = IH_OS_LINUX then
    match found.ramdisk with
    | none => .error images
    | some (rd_start, rd_end) =>
        let images := { images with rd_start, rd_end }
        if cfg.ofLibfdt then
          match found.fdt with
          | none => .error images
          | some (ft_addr, ft_len) => .ok { images with ft_addr, ft_len }
        else .ok images
  else .ok images

/-- `images` after the call of `boot_get_kernel`. -/
def Found.images (found : Found) : Images where
  legacy_hdr_valid := found.legacy_hdr_valid
  fit_uname_os := found.fit_uname_os
  os := ⟨0, 0, found.image_start, found.image_len, 0, 0, 0, 0⟩
  ep := 0
  rd_start := 0
  rd_end := 0
  ft_addr := 0
  ft_len := 0
  initrd_start := 0
  initrd_end := 0
  verify := found.verify
  state := 0

/-- `bootm_start` from the image parameters on. -/
def readImages (cfg : Config) (found : Found) (images : Images) : Except Images Images := do
  let images ← osParameters cfg found.header images
  let images ← entryPoint cfg found images
  ramdiskAndTree cfg found images

/-- `bootm_start`: what `images` holds afterwards, and the return value. -/
def bootm_start (cfg : Config) (found : Found) : Images × Int :=
  if found.image_len = 0 then (found.images, 1)
  else
    match readImages cfg found found.images with
    | .error images => (images, 1)
    | .ok images =>
        ({ images with
          os := { images.os with start := found.os_hdr }
          state := SubCommand.start.state }, 0)

/-- `BOOTM_ERR_RESET`, `BOOTM_ERR_OVERLAP` and `BOOTM_ERR_UNIMPLEMENTED` -/
def BOOTM_ERR_RESET : Int := -1
def BOOTM_ERR_OVERLAP : Int := -2
def BOOTM_ERR_UNIMPLEMENTED : Int := -3

/-- Whether the build has a decompressor for `IH_COMP_GZIP` to `IH_COMP_LZO`. -/
def Config.unpacks (cfg : Config) (comp : Byte) : Bool :=
  (comp = 1 ∧ cfg.gzip) ∨ (comp = 2 ∧ cfg.bzip2) ∨ (comp = 3 ∧ cfg.lzma) ∨
    (comp = 4 ∧ cfg.lzo)

/-- Where the loaded image ends, for an image that is not compressed (`IH_COMP_NONE`)
and for one that a decompressor made `unpacked` bytes of. -/
def loadEnd (cfg : Config) (unpacked : Option U32) (os : ImageInfo) : Except Int U32 :=
  if os.comp = 0 then .ok (os.load + os.image_len)
  else if cfg.unpacks os.comp then
    match unpacked with
    | some len => .ok (os.load + len)
    | none => .error BOOTM_ERR_RESET
  else .error BOOTM_ERR_UNIMPLEMENTED

/-- `bootm_load_os`: the return value. -/
def bootm_load_os (cfg : Config) (unpacked : Option U32) (os : ImageInfo) : Int :=
  match loadEnd cfg unpacked os with
  | .error ret => ret
  | .ok load_end =>
      if os.load < os.stop ∧ os.start < load_end ∧
          (os.load < os.image_start ∨ os.image_start + os.image_len < load_end) then
        BOOTM_ERR_OVERLAP
      else 0

/-- What the functions that a sub-command calls do. `boot_fn` is the function that
`boot_os[images.os.os]` points to; none of them writes the `state` word. -/
structure Answers where
  found : Found
  unpacked : Option U32
  boot_ramdisk_high : Except Int (U32 × U32)
  boot_relocate_fdt : Int × U32 × U32
  boot_fn : SubCommand → Images → Images × Int

/-- A call of the function of the operating system, which works on `images`. -/
def callOs (answers : Answers) (c : SubCommand) (images : Images) : Images × Int :=
  let r := answers.boot_fn c images
  ({ r.1 with state := images.state }, r.2)

/-- The `switch` of `do_bootm_subcommand`: `images`, the return value and whether
there is a case for the sub-command. -/
def action (cfg : Config) (answers : Answers) (images : Images) :
    SubCommand → Images × Int × Bool
  | .start => (images, 0, false)
  | .loados => (images, bootm_load_os cfg answers.unpacked images.os, true)
  | .ramdisk =>
      if cfg.ramdiskHigh then
        match answers.boot_ramdisk_high with
        | .error ret => (images, ret, true)
        | .ok (initrd_start, initrd_end) => ({ images with initrd_start, initrd_end }, 0, true)
      else (images, 0, false)
  | .fdt =>
      if cfg.ofLibfdt && cfg.bootMapSize then
        let (ret, ft_addr, ft_len) := answers.boot_relocate_fdt
        ({ images with ft_addr, ft_len }, ret, true)
      else (images, 0, false)
  | .cmdline =>
      let r := callOs answers .cmdline images
      (r.1, r.2, true)
  | .bdt =>
      let r := callOs answers .bdt images
      (r.1, r.2, true)
  | .prep =>
      let r := callOs answers .prep images
      (r.1, r.2, true)
  -- the return value of the function that starts the system is dropped
  | .go => ((callOs answers .go images).1, 0, true)

/-- What a sub-command came to. -/
inductive Entry
  | start (ret : Int)
  | ran (c : SubCommand) (ret : Int)
  | idle (c : SubCommand)
  | refused
  deriving DecidableEq

/-- `do_bootm_subcommand` for `argv[1]`: `images`, the return value, and what
happened. -/
def do_bootm_subcommand (cfg : Config) (answers : Answers) (argv1 : List Byte)
    (images : Images) : Images × Int × Entry :=
  match find_cmd_tbl SubCommand.name argv1 (cmd_bootm_sub cfg) with
  -- Unrecognized command
  | none => (images, 1, .refused)
  | some c =>
      if c.state = SubCommand.start.state then
        let r := bootm_start cfg answers.found
        (r.1, r.2, .start r.2)
      else if c.state ≤ images.state then (images, 1, .refused)
      else
        let r := action cfg answers { images with state := images.state ||| c.state } c
        (r.1, r.2.1, if r.2.2 then .ran c r.2.1 else .idle c)

end UBoot.Bootm
