/-
# Multi-file images

What `tools/mkimage.c` writes for the types multi and script, with the header of
`tools/default_image.c`, and what `common/image.c` reads of it. The host has files, the target
has memory: addresses are numbers, and numbers in an image are big-endian.
-/

import UBoot.LibGeneric.Crc32
import UBoot.Lib.Memory

namespace UBoot.Image

open UBoot.Lib

/-- `uint32_t` -/
abbrev U32 := BitVec 32

/-- `IH_MAGIC` and `IH_NMLEN` -/
def IH_MAGIC : U32 := 0x27051956#32
def IH_NMLEN : Nat := 32

/-- `CHUNKSZ_CRC32` -/
def CHUNKSZ_CRC32 : Nat := 64 * 1024

/-- `IH_TYPE_MULTI` and `IH_TYPE_SCRIPT` -/
inductive ImageType
  | IH_TYPE_MULTI
  | IH_TYPE_SCRIPT
  deriving DecidableEq

def ImageType.code : ImageType → Byte
  | .IH_TYPE_MULTI => 4
  | .IH_TYPE_SCRIPT => 6

/-- The options of `mkimage` that an image is made from. -/
structure Params where
  os : Byte
  arch : Byte
  type : ImageType
  comp : Byte
  addr : U32
  ep : U32
  eflag : Bool
  xflag : Bool
  imagename : List Byte

/-- `image_header_t` -/
structure Header where
  ih_magic : U32
  ih_hcrc : U32
  ih_time : U32
  ih_size : U32
  ih_load : U32
  ih_ep : U32
  ih_dcrc : U32
  ih_os : Byte
  ih_arch : Byte
  ih_type : Byte
  ih_comp : Byte
  ih_name : { name : List Byte // name.length = IH_NMLEN }

/-- `image_get_header_size` -/
def image_get_header_size : Nat := 64

/-- `cpu_to_uimage`, as bytes. -/
def cpu_to_uimage (x : U32) : List Byte :=
  [x.extractLsb' 24 8, x.extractLsb' 16 8, x.extractLsb' 8 8, x.extractLsb' 0 8]

/-- A header as bytes. -/
def Header.bytes (hdr : Header) : List Byte :=
  cpu_to_uimage hdr.ih_magic ++ cpu_to_uimage hdr.ih_hcrc ++ cpu_to_uimage hdr.ih_time ++
    cpu_to_uimage hdr.ih_size ++ cpu_to_uimage hdr.ih_load ++ cpu_to_uimage hdr.ih_ep ++
    cpu_to_uimage hdr.ih_dcrc ++ [hdr.ih_os, hdr.ih_arch, hdr.ih_type, hdr.ih_comp] ++ hdr.ih_name.1

/-! ## The host -/

/-- `strncpy` into the name of an image. -/
def image_set_name (name : List Byte) : { name : List Byte // name.length = IH_NMLEN } :=
  ⟨(name.takeWhile (· ≠ 0#8) ++ List.replicate IH_NMLEN 0#8).take IH_NMLEN, by
    rw [List.length_take, List.length_append, List.length_replicate]
    omega⟩

/-- `image_set_header`: the checksum of the data has a 32 bit length. -/
def image_set_header (params : Params) (mtime : U32) (data : List Byte) : Header :=
  let hdr : Header :=
    { ih_magic := IH_MAGIC
      ih_hcrc := 0#32
      ih_time := mtime
      ih_size := BitVec.ofNat 32 data.length
      ih_load := params.addr
      ih_ep := params.ep
      ih_dcrc := crc32 0 (data.take (data.length % 2 ^ 32))
      ih_os := params.os
      ih_arch := params.arch
      ih_type := params.type.code
      ih_comp := params.comp
      ih_name := image_set_name params.imagename }
  { hdr with ih_hcrc := crc32 0 hdr.bytes }

/-- The sizes of the files, and a zero behind them. -/
def sizeTable : List (List Byte) → List Byte
  | [] => cpu_to_uimage 0#32
  | file :: files => cpu_to_uimage (BitVec.ofNat 32 file.length) ++ sizeTable files

/-- What is left out at the beginning of a file. -/
def offset (xflag : Bool) : Nat := if xflag then image_get_header_size else 0

/-- `copy_file` -/
def copy_file (xflag : Bool) (file : List Byte) (pad : Bool) : List Byte :=
  let size := file.length - offset xflag
  file.drop (offset xflag) ++
    if pad ∧ size % 4 ≠ 0 then List.replicate (4 - size % 4) 0#8 else []

/-- The loop that copies the files: all but the last are padded. -/
def copyFiles (xflag : Bool) : List (List Byte) → List Byte
  | [] => []
  | [file] => copy_file xflag file false
  | file :: files => copy_file xflag file true ++ copyFiles xflag files

/-- A file that can be executed in place begins with as many bytes as the header has. -/
def forXip (file : List Byte) : Bool :=
  image_get_header_size ≤ file.length ∧ (file.take image_get_header_size).all (· = 0xff#8)

/-- The entry point that `main` puts into the parameters. -/
def entryPoint (params : Params) : Params :=
  if params.eflag then params
  else { params with
    ep := params.addr + if params.xflag then BitVec.ofNat 32 image_get_header_size else 0#32 }

/-- What `main` writes: nothing if `copy_file` gives up. -/
def mkimage (params : Params) (mtime : U32) (files : List (List Byte)) : Option (List Byte) :=
  if params.xflag ∧ ¬ files.all forXip then none
  else
    let data := sizeTable files ++ copyFiles params.xflag files
    some ((image_set_header (entryPoint params) mtime data).bytes ++ data)

/-! ## The target -/

variable (mem : Nat → Byte)

/-- `uimage_to_cpu` of what is at an address. -/
def uimage_to_cpu (addr : Nat) : U32 :=
  mem addr ++ mem (addr + 1) ++ mem (addr + 2) ++ mem (addr + 3)

/-- `image_get_hcrc`, `image_get_size` and `image_get_dcrc` -/
def image_get_hcrc (hdr : Nat) : U32 := uimage_to_cpu mem (hdr + 4)
def image_get_size (hdr : Nat) : U32 := uimage_to_cpu mem (hdr + 12)
def image_get_dcrc (hdr : Nat) : U32 := uimage_to_cpu mem (hdr + 24)

/-- `image_get_data` -/
def image_get_data (hdr : Nat) : Nat := hdr + image_get_header_size

/-- `image_check_hcrc`: the header is copied, and its checksum set to zero. -/
def image_check_hcrc (hdr : Nat) : Bool :=
  crc32 0 (slice mem hdr 4 ++ cpu_to_uimage 0#32 ++ slice mem (hdr + 8) (image_get_header_size - 8)) =
    image_get_hcrc mem hdr

/-- The loop of `crc32_wd`, for at most so many chunks. -/
def crc32Chunks (chunk_sz : Nat) : Nat → U32 → List Byte → U32
  | 0, crc, _ => crc
  | fuel + 1, crc, buf =>
      if buf = [] then crc
      else crc32Chunks chunk_sz fuel (crc32 crc (buf.take chunk_sz)) (buf.drop chunk_sz)

/-- `crc32_wd`, with a watchdog or without. -/
def crc32_wd (watchdog : Bool) (crc : U32) (buf : List Byte) (chunk_sz : Nat) : U32 :=
  if watchdog then crc32Chunks chunk_sz buf.length crc buf else crc32 crc buf

/-- `image_check_dcrc` -/
def image_check_dcrc (watchdog : Bool) (hdr : Nat) : Bool :=
  crc32_wd watchdog 0 (slice mem (image_get_data hdr) (image_get_size mem hdr).toNat) CHUNKSZ_CRC32 =
    image_get_dcrc mem hdr

/-- An entry of the table of sizes. -/
def sizeAt (hdr i : Nat) : U32 := uimage_to_cpu mem (image_get_data hdr + 4 * i)

/-- The loop of `image_multi_count`, for at most so many turns: nothing if it goes on. -/
def countSizes (hdr : Nat) : Nat → Nat → Option Nat
  | 0, _ => none
  | fuel + 1, i => if sizeAt mem hdr i = 0#32 then some i else countSizes hdr fuel (i + 1)

/-- `image_multi_count` -/
def image_multi_count (fuel hdr : Nat) : Option Nat := countSizes mem hdr fuel 0

/-- A size rounded up to 4 bytes. -/
def round4 (n : Nat) : Nat := (n + 3) / 4 * 4

/-- `image_multi_getimg`: the address of a component and its length. -/
def image_multi_getimg (fuel hdr idx : Nat) : Option (Nat × Nat) :=
  (image_multi_count mem fuel hdr).map fun count =>
    let img_data := image_get_data hdr + (count + 1) * 4
    if idx < count then
      (img_data + ((List.range idx).map fun i => round4 (sizeAt mem hdr i).toNat).sum,
        (sizeAt mem hdr idx).toNat)
    else (0, 0)

end UBoot.Image
