/-
# JFFS2 file systems

`insert_node`, `jffs2_1pass_find_inode` and `jffs2_1pass_read_inode` of
`fs/jffs2/jffs2_1pass.c`, with `CONFIG_SYS_JFFS2_SORT_FRAGMENTS` for the fragments.
The scan of a partition inserts the nodes it finds into two lists, in the order in
which they are on flash, and everything after it walks these lists.

A list entry comes from `malloc` and `insert_node` sets its offset only: `datacrc` is
whatever was in memory there. Files have less than 2^32 bytes behind `dest`, and a
`long` holds every `u32`.
-/

import UBoot.Lib.Memory
import UBoot.Lib.Versions
import UBoot.LibGeneric.Crc32
import UBoot.LibGeneric.Strtoul

namespace UBoot.Jffs2

open UBoot.Lib

/-- `u32` -/
abbrev U32 := BitVec 32

/-! ## Lists of nodes -/

/-- `struct b_list`: its nodes, the last of which is `listTail`, and where `listLast` is
among them. -/
structure BList (α : Type) where
  nodes : List α
  listLast : Option Nat

/-- `memset(pL, 0, sizeof(*pL))` -/
def BList.empty (α : Type) : BList α := ⟨[], none⟩

section Insert

variable {α : Type} (listCompare : α → α → Bool)

/-- Where the search for the place of a new node starts: behind `listTail`, behind
`listLast`, or at the head. -/
def insertStart (list : BList α) (new : α) : Nat :=
  if list.nodes.getLast?.any (listCompare new) then list.nodes.length
  else
    match list.listLast with
    | some prev => if (list.nodes[prev]?).any (listCompare new) then prev + 1 else 0
    | none => 0

/-- The place where the search ends: the first node from `start` on that the new node does
not belong behind. -/
def insertPlace (nodes : List α) (new : α) (start : Nat) : Nat :=
  start + ((nodes.drop start).takeWhile (listCompare new)).length

/-- `insert_node` with `CONFIG_SYS_JFFS2_SORT_FRAGMENTS`. -/
def insert_node (list : BList α) (new : α) : BList α :=
  let place := insertPlace listCompare list.nodes new (insertStart listCompare list new)
  if place < list.nodes.length then
    ⟨list.nodes.take place ++ new :: list.nodes.drop place,
      if place = 0 then none else some (place - 1)⟩
  else { list with nodes := list.nodes ++ [new] }

/-- `insert_node` without it. -/
def append_node (list : BList α) (new : α) : BList α :=
  { list with nodes := list.nodes ++ [new] }

end Insert

/-- `compare_inodes` for one version after the other. -/
def compareVersions {α : Type} (version : α → U32) (new old : α) : Bool :=
  version old < version new

/-! ## Directory entries -/

/-- What is used of `struct jffs2_raw_dirent`; `name` has `nsize` bytes. -/
structure RawDirent where
  pino : U32
  version : U32
  ino : U32
  name : List Byte
  deriving DecidableEq

/-- `nsize` -/
def RawDirent.nsize (d : RawDirent) : Nat := d.name.length

/-- `compare_dirents`. The names are not in the copies that it makes of the two headers:
`strncmp` compares whatever is behind these. The 0 it stores into `jOld->ino` goes to
a copy, too. -/
def compare_dirents (strncmp : RawDirent → RawDirent → Int) (jNew jOld : RawDirent) : Bool :=
  if jNew.pino ≠ jOld.pino then jOld.pino < jNew.pino
  else if jNew.nsize ≠ jOld.nsize then jOld.nsize < jNew.nsize
  else
    let cmp := strncmp jNew jOld
    if cmp ≠ 0 then 0 < cmp else jOld.version < jNew.version

/-- A build, with what is behind the copies of `compare_dirents` in it, and its
decompressors: what they store of `dsize` bytes for the `csize` bytes of `src`. -/
structure Config where
  sortFragments : Bool
  strncmp : RawDirent → RawDirent → Int
  lzo : Bool
  rtime_decompress : (src : List Byte) → (csize dsize : U32) → List Byte
  dynrubin_decompress : (src : List Byte) → (csize dsize : U32) → List Byte
  zlib_decompress : (src : List Byte) → (csize dsize : U32) → List Byte
  lzo_decompress : (src : List Byte) → (csize dsize : U32) → List Byte

/-- The list of directory entries after the scan. -/
def dirList (cfg : Config) (found : List RawDirent) : List RawDirent :=
  let insert :=
    if cfg.sortFragments then insert_node (compare_dirents cfg.strncmp) else append_node
  (found.foldl insert (.empty _)).nodes

/-- An entry for `name` in the directory `pino`. -/
def RawDirent.Names (name : CString) (pino : U32) (d : RawDirent) : Prop :=
  pino = d.pino ∧ name.1.length = d.nsize ∧ d.name = name.1

instance (name : CString) (pino : U32) (d : RawDirent) : Decidable (d.Names name pino) :=
  inferInstanceAs (Decidable (_ ∧ _))

/-- `jffs2_1pass_find_inode`: an entry with `ino` 0 is passed over, whatever its version
is. -/
def jffs2_1pass_find_inode (dir : List RawDirent) (name : CString) (pino : U32) : U32 :=
  keepLatest (fun d : RawDirent => d.version.toNat) (fun d => d.Names name pino ∧ d.ino ≠ 0)
    RawDirent.ino 0 0 dir

/-! ## Fragments -/

/-- What is used of `struct jffs2_raw_inode`, and the bytes behind it. -/
structure RawInode where
  ino : U32
  version : U32
  isize : U32
  offset : U32
  csize : U32
  dsize : U32
  compr : Byte
  data_crc : U32
  src : List Byte

/-- `CRC_UNKNOWN`, `CRC_OK` and `CRC_BAD` -/
def CRC_UNKNOWN : U32 := 0
def CRC_OK : U32 := 1
def CRC_BAD : U32 := 2

/-- `struct b_node` of a fragment. -/
structure Fragment where
  node : RawInode
  datacrc : U32

/-- `data_crc` -/
def data_crc (n : RawInode) : Prop :=
  n.data_crc = Crc32.crc32NoComp 0 0 (n.src.take n.csize.toNat)

instance (n : RawInode) : Decidable (data_crc n) := inferInstanceAs (Decidable (_ = _))

/-- The list of fragments after the scan. -/
def fragList (found : List Fragment) : List Fragment :=
  (found.foldl (insert_node (compareVersions fun b => b.node.version)) (.empty _)).nodes

/-- What the `switch` over `compr` stores from `offset` on, or nothing for an
`UNKOWN COMPRESSION METHOD`. -/
def contents (cfg : Config) (n : RawInode) : Option (List Byte) :=
  match n.compr.toNat with
  | 0 => some (n.src.take n.dsize.toNat)
  | 1 => some (List.replicate n.dsize.toNat 0)
  | 2 => some (cfg.rtime_decompress n.src n.csize n.dsize)
  | 5 => some (cfg.dynrubin_decompress n.src n.csize n.dsize)
  | 6 => some (cfg.zlib_decompress n.src n.csize n.dsize)
  | 7 => if cfg.lzo then some (cfg.lzo_decompress n.src n.csize n.dsize) else none
  | _ => none

/-- `find file size before loading any data` -/
def fileSize (frag : List Fragment) (inode : U32) : U32 :=
  keepLatest (fun b : Fragment => b.node.version.toNat) (fun b => inode = b.node.ino)
    (fun b => b.node.isize) 0 0 frag

/-- `datacrc` once it is known. -/
def Fragment.checked (b : Fragment) : Fragment :=
  if b.datacrc = CRC_UNKNOWN then
    { b with datacrc := if data_crc b.node then CRC_OK else CRC_BAD }
  else b

/-- The second loop of `jffs2_1pass_read_inode`: whether it gets to the end, the memory
from `dest` on, and the list. -/
def loadFragments (cfg : Config) (inode totalSize : U32) :
    (Nat → Byte) → List Fragment → Bool × (Nat → Byte) × List Fragment
  | dest, [] => (true, dest, [])
  | dest, b :: frag =>
      if inode = b.node.ino then
        -- ignore data behind latest known EOF
        if b.node.offset > totalSize then
          let r := loadFragments cfg inode totalSize dest frag
          (r.1, r.2.1, b :: r.2.2)
        else
          let b := b.checked
          if b.datacrc = CRC_BAD then
            let r := loadFragments cfg inode totalSize dest frag
            (r.1, r.2.1, b :: r.2.2)
          else
            match contents cfg b.node with
            | some bytes =>
                let r := loadFragments cfg inode totalSize
                  (store dest b.node.offset.toNat bytes) frag
                (r.1, r.2.1, b :: r.2.2)
            | none => (false, dest, b :: frag)
      else
        let r := loadFragments cfg inode totalSize dest frag
        (r.1, r.2.1, b :: r.2.2)

/-- `jffs2_1pass_read_inode`: the return value, the memory from `dest` on, and the list. -/
def jffs2_1pass_read_inode (cfg : Config) (frag : List Fragment) (inode : U32)
    (dest : Option (Nat → Byte)) : Int × Option (Nat → Byte) × List Fragment :=
  let totalSize := fileSize frag inode
  match dest with
  | none => (totalSize.toNat, none, frag)
  | some dest =>
      let r := loadFragments cfg inode totalSize dest frag
      (if r.1 then totalSize.toNat else -1, some r.2.1, r.2.2)

end UBoot.Jffs2
