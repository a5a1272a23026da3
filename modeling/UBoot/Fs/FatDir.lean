/-
# Directories of a FAT volume

The two searches of `fs/fat/fat.c`: `do_fat_read` looks for a name in the root directory, sector by
sector, and `get_dentfromdir` in another directory, cluster by cluster. A long name is in slots in
front of its entry, and `get_vfatname` takes it from them and puts the entry into the first.
-/

import UBoot.Fs.FatTable

namespace UBoot.Fat

open UBoot.Lib

/-- The bytes of a `dir_entry` or a `dir_slot`. -/
abbrev Raw := Fin 32 → Byte

scoped instance neZeroRaw : NeZero 32 := ⟨by decide⟩

def ATTR_VOLUME : Byte := 8
def ATTR_VFAT : Byte := 15
def DELETED_FLAG : Byte := 0xe5
def aRING : Byte := 0x05
def LAST_LONG_ENTRY_MASK : Byte := 0x40
def DIRENTSPERBLOCK : Nat := 16
def MAX_CLUSTSIZE : Nat := 65536

/-- `name`, `ext` and `attr` -/
def Raw.name (r : Raw) : List Byte := [r 0, r 1, r 2, r 3, r 4, r 5, r 6, r 7]
def Raw.ext (r : Raw) : List Byte := [r 8, r 9, r 10]
def Raw.attr (r : Raw) : Byte := r 11

/-- `starthi`, `start` and `size` -/
def Raw.entry (r : Raw) : DirEntry where
  starthi := r 21 ++ r 20
  start := r 27 ++ r 26
  size := r 31 ++ r 30 ++ r 29 ++ r 28

/-- `id` of a slot, without the mark of the last one. -/
def Raw.number (r : Raw) : Byte := r 0 &&& ~~~LAST_LONG_ENTRY_MASK
def Raw.IsLast (r : Raw) : Prop := r 0 &&& LAST_LONG_ENTRY_MASK ≠ 0#8
def Raw.IsVolume (r : Raw) : Prop := r.attr &&& ATTR_VOLUME ≠ 0#8
def Raw.IsVfat (r : Raw) : Prop := r.attr &&& ATTR_VFAT ≠ 0#8

instance (r : Raw) : Decidable r.IsLast := inferInstanceAs (Decidable (_ ≠ _))
instance (r : Raw) : Decidable r.IsVolume := inferInstanceAs (Decidable (_ ≠ _))
instance (r : Raw) : Decidable r.IsVfat := inferInstanceAs (Decidable (_ ≠ _))

/-- The characters of a slot: `name0_4`, `name5_10` and `name11_12`, without their high bytes. -/
def Raw.chars (r : Raw) : List Byte :=
  [r 1, r 3, r 5, r 7, r 9, r 14, r 16, r 18, r 20, r 22, r 24, r 28, r 30]

/-! ## Names -/

/-- `downcase` -/
def downcase (s : List Byte) : List Byte :=
  s.map fun c => if 0x41#8 ≤ c ∧ c ≤ 0x5a#8 then c + 0x20#8 else c

/-- What becomes of the first character. -/
def unmark (s : List Byte) : List Byte :=
  match s with
  | [] => []
  | c :: rest => if c = DELETED_FLAG then [] else if c = aRING then DELETED_FLAG :: rest else s

/-- The characters in front of a blank or the end of a string. -/
def word (s : List Byte) : List Byte := s.takeWhile fun c => c ≠ 0#8 ∧ c ≠ 0x20#8

/-- `get_name` -/
def get_name (r : Raw) : List Byte :=
  let base := word r.name
  downcase (unmark (if r 8 ≠ 0#8 ∧ r 8 ≠ 0x20#8 then base ++ 0x2e#8 :: word r.ext else base))

/-- `slot2str`: whether the end of the name is in the slot, and the name. -/
def slot2str (r : Raw) (l_name : List Byte) : Bool × List Byte :=
  (0#8 ∈ r.chars, l_name ++ r.chars.takeWhile (· ≠ 0#8))

/-- `mkcksum`: the `alias_checksum` of the slots in front of an entry. -/
def mkcksum (r : Raw) : Byte :=
  (r.name ++ r.ext).foldl (fun ret c => ((ret &&& 1#8) <<< 7 ||| (ret &&& 0xfe#8) >>> 1) + c) 0#8

def Raw.alias_checksum (r : Raw) : Byte := r 13

/-! ## Long names -/

/-- A block of entries. -/
abbrev Block := Nat → Raw

/-- `fsdata`, the block that is searched, and `get_vfatname_block`. -/
structure DirState where
  mydata : Fsdata
  block : Block
  get_vfatname_block : Block

variable (disk : Disk)

/-- The entries from the beginning of a sector on. -/
def entriesAt (sector : U32) : Block := fun i k => diskByte disk sector (32 * i + k)

/-- The entries of a cluster, and `DIRENTSPERCLUST`. -/
def DIRENTSPERCLUST (mydata : Fsdata) : Nat := mydata.clust_size.toNat * 16

/-- A buffer after some entries from a sector on have been read into it. -/
def readEntries (sector : U32) (n : Nat) (old : Block) : Block :=
  fun i => if i < n then entriesAt disk sector i else old i

/-- The loop over the slots of one name, up to the end of the block: where it ends, unless the
numbers are not in order. -/
def checkSlots (block : Block) (n : Nat) : Nat → Nat → Option Nat
  | 0, i => some i
  | counter + 1, i =>
      if i < n then
        if (block i).number.toNat = counter + 1 then checkSlots block n counter (i + 1) else none
      else some i

/-- The characters of the slots in front of an entry, up to the end of the name or to the slot with
the mark; nothing, when there is no slot left in the block. -/
def collectSlots (block : Block) : Nat → List Byte → Option (List Byte)
  | 0, _ => none
  | i + 1, l_name =>
      let (fin, l_name) := slot2str (block i) l_name
      if fin ∨ (block i).IsLast then some l_name else collectSlots block i l_name

/-- The first slot of a block that is not followed by another one; nothing, when there is none in
the buffer. -/
def firstSlot (block : Block) : Nat → Nat → Option Nat
  | 0, _ => none
  | fuel + 1, i => if 1 < (block i 0).toNat then firstSlot block fuel (i + 1) else some i

/-- The characters of a slot and of those in front of it in a buffer. -/
def allSlots (block : Block) : Nat → List Byte → List Byte
  | 0, l_name => (slot2str (block 0) l_name).2
  | i + 1, l_name => allSlots block i (slot2str (block (i + 1)) l_name).2

/-- `get_vfatname` for the slot `i` of a block of `n` entries in the cluster `curclust`: the entry
and its long name, or neither (-1). Nothing at all is returned when it runs out of its buffers. -/
def get_vfatname (curclust : U32) (n i : Nat) (s : DirState) :
    Option (Option (Raw × List Byte) × DirState) :=
  match checkSlots s.block n (s.block i).number.toNat i with
  | none => some (none, s)
  | some slotptr =>
      if n ≤ slotptr then
        let (next, mydata) := get_fatent disk s.mydata curclust
        let s := { s with mydata := mydata }
        if CHECK_CLUST next mydata.fatsize then some (none, s)
        else
          let block :=
            readEntries disk (startsect mydata next) (DIRENTSPERCLUST mydata) s.get_vfatname_block
          let s := { s with get_vfatname_block := block }
          match firstSlot s.get_vfatname_block (MAX_CLUSTSIZE / 32) 0 with
          | none => none
          | some slotptr2 =>
              let l_name := allSlots s.get_vfatname_block slotptr2 []
              -- the last slot of the first block is passed over
              match collectSlots s.block (slotptr - 1) l_name with
              | none => none
              | some l_name =>
                  some (some (s.get_vfatname_block (slotptr2 + 1), downcase (unmark l_name)), s)
      else
        match collectSlots s.block slotptr [] with
        | none => none
        | some l_name => some (some (s.block slotptr, downcase (unmark l_name)), s)

/-! ## The searches -/

/-- What a search does with an entry: it passes over it, stops at it, compares its names, or has
left its buffers. -/
inductive Look
  | skip
  | stop
  | compare (r : Raw) (l_name : List Byte)
  | wild

/-- One turn of the loop over the entries of a block. The root directory is searched without a look
at the mark of a deleted entry, and without one at the end of the directory behind a long name. -/
def look (root : Bool) (curclust : U32) (n i : Nat) (s : DirState) : Look × DirState :=
  let judge (r : Raw) (l_name : List Byte) : Look :=
    if r 0 = 0#8 then .stop else .compare r l_name
  let r := s.block i
  if root = false ∧ r 0 = DELETED_FLAG then (.skip, s)
  else if r.IsVolume then
    if r.IsVfat ∧ r.IsLast then
      match get_vfatname disk curclust n i s with
      | none => (.wild, s)
      | some (none, s) => (if root then .compare r [] else judge r [], s)
      | some (some (real, l_name), s) =>
          (if root then .compare real l_name else judge real l_name,
            { s with block := fun k => if k = i then real else s.block k })
    else (.skip, s)
  else (judge r [], s)

/-- Where the search of a block ends. -/
inductive Search
  | found (r : Raw)
  | ended
  | wild
  | next (s : DirState)

/-- The loop over some entries of a block. -/
def search (root : Bool) (filename : List Byte) (curclust : U32) (n : Nat) :
    Nat → Nat → DirState → Search
  | 0, _, s => .next s
  | count + 1, i, s =>
      match look disk root curclust n i s with
      | (.skip, s) => search root filename curclust n count (i + 1) s
      | (.stop, _) => .ended
      | (.wild, _) => .wild
      | (.compare r l_name, s) =>
          if filename ≠ get_name r ∧ filename ≠ l_name then
            search root filename curclust n count (i + 1) s
          else .found r

/-- `get_dentfromdir` from a cluster on, for so many clusters at most: the entry, and the clusters
that have been searched. -/
def get_dentfromdir (filename : List Byte) :
    Nat → U32 → DirState → Option (Option Raw × List U32)
  | 0, _, _ => none
  | fuel + 1, curclust, s =>
      let n := DIRENTSPERCLUST s.mydata
      let s := { s with block := readEntries disk (startsect s.mydata curclust) n s.block }
      match search disk false filename curclust n n 0 s with
      | .found r => some (some r, [curclust])
      | .ended => some (none, [curclust])
      | .wild => none
      | .next s =>
          let (next, mydata) := get_fatent disk s.mydata curclust
          if CHECK_CLUST next mydata.fatsize then some (none, [curclust])
          else
            (get_dentfromdir filename fuel next { s with mydata := mydata }).map
              fun (r, visited) => (r, curclust :: visited)

/-- The search of `do_fat_read` in the root directory from a sector on, for so many sectors at most:
the entry, and how many sectors have been searched. -/
def do_fat_read_root (filename : List Byte) :
    Nat → U32 → DirState → Option (Option Raw × Nat)
  | 0, _, _ => none
  | fuel + 1, cursect, s =>
      let n := DIRENTSPERCLUST s.mydata
      let s := { s with block := readEntries disk cursect n s.block }
      match search disk true filename 0#32 n DIRENTSPERBLOCK 0 s with
      | .found r => some (some r, 1)
      | .ended => some (none, 1)
      | .wild => none
      | .next s =>
          (do_fat_read_root filename fuel (cursect + 1#32) s).map
            fun (r, sectors) => (r, sectors + 1)

end UBoot.Fat
