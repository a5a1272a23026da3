/-
# Files of a FAT volume

`get_fatent`, `get_cluster` and `get_contents` of `fs/fat/fat.c`. Sectors are counted from the
beginning of the partition, and can be read. `unsigned long` has 32 bits.
-/

import UBoot.LibGeneric.Crc32
import UBoot.Lib.Memory

namespace UBoot.Fat

open UBoot.Lib

/-- `__u32` -/
abbrev U32 := BitVec 32

def FS_BLOCK_SIZE : Nat := 512
def FATBUFBLOCKS : Nat := 6
def FATBUFSIZE : Nat := FS_BLOCK_SIZE * FATBUFBLOCKS
def FAT12BUFSIZE : Nat := FATBUFSIZE * 2 / 3
def FAT16BUFSIZE : Nat := FATBUFSIZE / 2
def FAT32BUFSIZE : Nat := FATBUFSIZE / 4

/-- `fatsize`: 12, 16 or 32. -/
inductive FatSize
  | fat12
  | fat16
  | fat32
  deriving DecidableEq

/-- `fsdata` -/
structure Fsdata where
  fatbuf : Nat → Byte
  fatsize : FatSize
  fatlength : BitVec 16
  fat_sect : BitVec 16
  rootdir_sect : BitVec 16
  clust_size : BitVec 16
  data_begin : BitVec 16
  fatbufnum : Int

/-- `dir_entry`, as far as the contents of a file go. -/
structure DirEntry where
  starthi : BitVec 16
  start : BitVec 16
  size : U32

/-- The sectors of a partition. -/
abbrev Disk := U32 → Nat → Byte

variable (disk : Disk)

/-- The bytes from the beginning of a sector on. -/
def diskByte (sector : U32) (j : Nat) : Byte :=
  disk (sector + BitVec.ofNat 32 (j / FS_BLOCK_SIZE)) (j % FS_BLOCK_SIZE)

/-- So many bytes from the beginning of a sector on. -/
def diskBytes (sector : U32) (n : Nat) : List Byte := slice (diskByte disk sector) 0 n

/-- `disk_read` -/
def disk_read (startblock : U32) (getsize : Nat) (bufptr : Nat) (mem : Nat → Byte) : Nat → Byte :=
  store mem bufptr (diskBytes disk startblock (getsize * FS_BLOCK_SIZE))

/-- `START` -/
def START (mydata : Fsdata) (dentptr : DirEntry) : U32 :=
  dentptr.start.setWidth 32 +
    if mydata.fatsize = .fat32 then dentptr.starthi.setWidth 32 <<< 16 else 0#32

/-- `CHECK_CLUST` -/
def CHECK_CLUST (x : U32) (fatsize : FatSize) : Bool :=
  x.toNat ≤ 1 ∨ (if fatsize = .fat32 then 0xffffff0 else 0xfff0) ≤ x.toNat

/-! ## The table -/

/-- How many entries the buffer holds. -/
def entriesPerBuf : FatSize → Nat
  | .fat32 => FAT32BUFSIZE
  | .fat16 => FAT16BUFSIZE
  | .fat12 => FAT12BUFSIZE

/-- A word of the buffer, of 16 bits and of 32. -/
def word16 (buf : Nat → Byte) (i : Nat) : BitVec 16 := buf (2 * i + 1) ++ buf (2 * i)
def word32 (buf : Nat → Byte) (i : Nat) : U32 :=
  buf (4 * i + 3) ++ buf (4 * i + 2) ++ buf (4 * i + 1) ++ buf (4 * i)

/-- The entry with 12 bits at an offset of the buffer. -/
def entry12 (buf : Nat → Byte) (offset : Nat) : U32 :=
  let off16 := offset * 3 / 4
  match offset % 4 with
  | 0 => (word16 buf off16).setWidth 32 &&& 0xfff#32
  | 1 =>
      let val1 := word16 buf off16 &&& 0xf000#16
      let val2 := word16 buf (off16 + 1) &&& 0x00ff#16
      val2.setWidth 32 <<< 4 ||| val1.setWidth 32 >>> 12
  | 2 =>
      let val1 := word16 buf off16 &&& 0xff00#16
      let val2 := word16 buf (off16 + 1) &&& 0x000f#16
      val2.setWidth 32 <<< 8 ||| val1.setWidth 32 >>> 8
  | _ => ((word16 buf off16).setWidth 32 &&& 0xfff0#32) >>> 4

/-- The buffer with the entries around one. -/
def fillFatbuf (mydata : Fsdata) (bufnum : Nat) : Fsdata :=
  -- the number of the buffer is an `int`, and compared without its sign
  if BitVec.ofNat 32 bufnum ≠ BitVec.ofInt 32 mydata.fatbufnum then
    let fatlength := mydata.fatlength.toNat * FS_BLOCK_SIZE
    let getsize := if fatlength < FATBUFSIZE / FS_BLOCK_SIZE then fatlength
      else FATBUFSIZE / FS_BLOCK_SIZE
    let startblock := BitVec.ofNat 32 (bufnum * FATBUFBLOCKS) + mydata.fat_sect.setWidth 32
    { mydata with
      fatbuf := disk_read disk startblock getsize 0 mydata.fatbuf
      fatbufnum := bufnum }
  else mydata

/-- `get_fatent` -/
def get_fatent (mydata : Fsdata) (entry : U32) : U32 × Fsdata :=
  let bufnum := entry.toNat / entriesPerBuf mydata.fatsize
  let offset := entry.toNat - bufnum * entriesPerBuf mydata.fatsize
  let mydata := fillFatbuf disk mydata bufnum
  let ret := match mydata.fatsize with
    | .fat32 => word32 mydata.fatbuf offset
    | .fat16 => (word16 mydata.fatbuf offset).setWidth 32
    | .fat12 => entry12 mydata.fatbuf offset
  (ret, mydata)

/-! ## Contents -/

/-- The sector in which `get_cluster` begins. -/
def startsect (mydata : Fsdata) (clustnum : U32) : U32 :=
  if 0#32 < clustnum then
    mydata.data_begin.signExtend 32 + clustnum * mydata.clust_size.setWidth 32
  else mydata.rootdir_sect.setWidth 32

/-- `get_cluster`: whole sectors, and the beginning of another. -/
def get_cluster (mydata : Fsdata) (clustnum : U32) (buffer size : Nat) (mem : Nat → Byte) :
    Nat → Byte :=
  let sector := startsect mydata clustnum
  let mem := disk_read disk sector (size / FS_BLOCK_SIZE) buffer mem
  if size % FS_BLOCK_SIZE ≠ 0 then
    let idx := size / FS_BLOCK_SIZE
    let tmpbuf := diskBytes disk (sector + BitVec.ofNat 32 idx) FS_BLOCK_SIZE
    store mem (buffer + idx * FS_BLOCK_SIZE) (tmpbuf.take (size % FS_BLOCK_SIZE))
  else mem

/-- `bytesperclust` -/
def bytesperclust (mydata : Fsdata) : Nat := mydata.clust_size.toNat * FS_BLOCK_SIZE

/-- The variables of `get_contents`, and memory. -/
structure Contents where
  mydata : Fsdata
  mem : Nat → Byte
  buffer : Nat
  filesize : Nat
  gotsize : Nat
  curclust : U32
  endclust : U32
  actsize : Nat

/-- A `long`. -/
def long (n : Nat) : Int := (BitVec.ofNat 32 n).toInt

/-- The loops of `get_contents`, for at most so many turns: what is returned, and memory. Nothing is
returned if they go on. -/
def contents : Nat → Contents → Option (Int × (Nat → Byte))
  | 0, _ => none
  | fuel + 1, s =>
      if s.actsize < s.filesize then
        let (newclust, mydata) := get_fatent disk s.mydata s.endclust
        if newclust - 1#32 ≠ s.endclust then
          -- getit
          let mem := get_cluster disk mydata s.curclust s.buffer s.actsize s.mem
          let (curclust, mydata) := get_fatent disk mydata s.endclust
          if CHECK_CLUST curclust mydata.fatsize then some (long (s.gotsize + s.actsize), mem)
          else
            contents fuel
              { mydata := mydata
                mem := mem
                buffer := s.buffer + s.actsize
                filesize := s.filesize - s.actsize
                gotsize := s.gotsize + s.actsize
                curclust := curclust
                endclust := curclust
                actsize := bytesperclust mydata }
        else if CHECK_CLUST newclust mydata.fatsize then some (long s.gotsize, s.mem)
        else
          contents fuel { s with
            mydata := mydata
            endclust := newclust
            actsize := (s.actsize + bytesperclust mydata) % 2 ^ 32 }
      else
        let actsize := s.actsize - bytesperclust s.mydata
        let mem := get_cluster disk s.mydata s.curclust s.buffer actsize s.mem
        let rest := s.filesize - actsize
        let mem := get_cluster disk s.mydata s.endclust (s.buffer + actsize) rest mem
        some (long (s.gotsize + actsize + rest), mem)

/-- How many bytes `get_contents` is to read. -/
def sizeToRead (dentptr : DirEntry) (maxsize : U32) : Nat :=
  if 0 < maxsize.toNat ∧ maxsize.toNat < dentptr.size.toNat then maxsize.toNat
  else dentptr.size.toNat

/-- `get_contents` -/
def get_contents (fuel : Nat) (mydata : Fsdata) (dentptr : DirEntry) (buffer : Nat) (maxsize : U32)
    (mem : Nat → Byte) : Option (Int × (Nat → Byte)) :=
  contents disk fuel
    { mydata := mydata
      mem := mem
      buffer := buffer
      filesize := sizeToRead dentptr maxsize
      gotsize := 0
      curclust := START mydata dentptr
      endclust := START mydata dentptr
      actsize := bytesperclust mydata }

end UBoot.Fat
