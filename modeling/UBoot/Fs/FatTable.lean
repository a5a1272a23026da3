/-
# The table of a FAT volume

The buffer of `get_fatent` holds a piece of the table on the disk, or nothing, and the entry of a
cluster is that of the table: 12, 16 or 32 bits, the lowest first. An entry of 12 bits may straddle
two words of the buffer.
-/

import UBoot.Fs.Fat

namespace UBoot.Fat

open UBoot.Lib

variable {disk : Disk} {mydata : Fsdata}

/-! ## The table on the disk -/

/-- A byte of the table. -/
def fatByte (disk : Disk) (mydata : Fsdata) (j : Nat) : Byte :=
  diskByte disk (mydata.fat_sect.setWidth 32) j

/-- An entry of a table: 12, 16 or 32 bits, the lowest first. -/
def entryAt (fatsize : FatSize) (byte : Nat → Byte) (e : Nat) : U32 :=
  match fatsize with
  | .fat32 => byte (4 * e + 3) ++ byte (4 * e + 2) ++ byte (4 * e + 1) ++ byte (4 * e)
  | .fat16 => (byte (2 * e + 1) ++ byte (2 * e)).setWidth 32
  | .fat12 =>
      let i := e + e / 2
      if e % 2 = 0 then ((byte (i + 1)).extractLsb' 0 4 ++ byte i).setWidth 32
      else (byte (i + 1) ++ (byte i).extractLsb' 4 4).setWidth 32

/-- The entry of a cluster. -/
def fatEntry (disk : Disk) (mydata : Fsdata) (c : U32) : U32 :=
  entryAt mydata.fatsize (fatByte disk mydata) c.toNat

/-- The cluster that an entry links to. The highest four bits of a FAT32 entry are reserved. -/
def link (mydata : Fsdata) (entry : U32) : U32 :=
  if mydata.fatsize = .fat32 then entry &&& 0x0fffffff#32 else entry

/-- The buffer is empty, or holds a piece of the table. -/
structure Cache (disk : Disk) (mydata : Fsdata) : Prop where
  table : 0 < mydata.fatlength.toNat
  piece : mydata.fatbufnum = -1 ∨ ∃ b : Nat, b < 2 ^ 31 ∧ mydata.fatbufnum = b ∧
    ∀ j < FATBUFSIZE, mydata.fatbuf j = fatByte disk mydata (b * FATBUFSIZE + j)

/-! ## Pieces of the disk -/

/-- Behind whole sectors. -/
theorem diskByte_add (sector : U32) (q j : Nat) :
    diskByte disk sector (q * FS_BLOCK_SIZE + j) =
      diskByte disk (sector + BitVec.ofNat 32 q) j := by
  have hdiv : (q * FS_BLOCK_SIZE + j) / FS_BLOCK_SIZE = q + j / FS_BLOCK_SIZE := by
    unfold FS_BLOCK_SIZE
    omega
  have hmod : (q * FS_BLOCK_SIZE + j) % FS_BLOCK_SIZE = j % FS_BLOCK_SIZE := by
    unfold FS_BLOCK_SIZE
    omega
  rw [diskByte, diskByte, hdiv, hmod, BitVec.ofNat_add, BitVec.add_assoc]

@[simp] theorem length_diskBytes (sector : U32) (n : Nat) :
    (diskBytes disk sector n).length = n := length_slice _ _ _

theorem diskBytes_add (sector : U32) (q n : Nat) :
    diskBytes disk sector (q * FS_BLOCK_SIZE + n) =
      diskBytes disk sector (q * FS_BLOCK_SIZE) ++
        diskBytes disk (sector + BitVec.ofNat 32 q) n := by
  rw [diskBytes, slice_append, diskBytes, diskBytes]
  congr 1
  refine List.map_congr_left fun k _ => ?_
  rw [Nat.zero_add, diskByte_add, Nat.zero_add]

theorem take_diskBytes (sector : U32) {n k : Nat} (h : k ≤ n) :
    (diskBytes disk sector n).take k = diskBytes disk sector k := by
  simpa [diskBytes] using slice_slice (m := diskByte disk sector) (i := 0) (j := 0) (n := n) (k := k)
    (by omega)

/-- A read of whole sectors, and one of those behind them. -/
theorem store_diskBytes (mem : Nat → Byte) (buffer : Nat) (sector : U32) (q n : Nat) :
    store (store mem buffer (diskBytes disk sector (q * FS_BLOCK_SIZE)))
        (buffer + q * FS_BLOCK_SIZE) (diskBytes disk (sector + BitVec.ofNat 32 q) n) =
      store mem buffer (diskBytes disk sector (q * FS_BLOCK_SIZE + n)) := by
  rw [diskBytes_add, ← store_append, length_diskBytes]

/-- `get_cluster` reads so many bytes from the first sector on. -/
theorem get_cluster_eq (c : U32) (buffer size : Nat) (mem : Nat → Byte) :
    get_cluster disk mydata c buffer size mem =
      store mem buffer (diskBytes disk (startsect mydata c) size) := by
  have hsplit : size / FS_BLOCK_SIZE * FS_BLOCK_SIZE + size % FS_BLOCK_SIZE = size :=
    Nat.div_add_mod' _ _
  have hbelow : size % FS_BLOCK_SIZE ≤ FS_BLOCK_SIZE := (Nat.mod_lt _ (by decide)).le
  rw [get_cluster, disk_read]
  split
  · dsimp only
    rw [take_diskBytes _ hbelow, store_diskBytes, hsplit]
  · next h =>
      rw [not_not] at h
      rw [h, Nat.add_zero] at hsplit
      rw [hsplit]

/-! ## The buffer -/

/-- A byte of the buffer after a read of the piece that it is to hold. -/
theorem fillFatbuf_eq (cache : Cache disk mydata) {bufnum : Nat} (h : bufnum < 2 ^ 31) :
    ∃ buf, fillFatbuf disk mydata bufnum = { mydata with fatbuf := buf, fatbufnum := bufnum } ∧
      ∀ j < FATBUFSIZE, buf j = fatByte disk mydata (bufnum * FATBUFSIZE + j) := by
  rw [fillFatbuf]
  split
  · next hne =>
      refine ⟨_, rfl, fun j hj => ?_⟩
      have hlarge : ¬ mydata.fatlength.toNat * FS_BLOCK_SIZE < FATBUFSIZE / FS_BLOCK_SIZE := by
        have := cache.table
        unfold FATBUFSIZE FATBUFBLOCKS FS_BLOCK_SIZE
        omega
      have hbyte (sector : U32) :
          store mydata.fatbuf 0 (diskBytes disk sector FATBUFSIZE) j = diskByte disk sector j := by
        have hat : (diskBytes disk sector FATBUFSIZE)[j]? = some (diskByte disk sector j) := by
          rw [diskBytes, getElem?_slice _ hj, Nat.zero_add]
        simpa only [Nat.zero_add] using @store_add _ mydata.fatbuf 0 _ _ _ hat
      simp only [if_neg hlarge, disk_read]
      have hwhole : FATBUFSIZE / FS_BLOCK_SIZE * FS_BLOCK_SIZE = FATBUFSIZE := rfl
      have hat : bufnum * FATBUFSIZE + j = bufnum * FATBUFBLOCKS * FS_BLOCK_SIZE + j := by
        unfold FATBUFSIZE
        ring
      rw [hwhole, hbyte, fatByte, hat, diskByte_add, BitVec.add_comm]
  · next heq =>
      rw [not_not] at heq
      rcases cache.piece with hnone | ⟨b, hb, hnum, hbuf⟩
      · rw [hnone, ← BitVec.toNat_inj, BitVec.toNat_ofNat, BitVec.toNat_ofInt] at heq
        omega
      · have hb : b = bufnum := by
          rw [hnum, ← BitVec.toNat_inj, BitVec.toNat_ofNat, BitVec.toNat_ofInt] at heq
          omega
        subst hb
        exact ⟨mydata.fatbuf, by rw [← hnum], hbuf⟩

theorem low12 (b₀ b₁ : Byte) :
    (b₁ ++ b₀).setWidth 32 &&& 0xfff#32 = (b₁.extractLsb' 0 4 ++ b₀).setWidth 32 := by
  refine BitVec.eq_of_getLsbD_eq fun i hi => ?_
  simp only [BitVec.getLsbD_and, BitVec.getLsbD_setWidth, BitVec.getLsbD_append,
    BitVec.getLsbD_extractLsb']
  interval_cases i <;> simp

theorem high12 (b₀ b₁ : Byte) :
    ((b₁ ++ b₀).setWidth 32 &&& 0xfff0#32) >>> 4 = (b₁ ++ b₀.extractLsb' 4 4).setWidth 32 := by
  refine BitVec.eq_of_getLsbD_eq fun i hi => ?_
  simp only [BitVec.getLsbD_and, BitVec.getLsbD_setWidth, BitVec.getLsbD_append,
    BitVec.getLsbD_extractLsb', BitVec.getLsbD_ushiftRight]
  interval_cases i <;> simp

/-- An odd entry that begins in the high byte of a word. -/
theorem straddling_odd (b₀ b₁ b₂ b₃ : Byte) :
    ((b₃ ++ b₂) &&& 0x00ff#16).setWidth 32 <<< 4 |||
        ((b₁ ++ b₀) &&& 0xf000#16).setWidth 32 >>> 12 =
      ((b₂ ++ b₁.extractLsb' 4 4).setWidth 32 : U32) := by
  refine BitVec.eq_of_getLsbD_eq fun i hi => ?_
  simp only [BitVec.getLsbD_and, BitVec.getLsbD_or, BitVec.getLsbD_setWidth, BitVec.getLsbD_append,
    BitVec.getLsbD_extractLsb', BitVec.getLsbD_ushiftRight, BitVec.getLsbD_shiftLeft]
  interval_cases i <;> simp

/-- An even entry that begins in the high byte of a word. -/
theorem straddling_even (b₀ b₁ b₂ b₃ : Byte) :
    ((b₃ ++ b₂) &&& 0x000f#16).setWidth 32 <<< 8 |||
        ((b₁ ++ b₀) &&& 0xff00#16).setWidth 32 >>> 8 =
      ((b₂.extractLsb' 0 4 ++ b₁).setWidth 32 : U32) := by
  refine BitVec.eq_of_getLsbD_eq fun i hi => ?_
  simp only [BitVec.getLsbD_and, BitVec.getLsbD_or, BitVec.getLsbD_setWidth, BitVec.getLsbD_append,
    BitVec.getLsbD_extractLsb', BitVec.getLsbD_ushiftRight, BitVec.getLsbD_shiftLeft]
  interval_cases i <;> simp

/-- The four packings of 12 bits. -/
theorem entry12_eq (buf : Nat → Byte) (offset : Nat) :
    entry12 buf offset = entryAt .fat12 buf offset := by
  obtain ⟨k, rfl | rfl | rfl | rfl⟩ :
      ∃ k, offset = 4 * k ∨ offset = 4 * k + 1 ∨ offset = 4 * k + 2 ∨ offset = 4 * k + 3 :=
    ⟨offset / 4, by omega⟩
  · have hword : 4 * k * 3 / 4 = 3 * k := by omega
    have hbyte : 4 * k + 4 * k / 2 = 2 * (3 * k) := by omega
    simp only [entry12, entryAt, show 4 * k % 4 = 0 by omega, show 4 * k % 2 = 0 by omega, hword,
      hbyte, word16, low12, if_true]
  · have hword : (4 * k + 1) * 3 / 4 = 3 * k := by omega
    have hbyte : 4 * k + 1 + (4 * k + 1) / 2 = 2 * (3 * k) + 1 := by omega
    simp only [entry12, entryAt, show (4 * k + 1) % 4 = 1 by omega,
      show (4 * k + 1) % 2 = 1 by omega, hword, hbyte, word16, straddling_odd]
    rfl
  · have hword : (4 * k + 2) * 3 / 4 = 3 * k + 1 := by omega
    have hbyte : 4 * k + 2 + (4 * k + 2) / 2 = 2 * (3 * k + 1) + 1 := by omega
    simp only [entry12, entryAt, show (4 * k + 2) % 4 = 2 by omega,
      show (4 * k + 2) % 2 = 0 by omega, hword, hbyte, word16, straddling_even, if_true]
    rfl
  · have hword : (4 * k + 3) * 3 / 4 = 3 * k + 2 := by omega
    have hbyte : 4 * k + 3 + (4 * k + 3) / 2 = 2 * (3 * k + 2) := by omega
    simp only [entry12, entryAt, show (4 * k + 3) % 4 = 3 by omega,
      show (4 * k + 3) % 2 = 1 by omega, hword, hbyte, word16, high12]
    rfl

/-- The entries of a piece of a table, from the first in it on. -/
theorem entryAt_piece (fatsize : FatSize) {byte buf : Nat → Byte} {b offset : Nat}
    (h : ∀ j < FATBUFSIZE, buf j = byte (b * FATBUFSIZE + j))
    (hoffset : offset < entriesPerBuf fatsize) :
    entryAt fatsize buf offset = entryAt fatsize byte (b * entriesPerBuf fatsize + offset) := by
  have hbuf {j k : Nat} (hj : j < 3072) (hk : b * 3072 + j = k) : buf j = byte k := hk ▸ h j hj
  cases fatsize with
  | fat32 =>
      have hlt : offset < 768 := hoffset
      simp only [entryAt, entriesPerBuf, show FAT32BUFSIZE = 768 from rfl]
      rw [hbuf (by omega) (by omega : _ = 4 * (b * 768 + offset) + 3),
        hbuf (by omega) (by omega : _ = 4 * (b * 768 + offset) + 2),
        hbuf (by omega) (by omega : _ = 4 * (b * 768 + offset) + 1),
        hbuf (by omega) (by omega : _ = 4 * (b * 768 + offset))]
  | fat16 =>
      have hlt : offset < 1536 := hoffset
      simp only [entryAt, entriesPerBuf, show FAT16BUFSIZE = 1536 from rfl]
      rw [hbuf (by omega) (by omega : _ = 2 * (b * 1536 + offset) + 1),
        hbuf (by omega) (by omega : _ = 2 * (b * 1536 + offset))]
  | fat12 =>
      have hlt : offset < 2048 := hoffset
      simp only [entryAt, entriesPerBuf, show FAT12BUFSIZE = 2048 from rfl]
      have hhalf : b * 2048 + offset + (b * 2048 + offset) / 2 =
          b * 3072 + (offset + offset / 2) := by omega
      have hparity : (b * 2048 + offset) % 2 = offset % 2 := by omega
      rw [hhalf, hparity, hbuf (by omega) rfl, hbuf (by omega) rfl]
      simp only [Nat.add_assoc]

/-- The entry is that of the table, and only the buffer changes. -/
theorem get_fatent_eq (cache : Cache disk mydata) (c : U32) :
    ∃ buf num, get_fatent disk mydata c =
        (fatEntry disk mydata c, { mydata with fatbuf := buf, fatbufnum := num }) ∧
      Cache disk { mydata with fatbuf := buf, fatbufnum := num } := by
  have hper : 768 ≤ entriesPerBuf mydata.fatsize := by
    cases mydata.fatsize <;> decide
  have hbufnum : c.toNat / entriesPerBuf mydata.fatsize < 2 ^ 31 :=
    lt_of_le_of_lt (Nat.div_le_div_left hper (by decide)) (by omega)
  obtain ⟨buf, hfill, hbuf⟩ := fillFatbuf_eq cache hbufnum
  have hoffset : c.toNat - c.toNat / entriesPerBuf mydata.fatsize * entriesPerBuf mydata.fatsize =
      c.toNat % entriesPerBuf mydata.fatsize := by
    have := Nat.div_add_mod' c.toNat (entriesPerBuf mydata.fatsize)
    omega
  have hentry := entryAt_piece mydata.fatsize hbuf (Nat.mod_lt c.toNat (by omega))
  rw [Nat.div_add_mod'] at hentry
  refine ⟨buf, _, ?_, cache.table, Or.inr ⟨_, hbufnum, rfl, hbuf⟩⟩
  rw [get_fatent, fatEntry, ← hentry]
  simp only [hfill, hoffset]
  congr 1
  cases mydata.fatsize with
  | fat32 => rfl
  | fat16 => rfl
  | fat12 => exact entry12_eq _ _

end UBoot.Fat
