/-
# GUID partition tables

`get_partition_info_efi`, `is_gpt_valid` and `alloc_read_gpt_entries` of `disk/part_efi.c`, for a
`long` of 32 bits. The header and the array of entries are in buffers, of which it is known how many
bytes are allocated and how many have been read from the disk.
-/

import UBoot.Disk.PartDos
import UBoot.Lib.Memory

namespace UBoot.Efi

open UBoot.Lib UBoot.Disk

/-- A device with blocks of 512 bytes: how many there are, their bytes, and how many of some blocks
are read when they are asked for. -/
structure GptDev where
  lba : Nat
  data : Nat → Byte
  block_read : Nat → Nat → Nat

def GPT_BLOCK_SIZE : Nat := 512
def GPT_HEADER_SIGNATURE : BitVec 64 := 0x5452415020494645#64
def GPT_PRIMARY_PARTITION_TABLE_LBA : Nat := 1
def GPT_ENTRY_NAME : String := "gpt"

/-- `sizeof(gpt_entry)` -/
def GPT_ENTRY_SIZE : Nat := 128

/-- The bytes from a block on. -/
def GptDev.block (dev : GptDev) (start : Nat) : Buffer := fun i =>
  dev.data (GPT_BLOCK_SIZE * start + i)

/-- `le64_to_int` -/
def le64_to_int (buffer : Buffer) (i : Nat) : BitVec 64 :=
  le32_to_int buffer (i + 4) ++ le32_to_int buffer i

/-! ## The header -/

def header_size (head : Buffer) : Nat := (le32_to_int head 12).toNat
def header_crc32 (head : Buffer) : BitVec 32 := le32_to_int head 16
def my_lba (head : Buffer) : Nat := (le64_to_int head 24).toNat
def first_usable_lba (head : Buffer) : Nat := (le64_to_int head 40).toNat
def last_usable_lba (head : Buffer) : Nat := (le64_to_int head 48).toNat
def partition_entry_lba (head : Buffer) : Nat := (le64_to_int head 72).toNat
def num_partition_entries (head : Buffer) : BitVec 32 := le32_to_int head 80
def sizeof_partition_entry (head : Buffer) : BitVec 32 := le32_to_int head 84
def partition_entry_array_crc32 (head : Buffer) : BitVec 32 := le32_to_int head 88

/-- The header with zeros for its checksum. -/
def withoutCrc (head : Buffer) : Buffer := fun i => if 16 ≤ i ∧ i < 20 then 0 else head i

/-- `efi_crc32` of a buffer of which so many bytes have been read; nothing when it takes more. -/
def efi_crc32 (read : Nat) (buf : Buffer) (len : Nat) : Option (BitVec 32) :=
  if len ≤ read then some (crc32 0 (slice buf 0 len)) else none

/-- What `malloc` and `block_read` have given for the array: so many bytes, so many of them read. -/
structure Entries where
  count : Nat
  read : Nat
  data : Buffer

/-- `count`: the product of the number and the size of the entries, in a `size_t`. -/
def entriesCount (head : Buffer) : Nat :=
  (num_partition_entries head * sizeof_partition_entry head).toNat

/-- `alloc_read_gpt_entries`, with `none` for NULL. -/
def alloc_read_gpt_entries (dev : GptDev) (malloc : Nat → Bool) (head : Buffer) : Option Entries :=
  let count := entriesCount head
  if count = 0 ∨ malloc count = false then none
  else
    let start := partition_entry_lba head % 2 ^ 32
    if dev.block_read start (count / GPT_BLOCK_SIZE) ≠ count / GPT_BLOCK_SIZE then none
    else some ⟨count, GPT_BLOCK_SIZE * (count / GPT_BLOCK_SIZE), dev.block start⟩

/-- The part of `is_gpt_valid` behind the header. `pgpt_pte` is whether there is a place for the
pointer to the array. -/
def entriesValid (dev : GptDev) (malloc : Nat → Bool) (head : Buffer) (pgpt_pte : Bool) :
    Option (Option (Buffer × Entries)) :=
  if pgpt_pte = false then none
  else
    match alloc_read_gpt_entries dev malloc head with
    | none => some none
    | some pte =>
        (efi_crc32 pte.read pte.data (entriesCount head)).bind fun calc_crc32 =>
          if calc_crc32 ≠ partition_entry_array_crc32 head then some none
          else some (some (head, pte))

/-- `is_gpt_valid`: the header and the array when it returns 1, `some none` when it returns 0, and
nothing when it touches what is not there. -/
def is_gpt_valid (dev : GptDev) (malloc : Nat → Bool) (lba : Nat) (pgpt_pte : Bool) :
    Option (Option (Buffer × Entries)) :=
  if dev.block_read lba 1 ≠ 1 then some none
  else
    let head := dev.block lba
    if le64_to_int head 0 ≠ GPT_HEADER_SIGNATURE then some none
    else
      (efi_crc32 GPT_BLOCK_SIZE (withoutCrc head) (header_size head)).bind fun calc_crc32 =>
        if calc_crc32 ≠ header_crc32 head then some none
        else if my_lba head ≠ lba then some none
        else if first_usable_lba head > dev.lba then some none
        else if last_usable_lba head > dev.lba then some none
        else entriesValid dev malloc head pgpt_pte

/-- `(*pgpt_pte)[i].starting_lba` for a field at 32, `ending_lba` for one at 40; nothing outside the
array. -/
def entryLba (pte : Entries) (i field : Nat) : Option (BitVec 32) :=
  if GPT_ENTRY_SIZE * i + field + 8 ≤ pte.count then
    some ((le64_to_int pte.data (GPT_ENTRY_SIZE * i + field)).setWidth 32)
  else none

/-- `get_partition_info_efi`, for arguments that can be NULL: the return value and what `info` is. -/
def get_partition_info_efi (dev_desc : Option GptDev) (malloc : Nat → Bool) (part : Int)
    (info : Option DiskPartition) : Option (Int × Option DiskPartition) :=
  match dev_desc, info with
  | some dev, some _ =>
      if part < 1 then some (-1, info)
      else
        (is_gpt_valid dev malloc GPT_PRIMARY_PARTITION_TABLE_LBA false).bind fun valid =>
          match valid with
          | none => some (-1, info)
          | some (_, pte) =>
              (entryLba pte (part - 1).toNat 32).bind fun start =>
                (entryLba pte (part - 1).toNat 40).bind fun ending =>
                  some (0, some
                    { start
                      size := ending + 1 - start
                      blksz := GPT_BLOCK_SIZE
                      name := GPT_ENTRY_NAME ++ toString part
                      type := "U-Boot" })
  | _, _ => some (-1, info)

/-! ## The contract -/

/-- The array on the disk, with entries of the size that the header says. -/
def diskEntry (dev : GptDev) (head : Buffer) (i : Nat) : Buffer := fun k =>
  dev.block (partition_entry_lba head) ((sizeof_partition_entry head).toNat * i + k)

/-- What is in the header is valid. -/
structure HeaderValid (dev : GptDev) (head : Buffer) : Prop where
  signature : le64_to_int head 0 = GPT_HEADER_SIGNATURE
  size : header_size head ≤ GPT_BLOCK_SIZE
  crc : crc32 0 (slice (withoutCrc head) 0 (header_size head)) = header_crc32 head
  my_lba : my_lba head = GPT_PRIMARY_PARTITION_TABLE_LBA
  first_usable : first_usable_lba head ≤ dev.lba
  last_usable : last_usable_lba head ≤ dev.lba

/-- The partition `part` is in a valid table, and `info` is where its entry says. -/
structure Found (dev : GptDev) (head : Buffer) (part : Int) (info : DiskPartition) : Prop where
  header : HeaderValid dev head
  entries_crc : crc32 0 (slice (dev.block (partition_entry_lba head)) 0
      ((num_partition_entries head).toNat * (sizeof_partition_entry head).toNat)) =
    partition_entry_array_crc32 head
  part_le : part ≤ (num_partition_entries head).toNat
  in_use : ∃ i < 16, diskEntry dev head (part - 1).toNat i ≠ 0
  start : info.start.toNat = (le64_to_int (diskEntry dev head (part - 1).toNat) 32).toNat
  size : (info.size.toNat : Int) = (le64_to_int (diskEntry dev head (part - 1).toNat) 40).toNat -
    (le64_to_int (diskEntry dev head (part - 1).toNat) 32).toNat + 1

/-- Only what is there is touched, no checksum is taken of bytes that have not been read, and with
result 0 there is such a partition. -/
def LookupOk (dev : GptDev) (malloc : Nat → Bool) (part : Int) (info : DiskPartition) : Prop :=
  ∃ ret found, get_partition_info_efi (some dev) malloc part (some info) = some (ret, some found) ∧
    (ret = 0 → Found dev (dev.block GPT_PRIMARY_PARTITION_TABLE_LBA) part found)

/-- The header cannot be read, has no signature, or fits in its block and something else in it is
wrong. -/
def HeaderFails (dev : GptDev) : Prop :=
  dev.block_read GPT_PRIMARY_PARTITION_TABLE_LBA 1 ≠ 1 ∨
  le64_to_int (dev.block GPT_PRIMARY_PARTITION_TABLE_LBA) 0 ≠ GPT_HEADER_SIGNATURE ∨
  header_size (dev.block GPT_PRIMARY_PARTITION_TABLE_LBA) ≤ GPT_BLOCK_SIZE ∧
    ¬HeaderValid dev (dev.block GPT_PRIMARY_PARTITION_TABLE_LBA)

section Lookup

variable {dev : GptDev} {malloc : Nat → Bool}

/-- Where the header ends it. -/
theorem is_gpt_valid_cases (pgpt_pte : Bool) :
    HeaderFails dev ∧
        is_gpt_valid dev malloc GPT_PRIMARY_PARTITION_TABLE_LBA pgpt_pte = some none ∨
      ¬HeaderFails dev ∧ ¬HeaderValid dev (dev.block GPT_PRIMARY_PARTITION_TABLE_LBA) ∧
        is_gpt_valid dev malloc GPT_PRIMARY_PARTITION_TABLE_LBA pgpt_pte = none ∨
      ¬HeaderFails dev ∧ HeaderValid dev (dev.block GPT_PRIMARY_PARTITION_TABLE_LBA) ∧
        is_gpt_valid dev malloc GPT_PRIMARY_PARTITION_TABLE_LBA pgpt_pte =
          entriesValid dev malloc (dev.block GPT_PRIMARY_PARTITION_TABLE_LBA) pgpt_pte := by
  rw [is_gpt_valid]
  by_cases hread : dev.block_read GPT_PRIMARY_PARTITION_TABLE_LBA 1 = 1
  swap
  · exact .inl ⟨.inl hread, if_pos hread⟩
  rw [if_neg (not_not.mpr hread)]
  dsimp only
  generalize hhead : dev.block GPT_PRIMARY_PARTITION_TABLE_LBA = head
  by_cases hsignature : le64_to_int head 0 = GPT_HEADER_SIGNATURE
  swap
  · exact .inl ⟨.inr (.inl (hhead ▸ hsignature)), if_pos hsignature⟩
  rw [if_neg (not_not.mpr hsignature), efi_crc32]
  by_cases hsize : header_size head ≤ GPT_BLOCK_SIZE
  swap
  · rw [if_neg hsize]
    refine .inr (.inl ⟨?_, fun hvalid => hsize hvalid.size, rfl⟩)
    rintro (hbad | hbad | ⟨hfits, -⟩)
    · exact hbad hread
    · exact hbad (hhead ▸ hsignature)
    · exact hsize (hhead ▸ hfits)
  rw [if_pos hsize, Option.bind_some]
  have hfails (hinvalid : ¬HeaderValid dev head) : HeaderFails dev := by
    rw [HeaderFails, hhead]
    exact .inr (.inr ⟨hsize, hinvalid⟩)
  split
  · next hcrc => exact .inl ⟨hfails fun hvalid => hcrc hvalid.crc, rfl⟩
  split
  · next hlba => exact .inl ⟨hfails fun hvalid => hlba hvalid.my_lba, rfl⟩
  split
  · next hfirst =>
      exact .inl ⟨hfails fun hvalid => absurd hvalid.first_usable (Nat.not_le.mpr hfirst), rfl⟩
  split
  · next hlast =>
      exact .inl ⟨hfails fun hvalid => absurd hvalid.last_usable (Nat.not_le.mpr hlast), rfl⟩
  next hcrc hlba hfirst hlast =>
    have hvalid : HeaderValid dev head := ⟨hsignature, hsize, not_not.mp hcrc, not_not.mp hlba,
      Nat.not_lt.mp hfirst, Nat.not_lt.mp hlast⟩
    refine .inr (.inr ⟨?_, hvalid, rfl⟩)
    rw [HeaderFails, hhead]
    rintro (hbad | hbad | ⟨-, hbad⟩)
    · exact hbad hread
    · exact hbad hsignature
    · exact hbad hvalid

/-- With a place for the pointer, a table is valid if its header is, all of the array has been read,
and the checksum of the array is right, too. -/
theorem is_gpt_valid_iff {head : Buffer} {pte : Entries} :
    is_gpt_valid dev malloc GPT_PRIMARY_PARTITION_TABLE_LBA true = some (some (head, pte)) ↔
      ¬HeaderFails dev ∧ head = dev.block GPT_PRIMARY_PARTITION_TABLE_LBA ∧
      HeaderValid dev head ∧ alloc_read_gpt_entries dev malloc head = some pte ∧
      entriesCount head ≤ pte.read ∧
      crc32 0 (slice pte.data 0 (entriesCount head)) = partition_entry_array_crc32 head := by
  obtain ⟨hfails, hcall⟩ | ⟨hpasses, hinvalid, hcall⟩ | ⟨hpasses, hvalid, hcall⟩ :=
    @is_gpt_valid_cases dev malloc true
  · rw [hcall]
    exact iff_of_false (by simp) fun h => h.1 hfails
  · rw [hcall]
    exact iff_of_false (by simp) fun h => hinvalid (h.2.1 ▸ h.2.2.1)
  · rw [hcall, entriesValid, if_neg Bool.noConfusion]
    cases halloc : alloc_read_gpt_entries dev malloc (dev.block GPT_PRIMARY_PARTITION_TABLE_LBA) with
    | none =>
        refine iff_of_false (by simp) ?_
        rintro ⟨-, rfl, -, hsome, -⟩
        exact absurd (halloc.symm.trans hsome) (Option.some_ne_none _).symm
    | some array =>
        dsimp only
        rw [efi_crc32]
        constructor
        · intro h
          split at h
          · next hread =>
              rw [Option.bind_some] at h
              split at h
              · cases h
              · next hcrc =>
                  cases h
                  exact ⟨hpasses, rfl, hvalid, halloc, hread, not_not.mp hcrc⟩
          · cases h
        · rintro ⟨-, rfl, -, hsome, hread, hcrc⟩
          cases halloc.symm.trans hsome
          rw [if_pos hread, Option.bind_some, if_neg (not_not.mpr hcrc)]

/-- Without one it is the end. -/
theorem get_partition_info_efi_ok_iff (part : Int) (info : DiskPartition) :
    LookupOk dev malloc part info ↔ part < 1 ∨ HeaderFails dev := by
  rw [LookupOk, get_partition_info_efi]
  by_cases hpart : part < 1
  · rw [if_pos hpart]
    exact iff_of_true ⟨-1, info, rfl, fun hret => absurd hret (by decide)⟩ (.inl hpart)
  · rw [if_neg hpart, or_iff_right hpart]
    have hnone {found : Option (Int × Option DiskPartition)} (h : found = none) :
        ¬∃ ret info, found = some (ret, some info) ∧
          (ret = 0 → Found dev (dev.block GPT_PRIMARY_PARTITION_TABLE_LBA) part info) := by
      rintro ⟨ret, info, hsome, -⟩
      exact absurd (h.symm.trans hsome) (Option.some_ne_none _).symm
    obtain ⟨hfails, hcall⟩ | ⟨hpasses, -, hcall⟩ | ⟨hpasses, -, hcall⟩ :=
      @is_gpt_valid_cases dev malloc false
    · rw [hcall]
      exact iff_of_true ⟨-1, info, rfl, fun hret => absurd hret (by decide)⟩ hfails
    · rw [hcall]
      exact iff_of_false (hnone rfl) hpasses
    · rw [hcall]
      exact iff_of_false (hnone rfl) hpasses

end Lookup

/-- So many bytes of a number, the lowest one first. -/
def leBytes (n : Nat) : Nat → List Byte
  | 0 => []
  | count + 1 => BitVec.ofNat 8 n :: leBytes (n / 256) count

/-- A header of 92 bytes for 128 entries of 128 bytes each, from block 2 on. -/
def header128 : List Byte :=
  leBytes 0x5452415020494645 8 ++ leBytes 0x10000 4 ++ leBytes 92 4 ++ leBytes 0xa366c0e4 4 ++
    leBytes 0 4 ++ leBytes 1 8 ++ leBytes 2047 8 ++ leBytes 34 8 ++ leBytes 2014 8 ++
    leBytes 0 16 ++ leBytes 2 8 ++ leBytes 128 4 ++ leBytes 128 4 ++ leBytes 0xab54d286 4

/-- A disk of 1 MiB with this header, and no partitions. -/
def emptyTable : GptDev := ⟨2048, fun i => header128.getD (i - 512) 0, fun _ blkcnt => blkcnt⟩

/-- Its checksum, a quarter of the bytes after the other. -/
theorem emptyTable_crc : crc32 0 (slice (withoutCrc (emptyTable.block 1)) 0 92) = 0xa366c0e4 := by
  have hfirst : crc32 0 (slice (withoutCrc (emptyTable.block 1)) 0 23) = 0x262bf70e := by
    decide +kernel
  have hsecond : crc32 0x262bf70e (slice (withoutCrc (emptyTable.block 1)) 23 23) = 0x168ddcb5 := by
    decide +kernel
  have hthird : crc32 0x168ddcb5 (slice (withoutCrc (emptyTable.block 1)) 46 23) = 0x69800763 := by
    decide +kernel
  have hfourth : crc32 0x69800763 (slice (withoutCrc (emptyTable.block 1)) 69 23) = 0xa366c0e4 := by
    decide +kernel
  rw [show 92 = 23 + 23 + 23 + 23 from rfl, slice_append, slice_append, slice_append,
    crc32_append, crc32_append, crc32_append, hfirst, hsecond, hthird, hfourth]

theorem emptyTable_valid : HeaderValid emptyTable (emptyTable.block 1) where
  signature := by decide
  size := by decide
  crc := emptyTable_crc
  my_lba := by decide
  first_usable := by decide
  last_usable := by decide

/-- A valid header. -/
theorem not_get_partition_info_efi_ok :
    ¬∀ (dev : GptDev) (malloc : Nat → Bool) (part : Int) (info : DiskPartition), 1 ≤ part →
      LookupOk dev malloc part info := by
  intro h
  obtain ⟨ret, found, hcall, -⟩ := h emptyTable (fun _ => true) 1 ⟨0, 0, 0, "", ""⟩ le_rfl
  obtain ⟨hbad | hbad | ⟨-, hbad⟩, -⟩ | ⟨-, hinvalid, -⟩ | ⟨-, -, hnull⟩ :=
    @is_gpt_valid_cases emptyTable (fun _ => true) false
  · exact hbad rfl
  · exact hbad (HeaderValid.signature emptyTable_valid)
  · exact hbad emptyTable_valid
  · exact hinvalid emptyTable_valid
  · rw [get_partition_info_efi] at hcall
    rw [if_neg (by decide), hnull] at hcall
    cases hcall

end UBoot.Efi
