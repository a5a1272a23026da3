/-
# Amiga partitions

The search for the rigid disk block and along the list of partition blocks in `disk/part_amiga.c`.
A block is the 128 longs that the machine reads of it, and a long behind them has no result. A loop
has a number of turns, so that a function that returns has a result in some number of turns. A block
that is read again is the same. A plain `char` is unsigned.
-/

import UBoot.Net.SetIP

namespace UBoot.Amiga

def AMIGA_ID_RDISK : BitVec 32 := 0x5244534B
def AMIGA_ID_PART : BitVec 32 := 0x50415254
def AMIGA_ID_BOOT : BitVec 32 := 0x424f4f54
def AMIGA_BLOCK_LIMIT : Nat := 16

/-- The number that ends the list of partitions. -/
def listEnd : BitVec 32 := 0xFFFFFFFF

/-- A block of 512 bytes. -/
structure Block where
  longs : List (BitVec 32)
  length_eq : longs.length = 128

namespace Block

def long (b : Block) (i : Nat) : BitVec 32 := b.longs.getD i 0

/-! The headers of all blocks, and the fields of `struct rigid_disk_block`, of
`struct partition_block` and of `struct amiga_part_geometry` in it. -/

def id (b : Block) : BitVec 32 := b.long 0
def summed_longs (b : Block) : Nat := (b.long 1).toNat
def block_bytes (b : Block) : BitVec 32 := b.long 4
def partition_list (b : Block) : BitVec 32 := b.long 7
def next (b : Block) : BitVec 32 := b.long 4
def drive_name (big : Bool) (b : Block) : List Byte := (b.longs.drop 9).flatMap (SetIP.ulong big)
def surfaces (b : Block) : BitVec 32 := b.long 35
def block_per_track (b : Block) : BitVec 32 := b.long 37
def low_cyl (b : Block) : BitVec 32 := b.long 41
def high_cyl (b : Block) : BitVec 32 := b.long 42
def boot_priority (b : Block) : BitVec 32 := b.long 47
def dos_type (b : Block) : BitVec 32 := b.long 48

end Block

/-- The machine, its environment and the disk. -/
structure Setup where
  /-- the machine is big-endian -/
  big : Bool
  amiga_scanlimit : Option (BitVec 32)
  /-- what is read of a block, if the read succeeds -/
  block_read : BitVec 32 → Option Block

/-- The loop of `sum_block`: so many longs from an index on. -/
def sumLongs (b : Block) : Nat → Nat → BitVec 32 → Option (BitVec 32)
  | 0, _, sum => some sum
  | n + 1, i, sum => do
      let x ← b.longs[i]?
      sumLongs b n (i + 1) (sum + x)

/-- `sum_block`: whether the sum is wrong. -/
def sum_block (b : Block) : Option Bool := do
  let sum ← sumLongs b b.summed_longs 0 0
  return sum ≠ 0

/-- The loop that looks for a block with an id among so many blocks. -/
def scan (s : Setup) (id : BitVec 32) : Nat → Nat → Option (Option Block)
  | 0, _ => some none
  | n + 1, i => (s.block_read (.ofNat 32 i)).elim (scan s id n (i + 1)) fun b =>
      if b.id = id then do
        let wrong ← sum_block b
        if wrong then scan s id n (i + 1) else some (some b)
      else scan s id n (i + 1)

def limit (s : Setup) : Nat :=
  s.amiga_scanlimit.elim AMIGA_BLOCK_LIMIT fun limit => limit.toInt.toNat

/-- `get_rdisk` -/
def get_rdisk (s : Setup) : Option (Option Block) := scan s AMIGA_ID_RDISK (limit s) 0

/-- `get_bootcode` -/
def get_bootcode (s : Setup) : Option (Option Block) := scan s AMIGA_ID_BOOT (limit s) 0

/-- The loop of `find_partition`. -/
def findLoop (s : Setup) : Nat → BitVec 32 → Int → Option (Option Block)
  | 0, _, _ => none
  | turns + 1, block, partnum =>
      if block = listEnd then some none
      else (s.block_read block).elim (some none) fun p =>
        if p.id = AMIGA_ID_PART then do
          let wrong ← sum_block p
          if wrong then findLoop s turns block partnum
          else if partnum = 0 then some (some p)
          else findLoop s turns p.next (partnum - 1)
        else some none

/-- `find_partition`, with the rigid disk block. -/
def find_partition (s : Setup) (turns : Nat) (partnum : Int) :
    Option (Option (Block × Block)) := do
  let rdb ← get_rdisk s
  rdb.elim (some none) fun rdb => do
    let p ← findLoop s turns rdb.partition_list partnum
    return p.map fun p => (rdb, p)

/-- `bcpl_strcpy`: the characters that are stored, with the nul. -/
def bcpl_strcpy (string : List Byte) : List Byte :=
  (string.drop 1).take (string.getD 0 0).toNat ++ [0]

/-- A disk type as it is shown. -/
def disk_type (dos_type : BitVec 32) : List Byte :=
  [dos_type.extractLsb' 24 8, dos_type.extractLsb' 16 8, dos_type.extractLsb' 8 8, 0x5c,
    dos_type.extractLsb' 0 8 + 0x30, 0]

/-- `disk_partition_t`, with what is stored from `name` on and from `type` on. -/
structure disk_partition where
  start : BitVec 32
  size : BitVec 32
  blksz : BitVec 32
  name : List Byte
  type : List Byte

/-- What is stored of a partition that is found. -/
def infoOf (big : Bool) (rdb p : Block) : disk_partition where
  start := p.low_cyl * p.block_per_track * p.surfaces
  size := (p.high_cyl - p.low_cyl + 1) * p.block_per_track * p.surfaces - 1
  blksz := rdb.block_bytes
  name := bcpl_strcpy (p.drive_name big)
  type := disk_type p.dos_type

/-- `get_partition_info_amiga`: the partition, if it does not return -1. -/
def get_partition_info_amiga (s : Setup) (turns : Nat) (part : Int) :
    Option (Option disk_partition) := do
  let found ← find_partition s turns (part - 1)
  return found.map fun (rdb, p) => infoOf s.big rdb p

/-- A line of `print_part_info`. -/
structure Line where
  name : List Byte
  first : BitVec 32
  num : BitVec 32
  type : List Byte
  boot_priority : BitVec 32

/-- `print_part_info` -/
def print_part_info (big : Bool) (p : Block) : Line where
  name := bcpl_strcpy (p.drive_name big)
  first := p.low_cyl * p.block_per_track * p.surfaces
  num := (p.high_cyl - p.low_cyl + 1) * p.block_per_track * p.surfaces - 1
  type := disk_type p.dos_type
  boot_priority := p.boot_priority

/-- The loop of `print_part_amiga`, with the lines that it prints. -/
def printLoop (s : Setup) : Nat → BitVec 32 → Option (List Line)
  | 0, _ => none
  | turns + 1, block =>
      if block = listEnd then some []
      else (s.block_read block).elim (some []) fun p =>
        if p.id = AMIGA_ID_PART then do
          let wrong ← sum_block p
          if wrong then printLoop s turns block else do
            let lines ← printLoop s turns p.next
            return print_part_info s.big p :: lines
        else some []

/-- `print_part_amiga`: the lines, and whether the disk is bootable. -/
def print_part_amiga (s : Setup) (turns : Nat) : Option (List Line × Bool) := do
  let rdb ← get_rdisk s
  rdb.elim (some ([], false)) fun rdb => do
    let lines ← printLoop s turns rdb.partition_list
    let boot ← get_bootcode s
    return (lines, boot.isSome)

/-! ## Disks -/

/-- The sum of the first longs of a block. -/
def total (b : Block) (n : Nat) : BitVec 32 := ((List.range n).map b.long).sum

/-- The checksum of a block is that of longs of it, and right. -/
def ChecksumOk (b : Block) : Prop := b.summed_longs ≤ 128 ∧ total b b.summed_longs = 0

/-- There is a valid block of a kind at a number. -/
structure Valid (s : Setup) (id n : BitVec 32) (b : Block) : Prop where
  read : s.block_read n = some b
  id_eq : b.id = id
  checksum : ChecksumOk b

/-- From a number on the list leads along valid partition blocks to a number. -/
inductive Leads (s : Setup) (last : BitVec 32) : BitVec 32 → List Block → Prop where
  | here : Leads s last last []
  | next {n : BitVec 32} {p : Block} {ps : List Block} (notEnd : n ≠ listEnd)
      (valid : Valid s AMIGA_ID_PART n p) (rest : Leads s last p.next ps) : Leads s last n (p :: ps)

/-- The loops stop at a number that is no block, and at one without the id of a partition. -/
def Stops (s : Setup) (n : BitVec 32) : Prop :=
  n = listEnd ∨ ∀ p, s.block_read n = some p → p.id ≠ AMIGA_ID_PART

variable {s : Setup}

/-! ## The checksum -/

theorem sumLongs_eq (b : Block) (n i : Nat) (sum : BitVec 32) (h : i ≤ 128) :
    sumLongs b n i sum = if i + n ≤ 128 then
      some (sum + ((List.range' i n).map b.long).sum) else none := by
  induction n generalizing i sum with
  | zero =>
      rw [if_pos (by omega), sumLongs]
      simp
  | succ n ih =>
      rw [sumLongs]
      rcases Nat.lt_or_ge i 128 with hlt | hge
      · have hlong : b.longs[i]? = some (b.long i) := by
          have hi : i < b.longs.length := b.length_eq.symm ▸ hlt
          rw [Block.long, List.getD_eq_getElem?_getD, List.getElem?_eq_getElem hi]
          rfl
        rw [hlong, Option.bind_eq_bind, Option.bind_some, ih (i + 1) _ hlt, List.range'_succ,
          List.map_cons, List.sum_cons, BitVec.add_assoc, Nat.add_right_comm, Nat.add_assoc]
      · rw [List.getElem?_eq_none (by rw [b.length_eq]; exact hge), if_neg (by omega)]
        rfl

theorem sum_block_eq (b : Block) : sum_block b =
    if b.summed_longs ≤ 128 then some (decide (total b b.summed_longs ≠ 0)) else none := by
  rw [sum_block, sumLongs_eq b _ 0 0 (Nat.zero_le 128), Nat.zero_add, total, List.range_eq_range']
  split
  · exact congrArg (fun sum => some (decide (sum ≠ 0))) (BitVec.zero_add _)
  · rfl

theorem sum_block_wrong {b : Block} (hle : b.summed_longs ≤ 128)
    (hwrong : total b b.summed_longs ≠ 0) : sum_block b = some true := by
  rw [sum_block_eq, if_pos hle, decide_eq_true hwrong]

theorem sum_block_ok {b : Block} (h : ChecksumOk b) : sum_block b = some false := by
  rw [sum_block_eq, if_pos h.1, decide_eq_false (not_not.mpr h.2)]

theorem checksumOk_of_sum_block {b : Block} (h : sum_block b = some false) : ChecksumOk b := by
  rw [sum_block_eq] at h
  split at h
  · next hle => exact ⟨hle, by simpa using h⟩
  · exact nomatch h

/-! ## Looking for a block -/

/-- There is no valid block of a kind from one number up to another. -/
def NoneIn (s : Setup) (id : BitVec 32) (i k : Nat) : Prop :=
  ∀ j, i ≤ j → j < k → ∀ b, ¬Valid s id (.ofNat 32 j) b

/-- The first valid block of a kind among so many. -/
def First (s : Setup) (id : BitVec 32) (n i : Nat) (b : Block) : Prop :=
  ∃ k, i ≤ k ∧ k < i + n ∧ Valid s id (.ofNat 32 k) b ∧ NoneIn s id i k

/-- Up to the first valid block of a kind, the longs that are summed are those of the block. -/
def ScanFits (s : Setup) (id : BitVec 32) (n i : Nat) : Prop :=
  ∀ k, i ≤ k → k < i + n → NoneIn s id i k → ∀ b, s.block_read (.ofNat 32 k) = some b → b.id = id →
    b.summed_longs ≤ 128

theorem NoneIn.self (s : Setup) (id : BitVec 32) (i : Nat) : NoneIn s id i i :=
  fun _ hle hlt => absurd hle (Nat.not_le_of_lt hlt)

theorem noneIn_step {id : BitVec 32} {i k : Nat} (hlt : i < k) :
    NoneIn s id i k ↔ (∀ b, ¬Valid s id (.ofNat 32 i) b) ∧ NoneIn s id (i + 1) k := by
  constructor
  · exact fun h => ⟨h i le_rfl hlt, fun j hle => h j (Nat.le_of_succ_le hle)⟩
  · intro h j hle
    rcases Nat.eq_or_lt_of_le hle with rfl | hlt
    · exact fun _ => h.1
    · exact h.2 j hlt

/-- A block that is not the one leaves the rest. -/
theorem scan_skip {id : BitVec 32} {n i : Nat} (hnot : ∀ b, ¬Valid s id (.ofNat 32 i) b)
    (hfits : ∀ b, s.block_read (.ofNat 32 i) = some b → b.id = id → b.summed_longs ≤ 128) :
    scan s id (n + 1) i = scan s id n (i + 1) := by
  rw [scan]
  cases hread : s.block_read (.ofNat 32 i) with
  | none => rfl
  | some b =>
      rw [Option.elim_some]
      split
      · next hid =>
          have hwrong : total b b.summed_longs ≠ 0 := fun hzero =>
            hnot b ⟨hread, hid, hfits b hread hid, hzero⟩
          rw [sum_block_wrong (hfits b hread hid) hwrong]
          rfl
      · rfl

theorem scan_found {id : BitVec 32} {n i : Nat} {b : Block} (h : Valid s id (.ofNat 32 i) b) :
    scan s id (n + 1) i = some (some b) := by
  rw [scan, h.read, Option.elim_some, if_pos h.id_eq, sum_block_ok h.checksum]
  rfl

theorem scan_none {id : BitVec 32} {n i : Nat} {b : Block}
    (hread : s.block_read (.ofNat 32 i) = some b) (hid : b.id = id) (h : ¬b.summed_longs ≤ 128) :
    scan s id (n + 1) i = none := by
  rw [scan, hread, Option.elim_some, if_pos hid, sum_block_eq, if_neg h]
  rfl

/-- The loop returns if the longs are those of the blocks, and what it returns is the first valid
block. -/
theorem scan_returns (id : BitVec 32) (n i : Nat) :
    (ScanFits s id n i ∧ ((∃ b, First s id n i b ∧ scan s id n i = some (some b)) ∨
      (NoneIn s id i (i + n) ∧ scan s id n i = some none))) ∨
    (¬ScanFits s id n i ∧ scan s id n i = none) := by
  induction n generalizing i with
  | zero => exact .inl ⟨fun k hle hlt => absurd hle (by omega), .inr ⟨.self s id i, rfl⟩⟩
  | succ n ih =>
      by_cases hvalid : ∃ b, Valid s id (.ofNat 32 i) b
      · obtain ⟨b, hb⟩ := hvalid
        refine .inl ⟨fun k hle hlt hnone b' hread hid => ?_, .inl ⟨b, ⟨i, le_rfl, by omega, hb,
          .self s id i⟩, scan_found hb⟩⟩
        rcases Nat.eq_or_lt_of_le hle with rfl | hnext
        · obtain rfl := Option.some.inj (hread.symm.trans hb.read)
          exact hb.checksum.1
        · exact absurd hb (hnone i le_rfl hnext b)
      · rw [not_exists] at hvalid
        by_cases hfits : ∀ b, s.block_read (.ofNat 32 i) = some b → b.id = id →
            b.summed_longs ≤ 128
        · have hiff : ScanFits s id (n + 1) i ↔ ScanFits s id n (i + 1) := by
            constructor
            · intro h k hle hlt hnone
              exact h k (by omega) (by omega) ((noneIn_step hle).mpr ⟨hvalid, hnone⟩)
            · intro h k hle hlt hnone
              rcases Nat.eq_or_lt_of_le hle with rfl | hnext
              · exact hfits
              · exact h k hnext (by omega) ((noneIn_step hnext).mp hnone).2
          rw [hiff, scan_skip hvalid hfits]
          rcases ih (i + 1) with ⟨h, ⟨b, ⟨k, hle, hlt, hb, hnone⟩, hscan⟩ | ⟨hnone, hscan⟩⟩ | hno
          · exact .inl ⟨h, .inl ⟨b, ⟨k, by omega, by omega, hb,
              (noneIn_step hle).mpr ⟨hvalid, hnone⟩⟩, hscan⟩⟩
          · refine .inl ⟨h, .inr ⟨(noneIn_step (by omega)).mpr ⟨hvalid, ?_⟩, hscan⟩⟩
            rwa [Nat.add_right_comm] at hnone
          · exact .inr hno
        · obtain ⟨b, hb⟩ := not_forall.mp hfits
          obtain ⟨hread, hb⟩ := Classical.not_imp.mp hb
          obtain ⟨hid, hlong⟩ := Classical.not_imp.mp hb
          exact .inr ⟨fun h => hlong (h i le_rfl (by omega) (.self s id i) b hread hid),
            scan_none hread hid hlong⟩

/-! ## Along the list -/

theorem findLoop_stops {n : BitVec 32} (h : Stops s n) (turns : Nat) (partnum : Int) :
    findLoop s (turns + 1) n partnum = some none := by
  rw [findLoop]
  split
  · rfl
  · next hne =>
      cases hread : s.block_read n with
      | none => rfl
      | some p => exact if_neg (h.resolve_left hne p hread)

theorem findLoop_next {n : BitVec 32} {p : Block} (hne : n ≠ listEnd)
    (h : Valid s AMIGA_ID_PART n p) (turns : Nat) (partnum : Int) :
    findLoop s (turns + 1) n partnum =
      if partnum = 0 then some (some p) else findLoop s turns p.next (partnum - 1) := by
  rw [findLoop, if_neg hne, h.read, Option.elim_some, if_pos h.id_eq, sum_block_ok h.checksum]
  rfl

/-- The partition of a number in a list, counted from 0. -/
def nth (ps : List Block) (partnum : Int) : Option Block :=
  if 0 ≤ partnum then ps[partnum.toNat]? else none

theorem nth_cons (p : Block) (ps : List Block) {partnum : Int} (h : partnum ≠ 0) :
    nth (p :: ps) partnum = nth ps (partnum - 1) := by
  rw [nth, nth]
  rcases lt_or_ge partnum 0 with hlt | hge
  · rw [if_neg (by omega), if_neg (by omega)]
  · rw [if_pos hge, if_pos (by omega)]
    have hsucc : partnum.toNat = (partnum - 1).toNat + 1 := by omega
    rw [hsucc, List.getElem?_cons_succ]

theorem findLoop_leads {last n : BitVec 32} {ps : List Block} (h : Leads s last n ps)
    (hstops : Stops s last) (turns : Nat) (partnum : Int) :
    findLoop s (ps.length + 1 + turns) n partnum = some (nth ps partnum) := by
  induction h generalizing partnum with
  | here =>
      rw [Nat.add_right_comm, findLoop_stops hstops, nth]
      split <;> rfl
  | next notEnd valid rest ih =>
      rename_i n p ps
      rw [List.length_cons, Nat.add_right_comm, findLoop_next notEnd valid]
      split
      · next hzero =>
          subst hzero
          rfl
      · next hne => rw [nth_cons p ps hne, ← ih]

theorem printLoop_leads {last n : BitVec 32} {ps : List Block} (h : Leads s last n ps)
    (hstops : Stops s last) :
    printLoop s (ps.length + 1) n = some (ps.map (print_part_info s.big)) := by
  induction h with
  | here =>
      rw [List.length_nil, printLoop]
      split
      · rfl
      · next hne =>
          cases hread : s.block_read last with
          | none => rfl
          | some p => exact if_neg (hstops.resolve_left hne p hread)
  | next notEnd valid rest ih =>
      rw [List.length_cons, printLoop, if_neg notEnd, valid.read, Option.elim_some,
        if_pos valid.id_eq, sum_block_ok valid.checksum]
      dsimp only [Option.bind_eq_bind, Option.bind_some]
      rw [if_neg Bool.false_ne_true, ih]
      rfl

/-- A list that is printed has an end. -/
theorem leads_of_printLoop {turns : Nat} {n : BitVec 32} {lines : List Line}
    (h : printLoop s turns n = some lines) : ∃ last ps, Leads s last n ps ∧ Stops s last := by
  induction turns generalizing n lines with
  | zero => exact nomatch h
  | succ turns ih =>
      by_cases hne : n = listEnd
      · exact ⟨n, [], .here, .inl hne⟩
      · rw [printLoop, if_neg hne] at h
        cases hread : s.block_read n with
        | none => exact ⟨n, [], .here, .inr fun p hp => nomatch hread.symm.trans hp⟩
        | some p =>
            rw [hread, Option.elim_some] at h
            by_cases hid : p.id = AMIGA_ID_PART
            · rw [if_pos hid, Option.bind_eq_bind, Option.bind_eq_some_iff] at h
              obtain ⟨wrong, hsum, hrest⟩ := h
              cases wrong with
              | true => exact ih hrest
              | false =>
                  rw [if_neg Bool.false_ne_true, Option.bind_eq_bind,
                    Option.bind_eq_some_iff] at hrest
                  obtain ⟨lines', hlines, -⟩ := hrest
                  obtain ⟨last, ps, hleads, hstops⟩ := ih hlines
                  exact ⟨last, p :: ps, .next hne ⟨hread, hid, checksumOk_of_sum_block hsum⟩
                    hleads, hstops⟩
            · refine ⟨n, [], .here, .inr fun p' hp' => ?_⟩
              obtain rfl := Option.some.inj (hread.symm.trans hp')
              exact hid

/-- A list has one way to an end. -/
theorem Leads.unique {last last' n : BitVec 32} {ps ps' : List Block} (h : Leads s last n ps)
    (hstops : Stops s last) (h' : Leads s last' n ps')
    (hstops' : ∀ p, ¬(last' ≠ listEnd ∧ Valid s AMIGA_ID_PART last' p)) :
    last = last' ∧ ps = ps' := by
  induction h generalizing ps' with
  | here =>
      cases h' with
      | here => exact ⟨rfl, rfl⟩
      | next notEnd valid _ =>
          exact absurd valid.id_eq (hstops.resolve_left notEnd _ valid.read)
  | next notEnd valid _ ih =>
      cases h' with
      | here => exact absurd ⟨notEnd, valid⟩ (hstops' _)
      | next notEnd' valid' rest' =>
          obtain rfl := Option.some.inj (valid.read.symm.trans valid'.read)
          obtain ⟨hlast, hps⟩ := ih rest'
          exact ⟨hlast, congrArg _ hps⟩

/-! ## The lookup -/

/-- The first block of a partition, and the number of its blocks. -/
def firstBlock (p : Block) : BitVec 32 := p.low_cyl * p.block_per_track * p.surfaces
def blocks (p : Block) : BitVec 32 := (p.high_cyl - p.low_cyl + 1) * p.block_per_track * p.surfaces

/-- The name has room in `info`, with its nul. -/
def NameFits (s : Setup) (p : Block) : Prop := (bcpl_strcpy (p.drive_name s.big)).length ≤ 32

/-- The rigid disk block of a disk. -/
def IsRdisk (s : Setup) (rdb : Block) : Prop := First s AMIGA_ID_RDISK (limit s) 0 rdb

/-- The lookup and the summary come to an end, with sums of longs of the blocks. In a complete list
whose names fit, exactly its partitions are found, with their first block and number of blocks.
Behind the partitions in front of a block with a wrong id or checksum there are no others. -/
structure LookupRight (s : Setup) : Prop where
  info_returns : ∀ part, ∃ turns r, get_partition_info_amiga s turns part = some r
  print_returns : ∃ turns r, print_part_amiga s turns = some r
  lists : ∀ rdb ps, IsRdisk s rdb → Leads s listEnd rdb.partition_list ps →
    (∀ p ∈ ps, NameFits s p) → ∀ part : Int,
      ∃ turns r, get_partition_info_amiga s turns part = some r ∧
        (r ≠ none ↔ 1 ≤ part ∧ part ≤ ps.length) ∧
        ∀ info, r = some info → ∃ p, nth ps (part - 1) = some p ∧ info.start = firstBlock p ∧
          info.size = blocks p
  fails : ∀ rdb last ps p, IsRdisk s rdb → Leads s last rdb.partition_list ps → last ≠ listEnd →
    s.block_read last = some p → (p.id ≠ AMIGA_ID_PART ∨ ¬ChecksumOk p) → ∀ part : Int,
      ¬(1 ≤ part ∧ part ≤ ps.length) → ∃ turns, get_partition_info_amiga s turns part = some none

/-- The list is complete, without partitions or with a name that does not fit, or it leads to a
block that cannot be read or has a wrong id. -/
def ListSuits (s : Setup) (rdb : Block) : Prop :=
  ∃ last ps, Leads s last rdb.partition_list ps ∧
    ((last = listEnd ∧ (ps = [] ∨ ∃ p ∈ ps, ¬NameFits s p)) ∨
      (last ≠ listEnd ∧ ∀ p, s.block_read last = some p → p.id ≠ AMIGA_ID_PART))

/-- The longs that are summed of the blocks that could be a rigid disk block are theirs. If there is
one, so are those of boot blocks, and its list has an end but no partitions to be found. -/
structure Suits (s : Setup) : Prop where
  rdisk : ScanFits s AMIGA_ID_RDISK (limit s) 0
  boot : ∀ rdb, IsRdisk s rdb → ScanFits s AMIGA_ID_BOOT (limit s) 0
  list : ∀ rdb, IsRdisk s rdb → ListSuits s rdb

theorem First.unique {id : BitVec 32} {n i : Nat} {b b' : Block} (h : First s id n i b)
    (h' : First s id n i b') : b = b' := by
  obtain ⟨k, hle, -, hb, hnone⟩ := h
  obtain ⟨k', hle', -, hb', hnone'⟩ := h'
  rcases Nat.lt_trichotomy k k' with hlt | rfl | hlt
  · exact absurd hb (hnone' k hle hlt b)
  · exact Option.some.inj (hb.read.symm.trans hb'.read)
  · exact absurd hb' (hnone k' hle' hlt b')

theorem scan_first {id : BitVec 32} {n i : Nat} {b : Block} (hfits : ScanFits s id n i)
    (h : First s id n i b) : scan s id n i = some (some b) := by
  rcases scan_returns (s := s) id n i with ⟨-, ⟨b', hb', hscan⟩ | ⟨hnone, -⟩⟩ | ⟨hnot, -⟩
  · rwa [h.unique hb']
  · obtain ⟨k, hle, hlt, hb, -⟩ := h
    exact absurd hb (hnone k hle hlt b)
  · exact absurd hfits hnot

theorem scan_fits {id : BitVec 32} {n i : Nat} {r : Option Block} (h : scan s id n i = some r) :
    ScanFits s id n i := by
  rcases scan_returns (s := s) id n i with ⟨hfits, -⟩ | ⟨-, hnone⟩
  · exact hfits
  · exact nomatch hnone.symm.trans h

theorem scan_total {id : BitVec 32} {n i : Nat} (h : ScanFits s id n i) :
    ∃ r, scan s id n i = some r := by
  rcases scan_returns (s := s) id n i with ⟨-, ⟨b, -, hscan⟩ | ⟨-, hscan⟩⟩ | ⟨hnot, -⟩
  · exact ⟨_, hscan⟩
  · exact ⟨_, hscan⟩
  · exact absurd h hnot

variable {rdb : Block} {last : BitVec 32} {ps : List Block}

/-- A list with an end is searched up to it. -/
theorem info_eq (hrdb : get_rdisk s = some (some rdb)) (h : Leads s last rdb.partition_list ps)
    (hstops : Stops s last) (part : Int) :
    get_partition_info_amiga s (ps.length + 1) part =
      some ((nth ps (part - 1)).map (infoOf s.big rdb)) := by
  have hloop := findLoop_leads h hstops 0 (part - 1)
  rw [Nat.add_zero] at hloop
  rw [get_partition_info_amiga, find_partition, hrdb]
  dsimp only [Option.bind_eq_bind, Option.bind_some, Option.elim_some]
  rw [hloop]
  cases nth ps (part - 1) <;> rfl

theorem info_none (hrdb : get_rdisk s = some none) (turns : Nat) (part : Int) :
    get_partition_info_amiga s turns part = some none := by
  rw [get_partition_info_amiga, find_partition, hrdb]
  rfl

theorem nth_ne_none (ps : List Block) (part : Int) :
    nth ps (part - 1) ≠ none ↔ 1 ≤ part ∧ part ≤ ps.length := by
  rw [nth]
  split
  · rw [Ne, List.getElem?_eq_none_iff]
    omega
  · exact iff_of_false (fun h => h rfl) (by omega)

theorem ListSuits.stops (h : ListSuits s rdb) :
    ∃ last ps, Leads s last rdb.partition_list ps ∧ Stops s last ∧
      (last = listEnd → ps = [] ∨ ∃ p ∈ ps, ¬NameFits s p) := by
  obtain ⟨last, ps, hleads, ⟨hend, hps⟩ | ⟨hne, hread⟩⟩ := h
  · exact ⟨last, ps, hleads, .inl hend, fun _ => hps⟩
  · exact ⟨last, ps, hleads, .inr hread, fun hend => absurd hend hne⟩

theorem Suits.lookup (h : Suits s) : LookupRight s := by
  have hrdisk {rdb : Block} (hrdb : IsRdisk s rdb) : get_rdisk s = some (some rdb) :=
    scan_first h.rdisk hrdb
  have hcases : (∃ rdb, IsRdisk s rdb) ∨ get_rdisk s = some none := by
    rcases scan_returns (s := s) AMIGA_ID_RDISK (limit s) 0 with
      ⟨-, ⟨b, hb, -⟩ | ⟨-, hscan⟩⟩ | ⟨hnot, -⟩
    · exact .inl ⟨b, hb⟩
    · exact .inr hscan
    · exact absurd h.rdisk hnot
  refine ⟨?_, ?_, ?_, ?_⟩
  · intro part
    rcases hcases with ⟨rdb, hrdb⟩ | hnone
    · obtain ⟨last, ps, hleads, hstops, -⟩ := (h.list rdb hrdb).stops
      exact ⟨_, _, info_eq (hrdisk hrdb) hleads hstops part⟩
    · exact ⟨0, _, info_none hnone 0 part⟩
  · rcases hcases with ⟨rdb, hrdb⟩ | hnone
    · obtain ⟨last, ps, hleads, hstops, -⟩ := (h.list rdb hrdb).stops
      obtain ⟨boot, hboot⟩ := scan_total (h.boot rdb hrdb)
      refine ⟨ps.length + 1, (ps.map (print_part_info s.big), boot.isSome), ?_⟩
      rw [print_part_amiga, hrdisk hrdb]
      dsimp only [Option.bind_eq_bind, Option.bind_some, Option.elim_some]
      rw [printLoop_leads hleads hstops, get_bootcode, hboot]
      rfl
    · refine ⟨0, ([], false), ?_⟩
      rw [print_part_amiga, hnone]
      rfl
  · intro rdb ps hrdb hleads hnames part
    obtain ⟨last, ps', hleads', hstops, hend⟩ := (h.list rdb hrdb).stops
    obtain ⟨rfl, rfl⟩ := hleads'.unique hstops hleads fun p hp => hp.1 rfl
    refine ⟨_, _, info_eq (hrdisk hrdb) hleads' hstops part, ?_, ?_⟩
    · rw [Ne, Option.map_eq_none_iff]
      exact nth_ne_none ps' part
    · rcases hend rfl with rfl | ⟨p, hp, hnot⟩
      · intro info hinfo
        rw [nth] at hinfo
        split at hinfo <;> exact nomatch hinfo
      · exact absurd (hnames p hp) hnot
  · intro rdb last ps p hrdb hleads hne hread hbad part hpart
    obtain ⟨last', ps', hleads', hstops, -⟩ := (h.list rdb hrdb).stops
    obtain ⟨rfl, rfl⟩ := hleads'.unique hstops hleads (by
      rintro p' ⟨-, hvalid⟩
      obtain rfl := Option.some.inj (hread.symm.trans hvalid.read)
      exact hbad.elim (fun hid => hid hvalid.id_eq) fun hsum => hsum hvalid.checksum)
    refine ⟨ps'.length + 1, ?_⟩
    have hnone : nth ps' (part - 1) = none := by
      by_contra hsome
      exact hpart ((nth_ne_none ps' part).mp hsome)
    rw [info_eq (hrdisk hrdb) hleads' hstops part, hnone]
    rfl

/-- What is printed has come to the end of the list. -/
theorem print_cases (hrdb : get_rdisk s = some (some rdb)) {turns : Nat} {r : List Line × Bool}
    (h : print_part_amiga s turns = some r) : ScanFits s AMIGA_ID_BOOT (limit s) 0 ∧
      ∃ last ps, Leads s last rdb.partition_list ps ∧ Stops s last := by
  rw [print_part_amiga, hrdb] at h
  dsimp only [Option.bind_eq_bind, Option.bind_some, Option.elim_some] at h
  obtain ⟨lines, hlines, hrest⟩ := Option.bind_eq_some_iff.mp h
  obtain ⟨boot, hboot, -⟩ := Option.bind_eq_some_iff.mp hrest
  exact ⟨scan_fits hboot, leads_of_printLoop hlines⟩

/-- The number of the blocks of a partition is never what is stored. -/
theorem size_ne (big : Bool) (rdb p : Block) : (infoOf big rdb p).size ≠ blocks p := by
  change blocks p - 1 ≠ blocks p
  generalize blocks p = n
  bv_omega

/-- More turns change nothing for a loop that has come to its end. -/
theorem findLoop_more {turns : Nat} {n : BitVec 32} {partnum : Int} {r : Option Block}
    (h : findLoop s turns n partnum = some r) : findLoop s (turns + 1) n partnum = some r := by
  induction turns generalizing n partnum with
  | zero => exact nomatch h
  | succ turns ih =>
      rw [findLoop] at h ⊢
      split at h
      · next hend => rwa [if_pos hend]
      · next hne =>
          rw [if_neg hne]
          cases hread : s.block_read n with
          | none => rwa [hread] at h
          | some p =>
              rw [hread, Option.elim_some] at h
              rw [Option.elim_some]
              split at h
              · next hid =>
                  rw [if_pos hid]
                  obtain ⟨wrong, hsum, hrest⟩ := Option.bind_eq_some_iff.mp h
                  rw [hsum, Option.bind_eq_bind, Option.bind_some]
                  split at hrest
                  · next hwrong => exact (if_pos hwrong).trans (ih hrest)
                  · next hright =>
                      rw [if_neg hright]
                      split at hrest
                      · next hzero => exact (if_pos hzero).trans hrest
                      · next hne => exact (if_neg hne).trans (ih hrest)
              · next hid => rwa [if_neg hid]

/-- What is found in a list is found in any number of turns that is enough. -/
theorem info_unique {r : Option disk_partition} {turns : Nat} {part : Int}
    (hrdb : get_rdisk s = some (some rdb)) (hleads : Leads s last rdb.partition_list ps)
    (hstops : Stops s last) (h : get_partition_info_amiga s turns part = some r) :
    r = (nth ps (part - 1)).map (infoOf s.big rdb) := by
  rw [get_partition_info_amiga, find_partition, hrdb] at h
  dsimp only [Option.bind_eq_bind, Option.bind_some, Option.elim_some] at h
  obtain ⟨found, hfound, hmap⟩ := Option.bind_eq_some_iff.mp h
  obtain ⟨p, hp, hpair⟩ := Option.bind_eq_some_iff.mp hfound
  have hmore (k : Nat) : findLoop s (turns + k) rdb.partition_list (part - 1) = some p := by
    induction k with
    | zero => exact hp
    | succ k ih => exact findLoop_more ih
  have hloop := findLoop_leads hleads hstops turns (part - 1)
  rw [Nat.add_comm, hmore, Option.some.injEq] at hloop
  rw [← hloop]
  rw [Option.pure_def, Option.some.injEq] at hpair hmap
  rw [← hmap, ← hpair, Option.map_map]
  rfl

theorem LookupRight.suits (h : LookupRight s) : Suits s := by
  obtain ⟨turns, r, hprint⟩ := h.print_returns
  have hfits : ScanFits s AMIGA_ID_RDISK (limit s) 0 := by
    rw [print_part_amiga] at hprint
    obtain ⟨rdb, hrdb, -⟩ := Option.bind_eq_some_iff.mp hprint
    exact scan_fits hrdb
  refine ⟨hfits, fun rdb hrdb => (print_cases (scan_first hfits hrdb) hprint).1,
    fun rdb hrdb => ?_⟩
  obtain ⟨last, ps, hleads, hstops⟩ := (print_cases (scan_first hfits hrdb) hprint).2
  refine ⟨last, ps, hleads, ?_⟩
  by_cases hend : last = listEnd
  · subst hend
    refine .inl ⟨rfl, ?_⟩
    by_contra hlist
    rw [not_or, not_exists] at hlist
    obtain ⟨hne, hall⟩ := hlist
    have hnames (p : Block) (hp : p ∈ ps) : NameFits s p := by
      by_contra hnot
      exact hall p ⟨hp, hnot⟩
    -- the first partition of a complete list
    obtain ⟨turns, r, hr, hsome, hinfo⟩ := h.lists rdb ps hrdb hleads hnames 1
    have hpos : 0 < ps.length := List.length_pos_iff.mpr hne
    cases r with
    | none => exact hsome.mpr ⟨le_rfl, by omega⟩ rfl
    | some info =>
        obtain ⟨p, hp, -, hsize⟩ := hinfo info rfl
        have hfound := info_unique (scan_first hfits hrdb) hleads hstops hr
        rw [hp, Option.map_some, Option.some.injEq] at hfound
        exact size_ne s.big rdb p (hfound ▸ hsize)
  · exact .inr ⟨hend, hstops.resolve_left hend⟩

/-- The lookup is right on a disk exactly if nothing is summed behind a block and there is no list
of partitions to be found: none with an end and partitions, none with a wrong checksum, and none
without an end. -/
theorem lookupRight_iff (s : Setup) : LookupRight s ↔ Suits s := ⟨LookupRight.suits, Suits.lookup⟩

/-! ## A disk -/

/-- A block that begins with these longs. -/
def blockOf (longs : List (BitVec 32)) : Block where
  longs := (longs ++ List.replicate 128 0).take 128
  length_eq := by simp

/-- A rigid disk block with its list at block 1. -/
def rdisk : Block := blockOf [AMIGA_ID_RDISK, 64, 0xADBBAA74, 0, 512, 0, 0, 1]

/-- A partition `DH0` of cylinders 2 to 9, with 16 heads and 63 blocks in a track. -/
def dh0 : Block := blockOf ([AMIGA_ID_PART, 64, 0xAC7A64E3, 0, listEnd, 0, 0, 0, 0, 0x03444830] ++
  List.replicate 25 0 ++ [16, 0, 63, 0, 0, 0, 2, 9])

def amigaDisk : Setup where
  big := true
  amiga_scanlimit := none
  block_read n := if n = 0 then some rdisk else if n = 1 then some dh0 else none

set_option maxRecDepth 4000 in
theorem rdisk_valid : Valid amigaDisk AMIGA_ID_RDISK 0 rdisk := ⟨rfl, rfl, by decide, rfl⟩

set_option maxRecDepth 4000 in
theorem dh0_valid : Valid amigaDisk AMIGA_ID_PART 1 dh0 := ⟨rfl, rfl, by decide, rfl⟩

theorem rdisk_first : IsRdisk amigaDisk rdisk :=
  ⟨0, le_rfl, by decide, rdisk_valid, .self _ _ 0⟩

theorem dh0_leads : Leads amigaDisk listEnd rdisk.partition_list [dh0] :=
  .next (by decide) dh0_valid .here

/-- A partition of 8064 blocks has a size of 8063. -/
theorem not_lookupRight : ¬LookupRight amigaDisk := by
  intro h
  have hrdisk : get_rdisk amigaDisk = some (some rdisk) := scan_found rdisk_valid
  have hname : ∀ p ∈ [dh0], NameFits amigaDisk p := by
    rintro p hp
    obtain rfl := List.mem_singleton.mp hp
    rw [NameFits]
    decide
  obtain ⟨turns, r, hr, -, hinfo⟩ := h.lists rdisk [dh0] rdisk_first dh0_leads hname 1
  obtain rfl := info_unique hrdisk dh0_leads (.inl rfl) hr
  obtain ⟨p, hp, -, hsize⟩ := hinfo (infoOf true rdisk dh0) rfl
  obtain rfl := Option.some.inj hp
  exact size_ne true rdisk dh0 hsize

end UBoot.Amiga
