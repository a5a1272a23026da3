/-
# The numbers of DOS partitions

On a disk with a master boot record and a chain of extended boot records, the entries of the
first have the numbers 1 to 4, and the logical partitions of the chain the numbers from 5 on.
Both walks follow this rule. The one that prints stops at a sector with the mark of a FAT file
system.
-/

import UBoot.Disk.PartDos

namespace UBoot.Disk

variable {dev_desc : BlockDev} {P : Buffer → Prop}

/-! ## Well-formed disks -/

/-- An entry of a partition that is not extended. -/
def DosPartition.Plain (pt : DosPartition) : Prop := pt.sys_ind ≠ 0#8 ∧ ¬ is_extended pt.sys_ind

instance DosPartition.instDecidablePlain (pt : DosPartition) : Decidable pt.Plain :=
  inferInstanceAs (Decidable (_ ∧ _))

/-- The plain entries of a table, and the extended ones. -/
def plain (buffer : Buffer) : List DosPartition := (partitionTable buffer).filter (·.Plain)
def extended (buffer : Buffer) : List DosPartition :=
  (partitionTable buffer).filter fun pt => is_extended pt.sys_ind

/-- A sector with a partition table: it can be read, has the signature and boot flags 0 or 0x80,
and satisfies `P`. -/
structure Table (dev_desc : BlockDev) (P : Buffer → Prop) (sector : Sector) (buffer : Buffer) :
    Prop where
  read : dev_desc.block_read sector = some buffer
  magic : signature buffer
  flags : ∀ pt ∈ partitionTable buffer, pt.boot_ind = 0#8 ∨ pt.boot_ind = 0x80#8
  mark : P buffer

/-- The chain of the extended boot records from a sector on, with its logical partitions. Links
are relative to `base`, logical partitions to their own record. -/
inductive Chain (dev_desc : BlockDev) (P : Buffer → Prop) (base : Sector) :
    Sector → List (Sector × DosPartition) → Prop
  | last {sector : Sector} {buffer : Buffer} (apart : sector ≠ 0#32)
      (table : Table dev_desc P sector buffer) (one : (plain buffer).length ≤ 1)
      (fin : extended buffer = []) :
      Chain dev_desc P base sector ((plain buffer).map (Prod.mk sector))
  | link {sector : Sector} {buffer : Buffer} {pt : DosPartition}
      {logicals : List (Sector × DosPartition)} (apart : sector ≠ 0#32)
      (table : Table dev_desc P sector buffer) (one : (plain buffer).length ≤ 1)
      (next : extended buffer = [pt]) (rest : Chain dev_desc P base (pt.start4 + base) logicals) :
      Chain dev_desc P base sector ((plain buffer).map (Prod.mk sector) ++ logicals)

/-- A disk with these entries in its master boot record, and these logical partitions. -/
structure WellFormed (dev_desc : BlockDev) (P : Buffer → Prop) (primaries : List DosPartition)
    (logicals : List (Sector × DosPartition)) : Prop where
  mbr : ∃ buffer, Table dev_desc P 0#32 buffer ∧ partitionTable buffer = primaries ∧
    ((extended buffer = [] ∧ logicals = []) ∨
      ∃ pt, extended buffer = [pt] ∧ Chain dev_desc P pt.start4 pt.start4 logicals)

/-- A number stands for an entry of a record in a sector. -/
inductive Numbered (primaries : List DosPartition) (logicals : List (Sector × DosPartition)) :
    Int → Sector → DosPartition → Prop
  | primary {i : Nat} {pt : DosPartition} (entry : primaries[i]? = some pt) (plain : pt.Plain) :
      Numbered primaries logicals (1 + i) 0#32 pt
  | logical {i : Nat} {sector : Sector} {pt : DosPartition}
      (entry : logicals[i]? = some (sector, pt)) : Numbered primaries logicals (5 + i) sector pt

/-- The lines for logical partitions from a number on. -/
def logicalLines : List (Sector × DosPartition) → Int → List Line
  | [], _ => []
  | (sector, pt) :: rest, n => print_one_part pt sector n :: logicalLines rest (n + 1)

/-- The lines for the entries of the master boot record from a number on: every one that is not
empty. -/
def primaryLines : List DosPartition → Int → List Line
  | [], _ => []
  | pt :: rest, n =>
      if pt.sys_ind ≠ 0#8 then print_one_part pt 0#32 n :: primaryLines rest (n + 1)
      else primaryLines rest (n + 1)

/-! ## One table -/

theorem boot_flag {b : Byte} (h : b = 0#8 ∨ b = 0x80#8) : b &&& 0x7f#8 = 0#8 := by
  rcases h with rfl | rfl <;> decide

theorem nextPartNum_plain {sector : Sector} {pt : DosPartition} (h : pt.Plain) (n : Int) :
    nextPartNum sector pt n = n + 1 :=
  if_pos (Or.inr h)

theorem nextPartNum_other {sector : Sector} {pt : DosPartition} (hsector : sector ≠ 0#32)
    (h : ¬ pt.Plain) (n : Int) : nextPartNum sector pt n = n :=
  if_neg fun hor => hor.elim hsector h

/-- In the master boot record every entry has a number. -/
theorem findPartition_mbr (which : Int) {pts : List DosPartition}
    (hflags : ∀ pt ∈ pts, pt.boot_ind = 0#8 ∨ pt.boot_ind = 0x80#8) (n : Int) :
    (∃ i pt, which = n + (i : Nat) ∧ pts[i]? = some pt ∧ pt.Plain ∧
      findPartition dev_desc 0#32 which pts n = .inl (partitionInfo dev_desc 0#32 which pt)) ∨
    ((∀ i pt, which = n + (i : Nat) → pts[i]? = some pt → ¬ pt.Plain) ∧
      findPartition dev_desc 0#32 which pts n = .inr (n + pts.length)) := by
  induction pts generalizing n with
  | nil => exact Or.inr ⟨fun i pt _ h => by simp at h, by simp [findPartition]⟩
  | cons pt rest ih =>
      rw [findPartition]
      by_cases hhere : n = which ∧ pt.Plain
      · left
        refine ⟨0, pt, by simp [hhere.1], rfl, hhere.2, ?_⟩
        rw [if_pos ⟨boot_flag (hflags pt List.mem_cons_self), hhere.2.1, hhere.1, hhere.2.2⟩, hhere.1]
      · rw [if_neg fun h => hhere ⟨h.2.2.1, h.2.1, h.2.2.2⟩, nextPartNum, if_pos (Or.inl rfl)]
        rcases ih (fun p hp => hflags p (List.mem_cons_of_mem _ hp)) (n + 1) with
          ⟨i, p, hwhich, hp, hplain, hfind⟩ | ⟨hnone, hfind⟩
        · exact Or.inl ⟨i + 1, p, by omega, hp, hplain, hfind⟩
        · refine Or.inr ⟨fun i p hwhich hp => ?_, ?_⟩
          · cases i with
            | zero =>
                obtain rfl : pt = p := by simpa using hp
                exact fun hplain => hhere ⟨by omega, hplain⟩
            | succ i => exact hnone i p (by omega) hp
          · rw [hfind, List.length_cons]
            congr 1
            omega

/-- In an extended boot record the plain entries have numbers. -/
theorem findPartition_ebr {sector : Sector} (hsector : sector ≠ 0#32) (which : Int)
    {pts : List DosPartition} (hflags : ∀ pt ∈ pts, pt.boot_ind = 0#8 ∨ pt.boot_ind = 0x80#8)
    (n : Int) :
    (∃ i pt, which = n + (i : Nat) ∧ (pts.filter (·.Plain))[i]? = some pt ∧
      findPartition dev_desc sector which pts n = .inl (partitionInfo dev_desc sector which pt)) ∨
    ((∀ i pt, which = n + (i : Nat) → (pts.filter (·.Plain))[i]? ≠ some pt) ∧
      findPartition dev_desc sector which pts n = .inr (n + (pts.filter (·.Plain)).length)) := by
  induction pts generalizing n with
  | nil => exact Or.inr ⟨fun i pt _ h => by simp at h, by simp [findPartition]⟩
  | cons pt rest ih =>
      have ih := ih (fun p hp => hflags p (List.mem_cons_of_mem _ hp))
      rw [findPartition]
      by_cases hplain : pt.Plain
      · rw [List.filter_cons_of_pos (by simpa using hplain)]
        by_cases hhere : n = which
        · left
          refine ⟨0, pt, by simp [hhere], rfl, ?_⟩
          rw [if_pos ⟨boot_flag (hflags pt List.mem_cons_self), hplain.1, hhere, hplain.2⟩, hhere]
        · rw [if_neg fun h => hhere h.2.2.1, nextPartNum_plain hplain]
          rcases ih (n + 1) with ⟨i, p, hwhich, hp, hfind⟩ | ⟨hnone, hfind⟩
          · exact Or.inl ⟨i + 1, p, by omega, hp, hfind⟩
          · refine Or.inr ⟨fun i p hwhich hp => ?_, ?_⟩
            · cases i with
              | zero => exact hhere (by omega)
              | succ i => exact hnone i p (by omega) hp
            · rw [hfind, List.length_cons]
              congr 1
              omega
      · rw [List.filter_cons_of_neg (by simpa using hplain),
          if_neg fun h => hplain ⟨h.2.1, h.2.2.2⟩, nextPartNum_other hsector hplain]
        exact ih n

/-- The lines for the master boot record. -/
theorem printEntries_mbr (pts : List DosPartition) (n : Int) :
    printEntries 0#32 pts n = (primaryLines pts n, n + pts.length) := by
  induction pts generalizing n with
  | nil => simp [printEntries, primaryLines]
  | cons pt rest ih =>
      rw [printEntries, nextPartNum, if_pos (Or.inl rfl), ih, primaryLines, List.length_cons]
      simp only [true_or, and_true]
      split
      · exact Prod.ext rfl (by push_cast; omega)
      · exact Prod.ext rfl (by push_cast; omega)

/-- The lines for an extended boot record. -/
theorem printEntries_ebr {sector : Sector} (hsector : sector ≠ 0#32) (pts : List DosPartition)
    (n : Int) :
    printEntries sector pts n = (logicalLines ((pts.filter (·.Plain)).map (Prod.mk sector)) n,
      n + (pts.filter (·.Plain)).length) := by
  induction pts generalizing n with
  | nil => simp [printEntries, logicalLines]
  | cons pt rest ih =>
      rw [printEntries]
      by_cases hplain : pt.Plain
      · rw [List.filter_cons_of_pos (by simpa using hplain), nextPartNum_plain hplain, ih]
        simp only
        rw [if_pos ⟨hplain.1, Or.inr hplain.2⟩, List.map_cons, logicalLines, List.length_cons]
        exact Prod.ext rfl (by push_cast; omega)
      · rw [List.filter_cons_of_neg (by simpa using hplain), nextPartNum_other hsector hplain, ih]
        simp only
        rw [if_neg fun h => hplain ⟨h.1, h.2.resolve_left hsector⟩]

/-! ## The chain -/

theorem find?_extended (buffer : Buffer) :
    (partitionTable buffer).find? (fun pt => is_extended pt.sys_ind) = (extended buffer).head? := by
  rw [extended, List.head?_filter]

/-- Where a number falls in the partitions of a record and of the records behind it. -/
theorem getElem?_chain (sector : Sector) (here : List DosPartition)
    (logicals : List (Sector × DosPartition)) (i : Nat) :
    (here.map (Prod.mk sector) ++ logicals)[i]? =
      if i < here.length then here[i]?.map (Prod.mk sector) else logicals[i - here.length]? := by
  rw [List.getElem?_append, List.length_map, List.getElem?_map]

/-- The walk along the chain finds the logical partition with the number, if there is one. -/
theorem get_partition_info_chain {base sector : Sector} {logicals : List (Sector × DosPartition)}
    (h : Chain dev_desc P base sector logicals) :
    ∃ N, ∀ fuel, N ≤ fuel → ∀ n which : Int,
      (∃ i s pt, which = n + (i : Nat) ∧ logicals[i]? = some (s, pt) ∧
        get_partition_info_extended dev_desc which fuel sector base n =
          some (some (partitionInfo dev_desc s which pt))) ∨
      ((∀ i p, which = n + (i : Nat) → logicals[i]? ≠ some p) ∧
        get_partition_info_extended dev_desc which fuel sector base n = some none) := by
  induction h with
  | @last sector buffer apart table one fin =>
      refine ⟨1, fun fuel hfuel n which => ?_⟩
      obtain ⟨fuel, rfl⟩ := Nat.exists_eq_add_of_le' hfuel
      rw [get_partition_info_extended]
      simp only [table.read, table.magic, not_true_eq_false, if_false, find?_extended, fin,
        List.head?_nil]
      rcases @findPartition_ebr dev_desc sector apart which (partitionTable buffer) table.flags n with
        ⟨i, pt, hwhich, hpt, hfind⟩ | ⟨hnone, hfind⟩
      · exact Or.inl ⟨i, sector, pt, hwhich, by rw [List.getElem?_map, plain, hpt]; rfl, by rw [hfind]⟩
      · refine Or.inr ⟨fun i p hwhich hp => ?_, by rw [hfind]⟩
        rw [List.getElem?_map, Option.map_eq_some_iff] at hp
        obtain ⟨pt, hpt, -⟩ := hp
        exact hnone i pt hwhich hpt
  | @link sector buffer pt logicals apart table one next rest ih =>
      obtain ⟨N, hN⟩ := ih
      refine ⟨N + 1, fun fuel hfuel n which => ?_⟩
      obtain ⟨fuel, rfl⟩ := Nat.exists_eq_add_of_le' ((Nat.le_add_left 1 N).trans hfuel)
      rw [get_partition_info_extended]
      simp only [table.read, table.magic, not_true_eq_false, if_false, find?_extended, next,
        List.head?_cons, if_neg apart]
      rcases @findPartition_ebr dev_desc sector apart which (partitionTable buffer) table.flags n with
        ⟨i, p, hwhich, hp, hfind⟩ | ⟨hnone, hfind⟩
      · refine Or.inl ⟨i, sector, p, hwhich, ?_, by rw [hfind]⟩
        have hlt : i < (plain buffer).length := (List.getElem?_eq_some_iff.1 hp).1
        rw [getElem?_chain, if_pos hlt, plain, hp]
        rfl
      · rw [hfind]
        rcases hN fuel (by omega) (n + (plain buffer).length) which with
          ⟨i, s, p, hwhich, hp, hget⟩ | ⟨hbehind, hget⟩
        · refine Or.inl ⟨(plain buffer).length + i, s, p, by omega, ?_, hget⟩
          rw [getElem?_chain, if_neg (by omega), Nat.add_sub_cancel_left, hp]
        · refine Or.inr ⟨fun i p hwhich hp => ?_, hget⟩
          rw [getElem?_chain] at hp
          split at hp
          · obtain ⟨pt, hpt, -⟩ := Option.map_eq_some_iff.1 hp
            exact hnone i pt hwhich hpt
          · exact hbehind (i - (plain buffer).length) p (by omega) hp

theorem logicalLines_append (a b : List (Sector × DosPartition)) (n : Int) :
    logicalLines (a ++ b) n = logicalLines a n ++ logicalLines b (n + a.length) := by
  induction a generalizing n with
  | nil => simp [logicalLines]
  | cons p a ih =>
      rw [List.cons_append, logicalLines, logicalLines, ih, List.cons_append, List.length_cons,
        Nat.cast_succ, add_assoc, add_comm 1]

/-- The walk along the chain prints the logical partitions. -/
theorem print_partition_chain (hmark : ∀ buffer, P buffer → isPbr buffer = false)
    {base sector : Sector} {logicals : List (Sector × DosPartition)}
    (h : Chain dev_desc P base sector logicals) :
    ∃ N, ∀ fuel, N ≤ fuel → ∀ n : Int,
      print_partition_extended dev_desc fuel sector base n = some (logicalLines logicals n) := by
  induction h with
  | @last sector buffer apart table one fin =>
      refine ⟨1, fun fuel hfuel n => ?_⟩
      obtain ⟨fuel, rfl⟩ := Nat.exists_eq_add_of_le' hfuel
      rw [extended] at fin
      rw [print_partition_extended]
      simp only [table.read, table.magic, not_true_eq_false, if_false, hmark _ table.mark, fin,
        printEntries_ebr apart, Bool.false_eq_true, List.mapM_nil]
      exact congrArg some (List.append_nil _)
  | @link sector buffer pt logicals apart table one next rest ih =>
      obtain ⟨N, hN⟩ := ih
      refine ⟨N + 1, fun fuel hfuel n => ?_⟩
      obtain ⟨fuel, rfl⟩ := Nat.exists_eq_add_of_le' ((Nat.le_add_left 1 N).trans hfuel)
      rw [extended] at next
      rw [print_partition_extended]
      simp only [table.read, table.magic, not_true_eq_false, if_false, hmark _ table.mark, next,
        printEntries_ebr apart, Bool.false_eq_true, List.mapM_cons, List.mapM_nil, if_neg apart,
        hN fuel (by omega), Option.pure_def, Option.bind_eq_bind, Option.bind_some, Option.map_some,
        List.flatten_cons, List.flatten_nil, List.append_nil, logicalLines_append, List.length_map]
      rfl

/-! ## The disk -/

variable {primaries : List DosPartition} {logicals : List (Sector × DosPartition)}

/-- A number stands for one entry. -/
theorem Numbered.unique (hlen : primaries.length = 4) {n : Int} {s s' : Sector}
    {pt pt' : DosPartition} (h : Numbered primaries logicals n s pt)
    (h' : Numbered primaries logicals n s' pt') : s = s' ∧ pt = pt' := by
  generalize hn : n = m at h'
  cases h with
  | @primary i _ entry =>
      have hi := (List.getElem?_eq_some_iff.1 entry).1
      cases h' with
      | @primary j _ entry' =>
          obtain rfl : i = j := by omega
          exact ⟨rfl, Option.some.inj (entry.symm.trans entry')⟩
      | @logical j => omega
  | @logical i _ _ entry =>
      cases h' with
      | @primary j _ entry' =>
          have hj := (List.getElem?_eq_some_iff.1 entry').1
          omega
      | @logical j _ _ entry' =>
          obtain rfl : i = j := by omega
          exact Prod.mk.inj (Option.some.inj (entry.symm.trans entry'))

/-- What is found for a number, and for a number that stands for nothing. -/
theorem found_iff (hlen : primaries.length = 4) {n : Int} {s : Sector} {pt : DosPartition}
    (h : Numbered primaries logicals n s pt) (info : DiskPartition) :
    some (partitionInfo dev_desc s n pt) = some info ↔ ∃ sector pt,
      Numbered primaries logicals n sector pt ∧ info = partitionInfo dev_desc sector n pt := by
  constructor
  · rintro ⟨⟩
    exact ⟨s, pt, h, rfl⟩
  · rintro ⟨s', pt', h', rfl⟩
    obtain ⟨rfl, rfl⟩ := h.unique hlen h'
    rfl

theorem not_found_iff {n : Int}
    (hprimary : ∀ i pt, n = 1 + (i : Nat) → primaries[i]? = some pt → ¬ pt.Plain)
    (hlogical : ∀ i p, n = 5 + (i : Nat) → logicals[i]? ≠ some p) (info : DiskPartition) :
    none = some info ↔ ∃ sector pt, Numbered primaries logicals n sector pt ∧
      info = partitionInfo dev_desc sector n pt := by
  refine ⟨fun h => absurd h (by simp), ?_⟩
  rintro ⟨sector, pt, h, -⟩
  cases h with
  | primary entry plain => exact absurd plain (hprimary _ _ rfl entry)
  | logical entry => exact absurd entry (hlogical _ _ rfl)

theorem get_partition_info_dos_walk {buffer : Buffer} (table : Table dev_desc P 0#32 buffer)
    (fuel : Nat) (n : Int) :
    get_partition_info_dos dev_desc (fuel + 1) n =
      match findPartition dev_desc 0#32 n (partitionTable buffer) 1 with
      | .inl info => some (some info)
      | .inr part_num =>
          match (extended buffer).head? with
          | none => some none
          | some pt =>
              get_partition_info_extended dev_desc n fuel pt.start4 pt.start4 part_num := by
  rw [get_partition_info_dos, get_partition_info_extended]
  simp only [table.read, table.magic, not_true_eq_false, if_false, find?_extended, BitVec.add_zero,
    if_true] <;> rfl

/-- On a well-formed disk a number is found exactly if it stands for an entry, and what is
returned is that entry's. -/
theorem get_partition_info_dos_iff (h : WellFormed dev_desc P primaries logicals) :
    ∃ N, ∀ fuel, N ≤ fuel → ∀ n, ∃ found, get_partition_info_dos dev_desc fuel n = some found ∧
      ∀ info, found = some info ↔ ∃ sector pt, Numbered primaries logicals n sector pt ∧
        info = partitionInfo dev_desc sector n pt := by
  obtain ⟨buffer, table, rfl, hchain⟩ := h.mbr
  have hlen : (partitionTable buffer).length = 4 := by simp [partitionTable]
  have hwalk := get_partition_info_dos_walk table
  rcases hchain with ⟨hnone, rfl⟩ | ⟨link, hlink, hchain⟩
  · refine ⟨1, fun fuel hfuel n => ?_⟩
    obtain ⟨fuel, rfl⟩ := Nat.exists_eq_add_of_le' hfuel
    rw [hwalk]
    rcases @findPartition_mbr dev_desc n _ table.flags 1 with
      ⟨i, pt, rfl, hpt, hplain, hfind⟩ | ⟨hempty, hfind⟩
    · exact ⟨_, by rw [hfind], found_iff hlen (.primary hpt hplain)⟩
    · exact ⟨none, by rw [hfind, hnone]; rfl, not_found_iff hempty fun i p _ hp => by simp at hp⟩
  · obtain ⟨N, hN⟩ := get_partition_info_chain hchain
    refine ⟨N + 1, fun fuel hfuel n => ?_⟩
    obtain ⟨fuel, rfl⟩ := Nat.exists_eq_add_of_le' ((Nat.le_add_left 1 N).trans hfuel)
    rw [hwalk]
    rcases @findPartition_mbr dev_desc n _ table.flags 1 with
      ⟨i, pt, rfl, hpt, hplain, hfind⟩ | ⟨hempty, hfind⟩
    · exact ⟨_, by rw [hfind], found_iff hlen (.primary hpt hplain)⟩
    · rw [hfind, hlink, hlen]
      rcases hN fuel (by omega) (1 + (4 : Nat)) n with ⟨i, s, pt, hn, hpt, hget⟩ | ⟨hbehind, hget⟩
      · obtain rfl : n = 5 + (i : Int) := by omega
        exact ⟨_, hget, found_iff hlen (.logical hpt)⟩
      · exact ⟨none, hget, not_found_iff hempty fun i p hn => hbehind i p (by omega)⟩

/-- When no table has the mark of a FAT file system, the lines printed are those of the entries
with their numbers. -/
theorem print_part_dos_eq (h : WellFormed dev_desc P primaries logicals)
    (hmark : ∀ buffer, P buffer → isPbr buffer = false) :
    ∃ N, ∀ fuel, N ≤ fuel → print_part_dos dev_desc fuel =
      some (primaryLines primaries 1 ++ logicalLines logicals 5) := by
  obtain ⟨buffer, table, rfl, hchain⟩ := h.mbr
  have hlen : (partitionTable buffer).length = 4 := by simp [partitionTable]
  have hwalk : ∀ fuel, print_part_dos dev_desc (fuel + 1) =
      ((extended buffer).mapM fun pt =>
        print_partition_extended dev_desc fuel pt.start4 pt.start4 5).map
          fun rest => primaryLines (partitionTable buffer) 1 ++ rest.flatten := by
    intro fuel
    rw [print_part_dos, print_partition_extended]
    simp only [table.read, table.magic, not_true_eq_false, if_false, hmark _ table.mark,
      printEntries_mbr, Bool.false_eq_true, BitVec.add_zero, if_true, hlen]
    rfl
  rcases hchain with ⟨hnone, rfl⟩ | ⟨link, hlink, hchain⟩
  · refine ⟨1, fun fuel hfuel => ?_⟩
    obtain ⟨fuel, rfl⟩ := Nat.exists_eq_add_of_le' hfuel
    rw [hwalk, hnone]
    rfl
  · obtain ⟨N, hN⟩ := print_partition_chain hmark hchain
    refine ⟨N + 1, fun fuel hfuel => ?_⟩
    obtain ⟨fuel, rfl⟩ := Nat.exists_eq_add_of_le' ((Nat.le_add_left 1 N).trans hfuel)
    rw [hwalk, hlink]
    simp only [List.mapM_cons, List.mapM_nil, hN fuel (by omega), Option.pure_def,
      Option.bind_eq_bind, Option.bind_some, Option.map_some, List.flatten_cons, List.flatten_nil,
      List.append_nil]

/-- A sector with a table: each entry has a type, a start and a size. -/
def record (fs : Nat → Byte) (entries : List (Byte × Nat × Nat)) : Buffer := fun i =>
  if i = DOS_PART_MAGIC_OFFSET then 0x55#8
  else if i = DOS_PART_MAGIC_OFFSET + 1 then 0xaa#8
  else if i < DOS_PART_TBL_OFFSET then fs i
  else
    let (sys_ind, start, size) := entries.getD ((i - DOS_PART_TBL_OFFSET) / 16) (0, 0, 0)
    match (i - DOS_PART_TBL_OFFSET) % 16 with
    | 4 => sys_ind
    | 8 => BitVec.ofNat 8 start
    | 9 => BitVec.ofNat 8 (start / 256)
    | 10 => BitVec.ofNat 8 (start / 65536)
    | 11 => BitVec.ofNat 8 (start / 16777216)
    | 12 => BitVec.ofNat 8 size
    | 13 => BitVec.ofNat 8 (size / 256)
    | 14 => BitVec.ofNat 8 (size / 65536)
    | 15 => BitVec.ofNat 8 (size / 16777216)
    | _ => 0

/-- A disk with these sectors. -/
def diskOf (block_read : Sector → Option Buffer) : BlockDev := ⟨.IDE, 0, 4000000000#32, block_read⟩

/-- The letters of a FAT file system. -/
def fat16 : Nat → Byte := fun i =>
  if i = 0x36 then 0x46#8 else if i = 0x37 then 0x41#8 else if i = 0x38 then 0x54#8 else 0

/-- A disk with a primary partition, and a logical one. -/
def mbr : Buffer := record (fun _ => 0) [(0x83, 63, 100), (5, 1000, 500)]
def ebr : Buffer := record (fun _ => 0) [(0x83, 63, 100)]
def logicalDisk : BlockDev := diskOf fun sector =>
  if sector = 0#32 then some mbr else if sector = 1000#32 then some ebr else none

theorem wellFormed_logicalDisk :
    WellFormed logicalDisk (isPbr · = false) (partitionTable mbr)
      ((plain ebr).map (Prod.mk 1000#32)) where
  mbr := ⟨mbr, ⟨rfl, by decide, by decide, by decide⟩, rfl, Or.inr ⟨⟨0, 5, 1000#32, 500#32⟩, by decide,
    @Chain.last logicalDisk _ 1000#32 1000#32 ebr (by decide)
      ⟨rfl, by decide, by decide, by decide⟩ (by decide) (by decide)⟩⟩

/-- A disk with one primary partition. -/
def primaryDisk (fs : Nat → Byte) (start : Nat) : BlockDev :=
  diskOf fun sector => if sector = 0#32 then some (record fs [(0x83, start, 100)]) else none

theorem wellFormed_primaryDisk (fs : Nat → Byte) (start : Nat) :
    WellFormed (primaryDisk fs start) (fun _ => True)
      (partitionTable (record fs [(0x83, start, 100)])) [] where
  mbr := ⟨_, ⟨rfl, by rfl, fun pt hpt => by
    simp only [partitionTable, List.range, List.range.loop, List.map_cons, List.map_nil,
      List.mem_cons, List.not_mem_nil, or_false] at hpt
    rcases hpt with rfl | rfl | rfl | rfl <;> exact Or.inl rfl, trivial⟩, rfl, Or.inl ⟨rfl, rfl⟩⟩

end UBoot.Disk
