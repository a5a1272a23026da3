/-
# Walks over DOS partition tables that end

Both walks follow the links of boot records with no bound. There are finitely many sectors, so that
a walk that does not end is in a circle of boot records.
-/

import UBoot.Disk.PartDosChain
import UBoot.Lib.Run

namespace UBoot.Disk

open UBoot.Lib Relation

/-- Where a walk is: in a sector, with what the links in it are relative to. -/
abbrev Place := Sector × Sector

instance finiteBitVec (w : Nat) : Finite (BitVec w) :=
  Finite.of_injective (fun x : BitVec w => x.toFin) fun _ _ => BitVec.eq_of_toFin_eq

/-- The place that an extended entry links to. -/
def linkTo (a : Place) (pt : DosPartition) : Place :=
  (pt.start4 + a.2, if a.1 = 0#32 then pt.start4 + a.2 else a.2)

section Links

variable (dev_desc : BlockDev)

/-- The boot record in a sector: it can be read, and has the signature. -/
def Record (sector : Sector) (buffer : Buffer) : Prop :=
  dev_desc.block_read sector = some buffer ∧ signature buffer

/-- The first extended entry in the record at `a` links to `b`. -/
def FirstLink (a b : Place) : Prop :=
  ∃ buffer pt, Record dev_desc a.1 buffer ∧
    (partitionTable buffer).find? (fun pt => is_extended pt.sys_ind) = some pt ∧ b = linkTo a pt

/-- An extended entry in the record at `a`, which has no mark of a file system, links to `b`. -/
def AnyLink (a b : Place) : Prop :=
  ∃ buffer pt, Record dev_desc a.1 buffer ∧ isPbr buffer = false ∧ pt ∈ extended buffer ∧
    b = linkTo a pt

/-- On the way over the first extended entries, an entry has the number that is looked for. -/
inductive Meets (which_part : Int) : Place → Int → Prop
  | here {a : Place} {part_num : Int} {buffer : Buffer} {info : DiskPartition}
      (record : Record dev_desc a.1 buffer)
      (found : findPartition dev_desc a.1 which_part (partitionTable buffer) part_num = .inl info) :
      Meets which_part a part_num
  | there {a : Place} {part_num behind : Int} {buffer : Buffer} {pt : DosPartition}
      (record : Record dev_desc a.1 buffer)
      (passed : findPartition dev_desc a.1 which_part (partitionTable buffer) part_num =
        .inr behind)
      (link : (partitionTable buffer).find? (fun pt => is_extended pt.sys_ind) = some pt)
      (rest : Meets which_part (linkTo a pt) behind) : Meets which_part a part_num

end Links

variable {dev_desc : BlockDev} {which_part : Int} {a b : Place}

/-! ## Finding a partition -/

theorem get_partition_info_extended_stop (h : ∀ b, ¬FirstLink dev_desc a b) (fuel : Nat)
    (part_num : Int) :
    (get_partition_info_extended dev_desc which_part (fuel + 1) a.1 a.2 part_num).isSome := by
  rw [get_partition_info_extended]
  cases hread : dev_desc.block_read a.1 with
  | none => rfl
  | some buffer =>
      dsimp only
      split
      · rfl
      · next hsignature =>
          cases findPartition dev_desc a.1 which_part (partitionTable buffer) part_num with
          | inl info => rfl
          | inr behind =>
              cases hfind : (partitionTable buffer).find? fun pt => is_extended pt.sys_ind with
              | none => rfl
              | some pt => exact absurd ⟨buffer, pt, ⟨hread, not_not.mp hsignature⟩, hfind, rfl⟩ (h _)

theorem get_partition_info_extended_link {buffer : Buffer} {pt : DosPartition}
    (record : Record dev_desc a.1 buffer)
    (link : (partitionTable buffer).find? (fun pt => is_extended pt.sys_ind) = some pt)
    (fuel : Nat) (part_num : Int) :
    get_partition_info_extended dev_desc which_part (fuel + 1) a.1 a.2 part_num =
      match findPartition dev_desc a.1 which_part (partitionTable buffer) part_num with
      | .inl info => some (some info)
      | .inr behind => get_partition_info_extended dev_desc which_part fuel (linkTo a pt).1
          (linkTo a pt).2 behind := by
  rw [get_partition_info_extended, record.1]
  dsimp only
  rw [if_neg (not_not.mpr record.2), link]
  rfl

/-- The walk returns if there is no circle on its way, or the number is met on it. -/
theorem get_partition_info_extended_returns_iff (a : Place) (part_num : Int) :
    (∃ fuel, (get_partition_info_extended dev_desc which_part fuel a.1 a.2 part_num).isSome) ↔
      Ends (FirstLink dev_desc) a ∨ Meets dev_desc which_part a part_num := by
  constructor
  · rintro ⟨fuel, hreturns⟩
    induction fuel generalizing a part_num with
    | zero => exact absurd hreturns Bool.false_ne_true
    | succ fuel ih =>
        by_cases hlink : ∃ b, FirstLink dev_desc a b
        · obtain ⟨_, buffer, pt, record, link, rfl⟩ := hlink
          rw [get_partition_info_extended_link record link] at hreturns
          cases hfind : findPartition dev_desc a.1 which_part (partitionTable buffer) part_num with
          | inl info => exact .inr (.here record hfind)
          | inr behind =>
              rw [hfind] at hreturns
              obtain hends | hmeets := ih _ _ hreturns
              · refine .inl ⟨_, fun b hb => ?_⟩
                obtain ⟨buffer', pt', record', link', rfl⟩ := hb
                cases record.1.symm.trans record'.1
                cases link.symm.trans link'
                exact hends
              · exact .inr (.there record hfind link hmeets)
        · exact .inl ⟨_, fun b hb => absurd ⟨b, hb⟩ hlink⟩
  · rintro (hends | hmeets)
    · induction hends generalizing part_num with
      | intro a _ ih =>
          by_cases hlink : ∃ b, FirstLink dev_desc a b
          · obtain ⟨_, buffer, pt, record, link, rfl⟩ := hlink
            cases hfind : findPartition dev_desc a.1 which_part (partitionTable buffer) part_num with
            | inl info =>
                refine ⟨1, ?_⟩
                rw [get_partition_info_extended_link record link, hfind]
                rfl
            | inr behind =>
                obtain ⟨fuel, hreturns⟩ := ih _ ⟨buffer, pt, record, link, rfl⟩ behind
                refine ⟨fuel + 1, ?_⟩
                rw [get_partition_info_extended_link record link, hfind]
                exact hreturns
          · exact ⟨1, get_partition_info_extended_stop (fun b hb => hlink ⟨b, hb⟩) 0 part_num⟩
    · induction hmeets with
      | @here a part_num buffer info record found =>
          refine ⟨1, ?_⟩
          rw [get_partition_info_extended, record.1]
          dsimp only
          rw [if_neg (not_not.mpr record.2), found]
          rfl
      | there record passed link _ ih =>
          obtain ⟨fuel, hreturns⟩ := ih
          refine ⟨fuel + 1, ?_⟩
          rw [get_partition_info_extended_link record link, passed]
          exact hreturns

/-! ## Printing the partitions -/

/-- One record is printed, and what its extended entries link to. -/
theorem print_partition_extended_succ (a : Place) (fuel : Nat) (part_num : Int) :
    (print_partition_extended dev_desc (fuel + 1) a.1 a.2 part_num).isSome ↔
      ∀ buffer, Record dev_desc a.1 buffer → isPbr buffer = false → ∀ pt ∈ extended buffer,
        (print_partition_extended dev_desc fuel (linkTo a pt).1 (linkTo a pt).2
          (printEntries a.1 (partitionTable buffer) part_num).2).isSome := by
  rw [print_partition_extended]
  cases hread : dev_desc.block_read a.1 with
  | none =>
      refine iff_of_true rfl fun buffer record => ?_
      exact absurd (hread.symm.trans record.1) (Option.some_ne_none _).symm
  | some buffer =>
      dsimp only
      have hsame {other : Buffer} (record : Record dev_desc a.1 other) : other = buffer :=
        Option.some.inj (record.1.symm.trans hread)
      split
      · next hsignature =>
          exact iff_of_true rfl fun other record => absurd (hsame record ▸ record.2) hsignature
      · next hsignature =>
          split
          · next hmark =>
              refine iff_of_true rfl fun other record hplain => ?_
              rw [hsame record, hmark] at hplain
              cases hplain
          · next hmark =>
              rw [Option.isSome_map, mapM_isSome]
              constructor
              · intro hall other record _ pt hpt
                obtain rfl := hsame record
                exact hall pt hpt
              · exact fun hall pt hpt => hall buffer ⟨hread, not_not.mp hsignature⟩
                  (Bool.eq_false_iff.mpr hmark) pt hpt

theorem print_partition_extended_mono {m n : Nat} (hmn : m ≤ n) (part_num : Int)
    (h : (print_partition_extended dev_desc m a.1 a.2 part_num).isSome) :
    (print_partition_extended dev_desc n a.1 a.2 part_num).isSome := by
  induction m generalizing n a part_num with
  | zero => exact absurd h Bool.false_ne_true
  | succ m ih =>
      obtain ⟨k, rfl⟩ := Nat.exists_eq_add_of_le' hmn
      rw [← Nat.add_assoc, print_partition_extended_succ]
      rw [print_partition_extended_succ] at h
      exact fun buffer record hplain pt hpt =>
        ih (Nat.le_add_left m k) _ (h buffer record hplain pt hpt)

/-- The walk returns if there is no circle on its ways. -/
theorem print_partition_extended_returns_iff (a : Place) (part_num : Int) :
    (∃ fuel, (print_partition_extended dev_desc fuel a.1 a.2 part_num).isSome) ↔
      Ends (AnyLink dev_desc) a := by
  constructor
  · rintro ⟨fuel, hreturns⟩
    induction fuel generalizing a part_num with
    | zero => exact absurd hreturns Bool.false_ne_true
    | succ fuel ih =>
        rw [print_partition_extended_succ] at hreturns
        refine ⟨_, fun b hb => ?_⟩
        obtain ⟨buffer, pt, record, hplain, hpt, rfl⟩ := hb
        exact ih _ _ (hreturns buffer record hplain pt hpt)
  · intro hends
    induction hends generalizing part_num with
    | intro a _ ih =>
        by_cases hrecord : ∃ buffer, Record dev_desc a.1 buffer ∧ isPbr buffer = false
        · obtain ⟨buffer, record, hplain⟩ := hrecord
          generalize hbehind : (printEntries a.1 (partitionTable buffer) part_num).2 = behind
          obtain ⟨fuel, hall⟩ := exists_forall_of_mono
            (P := fun pt fuel => (print_partition_extended dev_desc fuel (linkTo a pt).1
              (linkTo a pt).2 behind).isSome = true)
            (fun _ _ _ hmn => print_partition_extended_mono hmn behind)
            (fun pt hpt => ih (linkTo a pt) ⟨buffer, pt, record, hplain, hpt, rfl⟩ behind)
          refine ⟨fuel + 1, (print_partition_extended_succ a fuel part_num).mpr ?_⟩
          intro other record' _ pt hpt
          obtain rfl := Option.some.inj (record.1.symm.trans record'.1)
          rw [hbehind]
          exact hall pt hpt
        · refine ⟨1, (print_partition_extended_succ a 0 part_num).mpr ?_⟩
          exact fun buffer record hplain => absurd ⟨buffer, record, hplain⟩ hrecord

/-- The walk for a partition returns if its links lead into no circle or the number is met first,
and the one that prints them returns if no links lead into a circle. -/
theorem part_dos_returns_iff (dev_desc : BlockDev) (part : Int) :
    ((∃ fuel, (get_partition_info_dos dev_desc fuel part).isSome) ↔
      ¬LeadsToCircle (FirstLink dev_desc) (0#32, 0#32) ∨ Meets dev_desc part (0#32, 0#32) 1) ∧
    ((∃ fuel, (print_part_dos dev_desc fuel).isSome) ↔
      ¬LeadsToCircle (AnyLink dev_desc) (0#32, 0#32)) := by
  rw [← ends_iff, ← ends_iff]
  exact ⟨get_partition_info_extended_returns_iff (0#32, 0#32) 1,
    print_partition_extended_returns_iff (0#32, 0#32) 1⟩

/-- A disk with an extended entry in its first sector that links to this sector. -/
def circleRecord : Buffer := record (fun _ => 0) [(5, 0, 1)]
def circleDisk : BlockDev := diskOf fun _ => some circleRecord

theorem not_part_dos_returns :
    ¬∀ (dev_desc : BlockDev) (part : Int),
      (∃ fuel, (get_partition_info_dos dev_desc fuel part).isSome) ∧
        ∃ fuel, (print_part_dos dev_desc fuel).isSome := by
  intro h
  obtain ⟨⟨fuel, hreturns⟩, -⟩ := h circleDisk 1
  suffices hnever : ∀ (fuel : Nat) (part_num : Int),
      ¬(get_partition_info_extended circleDisk 1 fuel 0#32 0#32 part_num).isSome from
    hnever fuel 1 hreturns
  intro fuel
  induction fuel with
  | zero => exact fun _ => Bool.false_ne_true
  | succ fuel ih =>
      intro part_num hreturns
      have hlink := @get_partition_info_extended_link circleDisk 1 (0#32, 0#32) circleRecord
        ⟨0, 5, 0, 1⟩ ⟨rfl, by decide⟩ (by decide) fuel part_num
      have htable : partitionTable circleRecord =
          [⟨0, 5, 0, 1⟩, ⟨0, 0, 0, 0⟩, ⟨0, 0, 0, 0⟩, ⟨0, 0, 0, 0⟩] := by decide
      have hpassed : findPartition circleDisk 0#32 1 (partitionTable circleRecord) part_num =
          .inr (part_num + 1 + 1 + 1 + 1) := by
        rw [htable]
        simp [findPartition, nextPartNum, is_extended]
      rw [hpassed] at hlink
      exact ih _ (hlink ▸ hreturns)

end UBoot.Disk
