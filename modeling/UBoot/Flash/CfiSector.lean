/-
# The sector of an address

`find_sector` of `drivers/mtd/cfi_flash.c`. It goes on from the sector that the last call found, in
whichever bank that was. The way up ends at the last sector of the bank, the way down begins
wherever the way up has left off, which may be behind all the sectors of the bank.
-/

import Mathlib.Data.BitVec

namespace UBoot.CfiFlash

/-- `ulong` -/
abbrev ULong := BitVec 32

/-- What `find_sector` uses of `flash_info_t`. The array `start` goes on behind the sectors. -/
structure SectorTable where
  sector_count : Nat
  start : Nat → ULong
  pos : 0 < sector_count
  sorted : ∀ i j, i < j → j < sector_count → start i < start j

variable (info : SectorTable) (addr : ULong)

/-- The first loop, for at most so many turns. -/
def searchUp : Nat → Nat → Nat
  | 0, sector => sector
  | fuel + 1, sector =>
      if info.start sector < addr ∧ sector < info.sector_count - 1 then searchUp fuel (sector + 1)
      else sector

/-- The second loop. -/
def searchDown : Nat → Nat
  | 0 => 0
  | sector + 1 => if info.start (sector + 1) > addr then searchDown sector else sector + 1

/-- `find_sector`, with the sector that the last call found. The first loop ends before it has taken
`sector_count` turns. -/
def find_sector (saved_sector : Nat) : Nat :=
  searchDown info addr (searchUp info addr info.sector_count saved_sector)

/-- `saved_sector` after some calls. -/
def savedSector (calls : List (SectorTable × ULong)) : Nat :=
  calls.foldl (fun saved_sector call => find_sector call.1 call.2 saved_sector) 0

/-- A sector of the bank has the address: it begins there or before, and the next one behind. -/
structure HasAddress (sector : Nat) : Prop where
  lt_count : sector < info.sector_count
  start_le : info.start sector ≤ addr
  lt_next : sector + 1 = info.sector_count ∨ addr < info.start (sector + 1)

/-- No entry from the end of the sectors to the saved one is as low as the address. -/
def LeadsBack (saved_sector : Nat) : Prop :=
  ∀ k, info.sector_count ≤ k → k ≤ saved_sector → addr < info.start k

variable {info addr}

theorem searchUp_succ (fuel sector : Nat) :
    searchUp info addr (fuel + 1) sector =
      if info.start sector < addr ∧ sector < info.sector_count - 1 then
        searchUp info addr fuel (sector + 1)
      else sector := rfl

/-- Behind the last sector there is no way up. -/
theorem searchUp_of_le {sector : Nat} (h : info.sector_count ≤ sector) (fuel : Nat) :
    searchUp info addr fuel sector = sector := by
  cases fuel with
  | zero => rfl
  | succ fuel =>
      rw [searchUp_succ, if_neg]
      rintro ⟨-, hlt⟩
      omega

/-- From a sector of the bank the way up leads to another one, which does not begin before the
address, or to the last. -/
theorem searchUp_of_lt {sector : Nat} (fuel : Nat) (h : sector < info.sector_count)
    (hfuel : info.sector_count ≤ sector + fuel) :
    searchUp info addr fuel sector < info.sector_count ∧
      (searchUp info addr fuel sector + 1 = info.sector_count ∨
        addr ≤ info.start (searchUp info addr fuel sector)) := by
  induction fuel generalizing sector with
  | zero => omega
  | succ fuel ih =>
      rw [searchUp_succ]
      by_cases hup : info.start sector < addr ∧ sector < info.sector_count - 1
      · rw [if_pos hup]
        apply ih
        · omega
        · omega
      · rw [if_neg hup]
        refine ⟨h, ?_⟩
        rw [not_and_or, BitVec.not_lt] at hup
        rcases hup with hle | hlast
        · exact .inr hle
        · exact .inl (by omega)

/-- Where the way down ends, and what it has passed. -/
theorem searchDown_spec (first : info.start 0 ≤ addr) (sector : Nat) :
    searchDown info addr sector ≤ sector ∧
      info.start (searchDown info addr sector) ≤ addr ∧
      ∀ k, searchDown info addr sector < k → k ≤ sector → addr < info.start k := by
  induction sector with
  | zero => exact ⟨le_rfl, first, fun k hlt hle => absurd hle (Nat.not_le_of_lt hlt)⟩
  | succ sector ih =>
      rw [searchDown]
      by_cases hdown : info.start (sector + 1) > addr
      · rw [if_pos hdown]
        obtain ⟨hle, hstart, hpassed⟩ := ih
        refine ⟨Nat.le_succ_of_le hle, hstart, fun k hlt hk => ?_⟩
        rcases Nat.le_succ_iff.mp hk with hk | rfl
        · exact hpassed k hlt hk
        · exact hdown
      · rw [if_neg hdown]
        exact ⟨le_rfl, BitVec.not_lt.mp hdown, fun k hlt hle => absurd hle (Nat.not_le_of_lt hlt)⟩

/-- From a sector of the bank the right one is found. -/
theorem hasAddress_of_lt (first : info.start 0 ≤ addr) {saved_sector : Nat}
    (h : saved_sector < info.sector_count) :
    HasAddress info addr (find_sector info addr saved_sector) := by
  have hup := @searchUp_of_lt info addr saved_sector info.sector_count h (Nat.le_add_left _ _)
  unfold find_sector
  set top := searchUp info addr info.sector_count saved_sector
  obtain ⟨hle, hstart, hpassed⟩ := searchDown_spec first top
  refine ⟨hle.trans_lt hup.1, hstart, ?_⟩
  rcases hle.lt_or_eq with hlt | heq
  · exact .inr (hpassed _ (Nat.lt_succ_self _) hlt)
  · -- nothing has been passed, and this is where the way up ended
    rw [heq] at hstart ⊢
    rcases hup.2 with hlast | hle'
    · exact .inl hlast
    · have haddr : info.start top = addr := BitVec.le_antisymm hstart hle'
      rcases Nat.lt_or_ge (top + 1) info.sector_count with hnext | hnext
      · have hsorted := info.sorted top (top + 1) (Nat.lt_succ_self _) hnext
        rw [haddr] at hsorted
        exact .inr hsorted
      · exact .inl (by have := hup.1; omega)

/-- From behind the last sector it is found exactly when the way down leads back into the bank. -/
theorem hasAddress_iff_of_le (first : info.start 0 ≤ addr) {saved_sector : Nat}
    (h : info.sector_count ≤ saved_sector) :
    HasAddress info addr (find_sector info addr saved_sector) ↔ LeadsBack info addr saved_sector := by
  have hfind : find_sector info addr saved_sector = searchDown info addr saved_sector := by
    rw [find_sector, searchUp_of_le h]
  obtain ⟨hle, hstart, hpassed⟩ := searchDown_spec first saved_sector
  rw [hfind]
  constructor
  · intro hhas k hk hks
    exact hpassed k (hhas.lt_count.trans_le hk) hks
  · intro hback
    have hlt : searchDown info addr saved_sector < info.sector_count := by
      by_contra hge
      have := hback _ (Nat.le_of_not_lt hge) hle
      exact absurd hstart (BitVec.not_le.mpr this)
    exact ⟨hlt, hstart, .inr (hpassed _ (Nat.lt_succ_self _) (hlt.trans_le h))⟩

/-- After any calls on any banks, the sector of an address is found if and only if the sector that
the last call found is one that the bank has, or the entries behind its sectors, up to that one, are
all above the address. -/
theorem find_sector_hasAddress_iff (calls : List (SectorTable × ULong)) (info : SectorTable)
    (addr : ULong) (first : info.start 0 ≤ addr) :
    HasAddress info addr (find_sector info addr (savedSector calls)) ↔
      savedSector calls < info.sector_count ∨ LeadsBack info addr (savedSector calls) := by
  rcases Nat.lt_or_ge (savedSector calls) info.sector_count with hlt | hge
  · exact iff_of_true (hasAddress_of_lt first hlt) (.inl hlt)
  · rw [hasAddress_iff_of_le first hge, or_iff_right (Nat.not_lt_of_le hge)]

/-! ## Two banks -/

/-- A bank of 8 KB sectors, in a table that is zero behind them. -/
def uniformBank (base : ULong) (n : Nat) (pos : 0 < n) (small : base.toNat + n * 0x2000 < 2 ^ 32) :
    SectorTable where
  sector_count := n
  start i := if i < n then base + BitVec.ofNat 32 (i * 0x2000) else 0#32
  pos := pos
  sorted i j hij hj := by
    rw [if_pos (hij.trans hj), if_pos hj, BitVec.lt_def, BitVec.toNat_add, BitVec.toNat_add,
      BitVec.toNat_ofNat, BitVec.toNat_ofNat]
    omega

/-- Four sectors, and two. -/
def fourSectors : SectorTable := uniformBank 0x10000000#32 4 (by decide) (by decide)
def twoSectors : SectorTable := uniformBank 0x20000000#32 2 (by decide) (by decide)

/-- A second call on the bank with two sectors. -/
theorem find_sector_again :
    HasAddress twoSectors 0x20002004#32
      (find_sector twoSectors 0x20002004#32 (savedSector [(twoSectors, 0x20000000#32)])) :=
  (find_sector_hasAddress_iff _ _ _ (by decide)).mpr (.inl (by decide))

/-- After a call for the last of the four sectors there is no way back into the bank with two. -/
theorem not_find_sector_hasAddress :
    ¬ ∀ (calls : List (SectorTable × ULong)) (info : SectorTable) (addr : ULong),
      info.start 0 ≤ addr → HasAddress info addr (find_sector info addr (savedSector calls)) := by
  intro finds
  have hhas := finds [(fourSectors, 0x10006000#32)] twoSectors 0x20000000#32 (by decide)
  exact absurd hhas.lt_count (by decide)

end UBoot.CfiFlash
