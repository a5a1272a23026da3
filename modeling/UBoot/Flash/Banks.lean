/-
# Flash banks

`flash_info_t` of `include/flash.h`. Addresses have 32 bits. A bank may end at the end of
the address space, where `start[0] + size` wraps around to 0. The proofs use its end as a
natural number, which does not.
-/

import Mathlib

namespace UBoot.Flash

/-- `ulong` -/
abbrev ULong := BitVec 32

/-- `flash_info_t`: `known` stands for `flash_id != FLASH_UNKNOWN`. The sectors are sorted
and inside the bank, which is inside the address space. -/
structure FlashInfo where
  known : Bool
  size : ULong
  sector_count : Nat
  start : Nat → ULong
  protect : Nat → Bool
  fits : (start 0).toNat + size.toNat ≤ 2 ^ 32
  sorted : ∀ i j, i < j → j < sector_count → (start i).toNat < (start j).toNat
  inside : ∀ i < sector_count, (start i).toNat < (start 0).toNat + size.toNat
  sectors : known = true → 0 < sector_count

namespace FlashInfo

variable (info : FlashInfo)

/-- The first address. -/
def base : Nat := (info.start 0).toNat

/-- The address behind the last. -/
def limit : Nat := info.base + info.size.toNat

/-- The addresses of the bank. -/
def addresses : Set Nat := { a | info.base ≤ a ∧ a < info.limit }

/-- The address behind a sector. -/
def sectorLimit (i : Nat) : Nat :=
  if i + 1 = info.sector_count then info.limit else (info.start (i + 1)).toNat

/-- The addresses of a sector. -/
def sector (i : Nat) : Set Nat := { a | (info.start i).toNat ≤ a ∧ a < info.sectorLimit i }

variable {info} {i : Nat}

@[simp]
theorem mem_addresses {a : Nat} : a ∈ info.addresses ↔ info.base ≤ a ∧ a < info.limit := Iff.rfl

@[simp]
theorem mem_sector {a : Nat} :
    a ∈ info.sector i ↔ (info.start i).toNat ≤ a ∧ a < info.sectorLimit i := Iff.rfl

theorem limit_le : info.limit ≤ 2 ^ 32 := info.fits

theorem base_le_start (hi : i < info.sector_count) : info.base ≤ (info.start i).toNat := by
  rcases Nat.eq_zero_or_pos i with rfl | hpos
  · exact le_rfl
  · exact (info.sorted 0 i hpos hi).le

theorem start_lt_limit (hi : i < info.sector_count) : (info.start i).toNat < info.limit :=
  info.inside i hi

theorem start_lt_sectorLimit (hi : i < info.sector_count) :
    (info.start i).toNat < info.sectorLimit i := by
  rw [sectorLimit]
  split
  · exact start_lt_limit hi
  · exact info.sorted i (i + 1) (Nat.lt_succ_self i) (by omega)

theorem sectorLimit_le (hi : i < info.sector_count) : info.sectorLimit i ≤ info.limit := by
  rw [sectorLimit]
  split
  · exact le_rfl
  · exact (start_lt_limit (by omega)).le

/-- A known bank has addresses. -/
theorem base_lt_limit (hknown : info.known = true) : info.base < info.limit :=
  start_lt_limit (info.sectors hknown)

end FlashInfo

/-- The banks of a table have no addresses in common. -/
def Apart (flash_info : List FlashInfo) : Prop :=
  flash_info.Pairwise fun info info' => Disjoint info.addresses info'.addresses

theorem Apart.tail {info : FlashInfo} {banks : List FlashInfo} (apart : Apart (info :: banks)) :
    Apart banks :=
  (List.pairwise_cons.mp apart).2

/-- The first bank has no address in common with a later one. -/
theorem Apart.notMem {info info' : FlashInfo} {banks : List FlashInfo} {a : Nat}
    (apart : Apart (info :: banks)) (h : info' ∈ banks) (ha : a ∈ info'.addresses) :
    a ∉ info.addresses :=
  fun ha' => Set.disjoint_left.mp ((List.pairwise_cons.mp apart).1 info' h) ha' ha

/-- An address is in one bank at most. -/
theorem Apart.eq_of_mem {info info' : FlashInfo} {banks : List FlashInfo} {a : Nat}
    (apart : Apart banks) (h : info ∈ banks) (h' : info' ∈ banks) (ha : a ∈ info.addresses)
    (ha' : a ∈ info'.addresses) : info = info' := by
  have : Std.Symm fun x y : FlashInfo => Disjoint x.addresses y.addresses :=
    ⟨fun _ _ h => h.symm⟩
  by_contra hne
  exact Set.disjoint_left.mp (List.Pairwise.forall apart h h' hne) ha ha'

/-- A bank of two sectors of 32 KB at an address, the second one protected. -/
def twoSectors (start : ULong) (h : start.toNat + 0x10000 ≤ 2 ^ 32) : FlashInfo where
  known := true
  size := 0x10000#32
  sector_count := 2
  start i := start + BitVec.ofNat 32 (i * 0x8000)
  protect i := i == 1
  fits := by bv_omega
  sorted i j hij hj := by
    obtain rfl : i = 0 := by omega
    obtain rfl : j = 1 := by omega
    bv_omega
  inside i hi := by
    obtain rfl | rfl : i = 0 ∨ i = 1 := by omega
    all_goals bv_omega
  sectors _ := by decide

end UBoot.Flash
