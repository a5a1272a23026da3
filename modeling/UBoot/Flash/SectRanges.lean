/-
# Address ranges and sectors

`flash_fill_sect_ranges`, `flash_sect_erase` and `flash_sect_protect` of
`common/cmd_flash.c`. An interval of addresses is translated to sectors, bank by bank, in
the order of the table.
-/

import UBoot.Flash.Banks
import Mathlib.Order.Interval.Set.LinearOrder

namespace UBoot.Flash

/-- `s_first[bank]` and `s_last[bank]`, without value for -1. -/
abbrev Range := Option Nat × Option Nat

/-- What `flash_fill_sect_ranges` returns. -/
structure Ranges where
  rcode : Int
  ranges : List Range
  s_count : Nat

/-- The ranges of banks that were not visited. -/
def unset (banks : List FlashInfo) : List Range := banks.map fun _ => (none, none)

/-- The range of a bank in front of those of the banks behind it. -/
def Ranges.put (range : Range) (r : Ranges) : Ranges := { r with ranges := range :: r.ranges }

namespace FlashInfo

variable (info : FlashInfo)

/-- `b_end` -/
def bankEnd : ULong := info.start 0 + info.size - 1#32

/-- The last address of a sector. -/
def sectorEnd (sect : Nat) : ULong :=
  if sect + 1 = info.sector_count then info.bankEnd else info.start (sect + 1) - 1#32

/-- One round of the loop over the sectors. -/
def matchSector (addr_first addr_last : ULong) (range : Range) (sect : Nat) : Range :=
  let last := info.sectorEnd sect
  if addr_first > last then range
  else if addr_last < info.start sect then range
  else
    (if addr_first = info.start sect then some sect else range.1,
      if addr_last = last then some sect else range.2)

/-- The loop over the sectors. -/
def matchSectors (addr_first addr_last : ULong) : Range :=
  (List.range info.sector_count).foldl (info.matchSector addr_first addr_last) (none, none)

end FlashInfo

/-- The loop over the banks. -/
def fillBanks (addr_last : ULong) : List FlashInfo → ULong → Nat → Ranges
  | [], _, s_count => ⟨0, [], s_count⟩
  | info :: banks, addr_first, s_count =>
      if ¬ addr_first ≤ addr_last then ⟨0, unset (info :: banks), s_count⟩
      else if info.known = false then
        (fillBanks addr_last banks addr_first s_count).put (none, none)
      else
        let s_end := info.sector_count - 1
        let range := info.matchSectors addr_first addr_last
        match range.1 with
        | some s_first =>
            match if range.2 = none ∧ addr_last > info.bankEnd then some s_end else range.2 with
            | none => ⟨1, range :: unset banks, s_count⟩
            | some s_last =>
                if s_last < s_first then
                  ⟨1, (some s_first, some s_last) :: unset banks, s_count⟩
                else
                  let addr_first :=
                    if s_last = s_end then info.bankEnd + 1#32 else info.start (s_last + 1)
                  (fillBanks addr_last banks addr_first (s_count + (s_last - s_first + 1))).put
                    (some s_first, some s_last)
        | none =>
            if addr_first ≥ info.start 0 ∧ addr_first < info.bankEnd then
              ⟨1, range :: unset banks, s_count⟩
            else if range.2.isSome then ⟨1, range :: unset banks, s_count⟩
            else (fillBanks addr_last banks addr_first s_count).put range

/-- `flash_fill_sect_ranges` -/
def flash_fill_sect_ranges (flash_info : List FlashInfo) (addr_first addr_last : ULong) : Ranges :=
  fillBanks addr_last flash_info addr_first 0

/-- The loop of `flash_sect_erase`: the return value, and the banks with the first and the
last sector that `flash_erase` was called for. A first sector comes with a last one. -/
def eraseBanks (flash_erase : FlashInfo → Nat → Nat → Int) :
    List (FlashInfo × Range) → Int × List (FlashInfo × Nat × Nat)
  | (info, some s_first, some s_last) :: banks =>
      if flash_erase info s_first s_last ≠ 0 then
        (flash_erase info s_first s_last, [(info, s_first, s_last)])
      else
        let rest := eraseBanks flash_erase banks
        (rest.1, (info, s_first, s_last) :: rest.2)
  | _ :: banks => eraseBanks flash_erase banks
  | [] => (0, [])

/-- `flash_sect_erase` -/
def flash_sect_erase (flash_info : List FlashInfo) (flash_erase : FlashInfo → Nat → Nat → Int)
    (addr_first addr_last : ULong) : Int × List (FlashInfo × Nat × Nat) :=
  let planned := flash_fill_sect_ranges flash_info addr_first addr_last
  if planned.s_count ≠ 0 ∧ planned.rcode = 0 then
    eraseBanks flash_erase (flash_info.zip planned.ranges)
  else if planned.rcode = 0 then (1, [])
  else (planned.rcode, [])

/-- The loop of `flash_sect_protect` over the sectors of a bank. -/
def protectSectors (flash_real_protect : FlashInfo → Nat → Int → Int) (p : Int)
    (info : FlashInfo) (s_first s_last : Nat) : Int × List (FlashInfo × Nat × Nat) :=
  let sectors := (List.range (s_last + 1 - s_first)).map (s_first + ·)
  (if sectors.any fun i => flash_real_protect info i p ≠ 0 then 1 else 0,
    sectors.map fun i => (info, i, i))

/-- The loop of `flash_sect_protect` over the banks. Without `CONFIG_SYS_FLASH_PROTECTION`
the flag of the sector is set, which does not fail. -/
def protectBanks (flash_real_protect : FlashInfo → Nat → Int → Int) (p : Int) :
    List (FlashInfo × Range) → Int × List (FlashInfo × Nat × Nat)
  | (info, some s_first, some s_last) :: banks =>
      let rest := protectBanks flash_real_protect p banks
      if info.known = true ∧ s_first ≤ s_last then
        let here := protectSectors flash_real_protect p info s_first s_last
        (if here.1 = 0 then rest.1 else here.1, here.2 ++ rest.2)
      else rest
  | _ :: banks => protectBanks flash_real_protect p banks
  | [] => (0, [])

/-- `flash_sect_protect` -/
def flash_sect_protect (flash_info : List FlashInfo)
    (flash_real_protect : FlashInfo → Nat → Int → Int) (p : Int) (addr_first addr_last : ULong) :
    Int × List (FlashInfo × Nat × Nat) :=
  let planned := flash_fill_sect_ranges flash_info addr_first addr_last
  if planned.s_count ≠ 0 ∧ planned.rcode = 0 then
    protectBanks flash_real_protect p (flash_info.zip planned.ranges)
  else if planned.rcode = 0 then (1, [])
  else (planned.rcode, [])

/-! ## What is meant -/

/-- The addresses of the sectors from one to another. -/
def FlashInfo.sectorsBetween (info : FlashInfo) (i j : Nat) : Set Nat :=
  { x | ∃ k, i ≤ k ∧ k ≤ j ∧ x ∈ info.sector k }

/-- The addresses of the selected sectors. -/
def selected (banks : List (FlashInfo × Range)) : Set Nat :=
  { x | ∃ info i j, (info, some i, some j) ∈ banks ∧ x ∈ info.sectorsBetween i j }

/-- The number of sectors in ranges. -/
def number : List Range → Nat
  | (some i, some j) :: ranges => (j - i + 1) + number ranges
  | _ :: ranges => number ranges
  | [] => 0

namespace FlashInfo

/-- A sector begins at an address. -/
def Starts (info : FlashInfo) (f : Nat) : Prop := ∃ i < info.sector_count, (info.start i).toNat = f

/-- A sector ends with an address. -/
def Ends (info : FlashInfo) (l : Nat) : Prop := ∃ j < info.sector_count, info.sectorLimit j = l + 1

instance instDecidableStarts (info : FlashInfo) (f : Nat) : Decidable (info.Starts f) :=
  inferInstanceAs (Decidable (∃ i, i < info.sector_count ∧ (info.start i).toNat = f))

instance instDecidableEnds (info : FlashInfo) (l : Nat) : Decidable (info.Ends l) :=
  inferInstanceAs (Decidable (∃ j, j < info.sector_count ∧ info.sectorLimit j = l + 1))

end FlashInfo

/-- The interval is a union of sectors of known banks that are listed in increasing order. -/
def SectorsInOrder (flash_info : List FlashInfo) (f l : Nat) : Prop :=
  ∃ info banks info_last, (info :: banks).Sublist flash_info ∧
    (∀ x ∈ info :: banks, x.known = true) ∧
    (info :: banks).IsChain (fun x x' => x'.base = x.limit) ∧
    (info :: banks).getLast? = some info_last ∧ info.Starts f ∧ info_last.Ends l

/-- Calls touch nothing but the interval, and leave nothing of it out when they succeed. -/
def Handles (result : Int × List (FlashInfo × Nat × Nat)) (f l : Nat) : Prop :=
  (∀ t ∈ result.2, t.1.sectorsBetween t.2.1 t.2.2 ⊆ Set.Icc f l) ∧
    (result.1 = 0 → ∀ x ∈ Set.Icc f l, ∃ t ∈ result.2, x ∈ t.1.sectorsBetween t.2.1 t.2.2)

/-- The interval from `addr_first` to `addr_last` is translated to sectors as it should. -/
structure Translates (flash_info : List FlashInfo) (addr_first addr_last : ULong) : Prop where
  exact : (flash_fill_sect_ranges flash_info addr_first addr_last).rcode = 0 →
    0 < (flash_fill_sect_ranges flash_info addr_first addr_last).s_count →
      selected (flash_info.zip (flash_fill_sect_ranges flash_info addr_first addr_last).ranges) =
          Set.Icc addr_first.toNat addr_last.toNat ∧
        (flash_fill_sect_ranges flash_info addr_first addr_last).s_count =
          number (flash_fill_sect_ranges flash_info addr_first addr_last).ranges
  complete : SectorsInOrder flash_info addr_first.toNat addr_last.toNat →
    (flash_fill_sect_ranges flash_info addr_first addr_last).rcode = 0 ∧
      Set.Icc addr_first.toNat addr_last.toNat ⊆
        selected (flash_info.zip (flash_fill_sect_ranges flash_info addr_first addr_last).ranges)
  erase : ∀ flash_erase, Handles (flash_sect_erase flash_info flash_erase addr_first addr_last)
    addr_first.toNat addr_last.toNat
  protect : ∀ flash_real_protect p, Handles
    (flash_sect_protect flash_info flash_real_protect p addr_first addr_last)
    addr_first.toNat addr_last.toNat

/-- Where the banks, in the order of the table, continue from an address. -/
def continued : List FlashInfo → Nat → Nat
  | [], f => f
  | info :: banks, f =>
      if info.known = true ∧ info.Starts f then continued banks info.limit else continued banks f

theorem continued_cons (info : FlashInfo) (banks : List FlashInfo) (f : Nat) :
    continued (info :: banks) f =
      if info.known = true ∧ info.Starts f then continued banks info.limit else continued banks f :=
  rfl

/-- The banks that are listed behind the one with a sector that ends with an address. -/
def behind (l : Nat) : List FlashInfo → List FlashInfo
  | [] => []
  | info :: banks => if info.known = true ∧ info.Ends l then banks else behind l banks

/-! ## The sectors of a bank -/

namespace FlashInfo

variable {info : FlashInfo} {f l : ULong}

theorem bankEnd_toNat (hpos : info.base < info.limit) : info.bankEnd.toNat = info.limit - 1 := by
  have hle := info.limit_le
  rw [limit, base] at hpos hle
  rw [bankEnd, limit, base]
  bv_omega

theorem sectorEnd_toNat {i : Nat} (hi : i < info.sector_count) :
    (info.sectorEnd i).toNat = info.sectorLimit i - 1 := by
  rw [sectorEnd, sectorLimit]
  split
  · exact bankEnd_toNat ((info.base_le_start hi).trans_lt (info.start_lt_limit hi))
  · have := info.sorted i (i + 1) (Nat.lt_succ_self i) (by omega)
    bv_omega

/-- A sector ends where a later one begins, or before. -/
theorem sectorLimit_le_start {j i : Nat} (hlt : j < i) (hi : i < info.sector_count) :
    info.sectorLimit j ≤ (info.start i).toNat := by
  rw [sectorLimit, if_neg (by omega)]
  rcases Nat.lt_or_ge (j + 1) i with h | h
  · exact (info.sorted (j + 1) i h hi).le
  · rw [show j + 1 = i by omega]

/-- The loop finds the sector that starts with the one address, and the one that ends with
the other. -/
theorem matchSectors_eq_some (hknown : info.known = true) (hle : f ≤ l) (i : Nat) :
    ((info.matchSectors f l).1 = some i ↔ i < info.sector_count ∧ info.start i = f) ∧
      ((info.matchSectors f l).2 = some i ↔
        i < info.sector_count ∧ info.sectorLimit i = l.toNat + 1) := by
  suffices h : ∀ m ≤ info.sector_count,
      let range := (List.range m).foldl (info.matchSector f l) (none, none)
      (range.1 = some i ↔ i < m ∧ info.start i = f) ∧
        (range.2 = some i ↔ i < m ∧ info.sectorLimit i = l.toNat + 1) from h _ le_rfl
  intro m
  induction m with
  | zero => simp
  | succ m ih =>
      intro hm
      have hm' : m < info.sector_count := hm
      obtain ⟨hfirst, hlast⟩ := ih hm'.le
      have hend := info.sectorEnd_toNat hm'
      have hstart := info.start_lt_sectorLimit hm'
      -- no other sector has the same first or last address
      have hother : ∀ k < m, info.start k ≠ info.start m ∧ info.sectorLimit k ≠ info.sectorLimit m := by
        intro k hk
        have hsorted := info.sorted k m hk hm'
        have hlimit := info.sectorLimit_le_start hk hm'
        exact ⟨fun heq => by rw [heq] at hsorted; omega, by omega⟩
      simp only [List.range_succ, List.foldl_append, List.foldl_cons, List.foldl_nil]
      generalize (List.range m).foldl (info.matchSector f l) (none, none) = range at hfirst hlast ⊢
      have hlt : i < m + 1 ↔ i < m ∨ i = m := by omega
      have hends : l = info.sectorEnd m ↔ info.sectorLimit m = l.toNat + 1 := by
        rw [← BitVec.toNat_inj, hend]
        omega
      rw [BitVec.le_def] at hle
      rw [matchSector]
      split
      · next habove =>
          rw [gt_iff_lt, BitVec.lt_def, hend] at habove
          rw [hfirst, hlast, hlt]
          refine ⟨⟨fun h => ⟨.inl h.1, h.2⟩, ?_⟩, ⟨fun h => ⟨.inl h.1, h.2⟩, ?_⟩⟩
          · rintro ⟨hi | rfl, heq⟩
            · exact ⟨hi, heq⟩
            · rw [heq] at hstart
              omega
          · rintro ⟨hi | rfl, heq⟩
            · exact ⟨hi, heq⟩
            · omega
      · split
        · next hbelow =>
            rw [BitVec.lt_def] at hbelow
            rw [hfirst, hlast, hlt]
            refine ⟨⟨fun h => ⟨.inl h.1, h.2⟩, ?_⟩, ⟨fun h => ⟨.inl h.1, h.2⟩, ?_⟩⟩
            · rintro ⟨hi | rfl, heq⟩
              · exact ⟨hi, heq⟩
              · rw [heq] at hbelow
                omega
            · rintro ⟨hi | rfl, heq⟩
              · exact ⟨hi, heq⟩
              · omega
        · refine ⟨?_, ?_⟩
          · by_cases heq : f = info.start m
            · rw [if_pos heq, Option.some.injEq, hlt]
              refine ⟨fun h => ⟨.inr h.symm, h ▸ heq.symm⟩, ?_⟩
              rintro ⟨hi | rfl, hi'⟩
              · exact absurd (hi'.trans heq) (hother i hi).1
              · rfl
            · rw [if_neg heq, hfirst, hlt]
              refine ⟨fun h => ⟨.inl h.1, h.2⟩, ?_⟩
              rintro ⟨hi | rfl, hi'⟩
              · exact ⟨hi, hi'⟩
              · exact absurd hi'.symm heq
          · by_cases heq : l = info.sectorEnd m
            · rw [if_pos heq, Option.some.injEq, hlt]
              refine ⟨fun h => ⟨.inr h.symm, h ▸ hends.mp heq⟩, ?_⟩
              rintro ⟨hi | rfl, hi'⟩
              · exact absurd (hi'.trans (hends.mp heq).symm) (hother i hi).2
              · rfl
            · rw [if_neg heq, hlast, hlt]
              refine ⟨fun h => ⟨.inl h.1, h.2⟩, ?_⟩
              rintro ⟨hi | rfl, hi'⟩
              · exact ⟨hi, hi'⟩
              · exact absurd (hends.mpr hi') heq

end FlashInfo

/-! ## A visit to a bank -/

section Visit

variable {info : FlashInfo} {banks : List FlashInfo} {f l : ULong} {c : Nat}

theorem fillBanks_done (hlt : l < f) (banks : List FlashInfo) (c : Nat) :
    fillBanks l banks f c = ⟨0, unset banks, c⟩ := by
  cases banks with
  | nil => rfl
  | cons info banks => exact if_pos (by rwa [BitVec.not_le])

theorem fillBanks_unknown (hle : f ≤ l) (hknown : ¬ info.known = true) :
    fillBanks l (info :: banks) f c = (fillBanks l banks f c).put (none, none) :=
  (if_neg (not_not_intro hle)).trans (if_pos (by simpa using hknown))

/-- A turn of the loop for a bank that is known. -/
theorem fillBanks_known (hle : f ≤ l) (hknown : info.known = true) :
    fillBanks l (info :: banks) f c =
      let s_end := info.sector_count - 1
      let range := info.matchSectors f l
      match range.1 with
      | some s_first =>
          match if range.2 = none ∧ l > info.bankEnd then some s_end else range.2 with
          | none => ⟨1, range :: unset banks, c⟩
          | some s_last =>
              if s_last < s_first then ⟨1, (some s_first, some s_last) :: unset banks, c⟩
              else
                (fillBanks l banks
                  (if s_last = s_end then info.bankEnd + 1#32 else info.start (s_last + 1))
                  (c + (s_last - s_first + 1))).put (some s_first, some s_last)
      | none =>
          if f ≥ info.start 0 ∧ f < info.bankEnd then ⟨1, range :: unset banks, c⟩
          else if range.2.isSome then ⟨1, range :: unset banks, c⟩
          else (fillBanks l banks f c).put range :=
  (if_neg (not_not_intro hle)).trans (if_neg (by simp [hknown]))

/-- The sector with the last address is in the bank. -/
theorem fillBanks_ends (hle : f ≤ l) (hknown : info.known = true) (hfirst : info.Starts f.toNat)
    (hlast : info.Ends l.toNat) : ∃ i j, i ≤ j ∧ j < info.sector_count ∧
      (info.start i).toNat = f.toNat ∧ info.sectorLimit j = l.toNat + 1 ∧
      fillBanks l (info :: banks) f c =
        (fillBanks l banks (l + 1#32) (c + (j - i + 1))).put (some i, some j) := by
  obtain ⟨i, hi, heq⟩ := hfirst
  obtain ⟨j, hj, hend⟩ := hlast
  have hrange := info.matchSectors_eq_some hknown hle
  have hsfirst := (hrange i).1.mpr ⟨hi, BitVec.eq_of_toNat_eq heq⟩
  have hslast := (hrange j).2.mpr ⟨hj, hend⟩
  have hij : i ≤ j := by
    by_contra hlt
    have := info.sorted j i (by omega) hi
    have hlimit := info.sectorLimit_le_start (Nat.not_le.mp hlt) hi
    rw [BitVec.le_def] at hle
    omega
  refine ⟨i, j, hij, hj, heq, hend, ?_⟩
  rw [fillBanks_known hle hknown]
  simp only [hsfirst, hslast, reduceCtorEq, false_and, if_false, if_neg (Nat.not_lt.mpr hij)]
  have hnext : (if j = info.sector_count - 1 then info.bankEnd + 1#32 else info.start (j + 1)) =
      l + 1#32 := by
    have hlt := info.sectorEnd_toNat hj
    rw [FlashInfo.sectorEnd] at hlt
    split at hlt
    · rw [if_pos (by omega)]
      congr 1
      exact BitVec.eq_of_toNat_eq (by omega)
    · rw [if_neg (by omega)]
      bv_omega
  rw [hnext]

variable (hends : ¬ info.Ends l.toNat)
include hends

theorem matchSectors_none (hle : f ≤ l) (hknown : info.known = true) :
    (info.matchSectors f l).2 = none := by
  rw [Option.eq_none_iff_forall_ne_some]
  exact fun j h => hends ⟨j, ((info.matchSectors_eq_some hknown hle j).2.mp h)⟩

/-- The interval goes on behind the bank. -/
theorem fillBanks_whole (hle : f ≤ l) (hknown : info.known = true) (hfirst : info.Starts f.toNat)
    (hbehind : info.limit ≤ l.toNat) : ∃ i j, i ≤ j ∧ j < info.sector_count ∧
      (info.start i).toNat = f.toNat ∧ info.sectorLimit j = info.limit ∧
      fillBanks l (info :: banks) f c =
        (fillBanks l banks (BitVec.ofNat 32 info.limit) (c + (j - i + 1))).put (some i, some j) := by
  obtain ⟨i, hi, heq⟩ := hfirst
  have hsfirst := (info.matchSectors_eq_some hknown hle i).1.mpr ⟨hi, BitVec.eq_of_toNat_eq heq⟩
  have hslast := matchSectors_none hends hle hknown
  have hend := info.bankEnd_toNat (info.base_lt_limit hknown)
  have hpos := info.base_lt_limit hknown
  have hgt : l > info.bankEnd := by
    rw [gt_iff_lt, BitVec.lt_def]
    omega
  refine ⟨i, info.sector_count - 1, by omega, by omega, heq, ?_, ?_⟩
  · rw [FlashInfo.sectorLimit, if_pos (by omega)]
  · rw [fillBanks_known hle hknown]
    simp only [hsfirst, hslast, true_and, if_pos hgt, if_neg (show ¬ info.sector_count - 1 < i by omega)]
    congr 2
    apply BitVec.eq_of_toNat_eq
    rw [if_pos trivial, BitVec.toNat_add, hend, BitVec.toNat_ofNat]
    show (info.limit - 1 + 1) % 2 ^ 32 = info.limit % 2 ^ 32
    rw [show info.limit - 1 + 1 = info.limit by omega]

/-- The interval ends in a sector of the bank. -/
theorem fillBanks_stop (hle : f ≤ l) (hknown : info.known = true) (hfirst : info.Starts f.toNat)
    (hinside : l.toNat < info.limit) : (fillBanks l (info :: banks) f c).rcode = 1 := by
  obtain ⟨i, hi, heq⟩ := hfirst
  have hsfirst := (info.matchSectors_eq_some hknown hle i).1.mpr ⟨hi, BitVec.eq_of_toNat_eq heq⟩
  have hslast := matchSectors_none hends hle hknown
  have hend := info.bankEnd_toNat (info.base_lt_limit hknown)
  have hgt : ¬ l > info.bankEnd := by
    rw [gt_iff_lt, BitVec.lt_def]
    omega
  rw [fillBanks_known hle hknown]
  simp only [hsfirst, hslast, true_and, if_neg hgt]

omit hends in
theorem matchSectors_not_starts (hle : f ≤ l) (hknown : info.known = true)
    (hfirst : ¬ info.Starts f.toNat) : (info.matchSectors f l).1 = none := by
  rw [Option.eq_none_iff_forall_ne_some]
  refine fun i h => hfirst ⟨i, ?_⟩
  obtain ⟨hi, heq⟩ := (info.matchSectors_eq_some hknown hle i).1.mp h
  exact ⟨hi, by rw [heq]⟩

omit hends in
/-- The interval ends in the bank, but does not begin with one of its sectors. -/
theorem fillBanks_error (hle : f ≤ l) (hknown : info.known = true)
    (hfirst : ¬ info.Starts f.toNat) (hlast : info.Ends l.toNat) :
    (fillBanks l (info :: banks) f c).rcode = 1 := by
  obtain ⟨j, hj, hend⟩ := hlast
  have hsfirst := matchSectors_not_starts hle hknown hfirst
  have hslast := (info.matchSectors_eq_some hknown hle j).2.mpr ⟨hj, hend⟩
  rw [fillBanks_known hle hknown]
  simp only [hsfirst, hslast, Option.isSome_some, if_true]
  split <;> rfl

/-- The bank has nothing to do with the interval, or it begins inside of it. -/
theorem fillBanks_other (hle : f ≤ l) (hknown : info.known = true)
    (hfirst : ¬ info.Starts f.toNat) :
    (f.toNat ∈ info.addresses ∧ (fillBanks l (info :: banks) f c).rcode = 1) ∨
      fillBanks l (info :: banks) f c = (fillBanks l banks f c).put (none, none) := by
  have hsfirst := matchSectors_not_starts hle hknown hfirst
  have hslast := matchSectors_none hends hle hknown
  have hend := info.bankEnd_toNat (info.base_lt_limit hknown)
  rw [fillBanks_known hle hknown]
  simp only [hsfirst, hslast, Option.isSome_none, Bool.false_eq_true, if_false]
  split
  · next hinside =>
      refine .inl ⟨⟨BitVec.le_def.mp hinside.1, ?_⟩, rfl⟩
      have := BitVec.lt_def.mp hinside.2
      omega
  · right
    congr 1
    exact Prod.ext hsfirst hslast

end Visit

/-! ## What is selected -/

section Selected

variable {info : FlashInfo} {banks : List FlashInfo} {ranges : List Range}

@[simp]
theorem selected_nil : selected [] = ∅ := by
  ext x
  simp [selected]

theorem selected_none (banks : List (FlashInfo × Range)) :
    selected ((info, none, none) :: banks) = selected banks := by
  ext x
  simp [selected]

theorem selected_some (banks : List (FlashInfo × Range)) (i j : Nat) :
    selected ((info, some i, some j) :: banks) = info.sectorsBetween i j ∪ selected banks := by
  ext x
  simp only [selected, Set.mem_setOf_eq, Set.mem_union, List.mem_cons]
  constructor
  · rintro ⟨info', i', j', heq | hmem, hx⟩
    · obtain ⟨rfl, hi, hj⟩ : info' = info ∧ i' = i ∧ j' = j := by simpa using heq
      exact .inl (hi ▸ hj ▸ hx)
    · exact .inr ⟨info', i', j', hmem, hx⟩
  · rintro (hx | ⟨info', i', j', hmem, hx⟩)
    · exact ⟨info, i, j, .inl rfl, hx⟩
    · exact ⟨info', i', j', .inr hmem, hx⟩

theorem selected_put_none (r : Ranges) :
    selected ((info :: banks).zip (r.put (none, none)).ranges) = selected (banks.zip r.ranges) :=
  selected_none ..

theorem selected_put_some (r : Ranges) (i j : Nat) :
    selected ((info :: banks).zip (r.put (some i, some j)).ranges) =
      info.sectorsBetween i j ∪ selected (banks.zip r.ranges) :=
  selected_some ..

theorem selected_unset (banks : List FlashInfo) : selected (banks.zip (unset banks)) = ∅ := by
  induction banks with
  | nil => exact selected_nil
  | cons info banks ih => exact (selected_none _).trans ih

/-- Sectors next to one another make an interval. -/
theorem sectorsBetween_eq {i j : Nat} (hij : i ≤ j) (hj : j < info.sector_count) :
    info.sectorsBetween i j = Set.Ico (info.start i).toNat (info.sectorLimit j) := by
  induction j with
  | zero =>
      obtain rfl : i = 0 := by omega
      ext x
      simp [FlashInfo.sectorsBetween]
  | succ j ih =>
      have hnext : info.sectorLimit j = (info.start (j + 1)).toNat := by
        rw [FlashInfo.sectorLimit, if_neg (by omega)]
      have hlt := info.start_lt_sectorLimit hj
      ext x
      rcases Nat.lt_or_ge j i with hlast | hle
      · obtain rfl : i = j + 1 := by omega
        constructor
        · rintro ⟨k, hk, hk', hx⟩
          obtain rfl : k = j + 1 := by omega
          exact hx
        · exact fun hx => ⟨j + 1, le_rfl, le_rfl, hx⟩
      · have ih := Set.ext_iff.mp (ih hle (by omega)) x
        have hstart : (info.start i).toNat < (info.start (j + 1)).toNat :=
          info.sorted i (j + 1) (by omega) hj
        constructor
        · rintro ⟨k, hk, hk', hx⟩
          rcases Nat.lt_or_ge j k with hkj | hkj
          · obtain rfl : k = j + 1 := by omega
            exact ⟨hstart.le.trans hx.1, hx.2⟩
          · have := ih.mp ⟨k, hk, hkj, hx⟩
            exact ⟨this.1, by have := this.2; omega⟩
        · rintro ⟨hx, hx'⟩
          by_cases hsplit : x < info.sectorLimit j
          · obtain ⟨k, hk, hk', hmem⟩ := ih.mpr ⟨hx, hsplit⟩
            exact ⟨k, hk, by omega, hmem⟩
          · exact ⟨j + 1, by omega, le_rfl, by omega, hx'⟩

end Selected

/-! ## Where the banks continue -/

section Continued

variable {info : FlashInfo} {banks : List FlashInfo} {f l : Nat}

theorem FlashInfo.Starts.mem (h : info.Starts f) : f ∈ info.addresses := by
  obtain ⟨i, hi, rfl⟩ := h
  exact ⟨info.base_le_start hi, info.start_lt_limit hi⟩

theorem FlashInfo.Ends.mem (h : info.Ends l) : l ∈ info.addresses := by
  obtain ⟨j, hj, hlimit⟩ := h
  have hstart := info.start_lt_sectorLimit hj
  have hbase := info.base_le_start hj
  have hle := info.sectorLimit_le hj
  exact ⟨by omega, by omega⟩

/-- A known bank starts with a sector. -/
theorem starts_base (hknown : info.known = true) (hf : f = info.base) : info.Starts f :=
  ⟨0, info.sectors hknown, hf.symm⟩

theorem le_continued (banks : List FlashInfo) (f : Nat) : f ≤ continued banks f := by
  induction banks generalizing f with
  | nil => exact le_rfl
  | cons info banks ih =>
      rw [continued_cons]
      split
      · next h => exact h.2.mem.2.le.trans (ih _)
      · exact ih f

/-- The banks have the addresses up to where they continue. -/
theorem exists_mem_of_lt_continued {y : Nat} (hy : f ≤ y) (hlt : y < continued banks f) :
    ∃ x ∈ banks, x.known = true ∧ y ∈ x.addresses := by
  induction banks generalizing f with
  | nil => exact absurd hlt (Nat.not_lt.mpr hy)
  | cons info banks ih =>
      rw [continued_cons] at hlt
      split at hlt
      · next h =>
          rcases Nat.lt_or_ge y info.limit with hin | hout
          · exact ⟨info, List.mem_cons_self, h.1, h.2.mem.1.trans hy, hin⟩
          · obtain ⟨x, hx, hknown, hmem⟩ := ih hout hlt
            exact ⟨x, List.mem_cons_of_mem _ hx, hknown, hmem⟩
      · obtain ⟨x, hx, hknown, hmem⟩ := ih hy hlt
        exact ⟨x, List.mem_cons_of_mem _ hx, hknown, hmem⟩

/-- Banks that continue from an address begin with a sector there. -/
theorem exists_starts_of_continued_ne (h : continued banks f ≠ f) :
    ∃ x ∈ banks, x.known = true ∧ x.Starts f := by
  induction banks with
  | nil => exact absurd rfl h
  | cons info banks ih =>
      rw [continued_cons] at h
      split at h
      · next hstarts => exact ⟨info, List.mem_cons_self, hstarts⟩
      · obtain ⟨x, hx, hstarts⟩ := ih h
        exact ⟨x, List.mem_cons_of_mem _ hx, hstarts⟩

theorem continued_eq_self (h : ∀ x ∈ banks, x.known = true → ¬ x.Starts f) :
    continued banks f = f := by
  by_contra hne
  obtain ⟨x, hx, hknown, hstarts⟩ := exists_starts_of_continued_ne hne
  exact h x hx hknown hstarts

theorem continued_cons_of_mem {x : FlashInfo} (apart : Apart (info :: banks)) (hx : x ∈ banks)
    (hf : f ∈ x.addresses) : continued (info :: banks) f = continued banks f := by
  rw [continued_cons, if_neg]
  exact fun h => apart.notMem hx hf h.2.mem

/-- An address of a known bank is the first of a sector of it. -/
def GoodStart (banks : List FlashInfo) (f : Nat) : Prop :=
  ∀ x ∈ banks, x.known = true → f ∈ x.addresses → x.Starts f

theorem GoodStart.tail (good : GoodStart (info :: banks) f) : GoodStart banks f :=
  fun x hx => good x (List.mem_cons_of_mem _ hx)

/-- Where one bank ends no other goes on. -/
theorem goodStart_limit (apart : Apart (info :: banks)) (hknown : info.known = true) :
    GoodStart banks info.limit := by
  intro x hx hknown' hmem
  have hpos := info.base_lt_limit hknown
  refine starts_base hknown' (le_antisymm ?_ hmem.1)
  by_contra hlt
  exact apart.notMem hx (a := info.limit - 1) ⟨by omega, by have := hmem.2; omega⟩
    ⟨by omega, by omega⟩

theorem goodStart_of_starts {x : FlashInfo} (apart : Apart banks) (hx : x ∈ banks)
    (hstarts : x.Starts f) : GoodStart banks f := by
  intro y hy _ hmem
  exact apart.eq_of_mem hx hy hstarts.mem hmem ▸ hstarts

end Continued

/-! ## All banks -/

/-- What a visit to a bank comes to. -/
inductive Visit (l : ULong) (info : FlashInfo) (banks : List FlashInfo) (f : ULong) (c : Nat) :
    Ranges → Prop
  | skip (h : info.known = true → ¬ info.Starts f.toNat ∧ ¬ info.Ends l.toNat) :
      Visit l info banks f c ((fillBanks l banks f c).put (none, none))
  | error (r : Ranges) (failed : r.rcode = 1) (hknown : info.known = true)
      (h : info.Starts f.toNat ∧ ¬ info.Ends l.toNat ∧ l.toNat < info.limit ∨
        ¬ info.Starts f.toNat ∧ (info.Ends l.toNat ∨ f.toNat ∈ info.addresses)) :
      Visit l info banks f c r
  | ends (i j : Nat) (hknown : info.known = true) (hfirst : info.Starts f.toNat)
      (hlast : info.Ends l.toNat)
      (sectors : info.sectorsBetween i j = Set.Icc f.toNat l.toNat) :
      Visit l info banks f c
        ((fillBanks l banks (l + 1#32) (c + (j - i + 1))).put (some i, some j))
  | whole (i j : Nat) (hknown : info.known = true) (hfirst : info.Starts f.toNat)
      (hlast : ¬ info.Ends l.toNat) (hbehind : info.limit ≤ l.toNat)
      (sectors : info.sectorsBetween i j = Set.Ico f.toNat info.limit) :
      Visit l info banks f c
        ((fillBanks l banks (BitVec.ofNat 32 info.limit) (c + (j - i + 1))).put (some i, some j))

section Loop

variable {info : FlashInfo} {banks : List FlashInfo} {f l : ULong} {c : Nat}

theorem visit (hle : f ≤ l) (info : FlashInfo) (banks : List FlashInfo) (c : Nat) :
    Visit l info banks f c (fillBanks l (info :: banks) f c) := by
  by_cases hknown : info.known = true
  · by_cases hfirst : info.Starts f.toNat
    · by_cases hlast : info.Ends l.toNat
      · obtain ⟨i, j, hij, hj, hstart, hend, heq⟩ := @fillBanks_ends info banks f l c hle hknown hfirst hlast
        rw [heq]
        refine .ends i j hknown hfirst hlast ?_
        rw [sectorsBetween_eq hij hj, hstart, hend]
        ext x
        simp only [Set.mem_Ico, Set.mem_Icc]
        omega
      · rcases Nat.lt_or_ge l.toNat info.limit with hin | hbehind
        · exact .error _ (fillBanks_stop hlast hle hknown hfirst hin) hknown (.inl ⟨hfirst, hlast, hin⟩)
        · obtain ⟨i, j, hij, hj, hstart, hend, heq⟩ :=
            @fillBanks_whole info banks f l c hlast hle hknown hfirst hbehind
          rw [heq]
          exact .whole i j hknown hfirst hlast hbehind (by rw [sectorsBetween_eq hij hj, hstart, hend])
    · by_cases hlast : info.Ends l.toNat
      · exact .error _ (fillBanks_error hle hknown hfirst hlast) hknown (.inr ⟨hfirst, .inl hlast⟩)
      · rcases @fillBanks_other info banks f l c hlast hle hknown hfirst with ⟨hmem, hfail⟩ | heq
        · exact .error _ hfail hknown (.inr ⟨hfirst, .inr hmem⟩)
        · rw [heq]
          exact .skip fun _ => ⟨hfirst, hlast⟩
  · rw [fillBanks_unknown hle hknown]
    exact .skip fun h => absurd h hknown

theorem number_unset (banks : List FlashInfo) : number (unset banks) = 0 := by
  induction banks with
  | nil => rfl
  | cons info banks ih => exact ih

/-- The sectors of the ranges are counted. -/
theorem s_count_eq (hok : (fillBanks l banks f c).rcode = 0) :
    (fillBanks l banks f c).s_count = c + number (fillBanks l banks f c).ranges := by
  induction banks generalizing f c with
  | nil => rfl
  | cons info banks ih =>
      by_cases hle : f ≤ l
      · have v := visit hle info banks c
        generalize fillBanks l (info :: banks) f c = r at v hok ⊢
        cases v with
        | skip h => exact ih hok
        | error r failed => rw [failed] at hok; exact absurd hok (by decide)
        | ends i j => exact (ih hok).trans (Nat.add_assoc ..)
        | whole i j => exact (ih hok).trans (Nat.add_assoc ..)
      · rw [fillBanks_done (BitVec.not_le.mp hle), number_unset]
        rfl

/-- No sector of a known bank ends with an address. -/
def NoEnd (banks : List FlashInfo) (l : Nat) : Prop := ∀ x ∈ banks, x.known = true → ¬ x.Ends l

theorem NoEnd.tail {l : Nat} (h : NoEnd (info :: banks) l) : NoEnd banks l :=
  fun x hx => h x (List.mem_cons_of_mem _ hx)

theorem toNat_limit (hbehind : info.limit ≤ l.toNat) :
    (BitVec.ofNat 32 info.limit).toNat = info.limit := by
  rw [BitVec.toNat_ofNat]
  exact Nat.mod_eq_of_lt (by omega)

theorem limit_le_last (hbehind : info.limit ≤ l.toNat) : BitVec.ofNat 32 info.limit ≤ l := by
  rwa [BitVec.le_def, toNat_limit hbehind]

theorem continued_of_starts {f : Nat} (hknown : info.known = true) (h : info.Starts f) :
    continued (info :: banks) f = continued banks info.limit := by
  rw [continued_cons, if_pos ⟨hknown, h⟩]

theorem continued_of_not_starts {f : Nat} (h : info.known = true → ¬ info.Starts f) :
    continued (info :: banks) f = continued banks f := by
  rw [continued_cons, if_neg fun h' => h h'.1 h'.2]

/-- When no sector ends with the last address, the banks are selected up to where they
continue. -/
theorem selected_of_noEnd (hle : f ≤ l) (noEnd : NoEnd banks l.toNat)
    (hok : (fillBanks l banks f c).rcode = 0) :
    selected (banks.zip (fillBanks l banks f c).ranges) =
        Set.Ico f.toNat (continued banks f.toNat) ∧
      (continued banks f.toNat = f.toNat ∨ continued banks f.toNat ≤ l.toNat) ∧
      (continued banks f.toNat = f.toNat → number (fillBanks l banks f c).ranges = 0) := by
  induction banks generalizing f c with
  | nil => exact ⟨by simp [continued], .inl rfl, fun _ => rfl⟩
  | cons info banks ih =>
      have v := visit hle info banks c
      generalize fillBanks l (info :: banks) f c = r at v hok ⊢
      cases v with
      | skip h =>
          rw [continued_of_not_starts fun hknown => (h hknown).1]
          rw [selected_put_none]
          exact ih hle noEnd.tail hok
      | error r failed => rw [failed] at hok; exact absurd hok (by decide)
      | ends i j hknown hfirst hlast => exact absurd hlast (noEnd info List.mem_cons_self hknown)
      | whole i j hknown hfirst hlast hbehind sectors =>
          obtain ⟨hsel, hcont, -⟩ := ih (limit_le_last hbehind) noEnd.tail hok
          rw [toNat_limit hbehind] at hsel hcont
          rw [continued_of_starts hknown hfirst]
          have hlt := hfirst.mem.2
          have hle' := le_continued banks info.limit
          refine ⟨?_, .inr (by omega), fun heq => absurd heq (by omega)⟩
          rw [selected_put_some, hsel, sectors]
          exact Set.Ico_union_Ico_eq_Ico hfirst.mem.2.le (le_continued ..)

/-- No error is found as long as the banks end before the last address. -/
theorem rcode_of_noEnd (apart : Apart banks) (hle : f ≤ l) (noEnd : NoEnd banks l.toNat)
    (good : GoodStart banks f.toNat) (hshort : continued banks f.toNat ≤ l.toNat) :
    (fillBanks l banks f c).rcode = 0 := by
  induction banks generalizing f c with
  | nil => rfl
  | cons info banks ih =>
      have v := visit hle info banks c
      generalize fillBanks l (info :: banks) f c = r at v ⊢
      cases v with
      | skip h =>
          rw [continued_of_not_starts fun hknown => (h hknown).1] at hshort
          exact ih apart.tail hle noEnd.tail good.tail hshort
      | error r failed hknown h =>
          rcases h with ⟨hfirst, -, hin⟩ | ⟨hfirst, hlast | hmem⟩
          · rw [continued_of_starts hknown hfirst] at hshort
            have := le_continued banks info.limit
            omega
          · exact absurd hlast (noEnd info List.mem_cons_self hknown)
          · exact absurd (good info List.mem_cons_self hknown hmem) hfirst
      | ends i j hknown hfirst hlast => exact absurd hlast (noEnd info List.mem_cons_self hknown)
      | whole i j hknown hfirst hlast hbehind sectors =>
          rw [continued_of_starts hknown hfirst] at hshort
          refine ih apart.tail (limit_le_last hbehind) noEnd.tail ?_ ?_ <;>
            rw [toNat_limit hbehind]
          · exact goodStart_limit apart hknown
          · exact hshort

/-- What is selected behind the end of the interval: nothing, unless that is the end of the
address space, from where the loop goes on at 0. -/
def wrapped (l : Nat) (banks : List FlashInfo) : Nat :=
  if l + 1 = 2 ^ 32 then continued banks 0 else 0

theorem continued_le (banks : List FlashInfo) {f : Nat} (hf : f ≤ 2 ^ 32) :
    continued banks f ≤ 2 ^ 32 := by
  induction banks generalizing f with
  | nil => exact hf
  | cons info banks ih =>
      rw [continued_cons]
      split
      · exact ih info.limit_le
      · exact ih hf

/-- The bank with the last address has been visited. -/
theorem fillBanks_behind (apart : Apart (info :: banks)) (hlast : info.Ends l.toNat) :
    (fillBanks l banks (l + 1#32) c).rcode = 0 ∧
      selected (banks.zip (fillBanks l banks (l + 1#32) c).ranges) =
        Set.Ico 0 (wrapped l.toNat banks) := by
  by_cases htop : l.toNat + 1 = 2 ^ 32
  · have hzero : l + 1#32 = 0#32 := by bv_omega
    have noEnd : NoEnd banks l.toNat := fun x hx _ h => apart.notMem hx h.mem hlast.mem
    have good : GoodStart banks (0#32).toNat := fun x _ hknown hmem =>
      starts_base hknown (Nat.le_zero.mp hmem.1).symm
    have hshort : continued banks (0#32).toNat ≤ l.toNat := by
      -- the last address of the address space is in a bank that was visited
      by_contra hlong
      obtain ⟨x, hx, -, hmem⟩ := exists_mem_of_lt_continued (f := 0) (Nat.zero_le l.toNat)
        (Nat.lt_of_not_le hlong)
      exact apart.notMem hx hmem hlast.mem
    have hle : 0#32 ≤ l := BitVec.le_def.mpr (Nat.zero_le _)
    have hok := @rcode_of_noEnd banks 0#32 l c apart.tail hle noEnd good hshort
    rw [hzero, wrapped, if_pos htop]
    exact ⟨hok, (selected_of_noEnd hle noEnd hok).1⟩
  · rw [fillBanks_done (by bv_omega), wrapped, if_neg htop]
    exact ⟨rfl, by rw [selected_unset]; simp⟩

/-- A sector of a known bank ends with an address. -/
def SomeEnd (banks : List FlashInfo) (l : Nat) : Prop := ∃ x ∈ banks, x.known = true ∧ x.Ends l

theorem SomeEnd.tail {l : Nat} (h : SomeEnd (info :: banks) l)
    (hother : info.known = true → ¬ info.Ends l) : SomeEnd banks l := by
  obtain ⟨x, hx, hknown, hends⟩ := h
  rcases List.mem_cons.mp hx with rfl | hx
  · exact absurd hends (hother hknown)
  · exact ⟨x, hx, hknown, hends⟩

/-- When a sector ends with the last address, the whole interval is selected. -/
theorem selected_of_someEnd (apart : Apart banks) (hle : f ≤ l) (someEnd : SomeEnd banks l.toNat)
    (hok : (fillBanks l banks f c).rcode = 0) :
    l.toNat < continued banks f.toNat ∧
      selected (banks.zip (fillBanks l banks f c).ranges) =
        Set.Icc f.toNat l.toNat ∪ Set.Ico 0 (wrapped l.toNat (behind l.toNat banks)) := by
  induction banks generalizing f c with
  | nil =>
      obtain ⟨x, hx, -⟩ := someEnd
      exact absurd hx List.not_mem_nil
  | cons info banks ih =>
      have v := visit hle info banks c
      generalize fillBanks l (info :: banks) f c = r at v hok ⊢
      cases v with
      | skip h =>
          rw [continued_of_not_starts fun hknown => (h hknown).1, selected_put_none, behind,
            if_neg fun h' => (h h'.1).2 h'.2]
          exact ih apart.tail hle (someEnd.tail fun hknown => (h hknown).2) hok
      | error r failed => rw [failed] at hok; exact absurd hok (by decide)
      | ends i j hknown hfirst hlast sectors =>
          rw [continued_of_starts hknown hfirst, selected_put_some, behind, if_pos ⟨hknown, hlast⟩,
            (fillBanks_behind apart hlast).2, sectors]
          exact ⟨hlast.mem.2.trans_le (le_continued ..), rfl⟩
      | whole i j hknown hfirst hlast hbehind sectors =>
          obtain ⟨hcont, hsel⟩ := ih apart.tail (limit_le_last hbehind) (someEnd.tail fun _ => hlast) hok
          rw [toNat_limit hbehind] at hcont hsel
          rw [continued_of_starts hknown hfirst, selected_put_some, behind,
            if_neg fun h' => hlast h'.2, hsel, sectors, ← Set.union_assoc]
          refine ⟨hcont, congrArg (· ∪ _) ?_⟩
          have hlt := hfirst.mem.2
          ext x
          simp only [Set.mem_union, Set.mem_Ico, Set.mem_Icc]
          omega

/-- No error is found when the banks go on to the sector with the last address. -/
theorem rcode_of_someEnd (apart : Apart banks) (hle : f ≤ l) (good : GoodStart banks f.toNat)
    (someEnd : SomeEnd banks l.toNat) (hlong : l.toNat < continued banks f.toNat) :
    (fillBanks l banks f c).rcode = 0 := by
  induction banks generalizing f c with
  | nil => rfl
  | cons info banks ih =>
      have v := visit hle info banks c
      generalize fillBanks l (info :: banks) f c = r at v ⊢
      cases v with
      | skip h =>
          rw [continued_of_not_starts fun hknown => (h hknown).1] at hlong
          exact ih apart.tail hle good.tail (someEnd.tail fun hknown => (h hknown).2) hlong
      | error r failed hknown h =>
          rcases h with ⟨hfirst, hlast, hin⟩ | ⟨hfirst, hlast | hmem⟩
          · -- the sector that ends with the last address is in this bank
            obtain ⟨x, hx, -, hends⟩ := someEnd.tail fun _ => hlast
            exact absurd ⟨hfirst.mem.1.trans (BitVec.le_def.mp hle), hin⟩
              (apart.notMem hx hends.mem)
          · rw [continued_of_not_starts fun _ => hfirst] at hlong
            obtain ⟨x, hx, -, hmem⟩ := exists_mem_of_lt_continued (BitVec.le_def.mp hle) hlong
            exact absurd hlast.mem (apart.notMem hx hmem)
          · exact absurd (good info List.mem_cons_self hknown hmem) hfirst
      | ends i j hknown hfirst hlast => exact (fillBanks_behind apart hlast).1
      | whole i j hknown hfirst hlast hbehind sectors =>
          rw [continued_of_starts hknown hfirst] at hlong
          refine ih apart.tail (limit_le_last hbehind) ?_ (someEnd.tail fun _ => hlast) ?_ <;>
            rw [toNat_limit hbehind]
          · exact goodStart_limit apart hknown
          · exact hlong

end Loop

/-! ## The translation -/

section Translation

variable {flash_info banks : List FlashInfo} {addr_first addr_last : ULong} {f l : Nat}

/-- Ranges with addresses have a number. -/
theorem number_pos {ranges : List Range} {x : Nat} (hx : x ∈ selected (banks.zip ranges)) :
    0 < number ranges := by
  obtain ⟨info, i, j, hmem, -⟩ := hx
  have hrange := (List.of_mem_zip hmem).2
  clear hmem
  induction ranges with
  | nil => exact absurd hrange List.not_mem_nil
  | cons range ranges ih =>
      rcases List.mem_cons.mp hrange with rfl | hrest
      · rw [number]
        omega
      · have := ih hrest
        rcases range with ⟨_ | i', _ | j'⟩ <;> simp only [number] <;> omega

theorem lt_continued_of_starts {x : FlashInfo} (hx : x ∈ banks) (hknown : x.known = true)
    (hstarts : x.Starts f) : f < continued banks f := by
  induction banks with
  | nil => exact absurd hx List.not_mem_nil
  | cons info banks ih =>
      by_cases h : info.known = true ∧ info.Starts f
      · rw [continued_of_starts h.1 h.2]
        exact h.2.mem.2.trans_le (le_continued ..)
      · rw [continued_of_not_starts fun hknown hstarts => h ⟨hknown, hstarts⟩]
        rcases List.mem_cons.mp hx with rfl | hx
        · exact absurd ⟨hknown, hstarts⟩ h
        · exact ih hx

/-- Banks listed in increasing order continue to the last of them. -/
theorem lt_continued_of_chain {info info_last : FlashInfo} {chain : List FlashInfo}
    (apart : Apart banks) (hsub : (info :: chain).Sublist banks)
    (hknown : ∀ x ∈ info :: chain, x.known = true)
    (hchain : (info :: chain).IsChain fun x x' => x'.base = x.limit)
    (hend : (info :: chain).getLast? = some info_last) (hstarts : info.Starts f)
    (hends : info_last.Ends l) : l < continued banks f := by
  induction banks generalizing info chain f with
  | nil => exact absurd hsub.subset (by simp)
  | cons bank banks ih =>
      cases hsub with
      | cons _ hsub =>
          rw [continued_cons_of_mem apart (hsub.subset List.mem_cons_self) hstarts.mem]
          exact ih apart.tail hsub hknown hchain hend hstarts
      | cons_cons _ hsub =>
          rw [continued_of_starts (hknown _ List.mem_cons_self) hstarts]
          cases chain with
          | nil =>
              obtain rfl : bank = info_last := by simpa using hend
              exact hends.mem.2.trans_le (le_continued ..)
          | cons next chain =>
              rw [List.isChain_cons_cons] at hchain
              rw [List.getLast?_cons_cons] at hend
              exact ih apart.tail hsub (fun x hx => hknown x (List.mem_cons_of_mem _ hx)) hchain.2 hend
                (starts_base (hknown next (by simp)) hchain.1.symm)

section Loops

variable {banks : List (FlashInfo × Range)} {info : FlashInfo} {i j : Nat}

theorem eraseBanks_fails {flash_erase : FlashInfo → Nat → Nat → Int}
    (h : flash_erase info i j ≠ 0) :
    eraseBanks flash_erase ((info, some i, some j) :: banks) =
      (flash_erase info i j, [(info, i, j)]) := if_pos h

theorem eraseBanks_erased {flash_erase : FlashInfo → Nat → Nat → Int}
    (h : ¬ flash_erase info i j ≠ 0) :
    eraseBanks flash_erase ((info, some i, some j) :: banks) =
      ((eraseBanks flash_erase banks).1, (info, i, j) :: (eraseBanks flash_erase banks).2) :=
  if_neg h

variable (flash_real_protect : FlashInfo → Nat → Int → Int) (p : Int)

theorem protectBanks_sectors (h : info.known = true ∧ i ≤ j) :
    protectBanks flash_real_protect p ((info, some i, some j) :: banks) =
      (if (protectSectors flash_real_protect p info i j).1 = 0 then
          (protectBanks flash_real_protect p banks).1
        else (protectSectors flash_real_protect p info i j).1,
        (protectSectors flash_real_protect p info i j).2 ++
          (protectBanks flash_real_protect p banks).2) := if_pos h

theorem protectBanks_none (h : ¬ (info.known = true ∧ i ≤ j)) :
    protectBanks flash_real_protect p ((info, some i, some j) :: banks) =
      protectBanks flash_real_protect p banks := if_neg h

end Loops

/-- The sectors `flash_erase` was called for are selected. -/
theorem mem_eraseBanks (flash_erase : FlashInfo → Nat → Nat → Int)
    {banks : List (FlashInfo × Range)} {t : FlashInfo × Nat × Nat}
    (ht : t ∈ (eraseBanks flash_erase banks).2) : (t.1, some t.2.1, some t.2.2) ∈ banks := by
  induction banks with
  | nil => exact absurd ht List.not_mem_nil
  | cons bank banks ih =>
      rcases bank with ⟨info, _ | i, _ | j⟩
      case some.some =>
        by_cases hfail : flash_erase info i j ≠ 0
        · rw [eraseBanks_fails hfail, List.mem_singleton] at ht
          exact ht ▸ List.mem_cons_self
        · rw [eraseBanks_erased hfail] at ht
          rcases List.mem_cons.mp ht with rfl | hrest
          · exact List.mem_cons_self
          · exact List.mem_cons_of_mem _ (ih hrest)
      all_goals exact List.mem_cons_of_mem _ (ih ht)

/-- When it did not fail it was called for all of them. -/
theorem mem_eraseBanks_of_ok (flash_erase : FlashInfo → Nat → Nat → Int)
    {banks : List (FlashInfo × Range)} (hok : (eraseBanks flash_erase banks).1 = 0)
    {info : FlashInfo} {i j : Nat} (h : (info, some i, some j) ∈ banks) :
    (info, i, j) ∈ (eraseBanks flash_erase banks).2 := by
  induction banks with
  | nil => exact absurd h List.not_mem_nil
  | cons bank banks ih =>
      rcases bank with ⟨info', _ | i', _ | j'⟩
      case some.some =>
        by_cases hfail : flash_erase info' i' j' ≠ 0
        · rw [eraseBanks_fails hfail] at hok
          exact absurd hok hfail
        · rw [eraseBanks_erased hfail] at hok ⊢
          rcases List.mem_cons.mp h with heq | hrest
          · simp only [Prod.mk.injEq, Option.some.injEq] at heq
            obtain ⟨rfl, rfl, rfl⟩ := heq
            exact List.mem_cons_self
          · exact List.mem_cons_of_mem _ (ih hok hrest)
      all_goals exact ih hok (by simpa using h)

theorem mem_protectBanks (flash_real_protect : FlashInfo → Nat → Int → Int) (p : Int)
    {banks : List (FlashInfo × Range)} {t : FlashInfo × Nat × Nat}
    (ht : t ∈ (protectBanks flash_real_protect p banks).2) :
    ∃ i j, (t.1, some i, some j) ∈ banks ∧ i ≤ t.2.1 ∧ t.2.2 = t.2.1 ∧ t.2.1 ≤ j := by
  induction banks with
  | nil => exact absurd ht List.not_mem_nil
  | cons bank banks ih =>
      have later : t ∈ (protectBanks flash_real_protect p banks).2 →
          ∃ i j, (t.1, some i, some j) ∈ bank :: banks ∧ i ≤ t.2.1 ∧ t.2.2 = t.2.1 ∧ t.2.1 ≤ j := by
        intro hrest
        obtain ⟨i, j, hmem, hrange⟩ := ih hrest
        exact ⟨i, j, List.mem_cons_of_mem _ hmem, hrange⟩
      rcases bank with ⟨info, _ | i, _ | j⟩
      case some.some =>
        by_cases h : info.known = true ∧ i ≤ j
        · rw [protectBanks_sectors _ _ h] at ht
          rcases List.mem_append.mp ht with hhere | hrest
          · simp only [protectSectors, List.map_map, List.mem_map, List.mem_range,
              Function.comp_apply] at hhere
            obtain ⟨k, hk, rfl⟩ := hhere
            exact ⟨i, j, List.mem_cons_self, by simp, rfl, by simp; omega⟩
          · exact later hrest
        · rw [protectBanks_none _ _ h] at ht
          exact later ht
      all_goals exact later ht

theorem mem_protectBanks_of_ok (flash_real_protect : FlashInfo → Nat → Int → Int) (p : Int)
    {banks : List (FlashInfo × Range)} (hok : (protectBanks flash_real_protect p banks).1 = 0)
    {info : FlashInfo} {i j k : Nat} (hknown : info.known = true)
    (h : (info, some i, some j) ∈ banks) (hik : i ≤ k) (hkj : k ≤ j) :
    (info, k, k) ∈ (protectBanks flash_real_protect p banks).2 := by
  induction banks with
  | nil => exact absurd h List.not_mem_nil
  | cons bank banks ih =>
      rcases bank with ⟨info', _ | i', _ | j'⟩
      case some.some =>
        by_cases hrange : info'.known = true ∧ i' ≤ j'
        · rw [protectBanks_sectors _ _ hrange] at hok ⊢
          have hrest : (protectBanks flash_real_protect p banks).1 = 0 := by
            dsimp only at hok
            split at hok
            · exact hok
            · next hfail => exact absurd hok hfail
          rcases List.mem_cons.mp h with heq | hmem
          · simp only [Prod.mk.injEq, Option.some.injEq] at heq
            obtain ⟨rfl, rfl, rfl⟩ := heq
            refine List.mem_append_left _ ?_
            simp only [protectSectors, List.map_map, List.mem_map, List.mem_range,
              Function.comp_apply]
            exact ⟨k - i, by omega, by rw [Nat.add_sub_cancel' hik]⟩
          · exact List.mem_append_right _ (ih hrest hmem)
        · rw [protectBanks_none _ _ hrange] at hok ⊢
          rcases List.mem_cons.mp h with heq | hmem
          · simp only [Prod.mk.injEq, Option.some.injEq] at heq
            obtain ⟨rfl, rfl, rfl⟩ := heq
            exact absurd ⟨hknown, hik.trans hkj⟩ hrange
          · exact ih hok hmem
      all_goals exact ih hok (by simpa using h)

/-- Only known banks are selected. -/
theorem known_of_mem {c : Nat} {f l : ULong} (hok : (fillBanks l banks f c).rcode = 0)
    {info : FlashInfo} {i j : Nat}
    (h : (info, some i, some j) ∈ banks.zip (fillBanks l banks f c).ranges) :
    info.known = true := by
  induction banks generalizing f c with
  | nil => exact absurd h List.not_mem_nil
  | cons bank banks ih =>
      by_cases hle : f ≤ l
      · have v := visit hle bank banks c
        generalize fillBanks l (bank :: banks) f c = r at v hok h
        cases v with
        | skip => exact ih hok (by simpa [Ranges.put] using h)
        | error r failed => rw [failed] at hok; exact absurd hok (by decide)
        | ends i' j' hknown | whole i' j' hknown =>
            rcases List.mem_cons.mp h with heq | hrest
            · obtain rfl : info = bank := congrArg Prod.fst heq
              exact hknown
            · exact ih hok hrest
      · rw [fillBanks_done (BitVec.not_le.mp hle)] at h
        have hrange := (List.of_mem_zip h).2
        simp [unset] at hrange

theorem handles_erase (flash_erase : FlashInfo → Nat → Nat → Int)
    (exact : (flash_fill_sect_ranges flash_info addr_first addr_last).rcode = 0 →
      0 < (flash_fill_sect_ranges flash_info addr_first addr_last).s_count →
        selected (flash_info.zip (flash_fill_sect_ranges flash_info addr_first addr_last).ranges) =
          Set.Icc addr_first.toNat addr_last.toNat) :
    Handles (flash_sect_erase flash_info flash_erase addr_first addr_last) addr_first.toNat
      addr_last.toNat := by
  rw [flash_sect_erase]
  split
  · next h =>
      have hsel := exact h.2 (Nat.pos_of_ne_zero h.1)
      refine ⟨fun t ht x hx => ?_, fun hok x hx => ?_⟩
      · rw [← hsel]
        exact ⟨t.1, t.2.1, t.2.2, mem_eraseBanks flash_erase ht, hx⟩
      · rw [← hsel] at hx
        obtain ⟨info, i, j, hmem, hx⟩ := hx
        exact ⟨(info, i, j), mem_eraseBanks_of_ok flash_erase hok hmem, hx⟩
  · split
    · exact ⟨by simp, fun hok => absurd hok (by decide)⟩
    · next hfail => exact ⟨by simp, fun hok => absurd hok hfail⟩

theorem handles_protect (flash_real_protect : FlashInfo → Nat → Int → Int) (p : Int)
    (exact : (flash_fill_sect_ranges flash_info addr_first addr_last).rcode = 0 →
      0 < (flash_fill_sect_ranges flash_info addr_first addr_last).s_count →
        selected (flash_info.zip (flash_fill_sect_ranges flash_info addr_first addr_last).ranges) =
          Set.Icc addr_first.toNat addr_last.toNat) :
    Handles (flash_sect_protect flash_info flash_real_protect p addr_first addr_last)
      addr_first.toNat addr_last.toNat := by
  rw [flash_sect_protect]
  split
  · next h =>
      have hsel := exact h.2 (Nat.pos_of_ne_zero h.1)
      refine ⟨fun t ht x hx => ?_, fun hok x hx => ?_⟩
      · obtain ⟨i, j, hmem, hi, heq, hj⟩ := mem_protectBanks flash_real_protect p ht
        obtain ⟨k, hk, hk', hx⟩ := hx
        rw [← hsel]
        exact ⟨t.1, i, j, hmem, k, hi.trans hk, by omega, hx⟩
      · rw [← hsel] at hx
        obtain ⟨info, i, j, hmem, k, hik, hkj, hx⟩ := hx
        exact ⟨(info, k, k), mem_protectBanks_of_ok flash_real_protect p hok (known_of_mem h.2 hmem)
          hmem hik hkj, k, le_rfl, le_rfl, hx⟩
  · split
    · exact ⟨by simp, fun hok => absurd hok (by decide)⟩
    · next hfail => exact ⟨by simp, fun hok => absurd hok hfail⟩

/-- The banks that continue from the first address do not end before the last one, or there
are none, or it is the last address of a sector. And if it is the end of the address space,
no bank at 0 is listed behind. -/
def Continues (flash_info : List FlashInfo) (f l : Nat) : Prop :=
  (SomeEnd flash_info l ∨ continued flash_info f = f ∨ l < continued flash_info f) ∧
    (f ≠ 0 → l + 1 = 2 ^ 32 → l < continued flash_info f →
      ∀ x ∈ behind l flash_info, x.known = true → x.base ≠ 0)

theorem noEnd_of_not_someEnd (h : ¬ SomeEnd flash_info l) : NoEnd flash_info l :=
  fun x hx hknown hends => h ⟨x, hx, hknown, hends⟩

/-- The selection is the interval. -/
theorem selected_of_continues (apart : Apart flash_info) (hle : addr_first ≤ addr_last)
    (continues : Continues flash_info addr_first.toNat addr_last.toNat)
    (hok : (flash_fill_sect_ranges flash_info addr_first addr_last).rcode = 0)
    (hcount : 0 < (flash_fill_sect_ranges flash_info addr_first addr_last).s_count) :
    selected (flash_info.zip (flash_fill_sect_ranges flash_info addr_first addr_last).ranges) =
      Set.Icc addr_first.toNat addr_last.toNat := by
  by_cases someEnd : SomeEnd flash_info addr_last.toNat
  · obtain ⟨hlong, hsel⟩ := selected_of_someEnd apart hle someEnd hok
    refine hsel.trans (Set.union_eq_left.mpr ?_)
    by_cases htop : addr_last.toNat + 1 = 2 ^ 32
    · rw [wrapped, if_pos htop]
      by_cases hzero : addr_first.toNat = 0
      · intro x hx
        have := continued_le (behind addr_last.toNat flash_info) (Nat.zero_le (2 ^ 32))
        rw [hzero]
        exact ⟨hx.1, by have := hx.2; omega⟩
      · have hnone := continues.2 hzero htop hlong
        rw [continued_eq_self fun x hx hknown hstarts =>
          hnone x hx hknown (Nat.le_zero.mp hstarts.mem.1)]
        simp
    · rw [wrapped, if_neg htop]
      simp
  · obtain ⟨-, hcont⟩ := selected_of_noEnd hle (noEnd_of_not_someEnd someEnd) hok
    have hnumber := s_count_eq hok
    have hsome := continues.1.resolve_left someEnd
    have hcount' : 0 < (fillBanks addr_last flash_info addr_first 0).s_count := hcount
    have := BitVec.le_def.mp hle
    have := hcont.2 (by omega)
    omega

theorem complete_of_sectorsInOrder (apart : Apart flash_info) (hle : addr_first ≤ addr_last)
    (inOrder : SectorsInOrder flash_info addr_first.toNat addr_last.toNat) :
    (flash_fill_sect_ranges flash_info addr_first addr_last).rcode = 0 ∧
      Set.Icc addr_first.toNat addr_last.toNat ⊆
        selected (flash_info.zip (flash_fill_sect_ranges flash_info addr_first addr_last).ranges) := by
  obtain ⟨info, chain, info_last, hsub, hknown, hchain, hend, hstarts, hends⟩ := inOrder
  have hlong := lt_continued_of_chain apart hsub hknown hchain hend hstarts hends
  have someEnd : SomeEnd flash_info addr_last.toNat :=
    ⟨info_last, hsub.subset (List.mem_of_getLast? hend), hknown _ (List.mem_of_getLast? hend), hends⟩
  have good := goodStart_of_starts apart (hsub.subset List.mem_cons_self) hstarts
  have hok := @rcode_of_someEnd flash_info addr_first addr_last 0 apart hle good someEnd hlong
  refine ⟨hok, ?_⟩
  rw [flash_fill_sect_ranges, (selected_of_someEnd apart hle someEnd hok).2]
  exact Set.subset_union_left

theorem translates_of_continues (apart : Apart flash_info) (hle : addr_first ≤ addr_last)
    (continues : Continues flash_info addr_first.toNat addr_last.toNat) :
    Translates flash_info addr_first addr_last := by
  have exact := selected_of_continues apart hle continues
  refine ⟨fun hok hcount => ⟨exact hok hcount, ?_⟩, complete_of_sectorsInOrder apart hle,
    fun flash_erase => handles_erase flash_erase exact,
    fun flash_real_protect p => handles_protect flash_real_protect p exact⟩
  exact (s_count_eq hok).trans (Nat.zero_add _)

/-- A known bank with the last address of the address space has a sector that ends there. -/
theorem ends_of_top {x : FlashInfo} (hknown : x.known = true) (hmem : l ∈ x.addresses)
    (htop : l + 1 = 2 ^ 32) : x.Ends l := by
  have hpos := x.sectors hknown
  have hlimit := x.limit_le
  refine ⟨x.sector_count - 1, by omega, ?_⟩
  rw [FlashInfo.sectorLimit, if_pos (by omega)]
  have := hmem.2
  omega

theorem continues_of_translates (apart : Apart flash_info) (hle : addr_first ≤ addr_last)
    (translates : Translates flash_info addr_first addr_last) :
    Continues flash_info addr_first.toNat addr_last.toNat := by
  have hle' := BitVec.le_def.mp hle
  -- whatever is selected without an error is in the interval
  have subset : (flash_fill_sect_ranges flash_info addr_first addr_last).rcode = 0 →
      ∀ x ∈ selected (flash_info.zip
        (flash_fill_sect_ranges flash_info addr_first addr_last).ranges),
      selected (flash_info.zip (flash_fill_sect_ranges flash_info addr_first addr_last).ranges) =
        Set.Icc addr_first.toNat addr_last.toNat := fun hok x hx =>
    (translates.exact hok (by
      have := number_pos hx
      rw [flash_fill_sect_ranges, s_count_eq hok]
      exact this.trans_le (Nat.le_add_left ..))).1
  constructor
  · by_contra hnot
    push Not at hnot
    obtain ⟨noSomeEnd, hne, hshort⟩ := hnot
    have noEnd := noEnd_of_not_someEnd noSomeEnd
    obtain ⟨x, hx, hknown, hstarts⟩ := exists_starts_of_continued_ne hne
    have hok := @rcode_of_noEnd flash_info addr_first addr_last 0 apart hle noEnd
      (goodStart_of_starts apart hx hstarts) hshort
    have hsel := (selected_of_noEnd hle noEnd hok).1
    have hlt := (le_continued flash_info addr_first.toNat).lt_of_ne' hne
    have heq := hsel.symm.trans (subset hok addr_first.toNat (hsel ▸ ⟨le_rfl, hlt⟩))
    have hlast : addr_last.toNat ∈ Set.Ico addr_first.toNat (continued flash_info addr_first.toNat) :=
      heq ▸ ⟨hle', le_rfl⟩
    exact absurd hlast.2 (Nat.not_lt.mpr hshort)
  · intro hzero htop hlong x hx hknown hbase
    obtain ⟨y, hy, hyknown, hmem⟩ := exists_mem_of_lt_continued hle' hlong
    have someEnd : SomeEnd flash_info addr_last.toNat :=
      ⟨y, hy, hyknown, ends_of_top hyknown hmem htop⟩
    obtain ⟨z, hz, -, hstarts⟩ := exists_starts_of_continued_ne
      (show continued flash_info addr_first.toNat ≠ addr_first.toNat by omega)
    have hok := @rcode_of_someEnd flash_info addr_first addr_last 0 apart hle
      (goodStart_of_starts apart hz hstarts) someEnd hlong
    have hsel := (selected_of_someEnd apart hle someEnd hok).2
    have hpos := lt_continued_of_starts hx hknown (starts_base hknown hbase.symm)
    have hmem0 : 0 ∈ selected (flash_info.zip
        (flash_fill_sect_ranges flash_info addr_first addr_last).ranges) := by
      rw [flash_fill_sect_ranges, hsel, wrapped, if_pos htop]
      exact .inr ⟨le_rfl, hpos⟩
    have := (subset hok 0 hmem0) ▸ hmem0
    exact hzero (Nat.le_zero.mp this.1)

/-- An interval is translated as it should exactly if the banks continue in the order of
the table. -/
theorem flash_sect_ranges_exact (apart : Apart flash_info) (hle : addr_first ≤ addr_last) :
    Translates flash_info addr_first addr_last ↔
      Continues flash_info addr_first.toNat addr_last.toNat :=
  ⟨continues_of_translates apart hle, translates_of_continues apart hle⟩

end Translation

/-- Two banks, and an interval from the second sector of the one to the first of the other. -/
theorem flash_sect_ranges_exact_across :
    Translates [twoSectors 0x10000000#32 (by decide), twoSectors 0x10010000#32 (by decide)]
      0x10008000#32 0x10017fff#32 :=
  (flash_sect_ranges_exact (by
    simp only [Apart, List.pairwise_cons, List.mem_singleton, forall_eq, List.not_mem_nil,
      IsEmpty.forall_iff, implies_true, List.Pairwise.nil, and_true, Set.disjoint_left]
    intro x hx hx'
    have hlt : x < 0x10010000 := hx.2
    have hle : 0x10010000 ≤ x := hx'.1
    omega) (by decide)).mpr
    ⟨.inl ⟨_, List.mem_cons_of_mem _ List.mem_cons_self, rfl, 0, by decide, by decide⟩,
      fun _ htop => absurd htop (by decide)⟩

/-- An interval that begins with the only bank and ends behind it: the bank is selected,
without an error. -/
theorem not_translates_singleton {info : FlashInfo} {addr_last : ULong} (hknown : info.known = true)
    (hbehind : info.limit ≤ addr_last.toNat) : ¬ Translates [info] (info.start 0) addr_last := by
  intro translates
  have hpos := info.base_lt_limit hknown
  have hbase : (info.start 0).toNat = info.base := rfl
  have hcontinued : continued [info] (info.start 0).toNat = info.limit :=
    continued_of_starts hknown (starts_base hknown rfl)
  have hcases := (continues_of_translates (by simp [Apart])
    (BitVec.le_def.mpr (by omega)) translates).1
  rw [hcontinued] at hcases
  rcases hcases with ⟨x, hx, -, hends⟩ | hnone | hlong
  · rw [List.mem_singleton] at hx
    subst hx
    exact absurd hends.mem.2 (Nat.not_lt.mpr hbehind)
  · omega
  · omega

/-- A bank of 64 KB, and an interval that ends 256 MB behind its beginning. -/
theorem not_flash_sect_ranges_exact :
    ¬ ∀ (flash_info : List FlashInfo) (addr_first addr_last : ULong), Apart flash_info →
      addr_first ≤ addr_last → Translates flash_info addr_first addr_last := by
  intro translates
  exact @not_translates_singleton (twoSectors 0x10000000#32 (by decide)) 0x1fffffff#32 rfl (by decide)
    (translates _ _ 0x1fffffff#32 (by simp [Apart]) (by decide))

end UBoot.Flash
