/-
# What an update touches

An update touches the sectors that `flash_sect_erase` is given for it, whatever the drivers
return: the bytes that are written are in them. These are sectors of the target range, when
it is not empty and does not end with the last address of the address space.
-/

import UBoot.Flash.UpdateFlash

namespace UBoot.Flash

/-! ## Protection flags -/

/-- A bank without its protection flags. -/
def FlashInfo.bare (info : FlashInfo) : FlashInfo := info.withProtect fun _ => false

/-- Banks without their protection flags. -/
def bare (banks : List FlashInfo) : List FlashInfo := banks.map FlashInfo.bare

section Bare

variable {banks banks' : List FlashInfo}

theorem unset_bare (banks : List FlashInfo) : unset (bare banks) = unset banks := List.map_map ..

theorem fillBanks_bare (l : ULong) (banks : List FlashInfo) (f : ULong) (c : Nat) :
    fillBanks l (bare banks) f c = fillBanks l banks f c := by
  induction banks generalizing f c with
  | nil => rfl
  | cons info banks ih =>
      change fillBanks l (info.bare :: bare banks) f c = _
      have hunset : unset (info.bare :: bare banks) = unset (info :: banks) := unset_bare (info :: banks)
      rw [fillBanks, fillBanks]
      simp only [ih, unset_bare, hunset]
      rfl

theorem selected_bare (banks : List FlashInfo) (ranges : List Range) :
    selected ((bare banks).zip ranges) = selected (banks.zip ranges) := by
  rw [bare, List.zip_map_left]
  ext x
  constructor
  · rintro ⟨info, i, j, hmem, hx⟩
    obtain ⟨⟨info', range⟩, hmem', heq⟩ := List.mem_map.mp hmem
    obtain ⟨rfl, hrange⟩ := Prod.mk.inj heq
    cases hrange
    exact ⟨info', i, j, hmem', hx⟩
  · rintro ⟨info, i, j, hmem, hx⟩
    exact ⟨info.bare, i, j, List.mem_map.mpr ⟨_, hmem, rfl⟩, hx⟩

theorem flash_sect_roundb_bare (banks : List FlashInfo) (addr : ULong) :
    flash_sect_roundb (bare banks) addr = flash_sect_roundb banks addr := by
  rw [flash_sect_roundb, bare, List.findSome?_map]
  rfl

theorem toErase_bare (banks : List FlashInfo) (first size : ULong) :
    toErase (bare banks) first size = toErase banks first size := by
  simp only [toErase, flash_sect_roundb_bare, flash_fill_sect_ranges, fillBanks_bare, selected_bare]

/-- Only protection flags differ. -/
theorem toErase_congr (h : bare banks' = bare banks) (first size : ULong) :
    toErase banks' first size = toErase banks first size := by
  rw [← toErase_bare banks', h, toErase_bare]

theorem Apart.congr (h : bare banks' = bare banks) (apart : Apart banks) : Apart banks' := by
  have hbare (l : List FlashInfo) : Apart (bare l) ↔ Apart l := List.pairwise_map
  rw [← hbare, h, hbare]
  exact apart

theorem protectLoop_bare (flash_real_protect : FlashInfo → Nat → Int → Int) (prot : Bool)
    (sp_info : Nat → Bool) (sectors : List Nat) (info : FlashInfo) :
    (protectLoop flash_real_protect prot sp_info sectors info).2.bare = info.bare := by
  induction sectors generalizing info with
  | nil => rfl
  | cons i sectors ih =>
      rw [protectLoop]
      generalize (if prot = true then (1 : Int) else 0) = p
      split
      · split
        · rfl
        · exact ih _
      · exact ih info

/-- Protection changes the flags of banks only. -/
theorem update_flash_protect_bare (flash_real_protect : FlashInfo → Nat → Int → Int) (prot : Bool)
    (banks : List FlashInfo) (saved : List (Nat → Bool)) (first last : ULong) :
    bare (update_flash_protect flash_real_protect prot banks saved first last).2.1 = bare banks := by
  induction banks generalizing saved first last with
  | nil => rfl
  | cons info banks ih =>
      rw [update_flash_protect]
      by_cases hnone : info.sector_count = 0
      · rw [if_pos hnone]
      · rw [if_neg hnone]
        extract_lets bank_last addr_last addr_first sp_info here rest
        by_cases hok : here.1 = true
        · rw [if_pos hok]
          exact congrArg₂ List.cons (protectLoop_bare ..) (ih ..)
        · rw [if_neg hok]
          exact congrArg (· :: bare banks) (protectLoop_bare ..)

theorem update_flash_bare (drivers : Drivers) (banks : List FlashInfo) (src first size : ULong) :
    bare (update_flash drivers banks src first size).flash_info = bare banks := by
  have hprotect := update_flash_protect_bare drivers.flash_real_protect
  unfold update_flash
  split
  · rfl
  · split
    · rfl
    · simp only
      repeat' split
      all_goals simp only [hprotect]

end Bare

/-! ## Writes -/

section Writes

variable {banks : List FlashInfo} {src addr cnt : ULong}

/-- A call is given a part of the range. -/
theorem writeBanks_part (write_buff : Call → Int) {call : Call}
    (hcall : call ∈ (writeBanks write_buff banks src addr cnt).2) :
    ∃ o, call.addr = addr + BitVec.ofNat 32 o ∧ o + call.len.toNat ≤ cnt.toNat := by
  induction banks generalizing src addr cnt with
  | nil => cases hcall
  | cons info banks ih =>
      rw [writeBanks] at hcall
      split at hcall
      · cases hcall
      · simp only at hcall
        generalize hlen : (if info.start 0 + info.size - addr > cnt then cnt
          else info.start 0 + info.size - addr) = len at hcall
        have hle : len.toNat ≤ cnt.toNat := by
          rw [← hlen]
          split
          · exact le_rfl
          · bv_omega
        have hfirst : call = ⟨info, src, addr, len⟩ →
            ∃ o, call.addr = addr + BitVec.ofNat 32 o ∧ o + call.len.toNat ≤ cnt.toNat := by
          rintro rfl
          exact ⟨0, by simp, by simpa using hle⟩
        split at hcall
        · exact hfirst (List.mem_singleton.mp hcall)
        · rcases List.mem_cons.mp hcall with heq | hrest
          · exact hfirst heq
          · obtain ⟨o, haddr, ho⟩ := ih hrest
            refine ⟨len.toNat + o, ?_, by bv_omega⟩
            rw [haddr]
            bv_omega

/-- Where something is written, both ends of the range are in known banks. -/
theorem flash_write_part (write_buff : Call → Int) {call : Call}
    (hcall : call ∈ (flash_write banks write_buff src addr cnt).2) :
    (∃ o, call.addr = addr + BitVec.ofNat 32 o ∧ o + call.len.toNat ≤ cnt.toNat) ∧
      cnt ≠ 0#32 ∧ (addr2info banks (addr + cnt - 1#32)).isSome := by
  rw [flash_write] at hcall
  simp only at hcall
  split at hcall
  · cases hcall
  · next hcnt =>
      split at hcall
      · next hlast =>
          split at hcall
          · cases hcall
          · exact ⟨writeBanks_part write_buff hcall, hcnt, by rw [hlast]; rfl⟩
      · cases hcall

end Writes

/-! ## The range that is erased -/

section Range

variable {flash_info : List FlashInfo} {first last size addr : ULong}

/-- The rounded address is the last one of the sector. -/
theorem flash_sect_roundb_some (h : flash_sect_roundb flash_info addr = some last) :
    ∃ info ∈ flash_info, ∃ i < info.sector_count, addr.toNat ∈ info.sector i ∧
      last.toNat + 1 = info.sectorLimit i := by
  obtain ⟨info, hinfo, h⟩ := List.exists_of_findSome?_eq_some h
  obtain ⟨i, hi, h⟩ := List.exists_of_findSome?_eq_some h
  rw [List.mem_range] at hi
  have hend := info.sectorEnd_toNat hi
  have hlt := info.start_lt_sectorLimit hi
  rw [FlashInfo.roundb] at h
  split at h
  · next hin =>
      rw [BitVec.le_def, ge_iff_le, BitVec.le_def, hend] at hin
      refine ⟨info, hinfo, i, hi, ⟨hin.2, by omega⟩, ?_⟩
      split at h
      · cases h
        omega
      · next hnot =>
          rw [BitVec.lt_def, hend] at hnot
          cases h
          omega
  · cases h

theorem FlashInfo.mem_addresses_of_sector {info : FlashInfo} {i a : Nat}
    (hi : i < info.sector_count) (ha : a ∈ info.sector i) : a ∈ info.addresses :=
  ⟨(info.base_le_start hi).trans ha.1, ha.2.trans_le (info.sectorLimit_le hi)⟩

/-- No sector starts inside another one. -/
theorem FlashInfo.start_outside {info : FlashInfo} {i k a : Nat} (hi : i < info.sector_count)
    (hk : k < info.sector_count) (ha : a ∈ info.sector i) (hlt : a < (info.start k).toNat) :
    info.sectorLimit i ≤ (info.start k).toNat := by
  apply FlashInfo.sectorLimit_le_start _ hk
  by_contra hle
  rcases Nat.eq_or_lt_of_le (not_lt.mp hle) with rfl | hki
  · exact absurd ha.1 (not_le.mpr hlt)
  · have := info.sorted k i hki hi
    have := ha.1
    omega

/-- An address of a bank with sectors is in one of them. -/
theorem FlashInfo.exists_sector {info : FlashInfo} {a : Nat} (hsectors : 0 < info.sector_count)
    (ha : a ∈ info.addresses) : ∃ k < info.sector_count, a ∈ info.sector k := by
  let k := Nat.findGreatest (fun i => (info.start i).toNat ≤ a) (info.sector_count - 1)
  have hstart : (info.start k).toNat ≤ a :=
    Nat.findGreatest_spec (P := fun i => (info.start i).toNat ≤ a) (Nat.zero_le _) ha.1
  have hk : k ≤ info.sector_count - 1 := Nat.findGreatest_le _
  refine ⟨k, by omega, hstart, ?_⟩
  rw [FlashInfo.sectorLimit]
  split
  · exact ha.2
  · next hnot =>
      have hnext : ¬ (info.start (k + 1)).toNat ≤ a :=
        Nat.findGreatest_is_greatest (P := fun i => (info.start i).toNat ≤ a)
          (Nat.lt_succ_self k) (by omega)
      omega

/-- What is selected starts with the first address. -/
theorem starts_of_planned (apart : Apart flash_info) (hle : first ≤ last)
    (hok : (flash_fill_sect_ranges flash_info first last).rcode = 0)
    (hcount : (flash_fill_sect_ranges flash_info first last).s_count ≠ 0) :
    ∃ info ∈ flash_info, info.known = true ∧ info.Starts first.toNat := by
  apply exists_starts_of_continued_ne
  intro hsame
  by_cases someEnd : SomeEnd flash_info last.toNat
  · have hlong := (selected_of_someEnd apart hle someEnd hok).1
    rw [BitVec.le_def] at hle
    omega
  · obtain ⟨-, -, hnone⟩ := selected_of_noEnd hle (noEnd_of_not_someEnd someEnd) hok
    have hnumber := s_count_eq hok
    rw [hnone hsame] at hnumber
    exact hcount hnumber

/-- The loop does not go on behind the last address of the address space when no bank begins
with the first one. -/
theorem wrapped_eq_zero {l : Nat} {banks : List FlashInfo}
    (h : l + 1 = 2 ^ 32 → ∀ info ∈ banks, info.known = true → info.base ≠ 0) :
    wrapped l banks = 0 := by
  rw [wrapped]
  split
  · next htop =>
      apply continued_eq_self
      rintro info hinfo hknown ⟨i, hi, hstart⟩
      apply h htop info hinfo hknown
      exact Nat.le_zero.mp (hstart ▸ info.base_le_start hi)
  · rfl

theorem mem_of_mem_behind {l : Nat} {banks : List FlashInfo} {info : FlashInfo}
    (h : info ∈ behind l banks) : info ∈ banks := by
  induction banks with
  | nil => cases h
  | cons x banks ih =>
      rw [behind] at h
      split at h
      · exact List.mem_cons_of_mem x h
      · exact List.mem_cons_of_mem x (ih h)

/-- What is selected is in the interval and in known banks. -/
theorem selected_subset (apart : Apart flash_info) (hle : first ≤ last)
    (htop : last.toNat + 1 = 2 ^ 32 → ∀ info ∈ flash_info, info.known = true → info.base ≠ 0)
    (hok : (flash_fill_sect_ranges flash_info first last).rcode = 0) {x : Nat}
    (hx : x ∈ selected (flash_info.zip (flash_fill_sect_ranges flash_info first last).ranges)) :
    x ∈ Set.Icc first.toNat last.toNat ∧ ∃ info ∈ flash_info, info.known = true ∧ x ∈ info.addresses := by
  rw [flash_fill_sect_ranges] at hx
  by_cases someEnd : SomeEnd flash_info last.toNat
  · obtain ⟨hlong, hsel⟩ := selected_of_someEnd apart hle someEnd hok
    have hzero : wrapped last.toNat (behind last.toNat flash_info) = 0 :=
      wrapped_eq_zero fun h info hinfo => htop h info (mem_of_mem_behind hinfo)
    rw [hsel, hzero, Set.Ico_self, Set.union_empty] at hx
    exact ⟨hx, exists_mem_of_lt_continued hx.1 (hx.2.trans_lt hlong)⟩
  · obtain ⟨hsel, hcont, -⟩ := selected_of_noEnd hle (noEnd_of_not_someEnd someEnd) hok
    rw [hsel] at hx
    refine ⟨⟨hx.1, ?_⟩, exists_mem_of_lt_continued hx.1 hx.2⟩
    have := hx.2
    rw [BitVec.le_def] at hle
    omega

/-- What is to be erased, with the round of the last address. -/
theorem mem_toErase {x : Nat} :
    x ∈ toErase flash_info first size ↔
      ∃ last, flash_sect_roundb flash_info (first + size - 1#32) = some last ∧ first < last ∧
        (flash_fill_sect_ranges flash_info first last).s_count ≠ 0 ∧
        (flash_fill_sect_ranges flash_info first last).rcode = 0 ∧
        x ∈ selected (flash_info.zip (flash_fill_sect_ranges flash_info first last).ranges) := by
  rw [toErase]
  cases flash_sect_roundb flash_info (first + size - 1#32) with
  | none => simp
  | some last => simp

/-- A range that is erased does not wrap around. -/
theorem le_last_of_planned (apart : Apart flash_info)
    (hround : flash_sect_roundb flash_info (first + size - 1#32) = some last) (hlt : first < last)
    (hok : (flash_fill_sect_ranges flash_info first last).rcode = 0)
    (hcount : (flash_fill_sect_ranges flash_info first last).s_count ≠ 0) :
    first ≤ first + size - 1#32 := by
  obtain ⟨info, hinfo, i, hi, hmem, hlast⟩ := flash_sect_roundb_some hround
  obtain ⟨info', hinfo', -, k, hk, hstart⟩ := starts_of_planned apart (BitVec.le_of_lt hlt) hok hcount
  by_contra hwrap
  rw [BitVec.le_def, not_le] at hwrap
  rw [BitVec.lt_def] at hlt
  -- the first address is in the sector of the last byte, and no sector starts there
  have hin : first.toNat ∈ info.sector i := ⟨hmem.1.trans hwrap.le, by omega⟩
  have hsame : info' = info := by
    apply apart.eq_of_mem hinfo' hinfo _ (FlashInfo.mem_addresses_of_sector hi hin)
    rw [← hstart]
    exact ⟨info'.base_le_start hk, info'.start_lt_limit hk⟩
  subst hsame
  have houtside := FlashInfo.start_outside hi hk hmem (by rw [hstart]; exact hwrap)
  have := hin.2
  omega

/-- The sectors that are erased have bytes of the range, unless the loop over the banks goes on
at the first address of the address space. -/
theorem toErase_subset (apart : Apart flash_info) (hnot : ¬ FollowedAround flash_info first size) :
    toErase flash_info first size ⊆ sectorsOf flash_info first size := by
  intro x hx
  obtain ⟨last, hround, hlt, hcount, hok, hx⟩ := mem_toErase.mp hx
  have hle := le_last_of_planned apart hround hlt hok hcount
  have hlast : last.toNat + 1 = 2 ^ 32 → ∀ info ∈ flash_info, info.known = true → info.base ≠ 0 := by
    intro htop info hinfo hknown hbase
    apply hnot
    rw [FollowedAround, hround, Option.some.injEq]
    exact ⟨by bv_omega, info, hinfo, hknown, hbase⟩
  obtain ⟨hin, info, hinfo, hknown, hmem⟩ := selected_subset apart (BitVec.le_of_lt hlt) hlast hok hx
  obtain ⟨k, hk, hxk⟩ := FlashInfo.exists_sector (info.sectors hknown) hmem
  refine ⟨info, hinfo, k, hk, hxk, (info.start k).toNat,
    ⟨le_rfl, info.start_lt_sectorLimit hk⟩, ?_, ?_⟩
  · -- a sector starts at the first address, so it is not inside this one
    obtain ⟨info', hinfo', -, k', hk', hstart⟩ :=
      starts_of_planned apart (BitVec.le_of_lt hlt) hok hcount
    by_contra hbelow
    rw [not_le] at hbelow
    have hfirst : first.toNat ∈ info.sector k := ⟨hbelow.le, hin.1.trans_lt hxk.2⟩
    have hsame : info' = info := by
      apply apart.eq_of_mem hinfo' hinfo _ (FlashInfo.mem_addresses_of_sector hk hfirst)
      rw [← hstart]
      exact ⟨info'.base_le_start hk', info'.start_lt_limit hk'⟩
    subst hsame
    have houtside := FlashInfo.start_outside hk hk' ⟨le_rfl, info'.start_lt_sectorLimit hk⟩
      (by rw [hstart]; exact hbelow)
    have := hfirst.2
    omega
  · -- the sector of the last byte is the last one
    obtain ⟨info', hinfo', k', hk', hbyte, hlimit⟩ := flash_sect_roundb_some hround
    have hbyte_lt : (first + size - 1#32).toNat < first.toNat + size.toNat := by
      have hsize : size ≠ 0#32 := by
        -- an empty range could only be that at the first address
        rintro rfl
        obtain ⟨info, hinfo, hknown, i, hi, hstart⟩ :=
          starts_of_planned apart (BitVec.le_of_lt hlt) hok hcount
        have hbase := info.base_le_start hi
        rw [BitVec.le_def] at hle
        have := hbyte.2
        exact hlast (by bv_omega) info hinfo hknown (by bv_omega)
      rw [BitVec.le_def] at hle
      bv_omega
    by_contra hbehind
    have hstart : (info.start k).toNat ∈ info'.sector k' := by
      refine ⟨hbyte.1.trans (by omega), ?_⟩
      have := hxk.1
      have := hin.2
      omega
    have hsame : info = info' :=
      apart.eq_of_mem hinfo hinfo' (FlashInfo.mem_addresses_of_sector hk ⟨le_rfl, info.start_lt_sectorLimit hk⟩)
        (FlashInfo.mem_addresses_of_sector hk' hstart)
    subst hsame
    have houtside := FlashInfo.start_outside hk' hk hbyte (by omega)
    have := hstart.2
    omega

/-! ## The update -/

theorem rcode_cases (l : ULong) (banks : List FlashInfo) (f : ULong) (c : Nat) :
    (fillBanks l banks f c).rcode = 0 ∨ (fillBanks l banks f c).rcode = 1 := by
  induction banks generalizing f c with
  | nil => exact Or.inl rfl
  | cons info banks ih =>
      by_cases hle : f ≤ l
      · have v := visit hle info banks c
        generalize fillBanks l (info :: banks) f c = r at v ⊢
        cases v with
        | skip h => exact ih f c
        | error r failed => exact Or.inr failed
        | ends i j => exact ih _ _
        | whole i j => exact ih _ _
      · rw [fillBanks_done (BitVec.not_le.mp hle)]
        exact Or.inl rfl

/-- Sectors that `flash_erase` is called for are to be erased. -/
theorem erase_touch {drivers : Drivers} {t : FlashInfo × Nat × Nat}
    (hround : flash_sect_roundb flash_info (first + size - 1#32) = some last) (hlt : first < last)
    (ht : t ∈ (flash_sect_erase flash_info drivers.flash_erase first last).2) :
    t.1.sectorsBetween t.2.1 t.2.2 ⊆ toErase flash_info first size := by
  intro x hx
  rw [flash_sect_erase] at ht
  split at ht
  · next h =>
      exact mem_toErase.mpr ⟨last, hround, hlt, h.1, h.2, t.1, t.2.1, t.2.2, mem_eraseBanks _ ht, hx⟩
  · split at ht <;> cases ht

/-- A call of `flash_sect_erase` that is not answered with an error has found the sectors. -/
theorem planned_of_erased {flash_erase : FlashInfo → Nat → Nat → Int}
    (h : ¬ (flash_sect_erase flash_info flash_erase first last).1 > 0) :
    (flash_fill_sect_ranges flash_info first last).s_count ≠ 0 ∧
      (flash_fill_sect_ranges flash_info first last).rcode = 0 := by
  have hcases := rcode_cases last flash_info first 0
  rw [flash_sect_erase] at h
  by_contra hnot
  rw [if_neg hnot] at h
  split at h
  · exact h (by decide)
  · next hfailed =>
      apply h
      rw [flash_fill_sect_ranges] at hfailed ⊢
      rw [hcases.resolve_left hfailed]
      decide

/-- Bytes that are passed to `write_buff` are in what is to be erased. -/
theorem write_touch (apart : Apart flash_info) {write_buff : Call → Int} {src : ULong} {call : Call}
    (hround : flash_sect_roundb flash_info (first + size - 1#32) = some last) (hlt : first < last)
    (hcount : (flash_fill_sect_ranges flash_info first last).s_count ≠ 0)
    (hok : (flash_fill_sect_ranges flash_info first last).rcode = 0)
    (hcall : call ∈ (flash_write flash_info write_buff src first size).2) :
    (Touch.write call).addresses ⊆ toErase flash_info first size := by
  obtain ⟨⟨o, haddr, ho⟩, hsize, hlast⟩ := flash_write_part write_buff hcall
  have hle := le_last_of_planned apart hround hlt hok hcount
  obtain ⟨info, hinfo, hknown, hmem⟩ := addr2info_known hlast
  obtain ⟨info', hinfo', i, hi, hmem', hlimit⟩ := flash_sect_roundb_some hround
  obtain rfl := apart.eq_of_mem hinfo hinfo' hmem (FlashInfo.mem_addresses_of_sector hi hmem')
  have someEnd : SomeEnd flash_info last.toNat := ⟨info, hinfo, hknown, i, hi, hlimit.symm⟩
  have hsel := (selected_of_someEnd apart (BitVec.le_of_lt hlt) someEnd hok).2
  rintro x ⟨k, hk, rfl⟩
  refine mem_toErase.mpr ⟨last, hround, hlt, hcount, hok, ?_⟩
  rw [flash_fill_sect_ranges, hsel, haddr]
  left
  have hbyte := hmem'.2
  rw [BitVec.le_def] at hle
  constructor
  · bv_omega
  · bv_omega

/-- An update touches what is to be erased for it. -/
theorem touches_subset (apart : Apart flash_info) (drivers : Drivers) (src first size : ULong)
    {t : Touch} (ht : t ∈ (update_flash drivers flash_info src first size).touches) :
    t.addresses ⊆ toErase flash_info first size := by
  unfold update_flash at ht
  split at ht
  · cases ht
  · next last hround =>
      split at ht
      · cases ht
      · next hlt =>
          rw [ge_iff_le, BitVec.not_le] at hlt
          simp only at ht
          have hbare := update_flash_protect_bare drivers.flash_real_protect false flash_info [] first last
          generalize update_flash_protect drivers.flash_real_protect false flash_info [] first last =
            unprotected at ht hbare
          rw [← toErase_congr hbare]
          have apart' := Apart.congr hbare apart
          have hround' : flash_sect_roundb unprotected.2.1 (first + size - 1#32) = some last := by
            rw [← flash_sect_roundb_bare, hbare, flash_sect_roundb_bare]
            exact hround
          have herases : ∀ t ∈ (flash_sect_erase unprotected.2.1 drivers.flash_erase first last).2.map
              (fun t => Touch.erase t.1 t.2.1 t.2.2), t.addresses ⊆ toErase unprotected.2.1 first size := by
            rintro _ h
            obtain ⟨t, ht, rfl⟩ := List.mem_map.mp h
            exact erase_touch hround' hlt ht
          split at ht
          · cases ht
          · split at ht
            · exact herases t ht
            · next hnot =>
                obtain ⟨hcount, hok⟩ := planned_of_erased hnot
                have hall : t ∈ (flash_sect_erase unprotected.2.1 drivers.flash_erase first last).2.map
                    (fun t => Touch.erase t.1 t.2.1 t.2.2) ++
                    (flash_write unprotected.2.1 drivers.write_buff src first size).2.map Touch.write := by
                  split at ht
                  · exact ht
                  · split at ht <;> exact ht
                rcases List.mem_append.mp hall with h | h
                · exact herases t h
                · obtain ⟨call, hcall, rfl⟩ := List.mem_map.mp h
                  exact write_touch apart' hround' hlt hcount hok hcall

/-! ## Drivers without errors -/

theorem protectLoop_quiet (prot : Bool) (sp_info : Nat → Bool) (sectors : List Nat)
    (info : FlashInfo) : (protectLoop (fun _ _ _ => 0) prot sp_info sectors info).1 = true := by
  induction sectors generalizing info with
  | nil => rfl
  | cons i sectors ih =>
      rw [protectLoop]
      split
      · rw [if_neg (by decide)]
        exact ih _
      · exact ih info

theorem update_flash_protect_quiet (prot : Bool) (banks : List FlashInfo)
    (saved : List (Nat → Bool)) (first last : ULong) :
    (update_flash_protect (fun _ _ _ => 0) prot banks saved first last).1 = true := by
  induction banks generalizing saved first last with
  | nil => rfl
  | cons info banks ih =>
      rw [update_flash_protect]
      by_cases hnone : info.sector_count = 0
      · rw [if_pos hnone]
      · rw [if_neg hnone]
        extract_lets bank_last addr_last addr_first sp_info here rest
        rw [if_pos (protectLoop_quiet ..)]
        exact ih ..

/-- Drivers that report no error. -/
def Drivers.quiet : Drivers where
  flash_erase _ _ _ := 0
  write_buff _ := 0
  flash_real_protect _ _ _ := 0

theorem eraseBanks_quiet (banks : List (FlashInfo × Range)) :
    (eraseBanks (fun _ _ _ => 0) banks).1 = 0 := by
  induction banks with
  | nil => rfl
  | cons bank banks ih =>
      rcases bank with ⟨info, _ | i, _ | j⟩
      case some.some =>
        rw [eraseBanks_erased (by decide)]
        exact ih
      all_goals exact ih

/-- What is to be erased is erased when the driver reports no error. -/
theorem erased_of_quiet {x : Nat} (hround : flash_sect_roundb flash_info (first + size - 1#32) = some last)
    (hx : x ∈ toErase flash_info first size) :
    (flash_sect_erase flash_info (fun _ _ _ => 0) first last).1 = 0 ∧
      ∃ t ∈ (flash_sect_erase flash_info (fun _ _ _ => 0) first last).2,
        x ∈ t.1.sectorsBetween t.2.1 t.2.2 := by
  obtain ⟨last', hround', -, hcount, hok, info, i, j, hmem, hx⟩ := mem_toErase.mp hx
  obtain rfl : last' = last := Option.some.inj (hround'.symm.trans hround)
  have hzero := eraseBanks_quiet
    (flash_info.zip (flash_fill_sect_ranges flash_info first last').ranges)
  rw [flash_sect_erase, if_pos ⟨hcount, hok⟩]
  exact ⟨hzero, (info, i, j), mem_eraseBanks_of_ok _ hzero hmem, hx⟩

/-- An update without errors of the drivers touches all that is to be erased. -/
theorem touched_of_quiet (src first size : ULong) {x : Nat}
    (hx : x ∈ toErase flash_info first size) :
    ∃ t ∈ (update_flash Drivers.quiet flash_info src first size).touches, x ∈ t.addresses := by
  obtain ⟨last, hround, hlt, -⟩ := mem_toErase.mp hx
  have hbare := update_flash_protect_bare Drivers.quiet.flash_real_protect false flash_info [] first last
  have hok : (update_flash_protect Drivers.quiet.flash_real_protect false flash_info [] first last).1 =
      true := update_flash_protect_quiet false flash_info [] first last
  rw [update_flash, hround]
  simp only
  generalize update_flash_protect Drivers.quiet.flash_real_protect false flash_info [] first last =
    unprotected at hbare hok ⊢
  rw [← toErase_congr hbare] at hx
  rw [← flash_sect_roundb_bare, ← hbare, flash_sect_roundb_bare] at hround
  obtain ⟨herased, t, ht, hxt⟩ := erased_of_quiet hround hx
  have hgo : ¬ (flash_sect_erase unprotected.2.1 Drivers.quiet.flash_erase first last).1 > 0 :=
    not_lt.mpr herased.le
  rw [if_neg (BitVec.not_le.mpr hlt), if_neg (by rw [hok]; decide), if_neg hgo]
  have hmem := List.mem_append_left
    ((flash_write unprotected.2.1 Drivers.quiet.write_buff src first size).2.map Touch.write)
    (List.mem_map_of_mem (f := fun t => Touch.erase t.1 t.2.1 t.2.2) ht)
  split
  · exact ⟨_, hmem, hxt⟩
  · split <;> exact ⟨_, hmem, hxt⟩

end Range

end UBoot.Flash
