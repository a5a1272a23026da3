/-
# What an allocation finds

The search of `__lmb_alloc_base` finds the highest spot of the last memory region that has one.
A spot is an address on which nothing depends but the tables and the arguments, as the code
computes it: sums wrap around, and a reserved region that ends with the address space is seen
nowhere.
-/

import UBoot.Lib.Masks
import UBoot.Lib.Search
import UBoot.LibGeneric.LmbRefines

namespace UBoot

open UBoot.Lib

/-! ## Alignment -/

section Align

variable {align : Phys} {k : Nat}

theorem lmb_align_down_toNat (halign : align.toNat = 2 ^ k) (a : Phys) :
    (lmb_align_down a align).toNat = a.toNat / align.toNat * align.toNat := by
  have hk : 2 ^ k < 2 ^ 32 := halign ▸ align.isLt
  have hmask : (align - 1).toNat = 2 ^ k - 1 := by
    have := Nat.two_pow_pos k
    bv_omega
  rw [lmb_align_down, and_not_low_toNat hmask, halign]

theorem dvd_lmb_align_down (halign : align.toNat = 2 ^ k) (a : Phys) :
    align.toNat ∣ (lmb_align_down a align).toNat := by
  rw [lmb_align_down_toNat halign]
  exact Nat.dvd_mul_left ..

/-- It is the highest multiple that is not above the address. -/
theorem le_lmb_align_down (halign : align.toNat = 2 ^ k) {a c : Phys} (hc : align.toNat ∣ c.toNat) :
    c ≤ lmb_align_down a align ↔ c ≤ a := by
  rw [BitVec.le_def, BitVec.le_def]
  constructor
  · intro h
    exact h.trans (lmb_align_down_le a align)
  · intro h
    obtain ⟨m, hm⟩ := hc
    rw [lmb_align_down_toNat halign, hm, Nat.mul_comm]
    apply Nat.mul_le_mul_right
    rw [Nat.le_div_iff_mul_le (halign ▸ Nat.two_pow_pos k), Nat.mul_comm, ← hm]
    exact h

end Align

/-! ## Spots -/

/-- The address below which an allocation in a memory region ends. -/
def allocTop (r : LmbProperty) (max_addr : Phys) : Phys :=
  if max_addr = LMB_ALLOC_ANYWHERE then r.stop else if r.stop < max_addr then r.stop else max_addr

/-- An aligned address in a memory region, with no reserved region in the way. -/
structure Candidate (reserved : LmbRegion) (lmbbase size align b : Phys) : Prop where
  aligned : align.toNat ∣ b.toNat
  ne_zero : b ≠ 0
  base_le : lmbbase ≤ b
  free : lmb_overlaps_region reserved b size = none

/-- A spot for an allocation in a memory region. When the range at the highest multiple of the
alignment reaches the end of the address space, no other is tried. -/
structure Spot (lmb : Lmb) (size align max_addr : Phys) (i : Nat) (b : Phys) : Prop where
  lt : i < lmb.memory.cnt
  fits : size ≤ (lmb.memory.region i).size
  looked : max_addr = LMB_ALLOC_ANYWHERE ∨ (lmb.memory.region i).base < max_addr
  candidate : Candidate lmb.reserved (lmb.memory.region i).base size align b
  le_top : b ≤ allocTop (lmb.memory.region i) max_addr - size
  first : 2 ^ 32 ≤ (lmb_align_down (allocTop (lmb.memory.region i) max_addr - size) align).toNat +
    size.toNat → b = lmb_align_down (allocTop (lmb.memory.region i) max_addr - size) align

/-- The highest spot of the last memory region that has one. -/
structure Highest (lmb : Lmb) (size align max_addr : Phys) (i : Nat) (b : Phys) : Prop where
  spot : Spot lmb size align max_addr i b
  highest : ∀ c, Spot lmb size align max_addr i c → c ≤ b
  last : ∀ k, i < k → ∀ c, ¬ Spot lmb size align max_addr k c

/-! ## The search -/

section Search

variable {reserved : LmbRegion} {lmbbase size align : Phys} {k : Nat}

/-- A range that ends behind the begin of a reserved region is not free when it begins before the
end of it. -/
theorem not_free_of_overlap {start c : Phys} {j : Nat}
    (hj : lmb_overlaps_region reserved start size = some j) (hc : c ≤ start)
    (hwrap : c.toNat + size.toNat < 2 ^ 32)
    (hlt : (reserved.region j).base.toNat < c.toNat + size.toNat) :
    lmb_overlaps_region reserved c size ≠ none := by
  intro hnone
  have hover := List.find?_some hj
  have hnot := List.find?_eq_none.mp hnone j (List.mem_of_find?_eq_some hj)
  apply hnot
  simp only [lmb_addrs_overlap, decide_eq_true_eq] at hover ⊢
  obtain ⟨hover, -⟩ := hover
  constructor
  · bv_omega
  · bv_omega

/-- The inner loop finds the highest candidate. -/
theorem searchDown_greatest (reserved : LmbRegion) (lmbbase size : Phys)
    (halign : align.toNat = 2 ^ k) {start : Phys}
    (hstart : align.toNat ∣ start.toNat) :
    GreatestOf { c | c ≤ start ∧ Candidate reserved lmbbase size align c ∧
      (2 ^ 32 ≤ start.toNat + size.toNat → c = start) }
      (searchDown reserved lmbbase size align start) := by
  fun_induction searchDown reserved lmbbase size align start with
  | case1 start hin hnone =>
      refine ⟨⟨BitVec.le_refl start, ⟨hstart, hin.1, hin.2, hnone⟩, fun _ => rfl⟩, ?_⟩
      rintro c ⟨hle, -⟩
      exact hle
  | case2 start hin j hj hsize =>
      apply Set.eq_empty_of_forall_notMem
      rintro c ⟨hle, candidate, hfirst⟩
      by_cases htop : 2 ^ 32 ≤ start.toNat + size.toNat
      · rw [← hfirst htop, candidate.free] at hj
        cases hj
      · refine not_free_of_overlap hj hle ?_ ?_ candidate.free
        · bv_omega
        · bv_omega
  | case3 start hin j hj hsize ih =>
      have hover := List.find?_some hj
      simp only [lmb_addrs_overlap, decide_eq_true_eq] at hover
      have hnext := lmb_align_down_le ((reserved.region j).base - size) align
      have hdvd := dvd_lmb_align_down halign ((reserved.region j).base - size)
      -- the sum did not wrap around, since the region begins behind the size
      have hwrap : start.toNat + size.toNat < 2 ^ 32 := by bv_omega
      have hih := ih hdvd
      generalize hdown : lmb_align_down ((reserved.region j).base - size) align = next at *
      have hsame : { c | c ≤ start ∧ Candidate reserved lmbbase size align c ∧
            (2 ^ 32 ≤ start.toNat + size.toNat → c = start) } =
          { c | c ≤ start ∧ Candidate reserved lmbbase size align c } := by
        ext c
        exact ⟨fun h => ⟨h.1, h.2.1⟩, fun h => ⟨h.1, h.2, fun htop => by omega⟩⟩
      have hsame' : { c | c ≤ next ∧ Candidate reserved lmbbase size align c ∧
            (2 ^ 32 ≤ next.toNat + size.toNat → c = next) } =
          { c | c ≤ next ∧ Candidate reserved lmbbase size align c } := by
        ext c
        exact ⟨fun h => ⟨h.1, h.2.1⟩, fun h => ⟨h.1, h.2, fun htop => by bv_omega⟩⟩
      rw [hsame]
      rw [hsame'] at hih
      apply hih.skip
      · bv_omega
      · intro c hle candidate
        rw [← hdown, le_lmb_align_down halign candidate.aligned]
        by_contra hbehind
        refine not_free_of_overlap hj hle ?_ ?_ candidate.free
        · bv_omega
        · bv_omega
  | case4 start hout =>
      apply Set.eq_empty_of_forall_notMem
      rintro c ⟨hle, candidate, -⟩
      apply hout
      have := candidate.ne_zero
      have := candidate.base_le
      constructor
      · bv_omega
      · bv_omega

variable {lmb : Lmb} {max_addr : Phys}

theorem searchStart_eq (r : LmbProperty) :
    searchStart r.base r.size size align max_addr =
      if size ≤ r.size ∧ (max_addr = LMB_ALLOC_ANYWHERE ∨ r.base < max_addr) then
        some (lmb_align_down (allocTop r max_addr - size) align)
      else none := by
  rw [searchStart, allocTop]
  simp only [LmbProperty.stop]
  by_cases hfits : r.size < size
  · rw [if_pos hfits, if_neg fun h => absurd h.1 (BitVec.not_le.mpr hfits)]
  · rw [if_neg hfits]
    have hle : size ≤ r.size := BitVec.not_lt.mp hfits
    by_cases hany : max_addr = LMB_ALLOC_ANYWHERE
    · rw [if_pos hany, if_pos hany, if_pos ⟨hle, Or.inl hany⟩]
    · rw [if_neg hany, if_neg hany]
      by_cases hlow : r.base < max_addr
      · have hlooked : size ≤ r.size ∧ (max_addr = LMB_ALLOC_ANYWHERE ∨ r.base < max_addr) :=
          ⟨hle, Or.inr hlow⟩
        rw [if_pos hlow, if_pos hlooked]
        rfl
      · rw [if_neg hlow, if_neg fun h => h.2.elim hany hlow]

/-- In one memory region the highest spot is found. -/
theorem searchRegion_greatest (size max_addr : Phys) (halign : align.toNat = 2 ^ k) {i : Nat} (hi : i < lmb.memory.cnt) :
    GreatestOf { c | Spot lmb size align max_addr i c }
      ((searchStart (lmb.memory.region i).base (lmb.memory.region i).size size align max_addr).bind
        (searchDown lmb.reserved (lmb.memory.region i).base size align)) := by
  rw [searchStart_eq]
  split
  · next hlooked =>
      have hgreatest := searchDown_greatest lmb.reserved (lmb.memory.region i).base size halign
        (dvd_lmb_align_down halign (allocTop (lmb.memory.region i) max_addr - size))
      rw [Option.bind_some]
      convert hgreatest using 1
      ext c
      constructor
      · intro spot
        exact ⟨(le_lmb_align_down halign spot.candidate.aligned).mpr spot.le_top, spot.candidate, spot.first⟩
      · rintro ⟨hle, candidate, hfirst⟩
        exact ⟨hi, hlooked.1, hlooked.2, candidate,
          (le_lmb_align_down halign candidate.aligned).mp hle, hfirst⟩
  · next hnot =>
      apply Set.eq_empty_of_forall_notMem
      intro c spot
      exact hnot ⟨spot.fits, spot.looked⟩

/-- The search finds the highest spot of the last region that has one. -/
theorem searchMemory_eq_some_iff (halign : align.toNat = 2 ^ k) {b : Phys} :
    searchMemory lmb size align max_addr lmb.memory.cnt = some b ↔
      ∃ i, Highest lmb size align max_addr i b := by
  suffices h : ∀ n ≤ lmb.memory.cnt, (searchMemory lmb size align max_addr n = some b ↔
      ∃ i < n, Spot lmb size align max_addr i b ∧ (∀ c, Spot lmb size align max_addr i c → c ≤ b) ∧
        ∀ k, i < k → k < n → ∀ c, ¬ Spot lmb size align max_addr k c) by
    rw [h _ le_rfl]
    constructor
    · rintro ⟨i, hi, spot, highest, last⟩
      exact ⟨i, spot, highest, fun k hk c spot' => last k hk spot'.lt c spot'⟩
    · rintro ⟨i, spot, highest, last⟩
      exact ⟨i, spot.lt, spot, highest, fun k hk _ => last k hk⟩
  intro n hn
  induction n with
  | zero => simp [searchMemory]
  | succ n ih =>
      have hgreatest := searchRegion_greatest size max_addr halign
        (show n < lmb.memory.cnt from hn)
      rw [searchMemory]
      generalize (searchStart (lmb.memory.region n).base (lmb.memory.region n).size size align
        max_addr).bind (searchDown lmb.reserved (lmb.memory.region n).base size align) = found at hgreatest
      cases found with
      | some base =>
          change some base = some b ↔ _
          rw [hgreatest.eq_some_iff]
          constructor
          · intro greatest
            exact ⟨n, Nat.lt_succ_self n, greatest.1, fun c spot => greatest.2 spot,
              fun k hk hlt => absurd hk (by omega)⟩
          · rintro ⟨i, hi, spot, highest, last⟩
            rcases Nat.lt_or_eq_of_le (Nat.lt_succ_iff.mp hi) with hlt | rfl
            · exact absurd hgreatest.1 (last n hlt (Nat.lt_succ_self n) base)
            · exact ⟨spot, fun c spot => highest c spot⟩
      | none =>
          change searchMemory lmb size align max_addr n = some b ↔ _
          have hempty : ∀ c, ¬ Spot lmb size align max_addr n c := fun c =>
            Set.eq_empty_iff_forall_notMem.mp hgreatest c
          rw [ih (Nat.le_of_succ_le hn)]
          constructor
          · rintro ⟨i, hi, spot, highest, last⟩
            refine ⟨i, hi.trans (Nat.lt_succ_self n), spot, highest, fun k hk hlt => ?_⟩
            rcases Nat.lt_or_eq_of_le (Nat.lt_succ_iff.mp hlt) with hlt | rfl
            · exact last k hk hlt
            · exact hempty
          · rintro ⟨i, hi, spot, highest, last⟩
            have hne : i ≠ n := by
              rintro rfl
              exact hempty b spot
            exact ⟨i, by omega, spot, highest, fun k hk hlt => last k hk (by omega)⟩

end Search

end UBoot
