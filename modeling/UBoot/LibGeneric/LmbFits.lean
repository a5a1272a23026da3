/-
# Where a range fits into a table

`lmb_add_region` extends the region that a range touches, merges it with the next one where they
touch, and otherwise puts the range in. For a table that is sorted and without overlaps, and a
range whose first address is free: when this gives such a table again. Sums wrap around, so a
range that ends with the address space touches a region that begins at 0.
-/

import UBoot.Lib.Intervals
import UBoot.LibGeneric.LmbRuns

namespace UBoot

open UBoot.Lib

/-- A table is sorted, no two regions have an address in common, and none wraps around. -/
structure LmbRegion.InOrder (rgn : LmbRegion) : Prop where
  cnt_le : rgn.cnt ≤ MAX_LMB_REGIONS
  inOrder : Lib.InOrder rgn.cnt rgn.spans
  noWrap : ∀ i < rgn.cnt, (rgn.spans i).hi ≤ 2 ^ 32

/-- A range fits between the first `n` regions: it is free; regions are not joined around the
end of the address space, and the whole address space does not become one region; and where a
region begins with the end of the range and none ends with its begin, no empty region stands
inside of it. -/
structure Fits (n : Nat) (r : Nat → Span Nat) (x : Span Nat) : Prop where
  free : ∀ j < n, Disjoint x.points (r j).points
  around : x.hi = 2 ^ 32 → (r 0).lo = 0 → ∀ j < n, (r j).hi = (r j).lo ∧ (0 < j → x.lo ≤ (r j).lo)
  whole : ¬ (1 < n ∧ r 0 = ⟨0, x.lo⟩ ∧ r 1 = ⟨x.hi, 2 ^ 32⟩)
  between : (∃ i < n, (r i).lo = x.hi) → (∃ j < n, (r j).hi = x.lo) ∨
    ∀ k < n, ¬ (x.lo < (r k).lo ∧ (r k).lo < x.hi)

/-! ## Entries -/

theorem span_le (rgn : LmbRegion) (i : Nat) : (rgn.spans i).lo ≤ (rgn.spans i).hi :=
  Nat.le_add_right ..

/-- An entry follows a range when it begins where the sum wraps to. -/
theorem follows_iff {x r : LmbProperty} :
    r.base = x.base + x.size ↔ r.span.lo = x.span.hi % 2 ^ 32 := by
  simp only [LmbProperty.span]
  rw [← BitVec.toNat_inj, BitVec.toNat_add]

theorem precedes_iff {x r : LmbProperty} (hpos : 0 < x.span.lo) (hr : r.span.hi ≤ 2 ^ 32) :
    x.base = r.base + r.size ↔ r.span.hi = x.span.lo := by
  simp only [LmbProperty.span] at hpos hr ⊢
  bv_omega

section Outcome

variable {rgn : LmbRegion} {i : Nat} {x' : LmbProperty} {y : Span Nat}

/-- Addresses that no other region has are in the changed one. -/
theorem subset_covered_iff {n : Nat} {r : Nat → Span Nat} {z : Span Nat} (hi : i < n)
    (hne : y.lo < y.hi) (hout : ∀ j < n, j ≠ i → Disjoint y.points (r j).points) :
    y.points ⊆ Covered n (Function.update r i z) ↔ z.lo ≤ y.lo ∧ y.hi ≤ z.hi := by
  constructor
  · intro hsub
    have hmem : ∀ a ∈ y.points, a ∈ z.points := by
      intro a ha
      rcases (mem_covered_update hi).mp (hsub ha) with hz | ⟨j, hj, hji, hr⟩
      · exact hz
      · exact absurd hr (Set.disjoint_left.mp (hout j hj hji) ha)
    have hfirst := hmem y.lo ⟨le_rfl, hne⟩
    have hlast := hmem (y.hi - 1) ⟨by omega, by omega⟩
    rw [Span.mem_points] at hfirst hlast
    omega
  · rintro ⟨hlo, hhi⟩ a ha
    exact (mem_covered_update hi).mpr (Or.inl ⟨hlo.trans ha.1, ha.2.trans_le hhi⟩)

/-- An entry that takes the place of those from `i` to `k`, and has certain addresses. -/
structure Placed (rgn : LmbRegion) (i k : Nat) (z y : Span Nat) : Prop where
  noWrap : z.hi ≤ 2 ^ 32
  has : z.lo ≤ y.lo ∧ y.hi ≤ z.hi
  before : ∀ j < i, (rgn.spans j).lo < z.lo
  behind : ∀ j, k < j → j < rgn.cnt → z.lo < (rgn.spans j).lo
  disjoint : ∀ j < rgn.cnt, j < i ∨ k < j → Disjoint z.points (rgn.spans j).points

/-- A table with a changed entry is in order and has addresses that were free, when the entry
has them and stands in the right place. -/
theorem set_outcome_iff (h : rgn.InOrder) (hi : i < rgn.cnt) (hne : y.lo < y.hi)
    (hout : ∀ j < rgn.cnt, Disjoint y.points (rgn.spans j).points) :
    (rgn.set i x').InOrder ∧ y.points ⊆ (rgn.set i x').covered ↔ Placed rgn i i x'.span y := by
  have horder := h.inOrder.update_iff (x := x'.span) hi
  have hcovered := subset_covered_iff (z := x'.span) hi hne fun j hj _ => hout j hj
  rw [← LmbRegion.set_spans] at horder hcovered
  constructor
  · rintro ⟨h', hsub⟩
    have hwrap := h'.noWrap i hi
    rw [LmbRegion.set_spans, Function.update_self] at hwrap
    obtain ⟨hbefore, hbehind, hdisjoint⟩ := horder.mp h'.inOrder
    exact ⟨hwrap, hcovered.mp hsub, hbefore, hbehind, fun j hj hother => hdisjoint j hj (by omega)⟩
  · rintro ⟨hwrap, hhas, hbefore, hbehind, hdisjoint⟩
    have h' := horder.mpr ⟨hbefore, hbehind, fun j hj hji => hdisjoint j hj (by omega)⟩
    refine ⟨⟨h.cnt_le, h', fun j hj => ?_⟩, hcovered.mpr hhas⟩
    rw [LmbRegion.set_spans]
    by_cases hji : j = i
    · rw [hji, Function.update_self]
      exact hwrap
    · rw [Function.update_of_ne hji]
      exact h.noWrap j hj

/-- The entry that two entries are merged into. -/
def LmbProperty.merge (x' r : LmbProperty) : LmbProperty := ⟨x'.base, x'.size + r.size⟩

/-- The same for a changed entry that is merged with the next one. -/
theorem merge_outcome_iff (x' : LmbProperty) (h : rgn.InOrder) (hi : i + 1 < rgn.cnt)
    (hne : y.lo < y.hi) (hout : ∀ j < rgn.cnt, Disjoint y.points (rgn.spans j).points) :
    ∃ rgn', lmb_coalesce_regions (rgn.set i x') i (i + 1) = some rgn' ∧
      (rgn'.InOrder ∧ y.points ⊆ rgn'.covered ↔
        Placed rgn i (i + 1) (x'.merge (rgn.region (i + 1))).span y) := by
  have hmerged : ((rgn.set i x').set i ⟨((rgn.set i x').region i).base,
      ((rgn.set i x').region i).size + ((rgn.set i x').region (i + 1)).size⟩).spans =
        Function.update rgn.spans i (x'.merge (rgn.region (i + 1))).span := by
    rw [LmbRegion.set_spans, LmbRegion.set_spans, Function.update_idem]
    simp [LmbProperty.merge]
  obtain ⟨rgn', hremove, hcnt, same⟩ := lmb_remove_region_eq ((rgn.set i x').set i
    ⟨((rgn.set i x').region i).base,
      ((rgn.set i x').region i).size + ((rgn.set i x').region (i + 1)).size⟩) h.cnt_le hi
  refine ⟨rgn', hremove, ?_⟩
  rw [hmerged] at same
  change rgn.cnt = rgn'.cnt + 1 at hcnt
  have hin : Lib.InOrder (rgn'.cnt + 1) rgn.spans := hcnt ▸ h.inOrder
  have horder := hin.merge_iff (p := i) (x := (x'.merge (rgn.region (i + 1))).span) (by omega)
  have hcovered : y.points ⊆ rgn'.covered ↔ x'.span.lo ≤ y.lo ∧
      y.hi ≤ (x'.merge (rgn.region (i + 1))).span.hi := by
    have hsub := subset_covered_iff (z := (x'.merge (rgn.region (i + 1))).span) (n := rgn'.cnt)
      (r := removeAt rgn.spans (i + 1)) (i := i) (y := y) (by omega) hne (fun j hj _ => by
        unfold removeAt
        split_ifs
        · exact hout j (by omega)
        · exact hout (j + 1) (by omega))
    rw [LmbRegion.covered, covered_congr same, removeAt_update]
    exact hsub
  constructor
  · rintro ⟨h', hsub⟩
    have hwrap := h'.noWrap i (by omega)
    rw [same i (by omega), removeAt, if_pos (by omega), Function.update_self] at hwrap
    obtain ⟨hbefore, hbehind, hdisjoint⟩ := horder.mp ((InOrder.congr_iff same).mp h'.inOrder)
    exact ⟨hwrap, hcovered.mp hsub, hbefore, fun j hj hjn => hbehind j hj (by omega),
      fun j hj hother => hdisjoint j (by omega) (by omega) (by omega)⟩
  · rintro ⟨hwrap, hhas, hbefore, hbehind, hdisjoint⟩
    have hle := h.cnt_le
    have h' := horder.mpr ⟨hbefore, fun j hj hjn => hbehind j hj (by omega),
      fun j hj hji hji' => hdisjoint j (by omega) (by omega)⟩
    refine ⟨⟨by omega, (InOrder.congr_iff same).mpr h', fun j hj => ?_⟩, hcovered.mpr hhas⟩
    rw [same j hj, removeAt_update]
    by_cases hji : j = i
    · rw [hji, Function.update_self]
      exact hwrap
    · rw [Function.update_of_ne hji, removeAt]
      split_ifs
      · exact h.noWrap j (by omega)
      · exact h.noWrap (j + 1) (by omega)

end Outcome

/-! ## The arithmetic of the cases -/

/-- A range behind 0 that does not wrap around, with a number of free addresses at its begin. It
is longer than they are by less than its begin. -/
structure Requested (rgn : LmbRegion) (x : LmbProperty) (size : Phys) : Prop where
  pos : 0 < x.span.lo
  size_pos : 0 < size.toNat
  size_le : size.toNat ≤ x.size.toNat
  rounded : x.size.toNat < size.toNat + x.span.lo
  noWrap : x.span.hi ≤ 2 ^ 32
  free : ∀ j < rgn.cnt, Disjoint (addrs x.base size) (rgn.spans j).points

section Cases

variable {rgn : LmbRegion} {x : LmbProperty} {size : Phys} {i : Nat}

theorem Requested.hi_eq (q : Requested rgn x size) :
    x.span.lo + size.toNat ≤ x.span.hi ∧ x.span.hi < x.span.lo + size.toNat + x.span.lo := by
  have := q.size_le
  have := q.rounded
  simp only [LmbProperty.span] at *
  omega

/-- A region is empty, or it ends before the range or begins behind the free addresses. -/
theorem Requested.outside (q : Requested rgn x size) {j : Nat} (hj : j < rgn.cnt) :
    (rgn.spans j).hi ≤ (rgn.spans j).lo ∨ (rgn.spans j).hi ≤ x.span.lo ∨
      x.span.lo + size.toNat ≤ (rgn.spans j).lo := by
  have hpos := q.size_pos
  rcases Span.disjoint_iff.mp (q.free j hj) with h | h | h | h
  · change x.span.lo + size.toNat ≤ x.span.lo at h
    omega
  · exact Or.inl h
  · exact Or.inr (Or.inr h)
  · exact Or.inr (Or.inl h)

theorem Requested.free_iff (q : Requested rgn x size) (j : Nat) :
    Disjoint x.span.points (rgn.spans j).points ↔ (rgn.spans j).hi ≤ (rgn.spans j).lo ∨
      (rgn.spans j).hi ≤ x.span.lo ∨ x.span.hi ≤ (rgn.spans j).lo := by
  have hpos := q.size_pos
  have hle := q.hi_eq
  rw [Span.disjoint_iff]
  omega

/-- A region that begins with the end of the range, and the next one where they touch, take the
range. -/
theorem placed_below_iff (h : rgn.InOrder) (q : Requested rgn x size) {k : Nat} (hik : i ≤ k)
    (hk : k < rgn.cnt) (hbelow : (rgn.spans i).lo = x.span.hi)
    (hfirst : ∀ j < i, (rgn.spans j).hi ≠ x.span.lo) :
    Placed rgn i k ⟨x.span.lo, (rgn.spans k).hi⟩ (LmbProperty.span ⟨x.base, size⟩) ↔
      Fits rgn.cnt rgn.spans x.span := by
  have hpos := q.pos
  have hsize := q.size_pos
  have hle := q.hi_eq
  have hbehind : ∀ j, i ≤ j → j < rgn.cnt → x.span.hi ≤ (rgn.spans j).lo := by
    intro j hij hj
    rcases Nat.eq_or_lt_of_le hij with rfl | hlt
    · exact hbelow.ge
    · exact hbelow.ge.trans (h.inOrder.sorted i j hlt hj).le
  have hend : x.span.hi ≤ (rgn.spans k).hi := (hbehind k hik hk).trans (span_le rgn k)
  have htop : x.span.hi < 2 ^ 32 := by
    have := (rgn.region i).base.isLt
    rw [← hbelow]
    exact this
  constructor
  · rintro ⟨-, -, hbefore, -, hdisjoint⟩
    change ∀ j < i, (rgn.spans j).lo < x.span.lo at hbefore
    refine ⟨fun j hj => ?_, fun heq => ?_, ?_, fun _ => Or.inr fun j hj hin => ?_⟩
    · rw [q.free_iff]
      rcases Nat.lt_or_ge j i with hlt | hge
      · have hd := Span.disjoint_iff.mp (hdisjoint j hj (Or.inl hlt))
        have := h.inOrder.sorted j i hlt (hik.trans_lt hk)
        have := hbefore j hlt
        simp only at hd
        omega
      · exact Or.inr (Or.inr (hbehind j hge hj))
    · omega
    · rintro ⟨-, hzero, -⟩
      rcases Nat.eq_zero_or_pos i with rfl | hipos
      · rw [hzero] at hbelow
        change 0 = x.span.hi at hbelow
        omega
      · apply hfirst 0 hipos
        rw [hzero]
    · rcases Nat.lt_or_ge j i with hlt | hge
      · have := hbefore j hlt
        omega
      · have := hbehind j hge hj
        omega
  · intro fits
    -- no region ends with the begin of the range, so that none stands inside of it
    have hnone : ∀ j < rgn.cnt, ¬ (x.span.lo < (rgn.spans j).lo ∧ (rgn.spans j).lo < x.span.hi) := by
      apply (fits.between ⟨i, hik.trans_lt hk, hbelow⟩).resolve_left
      rintro ⟨j, hj, hends⟩
      rcases Nat.lt_or_ge j i with hlt | hge
      · exact hfirst j hlt hends
      · have := hbehind j hge hj
        have := span_le rgn j
        omega
    refine ⟨h.noWrap k hk, ⟨le_rfl, hle.1.trans hend⟩, fun j hj => ?_, fun j hkj hj => ?_,
      fun j hj hother => ?_⟩
    · change (rgn.spans j).lo < x.span.lo
      have := h.inOrder.sorted j i hj (hik.trans_lt hk)
      have := hnone j (hj.trans (hik.trans_lt hk))
      have := hfirst j hj
      have := span_le rgn j
      have := (q.free_iff j).mp (fits.free j (hj.trans (hik.trans_lt hk)))
      omega
    · change x.span.lo < (rgn.spans j).lo
      have := hbehind j (hik.trans hkj.le) hj
      omega
    · rw [Span.disjoint_iff]
      have hfree := (q.free_iff j).mp (fits.free j hj)
      have hsp := span_le rgn j
      rcases hother with hlt | hgt
      · have := h.inOrder.sorted j i hlt (hik.trans_lt hk)
        simp only
        omega
      · rcases Nat.lt_or_ge (rgn.spans j).lo (rgn.spans j).hi with hne | hempty
        · have := h.inOrder.hi_le hgt hj hne
          exact Or.inr (Or.inr (Or.inl this))
        · exact Or.inr (Or.inl hempty)

/-- A range that no region touches. -/
theorem fits_apart_iff (hpos : 0 < rgn.cnt)
    (hbelow : ∀ j < rgn.cnt, (rgn.spans j).lo ≠ x.span.hi % 2 ^ 32)
    (habove : ∀ j < rgn.cnt, (rgn.spans j).hi ≠ x.span.lo) :
    Fits rgn.cnt rgn.spans x.span ↔ ∀ j < rgn.cnt, Disjoint x.span.points (rgn.spans j).points := by
  constructor
  · intro fits
    exact fits.free
  · intro hfree
    refine ⟨hfree, fun htop hzero => ?_, ?_, ?_⟩
    · have := hbelow 0 hpos
      omega
    · rintro ⟨-, hzero, -⟩
      apply habove 0 hpos
      rw [hzero]
    · rintro ⟨j, hj, hlo⟩
      have := hbelow j hj
      have := (rgn.region j).base.isLt
      have hlt : (rgn.spans j).lo < 2 ^ 32 := this
      omega

/-- A region that ends before the range or with it, where none begins with the end of the
range. -/
theorem ends_before (h : rgn.InOrder) (hi : i < rgn.cnt)
    (habove : (rgn.spans i).hi = x.span.lo) {j : Nat} (hj : j < rgn.cnt) (hji : j ≠ i)
    (hne : (rgn.spans j).lo < (rgn.spans j).hi) (hend : (rgn.spans j).hi ≤ x.span.lo) :
    (rgn.spans j).hi ≤ (rgn.spans i).lo := by
  rcases Nat.lt_or_gt_of_ne hji with hlt | hlt
  · rcases Nat.lt_or_ge (rgn.spans i).lo (rgn.spans i).hi with hne' | hempty
    · exact h.inOrder.hi_le hlt hi hne'
    · omega
  · have := h.inOrder.hi_le hlt hj hne
    omega

/-- A region that ends with the begin of the range takes it. -/
theorem placed_above_iff (h : rgn.InOrder) (q : Requested rgn x size) (hi : i < rgn.cnt)
    (habove : (rgn.spans i).hi = x.span.lo) (haround : ¬ (x.span.hi = 2 ^ 32 ∧ (rgn.spans 0).lo = 0))
    (hnext : i + 1 < rgn.cnt → (rgn.spans (i + 1)).lo ≠ x.span.hi) :
    Placed rgn i i ⟨(rgn.spans i).lo, x.span.hi⟩ (LmbProperty.span ⟨x.base, size⟩) ↔
      Fits rgn.cnt rgn.spans x.span := by
  have hpos := q.pos
  have hsize := q.size_pos
  have hle := q.hi_eq
  have hsp := span_le rgn i
  constructor
  · rintro ⟨-, -, -, -, hdisjoint⟩
    refine ⟨fun j hj => ?_, fun htop hzero => absurd ⟨htop, hzero⟩ haround, ?_,
      fun _ => Or.inl ⟨i, hi, habove⟩⟩
    · rw [q.free_iff]
      by_cases hji : j = i
      · subst hji
        exact Or.inr (Or.inl habove.le)
      · have hd := Span.disjoint_iff.mp (hdisjoint j hj (by omega))
        simp only at hd
        omega
    · rintro ⟨hone, hzero, hrest⟩
      rcases Nat.eq_zero_or_pos i with rfl | hipos
      · apply hnext hone
        rw [hrest]
      · have hlo : (rgn.spans 1).lo = x.span.hi := by rw [hrest]
        rcases Nat.eq_or_lt_of_le hipos with rfl | hlt
        · change (rgn.spans 1).hi = x.span.lo at habove
          change (rgn.spans 1).lo ≤ (rgn.spans 1).hi at hsp
          omega
        · have := h.inOrder.sorted 1 i hlt hi
          omega
  · intro fits
    refine ⟨q.noWrap, ⟨hsp.trans habove.le, hle.1⟩, fun j hj => h.inOrder.sorted j i hj hi,
      fun j hij hj => h.inOrder.sorted i j hij hj, fun j hj hother => ?_⟩
    rw [Span.disjoint_iff]
    rcases (q.free_iff j).mp (fits.free j hj) with hempty | hend | hbegin
    · exact Or.inr (Or.inl hempty)
    · rcases Nat.lt_or_ge (rgn.spans j).lo (rgn.spans j).hi with hne | hempty
      · exact Or.inr (Or.inr (Or.inr (ends_before h hi habove hj (by omega) hne hend)))
      · exact Or.inr (Or.inl hempty)
    · exact Or.inr (Or.inr (Or.inl hbegin))

/-- A region that ends with the begin of the range, and the next one that begins with its end,
take it, unless they are the whole address space then. -/
theorem placed_between_iff (h : rgn.InOrder) (q : Requested rgn x size) (hi : i + 1 < rgn.cnt)
    (habove : (rgn.spans i).hi = x.span.lo) (hnext : (rgn.spans (i + 1)).lo = x.span.hi) :
    ¬ ((rgn.spans i).lo = 0 ∧ (rgn.spans (i + 1)).hi = 2 ^ 32) ∧
        Placed rgn i (i + 1) ⟨(rgn.spans i).lo, (rgn.spans (i + 1)).hi⟩
          (LmbProperty.span ⟨x.base, size⟩) ↔
      Fits rgn.cnt rgn.spans x.span := by
  have hpos := q.pos
  have hsize := q.size_pos
  have hle := q.hi_eq
  have hsp := span_le rgn i
  have hsp' := span_le rgn (i + 1)
  have htop : x.span.hi < 2 ^ 32 := by
    have := (rgn.region (i + 1)).base.isLt
    rw [← hnext]
    exact this
  constructor
  · rintro ⟨hwhole, -, -, -, -, hdisjoint⟩
    refine ⟨fun j hj => ?_, fun htop' => by omega, ?_, fun _ => Or.inl ⟨i, by omega, habove⟩⟩
    · rw [q.free_iff]
      by_cases hji : j = i
      · subst hji
        exact Or.inr (Or.inl habove.le)
      · by_cases hji' : j = i + 1
        · subst hji'
          exact Or.inr (Or.inr hnext.ge)
        · have hd := Span.disjoint_iff.mp (hdisjoint j hj (by omega))
          simp only at hd
          omega
    · rintro ⟨-, hzero, hrest⟩
      have hone : (rgn.spans 1).lo = x.span.hi := by rw [hrest]
      have hi0 : i = 0 := by
        by_contra hne
        have := h.inOrder.sorted 1 (i + 1) (by omega) hi
        omega
      subst hi0
      apply hwhole
      rw [hzero, hrest]
      exact ⟨rfl, rfl⟩
  · intro fits
    constructor
    · rintro ⟨hzero, hend⟩
      have hi0 : i = 0 := by
        by_contra hne
        have := h.inOrder.sorted 0 i (by omega) (by omega)
        omega
      subst hi0
      apply fits.whole
      exact ⟨hi, Span.ext hzero habove, Span.ext hnext hend⟩
    · refine ⟨h.noWrap (i + 1) hi, ⟨hsp.trans habove.le, hle.1.trans (hnext.ge.trans hsp')⟩,
        fun j hj => h.inOrder.sorted j i hj (by omega),
        fun j hij hj => h.inOrder.sorted i j (by omega) hj, fun j hj hother => ?_⟩
      rw [Span.disjoint_iff]
      rcases (q.free_iff j).mp (fits.free j hj) with hempty | hend | hbegin
      · exact Or.inr (Or.inl hempty)
      · rcases Nat.lt_or_ge (rgn.spans j).lo (rgn.spans j).hi with hne | hempty
        · exact Or.inr (Or.inr (Or.inr (ends_before h (by omega) habove hj (by omega) hne hend)))
        · exact Or.inr (Or.inl hempty)
      · rcases Nat.lt_or_ge (rgn.spans j).lo (rgn.spans j).hi with hne | hempty
        · have hlt : i + 1 < j := by
            by_contra hnot
            have := h.inOrder.sorted j (i + 1) (by omega) hi
            omega
          exact Or.inr (Or.inr (Or.inl (h.inOrder.hi_le hlt hj hne)))
        · exact Or.inr (Or.inl hempty)

/-- The first region ends with the begin of the range, and the next one with the address
space. -/
theorem fits_joined_iff (h : rgn.InOrder) (q : Requested rgn x size) (hcnt : 1 < rgn.cnt)
    (hzero : rgn.spans 0 = ⟨0, x.span.lo⟩) (hend : (rgn.spans 1).hi = 2 ^ 32)
    (hnext : (rgn.spans 1).lo ≠ x.span.hi) :
    Fits rgn.cnt rgn.spans x.span ↔ x.span.hi < (rgn.spans 1).lo := by
  have hpos := q.pos
  have hsize := q.size_pos
  have hle := q.hi_eq
  have hlt : (rgn.spans 1).lo < 2 ^ 32 := (rgn.region 1).base.isLt
  constructor
  · intro fits
    have := q.noWrap
    have := (q.free_iff 1).mp (fits.free 1 hcnt)
    omega
  · intro hgap
    refine ⟨fun j hj => ?_, fun htop _ => by omega, ?_, fun _ => Or.inl ⟨0, by omega, by rw [hzero]⟩⟩
    · rw [q.free_iff]
      match j with
      | 0 =>
          rw [hzero]
          exact Or.inr (Or.inl le_rfl)
      | 1 => exact Or.inr (Or.inr hgap.le)
      | j + 2 =>
          rcases Nat.lt_or_ge (rgn.spans (j + 2)).lo (rgn.spans (j + 2)).hi with hne | hempty
          · have := h.inOrder.hi_le (show 1 < j + 2 by omega) hj hne
            have := (rgn.region (j + 2)).base.isLt
            have hlt' : (rgn.spans (j + 2)).lo < 2 ^ 32 := this
            omega
          · exact Or.inl hempty
    · rintro ⟨-, -, hrest⟩
      apply hnext
      rw [hrest]

/-- The range ends with the address space and a region begins with it. -/
theorem fits_around_iff (q : Requested rgn x size) (hpos : 0 < rgn.cnt)
    (htop : x.span.hi = 2 ^ 32) (hzero : (rgn.spans 0).lo = 0) :
    Fits rgn.cnt rgn.spans x.span ↔
      ∀ j < rgn.cnt, (rgn.spans j).hi = (rgn.spans j).lo ∧ (0 < j → x.span.lo ≤ (rgn.spans j).lo) := by
  have hlo := q.pos
  constructor
  · intro fits
    exact fits.around htop hzero
  · intro hempty
    refine ⟨fun j hj => ?_, fun _ _ => hempty, ?_, ?_⟩
    · rw [q.free_iff]
      exact Or.inl (hempty j hj).1.le
    · rintro ⟨-, hfirst, -⟩
      have := (hempty 0 hpos).1
      rw [hfirst] at this
      change x.span.lo = 0 at this
      omega
    · rintro ⟨j, hj, hbelow⟩
      have := (rgn.region j).base.isLt
      have hlt : (rgn.spans j).lo < 2 ^ 32 := this
      omega

end Cases

end UBoot
