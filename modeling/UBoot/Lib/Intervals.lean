/-
# Separated intervals

A table whose first `n` entries are half-open intervals, in increasing order and
with a gap between any two, covers a set. The operations an allocator performs on
such a table are three: an entry is changed, an entry is taken out, an entry is
put in. Each keeps the intervals separated if the new one keeps its distance from
its neighbours, and each changes the covered set by exactly the intervals it
touches.
-/

import Mathlib

namespace UBoot.Lib

/-- A half-open interval. -/
@[ext]
structure Span (α : Type*) where
  lo : α
  hi : α

variable {α : Type*} [LinearOrder α]

/-- The points of an interval. -/
def Span.points (x : Span α) : Set α := { a | x.lo ≤ a ∧ a < x.hi }

@[simp]
theorem Span.mem_points {x : Span α} {a : α} : a ∈ x.points ↔ x.lo ≤ a ∧ a < x.hi := Iff.rfl

/-- Non-empty intervals in increasing order, none touching the next. -/
structure Separated (n : Nat) (r : Nat → Span α) : Prop where
  nonempty : ∀ i < n, (r i).lo < (r i).hi
  apart : ∀ i j, i < j → j < n → (r i).hi < (r j).lo

/-- The points of the first `n` intervals. -/
def Covered (n : Nat) (r : Nat → Span α) : Set α := { a | ∃ i < n, a ∈ (r i).points }

variable {n : Nat} {r : Nat → Span α}

@[simp]
theorem mem_covered {a : α} : a ∈ Covered n r ↔ ∃ i < n, (r i).lo ≤ a ∧ a < (r i).hi := Iff.rfl

/-- A point lies in one of the intervals at most. -/
theorem Separated.eq_of_mem (h : Separated n r) {a : α} {i j : Nat} (hi : i < n) (hj : j < n)
    (mem_i : a ∈ (r i).points) (mem_j : a ∈ (r j).points) : i = j := by
  rcases lt_trichotomy i j with lt | eq | gt
  · exact absurd (mem_i.2.trans (h.apart i j lt hj)) (not_lt.mpr mem_j.1)
  · exact eq
  · exact absurd (mem_j.2.trans (h.apart j i gt hi)) (not_lt.mpr mem_i.1)

/-- An interval disjoint from the covered set lies below or above each entry. -/
theorem Separated.below_or_above (h : Separated n r) {x : Span α} (hx : x.lo < x.hi)
    (disjoint : Disjoint x.points (Covered n r)) {i : Nat} (hi : i < n) :
    x.hi ≤ (r i).lo ∨ (r i).hi ≤ x.lo := by
  by_contra hmeet
  push Not at hmeet
  -- the larger of the two lower ends is in both
  have mem_x : max x.lo (r i).lo ∈ x.points := ⟨le_max_left _ _, max_lt hx hmeet.1⟩
  have mem_r : max x.lo (r i).lo ∈ (r i).points :=
    ⟨le_max_right _ _, max_lt hmeet.2 (h.nonempty i hi)⟩
  exact Set.disjoint_left.mp disjoint mem_x ⟨i, hi, mem_r⟩

theorem Separated.congr (h : Separated n r) {r' : Nat → Span α} (same : ∀ i < n, r' i = r i) :
    Separated n r' := by
  refine ⟨fun i hi => ?_, fun i j hij hj => ?_⟩
  · rw [same i hi]
    exact h.nonempty i hi
  · rw [same i (hij.trans hj), same j hj]
    exact h.apart i j hij hj

theorem covered_congr {r' : Nat → Span α} (same : ∀ i < n, r' i = r i) :
    Covered n r' = Covered n r := by
  ext a
  refine exists_congr fun i => and_congr_right fun hi => ?_
  rw [same i hi]

/-! ## Changing an entry -/

theorem Separated.update (h : Separated n r) {p : Nat} {x : Span α} (hx : x.lo < x.hi)
    (before : ∀ i < p, (r i).hi < x.lo) (after : ∀ j, p < j → j < n → x.hi < (r j).lo) :
    Separated n (Function.update r p x) := by
  refine ⟨fun i hi => ?_, fun i j hij hj => ?_⟩
  · by_cases hp : i = p
    · simpa [hp] using hx
    · simpa [hp] using h.nonempty i hi
  · by_cases hp : i = p
    · subst hp
      simpa [Nat.ne_of_gt hij] using after j hij hj
    · by_cases hq : j = p
      · subst hq
        simpa [hp] using before i hij
      · simpa [hp, hq] using h.apart i j hij hj

theorem covered_update (h : Separated n r) {p : Nat} (hp : p < n) (x : Span α) :
    Covered n (Function.update r p x) = (Covered n r \ (r p).points) ∪ x.points := by
  ext a
  constructor
  · rintro ⟨i, hi, mem⟩
    by_cases hip : i = p
    · subst hip
      exact .inr (by simpa using mem)
    · have mem' : a ∈ (r i).points := by simpa [hip] using mem
      exact .inl ⟨⟨i, hi, mem'⟩, fun mem_p => hip (h.eq_of_mem hi hp mem' mem_p)⟩
  · rintro (⟨⟨i, hi, mem⟩, not_mem⟩ | mem)
    · have hip : i ≠ p := fun hip => not_mem (hip ▸ mem)
      exact ⟨i, hi, by simpa [hip] using mem⟩
    · exact ⟨p, hp, by simpa using mem⟩

/-- An entry that grows adds what it grows by. -/
theorem covered_update_of_union (h : Separated n r) {p : Nat} (hp : p < n) {x : Span α}
    {more : Set α} (hx : x.points = (r p).points ∪ more) :
    Covered n (Function.update r p x) = Covered n r ∪ more := by
  have sub : (r p).points ⊆ Covered n r := fun a ha => ⟨p, hp, ha⟩
  rw [covered_update h hp, hx, ← Set.union_assoc, Set.sdiff_union_of_subset sub]

omit [LinearOrder α] in
/-- Replacing a part of a set by what is left of it. -/
theorem diff_union_of_eq_diff {whole part less : Set α} (hpart : part ⊆ whole) (hless : less ⊆ part)
    {left : Set α} (hleft : ∀ a, a ∈ left ↔ a ∈ part ∧ a ∉ less) :
    (whole \ part) ∪ left = whole \ less := by
  ext a
  have h₁ := @hpart a
  have h₂ := @hless a
  simp only [Set.mem_union, Set.mem_sdiff, hleft]
  tauto

/-! ## Taking an entry out -/

/-- The entries behind `p` move down by one. -/
def removeAt (r : Nat → Span α) (p : Nat) : Nat → Span α :=
  fun i => if i < p then r i else r (i + 1)

theorem Separated.removeAt (h : Separated (n + 1) r) (p : Nat) :
    Separated n (Lib.removeAt r p) := by
  refine ⟨fun i hi => ?_, fun i j hij hj => ?_⟩ <;> unfold Lib.removeAt
  · split_ifs
    · exact h.nonempty i (by omega)
    · exact h.nonempty (i + 1) (by omega)
  · split_ifs <;> exact h.apart _ _ (by omega) (by omega)

theorem covered_removeAt (h : Separated (n + 1) r) {p : Nat} (hp : p < n + 1) :
    Covered n (removeAt r p) = Covered (n + 1) r \ (r p).points := by
  ext a
  constructor
  · rintro ⟨i, hi, mem⟩
    unfold removeAt at mem
    split_ifs at mem with hip
    · refine ⟨⟨i, by omega, mem⟩, fun mem_p => ?_⟩
      exact absurd (h.eq_of_mem (by omega) hp mem mem_p) (by omega)
    · refine ⟨⟨i + 1, by omega, mem⟩, fun mem_p => ?_⟩
      exact absurd (h.eq_of_mem (by omega) hp mem mem_p) (by omega)
  · rintro ⟨⟨i, hi, mem⟩, not_mem⟩
    rcases lt_trichotomy i p with lt | eq | gt
    · exact ⟨i, by omega, by simpa [removeAt, lt] using mem⟩
    · exact absurd (eq ▸ mem) not_mem
    · refine ⟨i - 1, by omega, ?_⟩
      simpa [removeAt, show ¬ i - 1 < p by omega, Nat.sub_add_cancel (by omega : 1 ≤ i)] using mem

/-! ## Putting an entry in -/

/-- The entries from `p` on move up by one, and `x` takes place `p`. -/
def insertAt (r : Nat → Span α) (p : Nat) (x : Span α) : Nat → Span α :=
  fun i => if i < p then r i else if i = p then x else r (i - 1)

theorem Separated.insertAt (h : Separated n r) {p : Nat} (hp : p ≤ n) {x : Span α}
    (hx : x.lo < x.hi) (before : ∀ i < p, (r i).hi < x.lo)
    (after : ∀ j, p ≤ j → j < n → x.hi < (r j).lo) : Separated (n + 1) (Lib.insertAt r p x) := by
  refine ⟨fun i hi => ?_, fun i j hij hj => ?_⟩ <;> unfold Lib.insertAt
  · split_ifs with hlt heq
    · exact h.nonempty i (by omega)
    · exact hx
    · exact h.nonempty (i - 1) (by omega)
  · split_ifs with hi hj hj hi hj hj hj
    · exact h.apart i j hij (by omega)
    · exact before i hi
    · exact h.apart i (j - 1) (by omega) (by omega)
    all_goals first
      | exact after (j - 1) (by omega) (by omega)
      | exact h.apart (i - 1) (j - 1) (by omega) (by omega)
      | omega

theorem covered_insertAt {p : Nat} (hp : p ≤ n) (x : Span α) :
    Covered (n + 1) (insertAt r p x) = Covered n r ∪ x.points := by
  ext a
  constructor
  · rintro ⟨i, hi, mem⟩
    unfold insertAt at mem
    split_ifs at mem with hlt heq
    · exact .inl ⟨i, by omega, mem⟩
    · exact .inr mem
    · exact .inl ⟨i - 1, by omega, mem⟩
  · rintro (⟨i, hi, mem⟩ | mem)
    · by_cases hlt : i < p
      · exact ⟨i, by omega, by simpa [insertAt, hlt] using mem⟩
      · refine ⟨i + 1, by omega, ?_⟩
        simpa [insertAt, show ¬ i + 1 < p by omega, show i + 1 ≠ p by omega] using mem
    · exact ⟨p, by omega, by simpa [insertAt] using mem⟩

end UBoot.Lib

/-!
## Ranges in order

A weaker order on a table than that of separated intervals: the lower ends increase and no two
intervals have a point in common. Intervals may touch, and empty ones may stand anywhere. What
it takes to keep this order when an entry is changed, put in, or merged with the next one.
-/

namespace UBoot.Lib

variable {α : Type*} [LinearOrder α]

/-- Two intervals have no point in common when one is empty or ends before the other begins. -/
theorem Span.disjoint_iff {x y : Span α} :
    Disjoint x.points y.points ↔ x.hi ≤ x.lo ∨ y.hi ≤ y.lo ∨ x.hi ≤ y.lo ∨ y.hi ≤ x.lo := by
  rw [Set.disjoint_left]
  constructor
  · intro h
    by_contra hmeet
    push Not at hmeet
    obtain ⟨hx, hy, hxy, hyx⟩ := hmeet
    exact h (a := max x.lo y.lo) ⟨le_max_left _ _, max_lt hx hxy⟩ ⟨le_max_right _ _, max_lt hyx hy⟩
  · rintro h a ⟨hlx, hax⟩ ⟨hly, hay⟩
    rcases h with h | h | h | h
    · exact absurd (hlx.trans_lt hax) (not_lt.mpr h)
    · exact absurd (hly.trans_lt hay) (not_lt.mpr h)
    · exact absurd (hly.trans_lt hax) (not_lt.mpr h)
    · exact absurd (hlx.trans_lt hay) (not_lt.mpr h)

/-- Intervals sorted by their lower ends, without points in common. -/
structure InOrder (n : Nat) (r : Nat → Span α) : Prop where
  sorted : ∀ i j, i < j → j < n → (r i).lo < (r j).lo
  disjoint : ∀ i j, i < j → j < n → Disjoint (r i).points (r j).points

variable {n : Nat} {r : Nat → Span α}

theorem InOrder.congr_iff {r' : Nat → Span α} (same : ∀ i < n, r' i = r i) :
    InOrder n r' ↔ InOrder n r := by
  constructor
  · intro h
    constructor
    · intro i j hij hj
      rw [← same i (hij.trans hj), ← same j hj]
      exact h.sorted i j hij hj
    · intro i j hij hj
      rw [← same i (hij.trans hj), ← same j hj]
      exact h.disjoint i j hij hj
  · intro h
    constructor
    · intro i j hij hj
      rw [same i (hij.trans hj), same j hj]
      exact h.sorted i j hij hj
    · intro i j hij hj
      rw [same i (hij.trans hj), same j hj]
      exact h.disjoint i j hij hj

/-- An interval ends before a later one with points begins. -/
theorem InOrder.hi_le (h : InOrder n r) {i j : Nat} (hij : i < j) (hj : j < n)
    (hne : (r j).lo < (r j).hi) : (r i).hi ≤ (r j).lo := by
  have hsorted := h.sorted i j hij hj
  rcases Span.disjoint_iff.mp (h.disjoint i j hij hj) with h | h | h | h
  · exact h.trans hsorted.le
  · exact absurd hne (not_lt.mpr h)
  · exact h
  · exact absurd (hne.trans_le h) (not_lt.mpr hsorted.le)

variable {p : Nat} {x : Span α}

theorem InOrder.update_iff (h : InOrder n r) (hp : p < n) :
    InOrder n (Function.update r p x) ↔
      (∀ i < p, (r i).lo < x.lo) ∧ (∀ j, p < j → j < n → x.lo < (r j).lo) ∧
        ∀ j < n, j ≠ p → Disjoint x.points (r j).points := by
  constructor
  · intro h'
    refine ⟨fun i hi => ?_, fun j hj hjn => ?_, fun j hj hne => ?_⟩
    · simpa [Nat.ne_of_lt hi] using h'.sorted i p hi hp
    · simpa [Nat.ne_of_gt hj] using h'.sorted p j hj hjn
    · rcases Nat.lt_or_gt_of_ne hne with hlt | hlt
      · simpa [hne] using (h'.disjoint j p hlt hp).symm
      · simpa [hne] using h'.disjoint p j hlt hj
  · rintro ⟨hbefore, hafter, hdisjoint⟩
    constructor
    · intro i j hij hj
      by_cases hi : i = p
      · subst hi
        simpa [Nat.ne_of_gt hij] using hafter j hij hj
      · by_cases hjp : j = p
        · subst hjp
          simpa [hi] using hbefore i hij
        · simpa [hi, hjp] using h.sorted i j hij hj
    · intro i j hij hj
      by_cases hi : i = p
      · subst hi
        simpa [Nat.ne_of_gt hij] using hdisjoint j hj (Nat.ne_of_gt hij)
      · by_cases hjp : j = p
        · subst hjp
          simpa [hi] using (hdisjoint i (hij.trans hj) hi).symm
        · simpa [hi, hjp] using h.disjoint i j hij hj

theorem InOrder.insertAt_iff (h : InOrder n r) (hp : p ≤ n) (hbefore : ∀ i < p, (r i).lo < x.lo)
    (hafter : ∀ j, p ≤ j → j < n → x.lo < (r j).lo) :
    InOrder (n + 1) (insertAt r p x) ↔ ∀ j < n, Disjoint x.points (r j).points := by
  have hlow : ∀ j < p, insertAt r p x j = r j := fun j hj => if_pos hj
  have hself : insertAt r p x p = x := by simp [insertAt]
  have hhigh : ∀ j, p < j → insertAt r p x j = r (j - 1) := by
    intro j hj
    simp [insertAt, Nat.not_lt.mpr hj.le, Nat.ne_of_gt hj]
  constructor
  · intro h' j hj
    by_cases hjp : j < p
    · have hd := h'.disjoint j p hjp (by omega)
      rw [hself, hlow j hjp] at hd
      exact hd.symm
    · have hd := h'.disjoint p (j + 1) (by omega) (by omega)
      rw [hself, hhigh (j + 1) (by omega)] at hd
      exact hd
  · intro hdisjoint
    constructor
    · intro i j hij hj
      rcases lt_trichotomy i p with hi | rfl | hi
      · rw [hlow i hi]
        rcases lt_trichotomy j p with hjp | rfl | hjp
        · rw [hlow j hjp]
          exact h.sorted i j hij (by omega)
        · rw [hself]
          exact hbefore i hi
        · rw [hhigh j hjp]
          exact h.sorted i (j - 1) (by omega) (by omega)
      · rw [hself, hhigh j hij]
        exact hafter (j - 1) (by omega) (by omega)
      · rw [hhigh i hi, hhigh j (hi.trans hij)]
        exact h.sorted (i - 1) (j - 1) (by omega) (by omega)
    · intro i j hij hj
      rcases lt_trichotomy i p with hi | rfl | hi
      · rw [hlow i hi]
        rcases lt_trichotomy j p with hjp | rfl | hjp
        · rw [hlow j hjp]
          exact h.disjoint i j hij (by omega)
        · rw [hself]
          exact (hdisjoint i (by omega)).symm
        · rw [hhigh j hjp]
          exact h.disjoint i (j - 1) (by omega) (by omega)
      · rw [hself, hhigh j hij]
        exact hdisjoint (j - 1) (by omega)
      · rw [hhigh i hi, hhigh j (hi.trans hij)]
        exact h.disjoint (i - 1) (j - 1) (by omega) (by omega)

theorem InOrder.removeAt (h : InOrder (n + 1) r) (p : Nat) : InOrder n (Lib.removeAt r p) := by
  constructor
  · intro i j hij hj
    unfold Lib.removeAt
    split_ifs <;> exact h.sorted _ _ (by omega) (by omega)
  · intro i j hij hj
    unfold Lib.removeAt
    split_ifs <;> exact h.disjoint _ _ (by omega) (by omega)

/-- The entry `p` is changed and the next one taken out. -/
theorem removeAt_update {β : Type*} (r : Nat → Span β) (p : Nat) (x : Span β) :
    Lib.removeAt (Function.update r p x) (p + 1) = Function.update (Lib.removeAt r (p + 1)) p x := by
  funext k
  unfold Lib.removeAt
  rcases lt_trichotomy k p with hk | rfl | hk
  · rw [if_pos (Nat.lt_succ_of_lt hk), Function.update_of_ne (Nat.ne_of_lt hk),
      Function.update_of_ne (Nat.ne_of_lt hk), if_pos (Nat.lt_succ_of_lt hk)]
  · simp
  · have hle : ¬ k < p + 1 := Nat.not_lt_of_le hk
    rw [if_neg hle, Function.update_of_ne (Nat.ne_of_gt (Nat.lt_succ_of_lt hk)),
      Function.update_of_ne (Nat.ne_of_gt hk), if_neg hle]

theorem InOrder.merge_iff (h : InOrder (n + 1) r) (hp : p < n) :
    InOrder n (Lib.removeAt (Function.update r p x) (p + 1)) ↔
      (∀ i < p, (r i).lo < x.lo) ∧ (∀ j, p + 1 < j → j < n + 1 → x.lo < (r j).lo) ∧
        ∀ j < n + 1, j ≠ p → j ≠ p + 1 → Disjoint x.points (r j).points := by
  have hlow : ∀ j < p + 1, Lib.removeAt r (p + 1) j = r j := fun j hj => if_pos hj
  have hhigh : ∀ j, p < j → Lib.removeAt r (p + 1) j = r (j + 1) :=
    fun j hj => if_neg (by omega)
  rw [removeAt_update, (h.removeAt (p + 1)).update_iff hp]
  constructor
  · rintro ⟨hbefore, hafter, hdisjoint⟩
    refine ⟨fun i hi => ?_, fun j hj hjn => ?_, fun j hj hne hne' => ?_⟩
    · rw [← hlow i (by omega)]
      exact hbefore i hi
    · have hj' := hafter (j - 1) (by omega) (by omega)
      rw [hhigh (j - 1) (by omega), Nat.sub_add_cancel (by omega)] at hj'
      exact hj'
    · by_cases hlt : j < p
      · rw [← hlow j (by omega)]
        exact hdisjoint j (by omega) hne
      · have hj' := hdisjoint (j - 1) (by omega) (by omega)
        rw [hhigh (j - 1) (by omega), Nat.sub_add_cancel (by omega)] at hj'
        exact hj'
  · rintro ⟨hbefore, hafter, hdisjoint⟩
    refine ⟨fun i hi => ?_, fun j hj hjn => ?_, fun j hj hne => ?_⟩
    · rw [hlow i (by omega)]
      exact hbefore i hi
    · rw [hhigh j hj]
      exact hafter (j + 1) (by omega) (by omega)
    · by_cases hlt : j < p
      · rw [hlow j (by omega)]
        exact hdisjoint j (by omega) hne (by omega)
      · rw [hhigh j (by omega)]
        exact hdisjoint (j + 1) (by omega) (by omega) (by omega)

/-! ## What is covered -/

/-- A point of a table with a changed entry. -/
theorem mem_covered_update {a : α} (hp : p < n) :
    a ∈ Covered n (Function.update r p x) ↔ a ∈ x.points ∨ ∃ i < n, i ≠ p ∧ a ∈ (r i).points := by
  constructor
  · rintro ⟨i, hi, ha⟩
    by_cases hip : i = p
    · subst hip
      rw [Function.update_self] at ha
      exact Or.inl ha
    · rw [Function.update_of_ne hip] at ha
      exact Or.inr ⟨i, hi, hip, ha⟩
  · rintro (ha | ⟨i, hi, hip, ha⟩)
    · refine ⟨p, hp, ?_⟩
      rw [Function.update_self]
      exact ha
    · refine ⟨i, hi, ?_⟩
      rw [Function.update_of_ne hip]
      exact ha

end UBoot.Lib
