/-
# The reserved table refines a set of addresses

The abstract state is the set of reserved addresses. `LmbRegion.Ok` is the invariant
of the table: its first `cnt` entries are separated intervals below the end of
the address space. Adding a range disjoint from the set either extends an entry, and
may close the gap to the next, or puts an entry in between two others; freeing
one shrinks an entry, takes it out or splits it.

Three calls break the invariant, and the theorem about runs is about those that
make none of them: the first addition after everything was freed, unless the stale
entries happen to allow it; a split when the table is full; and an allocation
whose size, rounded up, reaches into a reserved region.
-/

import UBoot.Lib.Intervals
import UBoot.Lib.Run
import UBoot.LibGeneric.Lmb

namespace UBoot

open UBoot.Lib

/-- The addresses of an entry. -/
def LmbProperty.span (r : LmbProperty) : Span Nat :=
  ⟨r.base.toNat, r.base.toNat + r.size.toNat⟩

/-- The addresses of a range. -/
def addrs (base size : Phys) : Set Nat := (LmbProperty.span ⟨base, size⟩).points

/-- The intervals of a table. -/
def LmbRegion.spans (rgn : LmbRegion) : Nat → Span Nat :=
  fun i => (rgn.region i).span

/-- The addresses of a table. -/
def LmbRegion.covered (rgn : LmbRegion) : Set Nat := Covered rgn.cnt rgn.spans

/-- The invariant of a table in use. -/
structure LmbRegion.Ok (rgn : LmbRegion) : Prop where
  cnt_le : rgn.cnt ≤ MAX_LMB_REGIONS
  separated : Separated rgn.cnt rgn.spans
  noWrap : ∀ i < rgn.cnt, (rgn.spans i).hi < 2 ^ 32

@[simp]
theorem LmbRegion.set_cnt (rgn : LmbRegion) (i : Nat) (r : LmbProperty) :
    (rgn.set i r).cnt = rgn.cnt := rfl

@[simp]
theorem LmbRegion.set_region (rgn : LmbRegion) (i : Nat) (r : LmbProperty) :
    (rgn.set i r).region = Function.update rgn.region i r := rfl

theorem LmbRegion.set_spans (rgn : LmbRegion) (i : Nat) (r : LmbProperty) :
    (rgn.set i r).spans = Function.update rgn.spans i r.span := by
  funext k
  by_cases h : k = i <;> simp [spans, h]

theorem LmbRegion.last_of_pos {rgn : LmbRegion} (hpos : 0 < rgn.cnt)
    (hle : rgn.cnt ≤ MAX_LMB_REGIONS) : rgn.last = rgn.cnt - 1 := by
  unfold MAX_LMB_REGIONS at hle
  unfold last
  bv_omega

/-- The addresses of a range that does not wrap around. -/
theorem stop_toNat {r : LmbProperty} (h : r.span.hi < 2 ^ 32) : r.stop.toNat = r.span.hi := by
  simp only [LmbProperty.span, LmbProperty.stop] at *
  bv_omega

/-- `lmb_addrs_adjacent` on ranges that do not wrap around. -/
theorem lmb_addrs_adjacent_eq {x r : LmbProperty} (hx : x.span.hi < 2 ^ 32)
    (hr : r.span.hi < 2 ^ 32) :
    lmb_addrs_adjacent x.base x.size r.base r.size =
      if r.span.lo = x.span.hi then 1 else if x.span.lo = r.span.hi then -1 else 0 := by
  have hx' := stop_toNat hx
  have hr' := stop_toNat hr
  unfold LmbProperty.stop at hx' hr'
  have above : r.base = x.base + x.size ↔ r.span.lo = x.span.hi := by
    rw [← BitVec.toNat_inj, hx']
    rfl
  have below : x.base = r.base + r.size ↔ x.span.lo = r.span.hi := by
    rw [← BitVec.toNat_inj, hr']
    rfl
  simp only [lmb_addrs_adjacent, above, below]

/-! ## Taking an entry out -/

theorem moveDown_eq (region : Nat → LmbProperty) (i n : Nat) :
    moveDown region i n = fun k => if i ≤ k ∧ k < i + n then region (k + 1) else region k := by
  induction n generalizing region i with
  | zero =>
      funext k
      simp [moveDown, show ¬ (i ≤ k ∧ k < i) by omega]
  | succ n ih =>
      rw [moveDown, ih]
      funext k
      rcases lt_trichotomy k i with lt | rfl | gt
      · rw [if_neg (by omega), if_neg (by omega), Function.update_of_ne (by omega)]
      · rw [if_neg (by omega), if_pos (by omega), Function.update_self]
      · by_cases hk : k < i + (n + 1)
        · rw [if_pos (by omega), if_pos (by omega), Function.update_of_ne (by omega)]
        · rw [if_neg (by omega), if_neg (by omega), Function.update_of_ne (by omega)]

/-- What the loop does to the intervals of a table with an entry to remove. -/
theorem lmb_remove_region_eq (rgn : LmbRegion) (hle : rgn.cnt ≤ MAX_LMB_REGIONS) {i : Nat}
    (hi : i < rgn.cnt) :
    ∃ rgn', lmb_remove_region rgn i = some rgn' ∧ rgn.cnt = rgn'.cnt + 1 ∧
      ∀ k < rgn'.cnt, rgn'.spans k = removeAt rgn.spans i k := by
  have hlast := LmbRegion.last_of_pos (Nat.zero_lt_of_lt hi) hle
  refine ⟨⟨rgn.cnt - 1, moveDown rgn.region i (rgn.cnt - 1 - i)⟩, ?_, ?_,
    fun k (hk : k < rgn.cnt - 1) => ?_⟩
  · rw [lmb_remove_region, hlast, if_neg (by omega)]
  · show rgn.cnt = rgn.cnt - 1 + 1
    omega
  · simp only [LmbRegion.spans, moveDown_eq, removeAt]
    by_cases hki : k < i
    · simp [hki, show ¬ i ≤ k by omega]
    · simp [hki, show i ≤ k ∧ k < i + (rgn.cnt - 1 - i) by omega]

/-- Removing an entry of a table that is in order. -/
theorem lmb_remove_region_of_ok {rgn : LmbRegion} (h : rgn.Ok) {i : Nat} (hi : i < rgn.cnt) :
    ∃ rgn', lmb_remove_region rgn i = some rgn' ∧ rgn'.Ok ∧
      rgn'.covered = rgn.covered \ (rgn.spans i).points := by
  obtain ⟨rgn', hremove, hcnt, same⟩ := lmb_remove_region_eq rgn h.cnt_le hi
  have hsep := h.separated
  have hle := h.cnt_le
  rw [hcnt] at hsep hi
  refine ⟨rgn', hremove, ⟨by omega, (hsep.removeAt i).congr same, fun k hk => ?_⟩, ?_⟩
  · rw [same k hk]
    unfold removeAt
    split_ifs
    · exact h.noWrap k (by omega)
    · exact h.noWrap (k + 1) (by omega)
  · rw [LmbRegion.covered, covered_congr same, covered_removeAt hsep hi, LmbRegion.covered, hcnt]

/-! ## Putting an entry in -/

theorem moveUp_eq {region : Nat → LmbProperty} {new : LmbProperty} {p m : Nat} (hp : p ≤ m)
    (before : ∀ k < p, ¬ new.base < (region k).base)
    (after : ∀ k, p ≤ k → k < m → new.base < (region k).base) :
    moveUp region new m = fun k =>
      if k < p then region k
      else if k = p then (if p = 0 then region 0 else new)
      else if k ≤ m then region (k - 1) else region k := by
  induction m generalizing region with
  | zero =>
      obtain rfl : p = 0 := Nat.le_zero.mp hp
      funext k
      cases k <;> simp [moveUp]
  | succ m ih =>
      rw [moveUp]
      by_cases hlt : new.base < (region m).base
      · have hpm : p ≤ m := by
          by_contra h
          exact before m (by omega) hlt
        rw [if_pos hlt, ih hpm]
        · funext k
          rcases lt_trichotomy k p with lt | rfl | gt
          · simp [lt, show k ≠ m + 1 by omega]
          · simp
          · by_cases hk : k ≤ m
            · simp [Nat.not_lt.mpr gt.le, Nat.ne_of_gt gt, hk, show k ≤ m + 1 by omega,
                show k - 1 ≠ m + 1 by omega]
            · by_cases hk' : k = m + 1
              · simp [hk', Nat.not_lt.mpr (Nat.le_succ_of_le hpm), show m + 1 ≠ p by omega]
              · simp [Nat.not_lt.mpr gt.le, Nat.ne_of_gt gt, hk, show ¬ k ≤ m + 1 by omega, hk']
        · intro k hk
          rw [Function.update_of_ne (by omega)]
          exact before k hk
        · intro k hpk hkm
          rw [Function.update_of_ne (by omega)]
          exact after k hpk (by omega)
      · obtain rfl : p = m + 1 := by
          by_contra h
          exact hlt (after m (by omega) (by omega))
        rw [if_neg hlt]
        funext k
        rcases lt_trichotomy k (m + 1) with lt | rfl | gt
        · simp [lt, Nat.ne_of_lt lt]
        · simp
        · simp [Nat.not_lt.mpr gt.le, Nat.ne_of_gt gt, show ¬ k ≤ m + 1 by omega]

/-- The place of a new base among increasing ones. -/
theorem exists_place {f : Nat → Phys} {n : Nat} (mono : ∀ i j, i < j → j < n → f i < f j)
    (base : Phys) : ∃ p ≤ n, (∀ k < p, ¬ base < f k) ∧ ∀ k, p ≤ k → k < n → base < f k := by
  induction n with
  | zero => exact ⟨0, le_rfl, fun k hk => absurd hk (by omega), fun k _ hk => absurd hk (by omega)⟩
  | succ n ih =>
      by_cases hlt : base < f n
      · obtain ⟨p, hp, before, after⟩ := ih fun i j hij hj => mono i j hij (by omega)
        refine ⟨p, by omega, before, fun k hpk hk => ?_⟩
        by_cases hkn : k = n
        · exact hkn ▸ hlt
        · exact after k hpk (by omega)
      · refine ⟨n + 1, le_rfl, fun k hk hlt' => ?_, fun k hpk hk => absurd hpk (by omega)⟩
        by_cases hkn : k = n
        · exact hlt (hkn ▸ hlt')
        · have := mono k n (by omega) (by omega)
          exact hlt (by bv_omega)

/-- The intervals of a table that a range is put into, at the place of its base. -/
theorem addSorted_spans {rgn : LmbRegion} (hpos : 0 < rgn.cnt) {new : LmbProperty} {p : Nat}
    (hp : p ≤ rgn.cnt) (before : ∀ k < p, ¬ new.base < (rgn.region k).base)
    (after : ∀ k, p ≤ k → k < rgn.cnt → new.base < (rgn.region k).base) :
    ∀ k < rgn.cnt + 1, (addSorted rgn new).spans k = insertAt rgn.spans p new.span k := by
  intro k hk
  simp only [LmbRegion.spans, addSorted, moveUp_eq hp before after, insertAt]
  by_cases hp0 : p = 0
  · subst hp0
    have hfirst := after 0 le_rfl hpos
    simp only [Nat.not_lt_zero, if_false, if_true, hfirst]
    by_cases hk0 : k = 0
    · simp [hk0]
    · simp [hk0, show k ≤ rgn.cnt by omega]
  · have hfirst := before 0 (by omega)
    simp only [show 0 < p by omega, if_true, hfirst, if_false, hp0]
    split_ifs <;> first | rfl | omega

/-- A range that keeps its distance from all entries is put in. -/
theorem addSorted_of_ok {rgn : LmbRegion} (h : rgn.Ok) (hcnt : rgn.cnt < MAX_LMB_REGIONS)
    (hpos : 0 < rgn.cnt) {new : LmbProperty} (hne : new.span.lo < new.span.hi)
    (hwrap : new.span.hi < 2 ^ 32)
    (apart : ∀ i < rgn.cnt, new.span.hi < (rgn.spans i).lo ∨ (rgn.spans i).hi < new.span.lo) :
    (addSorted rgn new).Ok ∧ (addSorted rgn new).covered = rgn.covered ∪ new.span.points := by
  have mono : ∀ i j, i < j → j < rgn.cnt → (rgn.region i).base < (rgn.region j).base := by
    intro i j hij hj
    have h₁ := h.separated.apart i j hij hj
    have h₂ := h.separated.nonempty i (hij.trans hj)
    simp only [LmbRegion.spans, LmbProperty.span] at h₁ h₂
    bv_omega
  obtain ⟨p, hp, before, after⟩ := exists_place mono new.base
  have same := addSorted_spans hpos hp before after
  have hbefore : ∀ i < p, (rgn.spans i).hi < new.span.lo := by
    intro i hi
    refine (apart i (by omega)).resolve_left fun hlt => before i hi ?_
    simp only [LmbRegion.spans, LmbProperty.span] at hlt hne
    bv_omega
  have hafter : ∀ j, p ≤ j → j < rgn.cnt → new.span.hi < (rgn.spans j).lo := by
    intro j hpj hj
    refine (apart j hj).resolve_right fun hlt => ?_
    have h₁ := after j hpj hj
    have h₂ := h.separated.nonempty j hj
    simp only [LmbRegion.spans, LmbProperty.span] at hlt h₁ h₂
    bv_omega
  refine ⟨⟨hcnt, (h.separated.insertAt hp hne hbefore hafter).congr same, fun k hk => ?_⟩, ?_⟩
  · have hk' : k < rgn.cnt + 1 := hk
    rw [same k hk']
    unfold insertAt
    split_ifs
    · exact h.noWrap k (by omega)
    · exact hwrap
    · exact h.noWrap (k - 1) (by omega)
  · show Covered (rgn.cnt + 1) (addSorted rgn new).spans = _
    rw [covered_congr same, covered_insertAt hp]
    rfl

/-! ## `lmb_add_region` -/

/-- The entry the search stops at, and the entries before it. -/
theorem firstTouching_eq_some {rgn : LmbRegion} {base size : Phys} {i : Nat} :
    firstTouching rgn base size = some i ↔ i < rgn.cnt ∧
      (rgn.region i = ⟨base, size⟩ ∨
        lmb_addrs_adjacent base size (rgn.region i).base (rgn.region i).size ≠ 0) ∧
      ∀ j < i, rgn.region j ≠ ⟨base, size⟩ ∧
        lmb_addrs_adjacent base size (rgn.region j).base (rgn.region j).size = 0 := by
  simp only [firstTouching, List.find?_range_eq_some, decide_eq_true_eq, List.mem_range,
    Bool.not_eq_true', decide_eq_false_iff_not, not_or, not_not]
  tauto

theorem firstTouching_eq_none {rgn : LmbRegion} {base size : Phys} :
    firstTouching rgn base size = none ↔ ∀ j < rgn.cnt, rgn.region j ≠ ⟨base, size⟩ ∧
      lmb_addrs_adjacent base size (rgn.region j).base (rgn.region j).size = 0 := by
  simp [firstTouching]

section Adding

variable {rgn : LmbRegion} {x : LmbProperty}

/-- An entry that touches no other range is apart from it. -/
theorem apart_of_not_adjacent (h : rgn.Ok) (hne : x.span.lo < x.span.hi)
    (hwrap : x.span.hi < 2 ^ 32) (disjoint : Disjoint x.span.points rgn.covered) {j : Nat}
    (hj : j < rgn.cnt)
    (hadj : lmb_addrs_adjacent x.base x.size (rgn.region j).base (rgn.region j).size = 0) :
    x.span.hi < (rgn.spans j).lo ∨ (rgn.spans j).hi < x.span.lo := by
  have hside := h.separated.below_or_above hne disjoint hj
  rw [lmb_addrs_adjacent_eq hwrap (h.noWrap j hj)] at hadj
  have hspan : (rgn.region j).span = rgn.spans j := rfl
  rw [hspan] at hadj
  have hbelow : (rgn.spans j).lo ≠ x.span.hi := fun h => by simp [h] at hadj
  have habove : x.span.lo ≠ (rgn.spans j).hi := fun h => by simp [hbelow, h] at hadj
  omega

/-- The entry after a touched one is never touched by it, so nothing is merged. -/
theorem not_adjacent_next {rgn : LmbRegion} (h : rgn.Ok) {i : Nat} (hi : i + 1 < rgn.cnt) :
    lmb_regions_adjacent rgn i (i + 1) = 0 := by
  have hsep := h.separated.apart i (i + 1) (by omega) hi
  have h₁ := h.separated.nonempty i (by omega)
  have h₂ := h.separated.nonempty (i + 1) hi
  rw [lmb_regions_adjacent, lmb_addrs_adjacent_eq (h.noWrap i (by omega)) (h.noWrap (i + 1) hi)]
  have hspan : ∀ j, (rgn.region j).span = rgn.spans j := fun _ => rfl
  rw [hspan, hspan, if_neg (by omega), if_neg (by omega)]

/-- A range just below an entry. -/
theorem extend_below_of_ok (h : rgn.Ok) (hne : x.span.lo < x.span.hi)
    (hwrap : x.span.hi < 2 ^ 32) (disjoint : Disjoint x.span.points rgn.covered) {i : Nat}
    (hi : i < rgn.cnt) (hbelow : (rgn.spans i).lo = x.span.hi)
    (before : ∀ j < i, lmb_addrs_adjacent x.base x.size (rgn.region j).base
      (rgn.region j).size = 0) :
    (rgn.set i ((rgn.region i).extend x.base x.size)).Ok ∧
      (rgn.set i ((rgn.region i).extend x.base x.size)).covered =
        rgn.covered ∪ x.span.points := by
  have hspan : ∀ j, (rgn.region j).span = rgn.spans j := fun _ => rfl
  have hwrap_i := h.noWrap i hi
  have hextend : ((rgn.region i).extend x.base x.size).span = ⟨x.span.lo, (rgn.spans i).hi⟩ := by
    rw [LmbProperty.extend, lmb_addrs_adjacent_eq hwrap hwrap_i, hspan, if_pos hbelow,
      if_pos Int.one_pos]
    simp only [LmbRegion.spans, LmbProperty.span, Span.mk.injEq] at *
    constructor <;> bv_omega
  have hsep : Separated rgn.cnt (Function.update rgn.spans i ⟨x.span.lo, (rgn.spans i).hi⟩) := by
    refine h.separated.update ?_ (fun j hj => ?_) fun j hij hj => h.separated.apart i j hij hj
    · have := h.separated.nonempty i hi
      show x.span.lo < (rgn.spans i).hi
      omega
    · have hapart := apart_of_not_adjacent h hne hwrap disjoint (hj.trans hi) (before j hj)
      have h₁ := h.separated.apart j i hj hi
      have h₂ := h.separated.nonempty j (hj.trans hi)
      show (rgn.spans j).hi < x.span.lo
      omega
  refine ⟨⟨h.cnt_le, ?_, fun j hj => ?_⟩, ?_⟩
  · rw [LmbRegion.set_spans, hextend]
    exact hsep
  · rw [LmbRegion.set_spans, hextend]
    by_cases hji : j = i
    · subst hji
      simpa using hwrap_i
    · simpa [hji] using h.noWrap j hj
  · rw [LmbRegion.covered, LmbRegion.set_spans, hextend]
    refine covered_update_of_union h.separated hi ?_
    ext a
    have := h.separated.nonempty i hi
    simp only [Span.mem_points, Set.mem_union]
    omega

/-- The entry just below a range, once extended; it may touch the next one. -/
theorem extend_above_of_ok (h : rgn.Ok) (hne : x.span.lo < x.span.hi)
    (hwrap : x.span.hi < 2 ^ 32) {i : Nat} (hi : i < rgn.cnt)
    (habove : x.span.lo = (rgn.spans i).hi) :
    ((rgn.region i).extend x.base x.size).span = ⟨(rgn.spans i).lo, x.span.hi⟩ := by
  have hspan : (rgn.region i).span = rgn.spans i := rfl
  have hwrap_i := h.noWrap i hi
  have hne_i := h.separated.nonempty i hi
  rw [LmbProperty.extend, lmb_addrs_adjacent_eq hwrap hwrap_i, hspan, if_neg (by omega)]
  simp only [LmbRegion.spans, LmbProperty.span, Span.mk.injEq] at *
  constructor <;> bv_omega

/-- The entry just below a range, once extended and if need be merged with the
next one. -/
theorem coalesce_above_of_ok (h : rgn.Ok) (hne : x.span.lo < x.span.hi)
    (hwrap : x.span.hi < 2 ^ 32) (disjoint : Disjoint x.span.points rgn.covered) {i : Nat}
    (hi : i < rgn.cnt) (habove : x.span.lo = (rgn.spans i).hi) (ext : LmbRegion)
    (hext : ext = rgn.set i ((rgn.region i).extend x.base x.size)) :
    ∃ rc rgn', (if i < rgn.cnt - 1 ∧ lmb_regions_adjacent ext i (i + 1) ≠ 0 then
        (lmb_coalesce_regions ext i (i + 1)).map fun rgn => ((2 : Int), rgn)
        else some (1, ext)) = some (rc, rgn') ∧ 0 ≤ rc ∧
      rgn'.Ok ∧ rgn'.covered = rgn.covered ∪ x.span.points := by
  have hne_i := h.separated.nonempty i hi
  have hspans : ext.spans = Function.update rgn.spans i ⟨(rgn.spans i).lo, x.span.hi⟩ := by
    rw [hext, LmbRegion.set_spans, extend_above_of_ok h hne hwrap hi habove]
  have hnext : ∀ j, i < j → j < rgn.cnt → x.span.hi ≤ (rgn.spans j).lo := by
    intro j hij hj
    have h₁ := h.separated.below_or_above hne disjoint hj
    have h₂ := h.separated.apart i j hij hj
    have h₃ := h.separated.nonempty j hj
    omega
  have hbefore : ∀ j < i, (rgn.spans j).hi < (rgn.spans i).lo :=
    fun j hj => h.separated.apart j i hj hi
  have here : (ext.region i).span = ⟨(rgn.spans i).lo, x.span.hi⟩ := by
    show ext.spans i = _
    rw [hspans, Function.update_self]
  have next : ext.region (i + 1) = rgn.region (i + 1) := by simp [hext]
  have hspan : (rgn.region (i + 1)).span = rgn.spans (i + 1) := rfl
  have hadjacent : i + 1 < rgn.cnt →
      (lmb_regions_adjacent ext i (i + 1) ≠ 0 ↔ x.span.hi = (rgn.spans (i + 1)).lo) := by
    intro hlt
    have hwrap_next := h.noWrap (i + 1) hlt
    have hne_next := h.separated.nonempty (i + 1) hlt
    have hgap := hnext (i + 1) (by omega) hlt
    rw [lmb_regions_adjacent, lmb_addrs_adjacent_eq (by rw [here]; exact hwrap)
      (by rw [next]; exact hwrap_next), here, next, hspan]
    have hother : (rgn.spans i).lo ≠ (rgn.spans (i + 1)).hi := by omega
    simp only [hother, if_false, eq_comm (a := x.span.hi)]
    split_ifs with htouch <;> simp [htouch]
  have hcovered_ext : Covered rgn.cnt ext.spans = rgn.covered ∪ x.span.points := by
    rw [hspans]
    refine covered_update_of_union h.separated hi ?_
    ext a
    simp only [Span.mem_points, Set.mem_union]
    omega
  by_cases hmerge : i < rgn.cnt - 1 ∧ lmb_regions_adjacent ext i (i + 1) ≠ 0
  · have hlt : i + 1 < rgn.cnt := by omega
    have htouch := (hadjacent hlt).mp hmerge.2
    have hwrap_next := h.noWrap (i + 1) hlt
    have hne_next := h.separated.nonempty (i + 1) hlt
    -- the merged entry, and the table without the next one
    let merged : LmbProperty :=
      ⟨(ext.region i).base, (ext.region i).size + (ext.region (i + 1)).size⟩
    have hmerged : merged.span = ⟨(rgn.spans i).lo, (rgn.spans (i + 1)).hi⟩ := by
      rw [← hspan] at htouch hwrap_next ⊢
      simp only [merged, next, LmbProperty.span, Span.mk.injEq] at here htouch hwrap_next ⊢
      exact ⟨here.1, by bv_omega⟩
    obtain ⟨rgn', hremove, hcnt, same⟩ := lmb_remove_region_eq (ext.set i merged)
      (by rw [hext]; exact h.cnt_le) (i := i + 1) (by rw [hext]; exact hlt)
    have hcnt' : rgn.cnt = rgn'.cnt + 1 := by
      rw [← hcnt, hext]
      rfl
    have hsep := h.separated
    rw [hcnt'] at hsep hlt
    have hremoved := hsep.removeAt (i + 1)
    have same' : ∀ k < rgn'.cnt, rgn'.spans k =
        Function.update (removeAt rgn.spans (i + 1)) i merged.span k := by
      intro k hk
      rw [same k hk, LmbRegion.set_spans, hspans, Function.update_idem]
      by_cases hki : k = i
      · subst hki
        simp [removeAt]
      · by_cases hlt' : k < i + 1
        · simp [removeAt, hlt', hki]
        · simp [removeAt, hlt', hki, show k + 1 ≠ i by omega]
    have hok : Separated rgn'.cnt (Function.update (removeAt rgn.spans (i + 1)) i merged.span) := by
      rw [hmerged]
      refine hremoved.update ?_ (fun j hj => ?_) fun j hij hj => ?_
      · show (rgn.spans i).lo < (rgn.spans (i + 1)).hi
        omega
      · rw [removeAt, if_pos (by omega)]
        exact hbefore j hj
      · rw [removeAt, if_neg (by omega)]
        exact h.separated.apart (i + 1) (j + 1) (by omega) (by omega)
    refine ⟨2, rgn', ?_, by decide, ⟨?_, hok.congr same', fun k hk => ?_⟩, ?_⟩
    · rw [if_pos hmerge, lmb_coalesce_regions, hremove]
      rfl
    · have := h.cnt_le
      omega
    · rw [same' k hk, hmerged]
      by_cases hki : k = i
      · subst hki
        simpa using hwrap_next
      · rw [Function.update_of_ne hki, removeAt]
        split_ifs
        · exact h.noWrap k (by omega)
        · exact h.noWrap (k + 1) (by omega)
    · rw [LmbRegion.covered, covered_congr same', covered_update hremoved (by omega),
        covered_removeAt hsep hlt, hmerged, removeAt, if_pos (by omega), ← hcnt']
      ext a
      have hin : a ∈ (rgn.spans (i + 1)).points → a ∈ rgn.covered :=
        fun ha => ⟨i + 1, by omega, ha⟩
      have hin' : a ∈ (rgn.spans i).points → a ∈ rgn.covered := fun ha => ⟨i, hi, ha⟩
      show (a ∈ rgn.covered ∧ a ∉ (rgn.spans (i + 1)).points) ∧ a ∉ (rgn.spans i).points ∨
        ((rgn.spans i).lo ≤ a ∧ a < (rgn.spans (i + 1)).hi) ↔ a ∈ rgn.covered ∨ a ∈ x.span.points
      simp only [Span.mem_points] at hin hin' ⊢
      constructor
      · rintro (h | h)
        · exact .inl h.1.1
        · by_cases h₁ : a < (rgn.spans i).hi
          · exact .inl (hin' ⟨h.1, h₁⟩)
          · by_cases h₂ : a < x.span.hi
            · exact .inr (by omega)
            · exact .inl (hin (by omega))
      · rintro (h | h)
        · by_cases h₁ : (rgn.spans i).lo ≤ a ∧ a < (rgn.spans (i + 1)).hi
          · exact .inr h₁
          · exact .inl ⟨⟨h, by omega⟩, by omega⟩
        · exact .inr (by omega)
  · have hgap : ∀ j, i < j → j < rgn.cnt → x.span.hi < (rgn.spans j).lo := by
      intro j hij hj
      have hle := hnext j hij hj
      by_cases hji : j = i + 1
      · subst hji
        have := mt (hadjacent hj).mpr fun hne => hmerge ⟨by omega, hne⟩
        omega
      · have h₁ := hnext (i + 1) (by omega) (by omega)
        have h₂ := h.separated.apart (i + 1) j (by omega) hj
        have h₃ := h.separated.nonempty (i + 1) (by omega)
        omega
    refine ⟨1, ext, by rw [if_neg hmerge], by decide, ⟨by rw [hext]; exact h.cnt_le, ?_, ?_⟩, ?_⟩
    · rw [hspans, hext]
      refine h.separated.update ?_ hbefore hgap
      show (rgn.spans i).lo < x.span.hi
      omega
    · rw [hspans, hext]
      intro j hj
      by_cases hji : j = i
      · subst hji
        simpa using hwrap
      · simpa [hji] using h.noWrap j hj
    · have hcnt : ext.cnt = rgn.cnt := by rw [hext]; rfl
      rw [LmbRegion.covered, hcnt, hcovered_ext]

/-- Adding a range to a table in use. -/
theorem lmb_add_region_of_ok (h : rgn.Ok) (hpos : 0 < rgn.cnt) (hne : x.span.lo < x.span.hi)
    (hwrap : x.span.hi < 2 ^ 32) (disjoint : Disjoint x.span.points rgn.covered) :
    ∃ rc rgn', lmb_add_region rgn x.base x.size = some (rc, rgn') ∧
      ((rc = -1 ∧ rgn' = rgn ∧ rgn.cnt = MAX_LMB_REGIONS ∧ ∀ j < rgn.cnt,
          lmb_addrs_adjacent x.base x.size (rgn.region j).base (rgn.region j).size = 0) ∨
        (0 ≤ rc ∧ rgn'.Ok ∧ rgn'.covered = rgn.covered ∪ x.span.points)) := by
  have hlast := LmbRegion.last_of_pos hpos h.cnt_le
  have hspan : ∀ j, (rgn.region j).span = rgn.spans j := fun _ => rfl
  have hsize : ¬ (rgn.cnt = 1 ∧ (rgn.region 0).size = 0) := by
    rintro ⟨-, hzero⟩
    have := h.separated.nonempty 0 hpos
    simp [LmbRegion.spans, LmbProperty.span, hzero] at this
  unfold lmb_add_region
  rw [if_neg hsize]
  cases htouch : firstTouching rgn x.base x.size with
  | none =>
      have hnone := firstTouching_eq_none.mp htouch
      simp only [hlast, show ¬ rgn.cnt < rgn.cnt - 1 by omega, false_and, if_false]
      by_cases hfull : rgn.cnt ≥ MAX_LMB_REGIONS
      · rw [if_pos hfull]
        exact ⟨-1, rgn, rfl, .inl ⟨rfl, rfl, le_antisymm h.cnt_le hfull,
          fun j hj => (hnone j hj).2⟩⟩
      · rw [if_neg hfull]
        obtain ⟨hok, hcovered⟩ := addSorted_of_ok h (not_le.mp hfull) hpos hne hwrap
          fun j hj => apart_of_not_adjacent h hne hwrap disjoint hj (hnone j hj).2
        exact ⟨0, _, rfl, .inr ⟨le_rfl, hok, hcovered⟩⟩
  | some i =>
      obtain ⟨hi, hhit, before⟩ := firstTouching_eq_some.mp htouch
      have hside := h.separated.below_or_above hne disjoint hi
      have hne_i := h.separated.nonempty i hi
      have hnotsame : rgn.region i ≠ ⟨x.base, x.size⟩ := by
        intro hsame
        rw [← hspan, hsame] at hside hne_i
        change x.span.hi ≤ x.span.lo ∨ x.span.hi ≤ x.span.lo at hside
        omega
      have hadj := hhit.resolve_left hnotsame
      rw [lmb_addrs_adjacent_eq hwrap (h.noWrap i hi), hspan] at hadj
      have hlast' : ∀ r, (rgn.set i r).last = rgn.cnt - 1 := fun r => hlast
      simp only [hnotsame, if_false, hlast']
      by_cases hbelow : (rgn.spans i).lo = x.span.hi
      · obtain ⟨hok, hcovered⟩ := extend_below_of_ok h hne hwrap disjoint hi hbelow
          fun j hj => (before j hj).2
        rw [if_neg]
        · exact ⟨1, _, rfl, .inr ⟨by decide, hok, hcovered⟩⟩
        · rintro ⟨hlt, hnext⟩
          exact hnext (not_adjacent_next hok (by show i + 1 < rgn.cnt; omega))
      · have habove : x.span.lo = (rgn.spans i).hi := by
          rw [if_neg hbelow] at hadj
          by_contra hother
          rw [if_neg hother] at hadj
          exact hadj rfl
        obtain ⟨rc, rgn', hrun, hrc, hok, hcovered⟩ :=
          coalesce_above_of_ok h hne hwrap disjoint hi habove _ rfl
        exact ⟨rc, rgn', hrun, .inr ⟨hrc, hok, hcovered⟩⟩

end Adding

/-! ## The search -/

/-- What is found is found in one of the memory regions. -/
theorem exists_searchDown {lmb : Lmb} {size align max_addr base : Phys} {n : Nat}
    (h : searchMemory lmb size align max_addr n = some base) :
    ∃ i start, searchDown lmb.reserved (lmb.memory.region i).base size align start = some base := by
  induction n with
  | zero => simp [searchMemory] at h
  | succ n ih =>
      rw [searchMemory] at h
      split at h
      · next found hfound =>
          obtain rfl := Option.some.inj h
          obtain ⟨start, -, hsearch⟩ := Option.bind_eq_some_iff.mp hfound
          exact ⟨n, start, hsearch⟩
      · exact ih h

end UBoot
