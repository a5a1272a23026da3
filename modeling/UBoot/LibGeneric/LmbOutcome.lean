/-
# What an addition comes to

`lmb_add_region` with a range whose first addresses are free, on a table that is sorted and
without overlaps: the table that results is of this kind and has these addresses, exactly when
the range fits. The cases are those of the code: no region is touched, one that follows the
range, one that ends with its begin, and the next region behind either.
-/

import UBoot.LibGeneric.LmbFits

namespace UBoot

open UBoot.Lib

/-- A range for which there is no room in the table, and that no region is or touches. -/
def Refused (rgn : LmbRegion) (x : LmbProperty) : Prop :=
  rgn.cnt ≥ MAX_LMB_REGIONS ∧ ∀ j < rgn.cnt, rgn.region j ≠ x ∧
    lmb_addrs_adjacent x.base x.size (rgn.region j).base (rgn.region j).size = 0

theorem lmb_addrs_adjacent_ne_zero {base1 size1 base2 size2 : Phys} :
    lmb_addrs_adjacent base1 size1 base2 size2 ≠ 0 ↔ base2 = base1 + size1 ∨ base1 = base2 + size2 := by
  rw [lmb_addrs_adjacent]
  split_ifs with hbelow habove <;> simp [*]

section Outcome

variable {rgn : LmbRegion} {x x' : LmbProperty} {size : Phys} {i : Nat}

/-- The part of `lmb_add_region` behind the first loop, for an entry that was extended. -/
def joinNext (rgn : LmbRegion) (i : Nat) (x' : LmbProperty) : Option (Int × LmbRegion) :=
  if i < (rgn.set i x').last ∧ lmb_regions_adjacent (rgn.set i x') i (i + 1) ≠ 0 then
    (lmb_coalesce_regions (rgn.set i x') i (i + 1)).map fun rgn => (2, rgn)
  else some (1, rgn.set i x')

/-- An addition that succeeds leaves a table in order with the addresses asked for, exactly when
the range fits. -/
def Succeeds (rgn : LmbRegion) (x : LmbProperty) (size : Phys) (r : Option (Int × LmbRegion)) : Prop :=
  ∃ rc rgn', r = some (rc, rgn') ∧ 0 ≤ rc ∧
    (rgn'.InOrder ∧ addrs x.base size ⊆ rgn'.covered ↔ Fits rgn.cnt rgn.spans x.span)

/-- The changed entry touches the next one. -/
def TouchesNext (rgn : LmbRegion) (i : Nat) (x' : LmbProperty) : Prop :=
  (rgn.spans (i + 1)).lo = x'.span.hi % 2 ^ 32 ∨
    x'.base = (rgn.region (i + 1)).base + (rgn.region (i + 1)).size

theorem regions_adjacent_iff :
    lmb_regions_adjacent (rgn.set i x') i (i + 1) ≠ 0 ↔ TouchesNext rgn i x' := by
  rw [lmb_regions_adjacent, lmb_addrs_adjacent_ne_zero, TouchesNext]
  simp only [LmbRegion.set_region, Function.update_self, Function.update_of_ne (Nat.succ_ne_self i)]
  exact or_congr_left follows_iff

/-- The two outcomes of an extended entry. -/
theorem succeeds_of_placed (h : rgn.InOrder) (q : Requested rgn x size) (hi : i < rgn.cnt)
    (hset : (i + 1 < rgn.cnt → ¬ TouchesNext rgn i x') →
      (Placed rgn i i x'.span (LmbProperty.span ⟨x.base, size⟩) ↔ Fits rgn.cnt rgn.spans x.span))
    (hmerge : i + 1 < rgn.cnt → TouchesNext rgn i x' →
      (Placed rgn i (i + 1) (x'.merge (rgn.region (i + 1))).span (LmbProperty.span ⟨x.base, size⟩) ↔
        Fits rgn.cnt rgn.spans x.span)) :
    Succeeds rgn x size (joinNext rgn i x') := by
  have hne : (LmbProperty.span ⟨x.base, size⟩).lo < (LmbProperty.span ⟨x.base, size⟩).hi :=
    Nat.lt_add_of_pos_right q.size_pos
  have hlast : (rgn.set i x').last = rgn.cnt - 1 :=
    LmbRegion.last_of_pos (Nat.zero_lt_of_lt hi) h.cnt_le
  rw [joinNext, hlast]
  by_cases hnext : i < rgn.cnt - 1 ∧ lmb_regions_adjacent (rgn.set i x') i (i + 1) ≠ 0
  · rw [if_pos hnext]
    have hlt : i + 1 < rgn.cnt := by omega
    obtain ⟨rgn', hrun, houtcome⟩ := merge_outcome_iff x' h hlt hne q.free
    refine ⟨2, rgn', ?_, by decide, ?_⟩
    · rw [hrun]
      rfl
    · exact houtcome.trans (hmerge hlt (regions_adjacent_iff.mp hnext.2))
  · rw [if_neg hnext]
    refine ⟨1, rgn.set i x', rfl, by decide, ?_⟩
    apply (set_outcome_iff h hi hne q.free).trans
    apply hset
    intro hlt htouch
    exact hnext ⟨by omega, regions_adjacent_iff.mpr htouch⟩

/-- The range is put in where no region touches it. -/
theorem succeeds_apart (h : rgn.InOrder) (q : Requested rgn x size) (hpos : 0 < rgn.cnt)
    (hcnt : rgn.cnt < MAX_LMB_REGIONS)
    (hnone : ∀ j < rgn.cnt,
      lmb_addrs_adjacent x.base x.size (rgn.region j).base (rgn.region j).size = 0) :
    Succeeds rgn x size (some (0, addSorted rgn x)) := by
  have hxpos := q.pos
  have hsize := q.hi_eq
  have hspos := q.size_pos
  have hbelow : ∀ j < rgn.cnt, (rgn.spans j).lo ≠ x.span.hi % 2 ^ 32 := by
    intro j hj heq
    exact lmb_addrs_adjacent_ne_zero.mpr (Or.inl (follows_iff.mpr heq)) (hnone j hj)
  have habove : ∀ j < rgn.cnt, (rgn.spans j).hi ≠ x.span.lo := by
    intro j hj heq
    exact lmb_addrs_adjacent_ne_zero.mpr (Or.inr ((precedes_iff hxpos (h.noWrap j hj)).mpr heq))
      (hnone j hj)
  have mono : ∀ i j, i < j → j < rgn.cnt → (rgn.region i).base < (rgn.region j).base :=
    fun i j hij hj => BitVec.lt_def.mpr (h.inOrder.sorted i j hij hj)
  obtain ⟨p, hp, before, after⟩ := exists_place mono x.base
  have same := addSorted_spans hpos hp before after
  have horder := h.inOrder.insertAt_iff (x := x.span) hp (fun j hj => by
      -- an equal base would be that of an empty region, which ends with the begin of the range
      have hle : (rgn.spans j).lo ≤ x.span.lo := not_lt.mp (before j hj)
      have hj' : j < rgn.cnt := by omega
      have := q.outside hj'
      have := habove j hj'
      have := span_le rgn j
      omega)
    fun j hpj hj => BitVec.lt_def.mp (after j hpj hj)
  have hmem : addrs x.base size ⊆ (addSorted rgn x).covered := by
    intro a ha
    change a ∈ Covered (rgn.cnt + 1) (addSorted rgn x).spans
    rw [covered_congr same, covered_insertAt hp]
    right
    have hlo : x.span.lo ≤ a := ha.1
    have hhi : a < x.span.lo + size.toNat := ha.2
    exact ⟨hlo, by omega⟩
  refine ⟨0, addSorted rgn x, rfl, le_rfl, ?_⟩
  rw [fits_apart_iff hpos hbelow habove, ← horder]
  constructor
  · rintro ⟨h', -⟩
    exact (InOrder.congr_iff same).mp h'.inOrder
  · intro h'
    refine ⟨⟨hcnt, (InOrder.congr_iff same).mpr h', fun k hk => ?_⟩, hmem⟩
    have hk' : k < rgn.cnt + 1 := hk
    rw [same k hk']
    unfold insertAt
    split_ifs
    · exact h.noWrap k (by omega)
    · exact q.noWrap
    · exact h.noWrap (k - 1) (by omega)

theorem spans_lo_lt (rgn : LmbRegion) (j : Nat) : (rgn.spans j).lo < 2 ^ 32 := (rgn.region j).base.isLt

/-- A region that begins with the end of the range is extended downwards. -/
theorem succeeds_below (h : rgn.InOrder) (q : Requested rgn x size) (hi : i < rgn.cnt)
    (hbelow : (rgn.spans i).lo = x.span.hi) (hfirst : ∀ j < i, (rgn.spans j).hi ≠ x.span.lo) :
    Succeeds rgn x size
      (joinNext rgn i ⟨(rgn.region i).base - x.size, (rgn.region i).size + x.size⟩) := by
  have hpos := q.pos
  have hsp := span_le rgn i
  have hwrap := h.noWrap i hi
  have hxhi : x.span.hi = x.span.lo + x.size.toNat := rfl
  have hspan : LmbProperty.span ⟨(rgn.region i).base - x.size, (rgn.region i).size + x.size⟩ =
      ⟨x.span.lo, (rgn.spans i).hi⟩ := by
    simp only [LmbRegion.spans, LmbProperty.span, Span.mk.injEq] at hbelow hwrap hpos ⊢
    constructor <;> bv_omega
  have htouch : i + 1 < rgn.cnt → (TouchesNext rgn i
      ⟨(rgn.region i).base - x.size, (rgn.region i).size + x.size⟩ ↔
        (rgn.spans (i + 1)).lo = (rgn.spans i).hi) := by
    intro hlt
    have hsorted := h.inOrder.sorted i (i + 1) (Nat.lt_succ_self i) hlt
    have hsp' := span_le rgn (i + 1)
    have hlo := spans_lo_lt rgn (i + 1)
    have hprec := precedes_iff (x := ⟨(rgn.region i).base - x.size, (rgn.region i).size + x.size⟩)
      (r := rgn.region (i + 1)) (by rw [hspan]; exact hpos) (h.noWrap (i + 1) hlt)
    rw [TouchesNext, hprec, hspan]
    change _ ∨ (rgn.spans (i + 1)).hi = x.span.lo ↔ _
    simp only
    omega
  apply succeeds_of_placed h q hi
  · intro _
    rw [hspan]
    exact placed_below_iff h q le_rfl hi hbelow hfirst
  · intro hlt htouches
    have hjoin := (htouch hlt).mp htouches
    have hwrap' := h.noWrap (i + 1) hlt
    have hmerge : (LmbProperty.merge ⟨(rgn.region i).base - x.size, (rgn.region i).size + x.size⟩
        (rgn.region (i + 1))).span = ⟨x.span.lo, (rgn.spans (i + 1)).hi⟩ := by
      simp only [LmbRegion.spans, LmbProperty.span, LmbProperty.merge, Span.mk.injEq] at hspan hjoin hwrap' hpos ⊢
      constructor <;> bv_omega
    rw [hmerge]
    exact placed_below_iff h q (Nat.le_succ i) hlt hbelow hfirst

/-- A merged entry ends where its second part does, or has size 0 when it is the whole address
space. -/
theorem merged_hi {lo mid hi size : Nat} (hlo : lo ≤ mid) (hsize : hi = mid + size)
    (hwrap : hi ≤ 2 ^ 32) :
    lo + (mid - lo + size) % 2 ^ 32 = if lo = 0 ∧ hi = 2 ^ 32 then 0 else hi := by
  split <;> omega

/-- What is behind the range at the end of the address space does not begin inside it, if their sum
has the addresses that were asked for. -/
theorem le_of_joined_has {lo add size next : Nat} (hout : lo + size ≤ next) (hnext : next < 2 ^ 32)
    (hrounded : add < size + lo) (hhas : lo + size ≤ (lo + add + (2 ^ 32 - next)) % 2 ^ 32) :
    lo + add ≤ next := by
  omega

/-- A region that ends with the begin of the range is extended upwards. -/
theorem succeeds_above (h : rgn.InOrder) (q : Requested rgn x size) (hi : i < rgn.cnt)
    (habove : (rgn.spans i).hi = x.span.lo)
    (haround : ¬ (x.span.hi = 2 ^ 32 ∧ (rgn.spans 0).lo = 0)) :
    Succeeds rgn x size (joinNext rgn i ⟨(rgn.region i).base, (rgn.region i).size + x.size⟩) := by
  have hpos := q.pos
  have hsp := span_le rgn i
  have htop := q.noWrap
  have hspos := q.size_pos
  have hhi := q.hi_eq
  have hxhi : x.span.hi = x.span.lo + x.size.toNat := rfl
  have hzero : (rgn.spans i).lo = 0 → i = 0 := by
    intro hz
    by_contra hne
    have := h.inOrder.sorted 0 i (by omega) hi
    omega
  have hlen : x.span.hi - (rgn.spans i).lo < 2 ^ 32 := by
    by_contra hlong
    have hi0 := hzero (by omega)
    subst hi0
    exact haround ⟨by omega, by omega⟩
  have hspan : LmbProperty.span ⟨(rgn.region i).base, (rgn.region i).size + x.size⟩ =
      ⟨(rgn.spans i).lo, x.span.hi⟩ := by
    simp only [LmbRegion.spans, LmbProperty.span, Span.mk.injEq] at habove hlen hxhi ⊢
    constructor
    · trivial
    · bv_omega
  have htouch : i + 1 < rgn.cnt → (TouchesNext rgn i
      ⟨(rgn.region i).base, (rgn.region i).size + x.size⟩ ↔
        (rgn.spans (i + 1)).lo = x.span.hi ∨ ((rgn.spans i).lo = 0 ∧ (rgn.spans (i + 1)).hi = 2 ^ 32)) := by
    intro hlt
    have hsorted := h.inOrder.sorted i (i + 1) (Nat.lt_succ_self i) hlt
    have hsp' := span_le rgn (i + 1)
    have hlo := spans_lo_lt rgn (i + 1)
    have hwrap' := h.noWrap (i + 1) hlt
    have hprec : (rgn.region i).base = (rgn.region (i + 1)).base + (rgn.region (i + 1)).size ↔
        (rgn.spans i).lo = (rgn.spans (i + 1)).hi % 2 ^ 32 := follows_iff
    rw [TouchesNext, hspan, hprec]
    simp only
    omega
  apply succeeds_of_placed h q hi
  · intro hnot
    rw [hspan]
    apply placed_above_iff h q hi habove haround
    intro hlt heq
    exact hnot hlt ((htouch hlt).mpr (Or.inl heq))
  · intro hlt htouches
    have hwrap' := h.noWrap (i + 1) hlt
    have hsp' := span_le rgn (i + 1)
    have hlo := spans_lo_lt rgn (i + 1)
    generalize hx' : (⟨(rgn.region i).base, (rgn.region i).size + x.size⟩ : LmbProperty) = x' at *
    have hsize' : x'.size.toNat = x.span.hi - (rgn.spans i).lo := by
      have := congrArg Span.hi hspan
      have := congrArg Span.lo hspan
      simp only [LmbProperty.span] at *
      omega
    have hbase' : x'.base.toNat = (rgn.spans i).lo := congrArg Span.lo hspan
    have hnextsize : (rgn.spans (i + 1)).hi = (rgn.spans (i + 1)).lo + (rgn.region (i + 1)).size.toNat := rfl
    have hmergehi : (x'.merge (rgn.region (i + 1))).span =
        ⟨(rgn.spans i).lo, (rgn.spans i).lo +
          (x.span.hi - (rgn.spans i).lo + (rgn.region (i + 1)).size.toNat) % 2 ^ 32⟩ := by
      simp only [LmbProperty.merge, LmbProperty.span, BitVec.toNat_add, hsize', hbase']
    by_cases hnext : (rgn.spans (i + 1)).lo = x.span.hi
    · have hbetween := placed_between_iff h q hlt habove hnext
      have hle : (rgn.spans i).lo ≤ x.span.hi :=
        hsp.trans (habove.le.trans (hxhi ▸ Nat.le_add_right _ _))
      rw [merged_hi hle (hnext ▸ hnextsize) hwrap'] at hmergehi
      by_cases hwhole : (rgn.spans i).lo = 0 ∧ (rgn.spans (i + 1)).hi = 2 ^ 32
      · -- the whole address space has size 0
        rw [← hbetween]
        constructor
        · intro placed
          have := placed.has.2
          rw [hmergehi, if_pos hwhole] at this
          exact absurd ((Nat.le_add_left _ _).trans this) (Nat.not_le.2 hspos)
        · rintro ⟨hnot, -⟩
          exact absurd hwhole hnot
      · have hmerge : (x'.merge (rgn.region (i + 1))).span =
            ⟨(rgn.spans i).lo, (rgn.spans (i + 1)).hi⟩ := by
          rw [hmergehi, if_neg hwhole]
        rw [hmerge, ← hbetween]
        exact ⟨fun placed => ⟨hwhole, placed⟩, fun placed => placed.2⟩
    · obtain ⟨hlow, hend⟩ := ((htouch hlt).mp htouches).resolve_left hnext
      have hi0 := hzero hlow
      subst hi0
      rw [fits_joined_iff h q hlt (Span.ext hlow habove) hend hnext]
      simp only [Nat.zero_add] at hlt hnext hend hwrap' hsp' hlo hnextsize hmergehi ⊢
      constructor
      · intro placed
        rcases q.outside hlt with hempty | hbelow | hbehind
        · exact absurd (hend.ge.trans hempty) (Nat.not_le.2 hlo)
        · exact absurd (hend.ge.trans hbelow) (Nat.not_le.2 x.base.isLt)
        · have hsize1 : (rgn.region 1).size.toNat = 2 ^ 32 - (rgn.spans 1).lo := by
            rw [← hend, hnextsize, Nat.add_sub_cancel_left]
          have hhas := placed.has.2
          rw [hmergehi, hlow, Nat.zero_add, Nat.sub_zero, hsize1] at hhas
          exact lt_of_le_of_ne (le_of_joined_has hbehind hlo q.rounded hhas) (Ne.symm hnext)
      · intro hgap
        have hjoined : x.span.hi + (rgn.region 1).size.toNat < 2 ^ 32 :=
          (Nat.add_lt_add_right hgap _).trans_eq (hnextsize.symm.trans hend)
        have hsum : (x.span.hi - (rgn.spans 0).lo + (rgn.region 1).size.toNat) % 2 ^ 32 =
            x.span.hi + (rgn.region 1).size.toNat := by
          rw [hlow, Nat.sub_zero, Nat.mod_eq_of_lt hjoined]
        rw [hmergehi, hsum, hlow, Nat.zero_add]
        refine ⟨hjoined.le, ⟨Nat.zero_le _, hhi.1.trans (Nat.le_add_right _ _)⟩,
          fun j hj => absurd hj (Nat.not_lt_zero j), fun j hj hjn => ?_, fun j hj hother => ?_⟩
        · exact hlow ▸ h.inOrder.sorted 0 j (Nat.zero_lt_of_lt hj) hjn
        · rw [Span.disjoint_iff]
          rcases Nat.lt_or_ge (rgn.spans j).lo (rgn.spans j).hi with hne | hempty
          · have := h.inOrder.hi_le (show 1 < j by omega) hj hne
            have := spans_lo_lt rgn j
            omega
          · exact Or.inr (Or.inl hempty)

/-- What is added in front of the begin of the address space is nothing, if the sum neither wraps
around nor is empty. -/
theorem eq_zero_of_around {lo add size a b : Nat} (htop : lo + add = 2 ^ 32) (hroom : a + b ≤ lo)
    (hpos : 0 < size) (hhas : lo + size ≤ lo + (a + add + b) % 2 ^ 32)
    (hwrap : lo + (a + add + b) % 2 ^ 32 ≤ 2 ^ 32) : a = 0 ∧ b = 0 := by
  omega

/-- A region that begins with the address space is taken for one that follows the range. -/
theorem succeeds_around (h : rgn.InOrder) (q : Requested rgn x size) (hcnt : 0 < rgn.cnt)
    (htop : x.span.hi = 2 ^ 32) (hzero : (rgn.spans 0).lo = 0) :
    Succeeds rgn x size
      (joinNext rgn 0 ⟨(rgn.region 0).base - x.size, (rgn.region 0).size + x.size⟩) := by
  have hpos := q.pos
  have hspos := q.size_pos
  have hhi := q.hi_eq
  have hout : (rgn.spans 0).hi ≤ x.span.lo := by
    rcases q.outside hcnt with hempty | hend | hbehind
    · exact hempty.trans (hzero.le.trans (Nat.zero_le _))
    · exact hend
    · exact absurd (hbehind.trans hzero.le) (Nat.not_le.2 (Nat.add_pos_right _ hspos))
  have hxhi : x.span.hi = x.span.lo + x.size.toNat := rfl
  have hsize : (rgn.region 0).size.toNat = (rgn.spans 0).hi := by
    simp only [LmbRegion.spans, LmbProperty.span] at hzero ⊢
    omega
  generalize hx' : (⟨(rgn.region 0).base - x.size, (rgn.region 0).size + x.size⟩ : LmbProperty) = x'
  have hbase' : x'.base = x.base := by
    rw [← hx']
    simp only [LmbRegion.spans, LmbProperty.span] at hzero hxhi htop ⊢
    bv_omega
  have hlo' : x'.span.lo = x.span.lo := congrArg BitVec.toNat hbase'
  have hsize' : x'.size.toNat = ((rgn.spans 0).hi + x.size.toNat) % 2 ^ 32 := by
    rw [← hx', BitVec.toNat_add, hsize]
  have hhi' : x'.span.hi = x.span.lo + ((rgn.spans 0).hi + x.size.toNat) % 2 ^ 32 := by
    rw [← hlo', ← hsize']
    rfl
  have htouch : 1 < rgn.cnt → (TouchesNext rgn 0 x' ↔
      (rgn.spans 1).lo = (rgn.spans 0).hi ∨ (rgn.spans 1).hi = x.span.lo) := by
    intro hlt
    have hprec := precedes_iff (x := x') (r := rgn.region 1) (by rw [hlo']; exact hpos) (h.noWrap 1 hlt)
    rw [hlo'] at hprec
    rw [TouchesNext, hprec, hhi']
    change _ ∨ (rgn.spans 1).hi = x.span.lo ↔ _
    have hmod : (x.span.lo + ((rgn.spans 0).hi + x.size.toNat) % 2 ^ 32) % 2 ^ 32 = (rgn.spans 0).hi := by
      omega
    rw [hmod]
  have hfits := fits_around_iff q hcnt htop hzero
  apply succeeds_of_placed h q hcnt
  · intro hnot
    rw [hfits]
    constructor
    · rintro ⟨hwrap, ⟨-, hhas⟩, -, hbehind, hdisjoint⟩ j hj
      change x.span.lo + size.toNat ≤ x'.span.hi at hhas
      -- the entry neither wraps around nor is empty, so that the region was empty
      have hempty : (rgn.spans 0).hi = 0 := by
        rw [hhi'] at hhas hwrap
        exact (@eq_zero_of_around _ _ _ _ 0 (hxhi.symm.trans htop) hout hspos hhas hwrap).1
      rcases Nat.eq_zero_or_pos j with rfl | hjpos
      · exact ⟨hempty.trans hzero.symm, fun hlt => absurd hlt (Nat.lt_irrefl 0)⟩
      · have hlow := hbehind j hjpos hj
        have hd := Span.disjoint_iff.mp (hdisjoint j hj (Or.inr hjpos))
        have := spans_lo_lt rgn j
        have := span_le rgn j
        omega
    · intro hempty
      have hnone := (hempty 0 hcnt).1
      refine ⟨by omega, ⟨hlo'.le, ?_⟩, fun j hj => absurd hj (Nat.not_lt_zero j),
        fun j hj hjn => ?_, fun j hj hother => ?_⟩
      · change x.span.lo + size.toNat ≤ x'.span.hi
        omega
      · -- an empty region at the begin of the range would be the next one, and touch
        have hj' := hempty j hjn
        have hle := hj'.2 hj
        rcases Nat.eq_or_lt_of_le hj with rfl | hlt
        · have := mt (htouch hjn).mpr (hnot hjn)
          change (rgn.spans 1).hi = (rgn.spans 1).lo ∧ _ at hj'
          change x.span.lo ≤ (rgn.spans 1).lo at hle
          change x'.span.lo < (rgn.spans 1).lo
          omega
        · have := h.inOrder.sorted 1 j hlt hjn
          have := (hempty 1 (by omega)).2 (by decide)
          omega
      · rw [Span.disjoint_iff]
        exact Or.inr (Or.inl (hempty j hj).1.le)
  · intro hlt htouches
    rw [hfits]
    simp only [Nat.zero_add] at hlt ⊢
    have htouches' := (htouch hlt).mp htouches
    have hsp' := span_le rgn 1
    have hsorted := h.inOrder.sorted 0 1 Nat.one_pos hlt
    have hsize1 : (rgn.spans 1).hi = (rgn.spans 1).lo + (rgn.region 1).size.toNat := rfl
    have hord : (rgn.spans 0).hi ≤ (rgn.spans 1).lo := by
      rcases Nat.lt_or_ge (rgn.spans 1).lo (rgn.spans 1).hi with hne | hempty
      · exact h.inOrder.hi_le Nat.one_pos hlt hne
      · rcases htouches' with hbegin | hend
        · exact hbegin.ge
        · exact hout.trans (hend.ge.trans hempty)
    have hend : (rgn.spans 1).hi ≤ x.span.lo := by
      rcases htouches' with hbegin | hend
      · rcases q.outside hlt with hempty | hend | hbehind
        · exact hempty.trans (hbegin.le.trans hout)
        · exact hend
        · exact absurd (hbehind.trans (hbegin.le.trans hout)) (by omega)
      · exact hend.le
    have hmergelo : (x'.merge (rgn.region 1)).span.lo = x.span.lo := hlo'
    have hmergehi : (x'.merge (rgn.region 1)).span.hi =
        x.span.lo + (x'.size.toNat + (rgn.region 1).size.toNat) % 2 ^ 32 := by
      rw [← hlo']
      simp only [LmbProperty.merge, LmbProperty.span, BitVec.toNat_add]
    constructor
    · rintro ⟨hwrap, ⟨-, hhas⟩, -, hbehind, hdisjoint⟩ j hj
      change x.span.lo + size.toNat ≤ _ at hhas
      obtain ⟨hnone, hnone'⟩ : (rgn.spans 0).hi = 0 ∧ (rgn.region 1).size.toNat = 0 := by
        rw [hmergehi, hsize', Nat.mod_add_mod] at hhas hwrap
        refine eq_zero_of_around (hxhi.symm.trans htop) ?_ hspos hhas hwrap
        exact (Nat.add_le_add_right hord _).trans (hsize1 ▸ hend)
      have hempty' : (rgn.spans 1).hi = (rgn.spans 1).lo := by rw [hsize1, hnone', Nat.add_zero]
      obtain rfl | rfl | hge : j = 0 ∨ j = 1 ∨ 2 ≤ j := by clear * -; omega
      · exact ⟨hnone.trans hzero.symm, fun hlt => absurd hlt (Nat.lt_irrefl 0)⟩
      · refine ⟨hempty', fun _ => ?_⟩
        rcases htouches' with hbegin | hend
        · exact absurd (hsorted.trans_eq (hbegin.trans hnone)) (Nat.not_lt_zero _)
        · exact (hend.symm.trans hempty').le
      · have hpast : 1 < j := hge
        have hlow := hbehind j hpast hj
        have hd := Span.disjoint_iff.mp (hdisjoint j hj (Or.inr hpast))
        have := spans_lo_lt rgn j
        have := span_le rgn j
        omega
    · intro hempty
      have hnone := (hempty 0 hcnt).1
      have hnone' := hempty 1 hlt
      have hbegin := hnone'.2 Nat.one_pos
      refine ⟨by omega, ⟨hmergelo.le, ?_⟩, fun j hj => absurd hj (Nat.not_lt_zero j),
        fun j hj hjn => ?_, fun j hj hother => ?_⟩
      · change x.span.lo + size.toNat ≤ _
        omega
      · have := h.inOrder.sorted 1 j hj hjn
        omega
      · rw [Span.disjoint_iff]
        exact Or.inr (Or.inl (hempty j hj).1.le)

/-- What `lmb_add_region` does with a range whose first addresses are free. -/
theorem lmb_add_region_outcome (h : rgn.InOrder) (q : Requested rgn x size) (hcnt : 0 < rgn.cnt)
    (hreal : ¬ (rgn.cnt = 1 ∧ (rgn.region 0).size = 0)) :
    (Refused rgn x ∧ lmb_add_region rgn x.base x.size = some (-1, rgn)) ∨
      (¬ Refused rgn x ∧ Succeeds rgn x size (lmb_add_region rgn x.base x.size)) := by
  have hpos := q.pos
  have hspos := q.size_pos
  have hhi := q.hi_eq
  have htop := q.noWrap
  have hlast := LmbRegion.last_of_pos hcnt h.cnt_le
  rw [lmb_add_region, if_neg hreal]
  cases htouch : firstTouching rgn x.base x.size with
  | none =>
      have hnone := firstTouching_eq_none.mp htouch
      have hnot : ¬ (rgn.cnt < rgn.last ∧ lmb_regions_adjacent rgn rgn.cnt (rgn.cnt + 1) ≠ 0) := by
        rw [hlast]
        omega
      simp only [if_neg hnot]
      by_cases hfull : rgn.cnt ≥ MAX_LMB_REGIONS
      · rw [if_pos hfull]
        exact Or.inl ⟨⟨hfull, hnone⟩, rfl⟩
      · rw [if_neg hfull]
        exact Or.inr ⟨fun refused => hfull refused.1,
          succeeds_apart h q hcnt (Nat.lt_of_not_le hfull) fun j hj => (hnone j hj).2⟩
  | some i =>
      obtain ⟨hi, hhit, hbefore⟩ := firstTouching_eq_some.mp htouch
      have hsame : rgn.region i ≠ ⟨x.base, x.size⟩ := by
        intro hsame
        have hout := q.outside hi
        have hspan : rgn.spans i = x.span := congrArg LmbProperty.span hsame
        rw [hspan] at hout
        omega
      have hadj := hhit.resolve_left hsame
      have hnot : ¬ Refused rgn x := fun refused => hadj (refused.2 i hi).2
      have hfirst : ∀ j < i, (rgn.spans j).hi ≠ x.span.lo := by
        intro j hj heq
        apply lmb_addrs_adjacent_ne_zero.mpr _ (hbefore j hj).2
        exact Or.inr ((precedes_iff hpos (h.noWrap j (hj.trans hi))).mpr heq)
      simp only [if_neg hsame]
      right
      refine ⟨hnot, ?_⟩
      change Succeeds rgn x size (joinNext rgn i ((rgn.region i).extend x.base x.size))
      rw [LmbProperty.extend]
      by_cases hbelow : (rgn.region i).base = x.base + x.size
      · have hlo := follows_iff.mp hbelow
        change (rgn.spans i).lo = _ at hlo
        rw [lmb_addrs_adjacent, if_pos hbelow, if_pos Int.one_pos]
        by_cases hend : x.span.hi = 2 ^ 32
        · have hi0 : i = 0 := by
            by_contra hne
            have := h.inOrder.sorted 0 i (by omega) hi
            omega
          subst hi0
          exact succeeds_around h q hcnt hend (by omega)
        · exact succeeds_below h q hi (by omega) hfirst
      · have hprec := (lmb_addrs_adjacent_ne_zero.mp hadj).resolve_left hbelow
        have habove := (precedes_iff hpos (h.noWrap i hi)).mp hprec
        rw [lmb_addrs_adjacent, if_neg hbelow, if_pos hprec, if_neg (by decide)]
        apply succeeds_above h q hi habove
        rintro ⟨hend, hzero⟩
        -- a region that begins with the address space would have been found first
        have hfollows : (rgn.region 0).base = x.base + x.size := follows_iff.mpr (by
          change (rgn.spans 0).lo = _
          omega)
        rcases Nat.eq_zero_or_pos i with rfl | hipos
        · exact hbelow hfollows
        · exact lmb_addrs_adjacent_ne_zero.mpr (Or.inl hfollows) (hbefore 0 hipos).2

end Outcome

end UBoot
