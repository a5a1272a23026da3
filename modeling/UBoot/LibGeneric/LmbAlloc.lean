/-
# What an allocation promises

A base that `__lmb_alloc_base` returns is aligned, its range lies in a memory region, below the
limit and apart from all reserved regions, and is reserved afterwards in a table that is still
in order. This holds exactly when the highest spot of the last memory region that has one is
within the limit, and the range with its size rounded up fits into the table; or when the table
refuses it.
-/

import UBoot.LibGeneric.LmbFailures
import UBoot.LibGeneric.LmbOutcome
import UBoot.LibGeneric.LmbSearch

namespace UBoot

open UBoot.Lib

/-- What a base that is returned promises. -/
structure Allocated (lmb lmb' : Lmb) (size align max_addr base : Phys) : Prop where
  aligned : align.toNat ∣ base.toNat
  inside : ∃ i < lmb.memory.cnt, addrs base size ⊆ (lmb.memory.spans i).points
  limit : max_addr ≠ 0 → base.toNat + size.toNat ≤ max_addr.toNat
  free : ∀ j < lmb.reserved.cnt, Disjoint (addrs base size) (lmb.reserved.spans j).points
  inOrder : lmb'.reserved.InOrder
  reserved : addrs base size ⊆ lmb'.reserved.covered

/-- An allocation keeps the promise whenever it returns a base. -/
def AllocSound (lmb : Lmb) (size align max_addr : Phys) : Prop :=
  ∀ base lmb', __lmb_alloc_base lmb size align max_addr = some (base, lmb') → base ≠ 0 →
    Allocated lmb lmb' size align max_addr base

/-- The addition of a range to an empty table does not come back: the stale entries look
adjacent. -/
def Lost (rgn : LmbRegion) : Prop := rgn.cnt = 0 ∧ lmb_regions_adjacent rgn 0 1 ≠ 0

/-- A range with the size `size`, which is rounded up in `x`, can be added to a table. An empty
table takes it below its stale entry, or when that has all of it; the dummy entry is
overwritten. -/
structure Takes (rgn : LmbRegion) (x : LmbProperty) (size : Phys) : Prop where
  emptied : rgn.cnt = 0 → x.base < (rgn.region 0).base ∨
    ((rgn.spans 0).hi ≤ 2 ^ 32 ∧ addrs x.base size ⊆ (rgn.spans 0).points)
  inUse : 0 < rgn.cnt → ¬ (rgn.cnt = 1 ∧ (rgn.region 0).size = 0) → Fits rgn.cnt rgn.spans x.span

/-- The limit is not below the size, and a region that ends with the address space does not hide
it. -/
def WithinLimit (r : Span Nat) (b size max_addr : Phys) : Prop :=
  max_addr ≠ 0 → size ≤ max_addr ∧ (r.hi = 2 ^ 32 → b.toNat + size.toNat ≤ max_addr.toNat)

/-- The range at the highest spot is within the limit, and the table takes it with its size
rounded up, unless that does not come back with success. -/
def SpotSafe (lmb : Lmb) (size align max_addr : Phys) : Prop :=
  ∀ i b, Highest lmb size align max_addr i b →
    Refused lmb.reserved ⟨b, lmb_align_up size align⟩ ∨ Lost lmb.reserved ∨
      (WithinLimit (lmb.memory.spans i) b size max_addr ∧
        Takes lmb.reserved ⟨b, lmb_align_up size align⟩ size)

/-! ## The range -/

section Range

variable {lmb : Lmb} {size align max_addr b : Phys} {i k : Nat}

/-- A spot within the limit is in its memory region, below the limit. -/
theorem Spot.inside (spot : Spot lmb size align max_addr i b) (hmem : lmb.memory.InOrder)
    (hsize : 0 < size.toNat) (hlimit : WithinLimit (lmb.memory.spans i) b size max_addr) :
    b.toNat + size.toNat ≤ (lmb.memory.spans i).hi ∧
      (max_addr ≠ 0 → b.toNat + size.toNat ≤ max_addr.toNat) := by
  have hwrap := hmem.noWrap i spot.lt
  have hfits := spot.fits
  have htop := spot.le_top
  have hlooked := spot.looked
  have hbase := spot.candidate.base_le
  simp only [LmbRegion.spans, LmbProperty.span, WithinLimit] at hwrap hlimit ⊢
  generalize lmb.memory.region i = r at *
  by_cases hany : max_addr = LMB_ALLOC_ANYWHERE
  · rw [allocTop, if_pos hany, LmbProperty.stop] at htop
    constructor
    · bv_omega
    · intro hne
      exact absurd hany hne
  · have hmax := hlimit hany
    have hbelow := hlooked.resolve_left hany
    have hne : 0 < max_addr.toNat := by
      rw [LMB_ALLOC_ANYWHERE] at hany
      bv_omega
    rw [allocTop, if_neg hany] at htop
    split at htop
    · next hstop =>
        rw [LmbProperty.stop] at htop hstop
        constructor
        · bv_omega
        · intro _
          by_cases hend : r.base.toNat + r.size.toNat = 2 ^ 32
          · exact hmax.2 hend
          · bv_omega
    · next hstop =>
        rw [LmbProperty.stop] at hstop
        constructor
        · bv_omega
        · intro _
          bv_omega

/-- The rounded size of a spot within a memory region: it is less than the begin of the range
above the size, and the range does not wrap around. -/
theorem Spot.rounded (spot : Spot lmb size align max_addr i b) (hmem : lmb.memory.InOrder)
    (hsize : 0 < size.toNat) (halign : align.toNat = 2 ^ k)
    (hinside : b.toNat + size.toNat ≤ (lmb.memory.spans i).hi) :
    size.toNat ≤ (lmb_align_up size align).toNat ∧
      (lmb_align_up size align).toNat < size.toNat + b.toNat ∧
      b.toNat + (lmb_align_up size align).toNat ≤ 2 ^ 32 := by
  have hend := hinside.trans (hmem.noWrap i spot.lt)
  have hpos : 0 < b.toNat := by
    have := spot.candidate.ne_zero
    bv_omega
  have hle := Nat.le_of_dvd hpos spot.candidate.aligned
  have hapos : 0 < align.toNat := halign ▸ Nat.two_pow_pos k
  have hk : k < 32 := by
    rw [← Nat.pow_lt_pow_iff_right (show 1 < 2 by decide), ← halign]
    exact align.isLt
  have hdvd : align.toNat ∣ 2 ^ 32 - b.toNat := by
    apply Nat.dvd_sub _ spot.candidate.aligned
    rw [halign]
    exact Nat.pow_dvd_pow 2 hk.le
  have hsum : (size + (align - 1)).toNat = size.toNat + (align.toNat - 1) := by
    have := Nat.le_of_dvd (by omega) hdvd
    bv_omega
  have hup : (lmb_align_up size align).toNat =
      (size.toNat + (align.toNat - 1)) / align.toNat * align.toNat := by
    have := lmb_align_down_toNat halign (size + (align - 1))
    rw [hsum] at this
    exact this
  have hge : size.toNat ≤ (lmb_align_up size align).toNat ∧
      (lmb_align_up size align).toNat < size.toNat + align.toNat := by
    have := Nat.div_add_mod' (size.toNat + (align.toNat - 1)) align.toNat
    have := Nat.mod_lt (size.toNat + (align.toNat - 1)) hapos
    omega
  have htop : (lmb_align_up size align).toNat ≤ 2 ^ 32 - b.toNat := by
    obtain ⟨m, hm⟩ := hdvd
    rw [hup, hm, Nat.mul_comm align.toNat m]
    apply Nat.mul_le_mul_right
    rw [← Nat.lt_succ_iff, Nat.div_lt_iff_lt_mul hapos, Nat.succ_mul, Nat.mul_comm]
    omega
  exact ⟨hge.1, by omega, by omega⟩

theorem Spot.requested (spot : Spot lmb size align max_addr i b) (hmem : lmb.memory.InOrder)
    (hsize : 0 < size.toNat) (halign : align.toNat = 2 ^ k)
    (hinside : b.toNat + size.toNat ≤ (lmb.memory.spans i).hi)
    (hfree : ∀ j < lmb.reserved.cnt, Disjoint (addrs b size) (lmb.reserved.spans j).points) :
    Requested lmb.reserved ⟨b, lmb_align_up size align⟩ size := by
  obtain ⟨hle, hlt, htop⟩ := spot.rounded hmem hsize halign hinside
  have hpos : 0 < b.toNat := by
    have := spot.candidate.ne_zero
    bv_omega
  exact ⟨hpos, hsize, hle, hlt, htop, hfree⟩

end Range

/-! ## The table -/

section Table

variable {rgn : LmbRegion} {x : LmbProperty} {size : Phys}

/-- A table with one entry. -/
theorem single_outcome_iff {s : Set Nat} (hcnt : rgn.cnt = 1) :
    rgn.InOrder ∧ s ⊆ rgn.covered ↔ (rgn.spans 0).hi ≤ 2 ^ 32 ∧ s ⊆ (rgn.spans 0).points := by
  have hcovered : rgn.covered = (rgn.spans 0).points := by
    ext a
    rw [LmbRegion.covered, hcnt]
    constructor
    · rintro ⟨i, hi, ha⟩
      obtain rfl : i = 0 := by omega
      exact ha
    · intro ha
      exact ⟨0, Nat.one_pos, ha⟩
  rw [hcovered]
  constructor
  · rintro ⟨h, hs⟩
    exact ⟨h.noWrap 0 (by omega), hs⟩
  · rintro ⟨hwrap, hs⟩
    refine ⟨⟨by rw [hcnt]; decide, ⟨fun i j hij hj => by omega, fun i j hij hj => by omega⟩,
      fun i hi => ?_⟩, hs⟩
    obtain rfl : i = 0 := by omega
    exact hwrap

theorem firstTouching_eq_none_of_refused (refused : Refused rgn x) :
    firstTouching rgn x.base x.size = none :=
  firstTouching_eq_none.mpr refused.2

/-- An addition to an empty table puts the range below its stale entry, or leaves that in its
place. -/
theorem lmb_add_region_empty (hcnt : rgn.cnt = 0) (hlost : ¬ Lost rgn) :
    lmb_add_region rgn x.base x.size = some (0, ⟨1, if x.base < (rgn.region 0).base then
      Function.update rgn.region 0 x else rgn.region⟩) := by
  have hnone : firstTouching rgn x.base x.size = none := by
    rw [firstTouching, hcnt]
    rfl
  have hnot : ¬ (rgn.cnt < rgn.last ∧ lmb_regions_adjacent rgn rgn.cnt (rgn.cnt + 1) ≠ 0) := by
    rintro ⟨-, hadj⟩
    rw [hcnt] at hadj
    exact hlost ⟨hcnt, hadj⟩
  rw [lmb_add_region, if_neg (by omega), hnone]
  simp only [if_neg hnot]
  rw [if_neg (by rw [hcnt]; decide), addSorted, hcnt]
  rfl

/-- The loop that takes an entry out of an empty table does not end. -/
theorem lmb_add_region_lost (lost : Lost rgn) : lmb_add_region rgn x.base x.size = none := by
  have hcnt := lost.1
  have hnone : firstTouching rgn x.base x.size = none := by
    rw [firstTouching, hcnt]
    rfl
  have hlast : rgn.last = 2 ^ 32 - 1 := by
    rw [LmbRegion.last, hcnt]
    rfl
  have hloop : rgn.cnt < rgn.last ∧ lmb_regions_adjacent rgn rgn.cnt (rgn.cnt + 1) ≠ 0 := by
    rw [hlast, hcnt]
    exact ⟨by decide, lost.2⟩
  rw [lmb_add_region, if_neg (by omega), hnone]
  simp only [if_pos hloop]
  have hlast' : (rgn.set rgn.cnt ⟨(rgn.region rgn.cnt).base,
      (rgn.region rgn.cnt).size + (rgn.region (rgn.cnt + 1)).size⟩).last = 2 ^ 32 - 1 := hlast
  rw [lmb_coalesce_regions, lmb_remove_region, hlast', if_pos (by decide)]
  rfl

/-- An addition comes back, unless the table is empty and its stale entries look adjacent. -/
theorem lmb_add_region_returns (hle : rgn.cnt ≤ MAX_LMB_REGIONS) (hlost : ¬ Lost rgn) :
    ∃ rc rgn', lmb_add_region rgn x.base x.size = some (rc, rgn') ∧ (rc < 0 → Refused rgn x) := by
  have hreturns : ∃ r, lmb_add_region rgn x.base x.size = some r := by
    rcases Nat.eq_zero_or_pos rgn.cnt with hcnt | hpos
    · exact ⟨_, lmb_add_region_empty hcnt hlost⟩
    · have hlast := LmbRegion.last_of_pos hpos hle
      rw [lmb_add_region]
      split
      · exact ⟨_, rfl⟩
      · cases htouch : firstTouching rgn x.base x.size with
        | none =>
            simp only [hlast]
            rw [if_neg (by omega)]
            split <;> exact ⟨_, rfl⟩
        | some i =>
            simp only
            split
            · exact ⟨_, rfl⟩
            · split
              · have hlast' : ((rgn.set i ((rgn.region i).extend x.base x.size)).set i
                    ⟨((rgn.set i ((rgn.region i).extend x.base x.size)).region i).base,
                      ((rgn.set i ((rgn.region i).extend x.base x.size)).region i).size +
                        ((rgn.set i ((rgn.region i).extend x.base x.size)).region (i + 1)).size⟩).last =
                    rgn.cnt - 1 := hlast
                rw [lmb_coalesce_regions, lmb_remove_region, hlast', if_neg (by omega)]
                exact ⟨_, rfl⟩
              · exact ⟨_, rfl⟩
  obtain ⟨⟨rc, rgn'⟩, hrun⟩ := hreturns
  refine ⟨rc, rgn', hrun, fun hrc => ?_⟩
  obtain ⟨-, hfull, hnone⟩ := lmb_add_region_refused hrun hrc
  exact ⟨hfull, firstTouching_eq_none.mp hnone⟩

/-- A range that the table takes has no address in common with a region. -/
theorem Takes.free (takes : Takes rgn x size) (hle : size.toNat ≤ x.size.toNat) :
    ∀ j < rgn.cnt, Disjoint (addrs x.base size) (rgn.spans j).points := by
  intro j hj
  by_cases hdummy : rgn.cnt = 1 ∧ (rgn.region 0).size = 0
  · obtain rfl : j = 0 := by omega
    apply Span.disjoint_iff.mpr
    right
    left
    simp [LmbRegion.spans, LmbProperty.span, hdummy.2]
  · apply Set.disjoint_of_subset_left _ ((takes.inUse (Nat.zero_lt_of_lt hj) hdummy).free j hj)
    rintro a ⟨hlo, hhi⟩
    exact ⟨hlo, hhi.trans_le (Nat.add_le_add_left hle _)⟩

/-- An addition that succeeds does what is asked for, exactly when the table takes the range. -/
theorem lmb_add_region_takes (h : rgn.InOrder) (q : Requested rgn x size) (hrefused : ¬ Refused rgn x)
    (hlost : ¬ Lost rgn) :
    ∃ rc rgn', lmb_add_region rgn x.base x.size = some (rc, rgn') ∧ 0 ≤ rc ∧
      (rgn'.InOrder ∧ addrs x.base size ⊆ rgn'.covered ↔ Takes rgn x size) := by
  have hpart : addrs x.base size ⊆ x.span.points := by
    rintro a ⟨hlo, hhi⟩
    exact ⟨hlo, hhi.trans_le (Nat.add_le_add_left q.size_le _)⟩
  rcases Nat.eq_zero_or_pos rgn.cnt with hcnt | hpos
  · refine ⟨0, _, lmb_add_region_empty hcnt hlost, le_rfl, ?_⟩
    rw [single_outcome_iff rfl]
    simp only [LmbRegion.spans]
    by_cases hlt : x.base < (rgn.region 0).base
    · simp only [if_pos hlt, Function.update_self]
      exact ⟨fun _ => ⟨fun _ => Or.inl hlt, fun hpos => absurd hcnt (by omega)⟩,
        fun _ => ⟨q.noWrap, hpart⟩⟩
    · simp only [if_neg hlt]
      exact ⟨fun hstale => ⟨fun _ => Or.inr hstale, fun hpos => absurd hcnt (by omega)⟩,
        fun takes => (takes.emptied hcnt).resolve_left hlt⟩
  · by_cases hdummy : rgn.cnt = 1 ∧ (rgn.region 0).size = 0
    · refine ⟨0, rgn.set 0 x, ?_, le_rfl, ?_⟩
      · rw [lmb_add_region, if_pos hdummy]
      · rw [single_outcome_iff (show (rgn.set 0 x).cnt = 1 from hdummy.1), LmbRegion.set_spans,
          Function.update_self]
        exact ⟨fun _ => ⟨fun hcnt => absurd hcnt (by omega), fun _ hnot => absurd hdummy hnot⟩,
          fun _ => ⟨q.noWrap, hpart⟩⟩
    · rcases lmb_add_region_outcome h q hpos hdummy with ⟨refused, -⟩ | ⟨-, rc, rgn', hrun, hrc, hiff⟩
      · exact absurd refused hrefused
      · refine ⟨rc, rgn', hrun, hrc, hiff.trans ?_⟩
        exact ⟨fun fits => ⟨fun hcnt => absurd hcnt (by omega), fun _ _ => fits⟩,
          fun takes => takes.inUse hpos hdummy⟩

end Table

/-! ## The result -/

/-- An allocation keeps its promise exactly when the highest spot is safe. -/
theorem lmb_alloc_base_sound (lmb : Lmb) (size align max_addr : Phys) (hmem : lmb.memory.InOrder)
    (hres : lmb.reserved.InOrder) (hsize : 0 < size.toNat) (halign : ∃ k, align.toNat = 2 ^ k) :
    AllocSound lmb size align max_addr ↔ SpotSafe lmb size align max_addr := by
  obtain ⟨k, halign⟩ := halign
  constructor
  · intro sound i b highest
    by_contra hnot
    push Not at hnot
    obtain ⟨hrefused, hlost, hnot⟩ := hnot
    have hsearch := (searchMemory_eq_some_iff halign).mpr ⟨i, highest⟩
    have hne := highest.spot.candidate.ne_zero
    obtain ⟨rc, rgn', hrun, hrc⟩ := lmb_add_region_returns
      (x := ⟨b, lmb_align_up size align⟩) hres.cnt_le hlost
    have hrc' : ¬ rc < 0 := fun h => hrefused (hrc h)
    have hresult : __lmb_alloc_base lmb size align max_addr = some (b, { lmb with reserved := rgn' }) := by
      rw [__lmb_alloc_base, hsearch]
      simp only [hrun, Option.map_some, if_neg hrc']
    have allocated := sound b _ hresult hne
    have hlimit : WithinLimit (lmb.memory.spans i) b size max_addr := by
      intro hmax
      have := allocated.limit hmax
      exact ⟨BitVec.le_def.mpr (by omega), fun _ => this⟩
    have hinside := (highest.spot.inside hmem hsize hlimit).1
    have q := highest.spot.requested hmem hsize halign hinside allocated.free
    obtain ⟨rc', rgn'', hrun', -, hiff⟩ := lmb_add_region_takes hres q hrefused hlost
    obtain ⟨-, rfl⟩ := Prod.mk.inj (Option.some.inj (hrun.symm.trans hrun'))
    exact hnot hlimit (hiff.mp ⟨allocated.inOrder, allocated.reserved⟩)
  · intro safe base lmb' hrun hne
    rw [__lmb_alloc_base] at hrun
    cases hsearch : searchMemory lmb size align max_addr lmb.memory.cnt with
    | none =>
        rw [hsearch] at hrun
        exact absurd (Prod.mk.inj (Option.some.inj hrun)).1.symm hne
    | some b =>
        rw [hsearch] at hrun
        obtain ⟨i, highest⟩ := (searchMemory_eq_some_iff halign).mp hsearch
        obtain ⟨⟨rc, rgn'⟩, hadd, hrun⟩ := Option.map_eq_some_iff.mp hrun
        by_cases hrefused : Refused lmb.reserved ⟨b, lmb_align_up size align⟩
        · -- the failure is reported
          rw [lmb_add_region_of_full _ (le_antisymm hres.cnt_le hrefused.1)
            (firstTouching_eq_none_of_refused hrefused)] at hadd
          obtain ⟨rfl, -⟩ := Prod.mk.inj (Option.some.inj hadd)
          exact absurd (Prod.mk.inj hrun).1.symm hne
        by_cases hlost : Lost lmb.reserved
        · rw [lmb_add_region_lost (x := ⟨b, lmb_align_up size align⟩) hlost] at hadd
          cases hadd
        obtain ⟨hlimit, takes⟩ := ((safe i b highest).resolve_left hrefused).resolve_left hlost
        obtain ⟨hinside, hmax⟩ := highest.spot.inside hmem hsize hlimit
        have hfree := takes.free (highest.spot.rounded hmem hsize halign hinside).1
        have q := highest.spot.requested hmem hsize halign hinside hfree
        obtain ⟨rc', rgn'', hadd', hrc, hiff⟩ := lmb_add_region_takes hres q hrefused hlost
        obtain ⟨rfl, rfl⟩ := Prod.mk.inj (Option.some.inj (hadd.symm.trans hadd'))
        simp only [if_neg (not_lt.mpr hrc)] at hrun
        obtain ⟨rfl, rfl⟩ := Prod.mk.inj hrun
        obtain ⟨horder, hcovered⟩ := hiff.mpr takes
        refine ⟨highest.spot.candidate.aligned, ⟨i, highest.spot.lt, ?_⟩, hmax, hfree, horder, hcovered⟩
        rintro a ⟨hlo, hhi⟩
        have hbase : (lmb.memory.spans i).lo ≤ b.toNat := highest.spot.candidate.base_le
        exact ⟨hbase.trans hlo, lt_of_lt_of_le hhi hinside⟩

/-- A table with one region. -/
def LmbRegion.single (base size : Phys) : LmbRegion := ⟨1, fun _ => ⟨base, size⟩⟩

theorem LmbRegion.single_inOrder {base size : Phys} (h : base.toNat + size.toNat ≤ 2 ^ 32) :
    (LmbRegion.single base size).InOrder := by
  refine ⟨show 1 ≤ MAX_LMB_REGIONS by decide, ⟨fun i j hij hj => ?_, fun i j hij hj => ?_⟩,
    fun i _ => h⟩
  · change j < 1 at hj
    omega
  · change j < 1 at hj
    omega

/-- A page at the end of memory, of which the first pages are reserved. -/
theorem lmb_alloc_base_sound_page :
    AllocSound ⟨.single 0x10000000#32 0x100000#32, .single 0x10000000#32 0x8000#32⟩ 0x1000#32
      0x1000#32 0#32 := by
  apply (lmb_alloc_base_sound _ _ _ _ (LmbRegion.single_inOrder (by decide))
    (LmbRegion.single_inOrder (by decide)) (by decide) ⟨12, by decide⟩).mpr
  intro i b highest
  right
  right
  have htop := highest.spot.le_top
  have hend : allocTop ⟨0x10000000#32, 0x100000#32⟩ 0#32 = 0x10100000#32 := by decide
  rw [show (LmbRegion.single 0x10000000#32 0x100000#32).region i = ⟨0x10000000#32, 0x100000#32⟩ from rfl,
    hend] at htop
  have hbase : 0x10000000#32 ≤ b := highest.spot.candidate.base_le
  have hfree : ¬ (b < 0x10000000#32 + 0x8000#32 ∧ 0x10000000#32 < b + 0x1000#32) := by
    intro hover
    exact List.find?_eq_none.mp highest.spot.candidate.free 0 (by decide) (decide_eq_true hover)
  have hup : lmb_align_up 0x1000#32 0x1000#32 = 0x1000#32 := by decide
  have hspan : (LmbProperty.span ⟨b, 0x1000#32⟩) = ⟨b.toNat, b.toNat + 0x1000⟩ := rfl
  have hreserved : ∀ j, (LmbRegion.single 0x10000000#32 0x8000#32).spans j = ⟨0x10000000, 0x10008000⟩ :=
    fun _ => Span.ext rfl (show (0x10000000#32).toNat + (0x8000#32).toNat = 0x10008000 by decide)
  have hlow : 0x10008000 ≤ b.toNat := by bv_omega
  have hhigh : b.toNat ≤ 0x100ff000 := by bv_omega
  rw [hup]
  refine ⟨fun hmax => absurd rfl hmax, fun hcnt => absurd hcnt (by decide), fun _ _ => ?_⟩
  rw [hspan]
  refine ⟨fun j _ => ?_, fun hend _ => ?_, fun hwhole => absurd hwhole.1 (by decide), ?_⟩
  · rw [hreserved, Span.disjoint_iff]
    exact Or.inr (Or.inr (Or.inr hlow))
  · change b.toNat + 0x1000 = 2 ^ 32 at hend
    omega
  · rintro ⟨j, _, hlo⟩
    rw [hreserved] at hlo
    change 0x10000000 = b.toNat + 0x1000 at hlo
    omega

/-- With a limit below the size, a base outside of memory is returned. -/
theorem not_lmb_alloc_base_sound :
    ¬ AllocSound ⟨.single 0#32 0x100000#32, .single 0#32 0#32⟩ 0x2000#32 0x1000#32 0x1000#32 := by
  intro sound
  have hsearch : searchMemory ⟨.single 0#32 0x100000#32, .single 0#32 0#32⟩ 0x2000#32 0x1000#32
      0x1000#32 1 = some 0xfffff000#32 := by
    have hstart : searchStart 0#32 0x100000#32 0x2000#32 0x1000#32 0x1000#32 = some 0xfffff000#32 := by
      decide
    have hover : lmb_overlaps_region (.single 0#32 0#32) 0xfffff000#32 0x2000#32 = none := by decide
    have hdown : searchDown (.single 0#32 0#32) 0#32 0x2000#32 0x1000#32 0xfffff000#32 =
        some 0xfffff000#32 := by
      rw [searchDown, if_pos (by decide)]
      split
      · rfl
      · next j hj =>
          rw [hover] at hj
          cases hj
    rw [searchMemory]
    simp only [LmbRegion.single] at hdown ⊢
    rw [hstart, Option.bind_some, hdown]
  have hrun : __lmb_alloc_base ⟨.single 0#32 0x100000#32, .single 0#32 0#32⟩ 0x2000#32 0x1000#32
      0x1000#32 = some (0xfffff000#32, ⟨.single 0#32 0x100000#32,
        (LmbRegion.single 0#32 0#32).set 0 ⟨0xfffff000#32, 0x2000#32⟩⟩) := by
    rw [__lmb_alloc_base]
    erw [hsearch]
    rfl
  have hlimit := (sound _ _ hrun (by decide)).limit (by decide)
  exact absurd hlimit (by decide)

end UBoot
