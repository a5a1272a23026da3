/-
# Runs of the block allocator

Reservations, frees and allocations in any order, beside the set of the addresses
that have been reserved and not freed. `World.Allowed` is what callers promise;
`World.SafeStep` leaves out the calls that break the table.
-/

import UBoot.LibGeneric.LmbRefines

namespace UBoot

open UBoot.Lib

/-- The allocator and the set of reserved addresses. -/
structure LmbWorld where
  lmb : Lmb
  reserved : Set Nat

namespace LmbWorld

/-- After `lmb_init`: nothing is reserved. The memory table is any. -/
def initial (memory : LmbRegion) (stale : Nat → LmbProperty) : LmbWorld :=
  ⟨⟨memory, .init stale⟩, ∅⟩

/-- A call. -/
inductive Event
  | reserve (base size : Phys)
  | free (base size : Phys)
  | alloc (size align max_addr : Phys)

/-- One call. A reservation that reports an error adds nothing, and an allocation
counts only if it succeeds. -/
def step (w : LmbWorld) : Event → Option LmbWorld
  | .reserve base size =>
      (lmb_reserve w.lmb base size).map fun r =>
        ⟨r.2, if r.1 < 0 then w.reserved else w.reserved ∪ addrs base size⟩
  | .free base size =>
      (lmb_free w.lmb base size).map fun r => ⟨r.2, w.reserved \ addrs base size⟩
  | .alloc size align max_addr =>
      (lmb_alloc_base w.lmb size align max_addr).bind fun r =>
        if r.1 = 0 then none
        else some ⟨r.2, w.reserved ∪ addrs r.1 (lmb_align_up size align)⟩

/-- A range that may be reserved: not empty, not wrapping around, and free. -/
structure Free (w : LmbWorld) (base size : Phys) : Prop where
  pos : 0 < size.toNat
  noWrap : base.toNat + size.toNat < 2 ^ 32
  disjoint : Disjoint (addrs base size) w.reserved

/-- What callers promise: what is reserved is free, and what is freed lies in one
reserved region. -/
def Allowed (w : LmbWorld) : Event → Prop
  | .reserve base size => w.Free base size
  | .free base size => ∃ i < w.lmb.reserved.cnt, (w.lmb.reserved.region i).size ≠ 0 ∧
      (w.lmb.reserved.spans i).lo ≤ base.toNat ∧
      base.toNat + size.toNat ≤ (w.lmb.reserved.spans i).hi
  | .alloc _ _ _ => True

/-- What the first addition to an empty table needs of the stale entries: the first
two do not look adjacent, and the range lies below the first or is the first. -/
def StaleOk (rgn : LmbRegion) (base size : Phys) : Prop :=
  rgn.cnt = 0 → lmb_regions_adjacent rgn 0 1 = 0 ∧
    (base < (rgn.region 0).base ∨ rgn.region 0 = ⟨base, size⟩)

/-- The calls that keep the table in order. An addition to an empty table is one the
stale entries allow. No region is split when the table is full. The range an
allocation reserves, its size rounded up, is free. -/
def SafeStep (w : LmbWorld) : Event → Prop
  | .reserve base size => StaleOk w.lmb.reserved base size
  | .free base size => ∀ i < w.lmb.reserved.cnt, 0 < size.toNat →
      (w.lmb.reserved.spans i).lo < base.toNat →
      base.toNat + size.toNat < (w.lmb.reserved.spans i).hi →
      w.lmb.reserved.cnt < MAX_LMB_REGIONS
  | .alloc size align max_addr => ∀ base,
      searchMemory w.lmb size align max_addr w.lmb.memory.cnt = some base →
      w.Free base (lmb_align_up size align) ∧
        StaleOk w.lmb.reserved base (lmb_align_up size align)

/-- The table stands for the set. -/
structure Tracks (w : LmbWorld) : Prop where
  is_reserved : ∀ addr, lmb_is_reserved w.lmb addr = true ↔ addr.toNat ∈ w.reserved
  sorted : ∀ i j, i < j → j < w.lmb.reserved.cnt →
    (w.lmb.reserved.region i).base < (w.lmb.reserved.region j).base
  apart : ∀ i j, i < j → j < w.lmb.reserved.cnt →
    (w.lmb.reserved.region i).base.toNat + (w.lmb.reserved.region i).size.toNat <
      (w.lmb.reserved.region j).base.toNat
  cnt_le : w.lmb.reserved.cnt ≤ MAX_LMB_REGIONS

/-- The table is in order and covers the set, or it is the dummy `lmb_init` made. -/
def Inv (w : LmbWorld) : Prop :=
  (w.lmb.reserved.Ok ∧ w.lmb.reserved.covered = w.reserved) ∨
    (w.lmb.reserved.cnt = 1 ∧ (w.lmb.reserved.region 0).size = 0 ∧ w.reserved = ∅)

theorem inv_initial (memory : LmbRegion) (stale : Nat → LmbProperty) :
    (initial memory stale).Inv :=
  .inr ⟨rfl, by simp [initial, LmbRegion.init], rfl⟩

/-! ## Additions -/

/-- A table with one entry. -/
theorem ok_single (rgn : LmbRegion) (hcnt : rgn.cnt = 1)
    (hne : (rgn.spans 0).lo < (rgn.spans 0).hi) (hwrap : (rgn.spans 0).hi < 2 ^ 32) :
    rgn.Ok ∧ rgn.covered = (rgn.spans 0).points := by
  refine ⟨⟨by rw [hcnt]; decide, ⟨fun i hi => ?_, fun i j hij hj => ?_⟩, fun i hi => ?_⟩, ?_⟩
  · obtain rfl : i = 0 := by omega
    exact hne
  · omega
  · obtain rfl : i = 0 := by omega
    exact hwrap
  · ext a
    rw [LmbRegion.covered, hcnt]
    constructor
    · rintro ⟨i, hi, mem⟩
      obtain rfl : i = 0 := by omega
      exact mem
    · exact fun mem => ⟨0, by omega, mem⟩

/-- An addition of a free range to any table of a run. -/
theorem lmb_add_region_of_inv {w : LmbWorld} (inv : w.Inv) {base size : Phys}
    (free : w.Free base size) (stale : StaleOk w.lmb.reserved base size) :
    ∃ rc rgn', lmb_add_region w.lmb.reserved base size = some (rc, rgn') ∧
      ((rc = -1 ∧ rgn' = w.lmb.reserved ∧ w.lmb.reserved.cnt = MAX_LMB_REGIONS) ∨
        (0 ≤ rc ∧ rgn'.Ok ∧ rgn'.covered = w.reserved ∪ addrs base size)) := by
  let x : LmbProperty := ⟨base, size⟩
  have hne : x.span.lo < x.span.hi := by
    have := free.pos
    show base.toNat < base.toNat + size.toNat
    omega
  have hwrap : x.span.hi < 2 ^ 32 := free.noWrap
  rcases inv with ⟨hok, hcovered⟩ | ⟨hcnt, hzero, hempty⟩
  · rcases Nat.eq_zero_or_pos w.lmb.reserved.cnt with hcnt | hpos
    · -- everything has been freed: the stale entries are looked at
      obtain ⟨hadj, hplace⟩ := stale hcnt
      have hnone : firstTouching w.lmb.reserved base size = none := by
        simp [firstTouching, hcnt]
      refine ⟨0, addSorted w.lmb.reserved x, ?_, .inr ⟨le_rfl, ?_⟩⟩
      · unfold lmb_add_region
        rw [if_neg (by omega), hnone]
        have hnotadj : ¬ (w.lmb.reserved.cnt < w.lmb.reserved.last ∧
            lmb_regions_adjacent w.lmb.reserved w.lmb.reserved.cnt
              (w.lmb.reserved.cnt + 1) ≠ 0) := by
          rw [hcnt]
          exact fun h => h.2 hadj
        simp only [hnotadj, if_false]
        rw [if_neg (by rw [hcnt]; decide)]
      · have hfirst : (addSorted w.lmb.reserved x).region 0 = x := by
          rcases hplace with hlt | hsame
          · simp [addSorted, hcnt, moveUp, hlt, x]
          · by_cases hlt : base < (w.lmb.reserved.region 0).base
            · simp [addSorted, hcnt, moveUp, hlt, x]
            · simp [addSorted, hcnt, moveUp, x, hsame]
        have hspan : (addSorted w.lmb.reserved x).spans 0 = x.span := congrArg _ hfirst
        have single := ok_single (addSorted w.lmb.reserved x)
          (by show w.lmb.reserved.cnt + 1 = 1; omega) (by rw [hspan]; exact hne)
          (by rw [hspan]; exact hwrap)
        have hnothing : w.reserved = ∅ := by
          rw [← hcovered, LmbRegion.covered, hcnt]
          ext a
          simp
        refine ⟨single.1, ?_⟩
        rw [single.2, hspan, hnothing, Set.empty_union]
        rfl
    · obtain ⟨rc, rgn', hrun, hfail | ⟨hrc, hok', hcov'⟩⟩ := lmb_add_region_of_ok (x := x) hok hpos
        hne hwrap (hcovered ▸ free.disjoint)
      · exact ⟨rc, rgn', hrun, .inl ⟨hfail.1, hfail.2.1, hfail.2.2.1⟩⟩
      · exact ⟨rc, rgn', hrun, .inr ⟨hrc, hok', by rw [hcov', hcovered]; rfl⟩⟩
  · -- the dummy entry is overwritten
    have hspan : (w.lmb.reserved.set 0 x).spans 0 = x.span := by
      rw [LmbRegion.set_spans, Function.update_self]
    have single := ok_single (w.lmb.reserved.set 0 x) hcnt (by rw [hspan]; exact hne)
      (by rw [hspan]; exact hwrap)
    refine ⟨0, w.lmb.reserved.set 0 x, ?_, .inr ⟨le_rfl, single.1, ?_⟩⟩
    · rw [lmb_add_region, if_pos ⟨hcnt, hzero⟩]
    · rw [single.2, hspan, hempty, Set.empty_union]
      rfl

/-! ## Frees -/

/-- An entry that loses its beginning, its end or a part behind its beginning. -/
theorem shrink_of_ok {rgn : LmbRegion} (h : rgn.Ok) {i : Nat} (hi : i < rgn.cnt)
    {r : LmbProperty} (hne : r.span.lo < r.span.hi) (hlo : (rgn.spans i).lo ≤ r.span.lo)
    (hhi : r.span.hi ≤ (rgn.spans i).hi) :
    (rgn.set i r).Ok ∧
      (rgn.set i r).covered = (rgn.covered \ (rgn.spans i).points) ∪ r.span.points := by
  refine ⟨⟨h.cnt_le, ?_, fun j hj => ?_⟩, ?_⟩
  · rw [LmbRegion.set_spans]
    refine h.separated.update hne (fun j hj => ?_) fun j hij hj => ?_
    · have := h.separated.apart j i hj hi
      omega
    · have := h.separated.apart i j hij hj
      omega
  · rw [LmbRegion.set_spans]
    by_cases hji : j = i
    · subst hji
      have := h.noWrap j hj
      rw [Function.update_self]
      omega
    · rw [Function.update_of_ne hji]
      exact h.noWrap j hj
  · rw [LmbRegion.covered, LmbRegion.set_spans]
    exact covered_update h.separated hi _

/-- The split of a region: the part behind the range is added again. -/
theorem split_of_ok {rgn : LmbRegion} (h : rgn.Ok) {i : Nat} (hi : i < rgn.cnt)
    (left right : LmbProperty) (hleft : left.span.lo < left.span.hi)
    (hright : right.span.lo < right.span.hi) (hlo : left.span.lo = (rgn.spans i).lo)
    (hmid : left.span.hi ≤ right.span.lo) (hhi : right.span.hi = (rgn.spans i).hi)
    (hroom : left.span.hi < right.span.lo → rgn.cnt < MAX_LMB_REGIONS) :
    ∃ rc rgn', lmb_add_region (rgn.set i left) right.base right.size = some (rc, rgn') ∧
      rgn'.Ok ∧ rgn'.covered =
        (rgn.covered \ (rgn.spans i).points) ∪ left.span.points ∪ right.span.points := by
  have hwrap := h.noWrap i hi
  obtain ⟨hok, hcovered⟩ := shrink_of_ok h hi hleft (le_of_eq hlo.symm) (by omega)
  have disjoint : Disjoint right.span.points (rgn.set i left).covered := by
    rw [Set.disjoint_left]
    rintro a ⟨ha₁, ha₂⟩ hcov
    rw [hcovered] at hcov
    rcases hcov with ⟨-, hout⟩ | ⟨-, hin⟩
    · exact hout ⟨by omega, by omega⟩
    · omega
  obtain ⟨rc, rgn', hrun, ⟨-, -, hfull, hnone⟩ | ⟨-, hok', hcovered'⟩⟩ :=
    lmb_add_region_of_ok hok (Nat.zero_lt_of_lt hi) hright (by omega) disjoint
  · -- the table is full, so the two parts touch, and the addition merges them
    have htouch : right.span.lo = left.span.hi := by
      by_contra hgap
      have hlt := hroom (by omega)
      rw [LmbRegion.set_cnt] at hfull
      omega
    have hadj := hnone i hi
    rw [LmbRegion.set_region, Function.update_self,
      lmb_addrs_adjacent_eq (by omega) (by omega), if_neg (by omega), if_pos htouch] at hadj
    exact absurd hadj (by decide)
  · exact ⟨rc, rgn', hrun, hok', by rw [hcovered', hcovered]⟩

/-- Freeing a range inside a region. -/
theorem lmb_free_of_ok {lmb : Lmb} (h : lmb.reserved.Ok) {base size : Phys} {k : Nat}
    (hk : k < lmb.reserved.cnt) (hlo : (lmb.reserved.spans k).lo ≤ base.toNat)
    (hhi : base.toNat + size.toNat ≤ (lmb.reserved.spans k).hi)
    (hroom : ∀ i < lmb.reserved.cnt, 0 < size.toNat → (lmb.reserved.spans i).lo < base.toNat →
      base.toNat + size.toNat < (lmb.reserved.spans i).hi →
      lmb.reserved.cnt < MAX_LMB_REGIONS) :
    ∃ rc lmb', lmb_free lmb base size = some (rc, lmb') ∧ lmb'.reserved.Ok ∧
      lmb'.reserved.covered = lmb.reserved.covered \ addrs base size := by
  set rgn := lmb.reserved with hrgn
  have hstop : (base + size).toNat = base.toNat + size.toNat := by
    have := h.noWrap k hk
    bv_omega
  have hends : ∀ i < rgn.cnt, ((rgn.region i).base.toNat = (rgn.spans i).lo ∧
      (rgn.region i).stop.toNat = (rgn.spans i).hi) :=
    fun i hi => ⟨rfl, stop_toNat (h.noWrap i hi)⟩
  have hinside : ∀ i < rgn.cnt, ((rgn.region i).base ≤ base ∧ base + size ≤ (rgn.region i).stop) ↔
      (rgn.spans i).lo ≤ base.toNat ∧ base.toNat + size.toNat ≤ (rgn.spans i).hi := by
    intro i hi
    rw [BitVec.le_def, BitVec.le_def, hstop, (hends i hi).2]
    rfl
  unfold lmb_free
  simp only [← hrgn]
  cases hfind : (List.range rgn.cnt).find? fun i =>
      (rgn.region i).base ≤ base ∧ base + size ≤ (rgn.region i).stop with
  | none =>
      have := List.find?_eq_none.mp hfind k (List.mem_range.mpr hk)
      exact absurd ((hinside k hk).mpr ⟨hlo, hhi⟩) (by simpa using this)
  | some i =>
      have hi : i < rgn.cnt := List.mem_range.mp (List.mem_of_find?_eq_some hfind)
      obtain ⟨hlo_i, hhi_i⟩ := (hinside i hi).mp (by simpa using List.find?_some hfind)
      have hne_i := h.separated.nonempty i hi
      have hbase : (rgn.region i).base = base ↔ (rgn.spans i).lo = base.toNat :=
        BitVec.toNat_inj.symm
      have hstop_i : (rgn.region i).stop = base + size ↔
          (rgn.spans i).hi = base.toNat + size.toNat := by
        rw [← BitVec.toNat_inj, hstop, (hends i hi).2]
      have hsize_i : (rgn.spans i).hi = (rgn.spans i).lo + (rgn.region i).size.toNat := rfl
      have hwrap_i := h.noWrap i hi
      have hpoints : ∀ a, a ∈ addrs base size ↔
          base.toNat ≤ a ∧ a < base.toNat + size.toNat := fun _ => Iff.rfl
      -- what has to be left of the region
      have cut : ∀ left : Set Nat, (∀ a, a ∈ left ↔
          ((rgn.spans i).lo ≤ a ∧ a < (rgn.spans i).hi) ∧
            ¬ (base.toNat ≤ a ∧ a < base.toNat + size.toNat)) →
          (rgn.covered \ (rgn.spans i).points) ∪ left = rgn.covered \ addrs base size := by
        intro left hleft
        have hpart : (rgn.spans i).points ⊆ rgn.covered := fun a ha => ⟨i, hi, ha⟩
        have hless : addrs base size ⊆ (rgn.spans i).points := by
          intro a ha
          have := (hpoints a).mp ha
          exact ⟨by omega, by omega⟩
        exact diff_union_of_eq_diff hpart hless hleft
      simp only [hbase, hstop_i]
      by_cases hfront : (rgn.spans i).lo = base.toNat
      · by_cases hback : (rgn.spans i).hi = base.toNat + size.toNat
        · -- the whole region
          obtain ⟨rgn', hremove, hok', hcovered'⟩ := lmb_remove_region_of_ok h hi
          refine ⟨0, { lmb with reserved := rgn' }, ?_, hok', ?_⟩
          · rw [if_pos ⟨hfront, hback⟩, hremove]
            rfl
          · have hnone := cut ∅ fun a => by
              refine ⟨fun h => h.elim, fun h => ?_⟩
              omega
            rw [hcovered', ← hnone, Set.union_empty]
        · -- its beginning
          have hspan : LmbProperty.span ⟨base + size, (rgn.region i).size - size⟩ =
              ⟨base.toNat + size.toNat, (rgn.spans i).hi⟩ := by
            simp only [LmbProperty.span, Span.mk.injEq]
            exact ⟨hstop, by bv_omega⟩
          obtain ⟨hok', hcovered'⟩ := shrink_of_ok h hi
            (r := ⟨base + size, (rgn.region i).size - size⟩)
            (by rw [hspan]; show base.toNat + size.toNat < (rgn.spans i).hi; omega)
            (by rw [hspan]; show (rgn.spans i).lo ≤ base.toNat + size.toNat; omega)
            (by rw [hspan])
          refine ⟨0, _, by rw [if_neg (by tauto), if_pos hfront], hok', ?_⟩
          rw [hcovered', hspan]
          exact cut _ fun a => by simp only [Span.mem_points]; omega
      · by_cases hback : (rgn.spans i).hi = base.toNat + size.toNat
        · -- its end
          have hspan : LmbProperty.span ⟨(rgn.region i).base, (rgn.region i).size - size⟩ =
              ⟨(rgn.spans i).lo, base.toNat⟩ := by
            have hlo_eq : (rgn.spans i).lo = (rgn.region i).base.toNat := rfl
            simp only [LmbProperty.span, Span.mk.injEq, hlo_eq, true_and]
            bv_omega
          obtain ⟨hok', hcovered'⟩ := shrink_of_ok h hi
            (r := ⟨(rgn.region i).base, (rgn.region i).size - size⟩)
            (by rw [hspan]; show (rgn.spans i).lo < base.toNat; omega) (by rw [hspan])
            (by rw [hspan]; show base.toNat ≤ (rgn.spans i).hi; omega)
          refine ⟨0, _, by rw [if_neg (by tauto), if_neg hfront, if_pos hback], hok', ?_⟩
          rw [hcovered', hspan]
          exact cut _ fun a => by simp only [Span.mem_points]; omega
        · -- its middle
          have hleft : LmbProperty.span ⟨(rgn.region i).base, base - (rgn.region i).base⟩ =
              ⟨(rgn.spans i).lo, base.toNat⟩ := by
            have hlo_eq : (rgn.spans i).lo = (rgn.region i).base.toNat := rfl
            simp only [LmbProperty.span, Span.mk.injEq, hlo_eq, true_and]
            bv_omega
          have hright : LmbProperty.span
              ⟨base + size, (rgn.region i).stop - (base + size)⟩ =
              ⟨base.toNat + size.toNat, (rgn.spans i).hi⟩ := by
            have hend := (hends i hi).2
            simp only [LmbProperty.span, Span.mk.injEq]
            exact ⟨hstop, by bv_omega⟩
          obtain ⟨rc, rgn', hadd, hok', hcovered'⟩ := split_of_ok h hi
            ⟨(rgn.region i).base, base - (rgn.region i).base⟩
            ⟨base + size, (rgn.region i).stop - (base + size)⟩
            (by rw [hleft]; show (rgn.spans i).lo < base.toNat; omega)
            (by rw [hright]; show base.toNat + size.toNat < (rgn.spans i).hi; omega)
            (by rw [hleft]) (by rw [hleft, hright]; exact Nat.le_add_right _ _) (by rw [hright])
            (by
              rw [hleft, hright]
              intro (hlt : base.toNat < base.toNat + size.toNat)
              exact hroom i hi (by omega) (by omega) (by omega))
          refine ⟨rc, { lmb with reserved := rgn' }, ?_, hok', ?_⟩
          · rw [if_neg (by tauto), if_neg hfront, if_neg hback, hadd]
            rfl
          · rw [hcovered', hleft, hright, Set.union_assoc]
            exact cut _ fun a => by simp only [Set.mem_union, Span.mem_points]; omega

/-! ## Runs -/

/-- The table is in order and covers the set. -/
def InUse (w : LmbWorld) : Prop :=
  w.lmb.reserved.Ok ∧ w.lmb.reserved.covered = w.reserved

/-- The call comes back. -/
def Returns (w : LmbWorld) : Event → Prop
  | .reserve base size => (lmb_reserve w.lmb base size).isSome
  | .free base size => (lmb_free w.lmb base size).isSome
  | .alloc size align max_addr => (lmb_alloc_base w.lmb size align max_addr).isSome

/-- One call that keeps the table in order. -/
theorem inUse_of_step {w : LmbWorld} {e : Event} (inv : w.Inv) (allowed : w.Allowed e)
    (safe : w.SafeStep e) : w.Returns e ∧ ∀ w', w.step e = some w' → w'.InUse := by
  cases e with
  | reserve base size =>
      obtain ⟨rc, rgn', hadd, hcase⟩ := lmb_add_region_of_inv inv allowed safe
      have hreserve : lmb_reserve w.lmb base size = some (rc, { w.lmb with reserved := rgn' }) := by
        rw [lmb_reserve, hadd]
        rfl
      refine ⟨by simp [Returns, hreserve], fun w' hw' => ?_⟩
      simp only [step, hreserve, Option.map_some, Option.some.injEq] at hw'
      rcases hcase with ⟨rfl, rfl, hfull⟩ | ⟨hrc, hok, hcovered⟩
      · obtain rfl := hw'
        exact inv.resolve_right fun h => by rw [h.1] at hfull; simp [MAX_LMB_REGIONS] at hfull
      · rw [if_neg (by omega)] at hw'
        obtain rfl := hw'
        exact ⟨hok, hcovered⟩
  | free base size =>
      obtain ⟨k, hk, hsize, hlo, hhi⟩ := allowed
      obtain ⟨hok, hcovered⟩ := inv.resolve_right fun h => by
        obtain rfl : k = 0 := by have := h.1; omega
        exact hsize h.2.1
      obtain ⟨rc, lmb', hfree, hok', hcovered'⟩ := lmb_free_of_ok hok hk hlo hhi safe
      refine ⟨by simp [Returns, hfree], fun w' hw' => ?_⟩
      simp only [step, hfree, Option.map_some, Option.some.injEq] at hw'
      obtain rfl := hw'
      exact ⟨hok', by rw [hcovered', hcovered]⟩
  | alloc size align max_addr =>
      cases hsearch : searchMemory w.lmb size align max_addr w.lmb.memory.cnt with
      | none =>
          have halloc : lmb_alloc_base w.lmb size align max_addr = some (0, w.lmb) := by
            rw [lmb_alloc_base, __lmb_alloc_base, hsearch]
          refine ⟨by simp [Returns, halloc], fun w' hw' => ?_⟩
          simp [step, halloc] at hw'
      | some base =>
          obtain ⟨hfree, hstale⟩ := safe base hsearch
          obtain ⟨rc, rgn', hadd, hcase⟩ := lmb_add_region_of_inv inv hfree hstale
          have halloc : lmb_alloc_base w.lmb size align max_addr =
              some (if rc < 0 then 0 else base, { w.lmb with reserved := rgn' }) := by
            rw [lmb_alloc_base, __lmb_alloc_base, hsearch]
            simp only [hadd, Option.map_some]
            split <;> rfl
          refine ⟨by simp [Returns, halloc], fun w' hw' => ?_⟩
          simp only [step, halloc, Option.bind_some] at hw'
          rcases hcase with ⟨rfl, -, -⟩ | ⟨hrc, hok, hcovered⟩
          · simp at hw'
          · have hnot : ¬ rc < 0 := by omega
            simp only [hnot, if_false] at hw'
            split at hw'
            · simp at hw'
            · obtain rfl := Option.some.inj hw'
              exact ⟨hok, hcovered⟩

/-- A table in order answers for the set. -/
theorem InUse.tracks {w : LmbWorld} (h : w.InUse) : w.Tracks := by
  obtain ⟨hok, hcovered⟩ := h
  have apart : ∀ i j, i < j → j < w.lmb.reserved.cnt →
      (w.lmb.reserved.region i).base.toNat + (w.lmb.reserved.region i).size.toNat <
        (w.lmb.reserved.region j).base.toNat := hok.separated.apart
  refine ⟨fun addr => ?_, fun i j hij hj => ?_, apart, hok.cnt_le⟩
  · rw [← hcovered]
    simp only [lmb_is_reserved, List.any_eq_true, List.mem_range, decide_eq_true_eq]
    refine exists_congr fun i => and_congr_right fun hi => ?_
    have hne := hok.separated.nonempty i hi
    have hwrap := hok.noWrap i hi
    simp only [LmbRegion.spans, LmbProperty.span, Span.mem_points] at hne hwrap ⊢
    bv_omega
  · have := apart i j hij hj
    rw [BitVec.lt_def]
    omega

theorem lmb_overlaps_region_eq_none {rgn : LmbRegion} (h : rgn.Ok) {base size : Phys}
    (hwrap : base.toNat + size.toNat < 2 ^ 32) (hnone : lmb_overlaps_region rgn base size = none) :
    Disjoint (addrs base size) rgn.covered := by
  rw [Set.disjoint_left]
  rintro a ⟨ha₁, ha₂⟩ ⟨i, hi, ha₃, ha₄⟩
  have hno := List.find?_eq_none.mp hnone i (List.mem_range.mpr hi)
  have hwrap_i := h.noWrap i hi
  simp only [lmb_addrs_overlap, decide_eq_true_eq, not_and_or] at hno
  simp only [LmbRegion.spans, LmbProperty.span] at ha₁ ha₂ ha₃ ha₄ hwrap_i
  rcases hno with hno | hno <;> bv_omega

/-- The search ends at a range that overlaps no reserved region. -/
theorem searchDown_eq_some {reserved : LmbRegion} {lmbbase size align start base : Phys}
    (h : searchDown reserved lmbbase size align start = some base) :
    lmb_overlaps_region reserved base size = none := by
  fun_induction searchDown reserved lmbbase size align start with
  | case1 start hstart hnone =>
      obtain rfl := Option.some.inj h
      exact hnone
  | case2 => simp at h
  | case3 start hstart j hj hsize ih => exact ih h
  | case4 => simp at h

theorem searchMemory_eq_some {lmb : Lmb} {size align max_addr base : Phys} {n : Nat}
    (h : searchMemory lmb size align max_addr n = some base) :
    lmb_overlaps_region lmb.reserved base size = none := by
  obtain ⟨i, start, hsearch⟩ := exists_searchDown h
  exact searchDown_eq_some hsearch

/-- An allocation whose size needs no rounding is safe while a region is reserved and
the range found does not wrap around. -/
theorem safeStep_alloc {w : LmbWorld} (h : w.InUse) (hpos : 0 < w.lmb.reserved.cnt)
    {size align max_addr : Phys} (hsize : 0 < size.toNat) (hround : lmb_align_up size align = size)
    (hwrap : ∀ base, searchMemory w.lmb size align max_addr w.lmb.memory.cnt = some base →
      base.toNat + size.toNat < 2 ^ 32) : w.SafeStep (.alloc size align max_addr) := by
  intro base hsearch
  rw [hround]
  refine ⟨⟨hsize, hwrap base hsearch, ?_⟩, fun hcnt => absurd hcnt (by omega)⟩
  rw [← h.2]
  exact lmb_overlaps_region_eq_none h.1 (hwrap base hsearch) (searchMemory_eq_some hsearch)

end LmbWorld

end UBoot
