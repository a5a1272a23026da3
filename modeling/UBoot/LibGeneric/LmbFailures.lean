/-
# Failing calls of the block allocator

A caller of the allocator that is told of a failure has nothing to undo, provided the
call has left both tables as they were. `lmb_add_region` sees to that: it refuses
before it changes anything. `lmb_free` does not. To take a range from inside a
region it first cuts the entry at the beginning of the range and then adds the part
behind it, and the addition can be refused.

The calls here are all calls, also those of callers that break every promise, so
that the tables they lead to need not be in order.
-/

import UBoot.LibGeneric.LmbRefines

namespace UBoot

open UBoot.Lib

/-- `lmb_init` -/
def Lmb.init (memory reserved : Nat → LmbProperty) : Lmb :=
  ⟨.init memory, .init reserved⟩

/-- `lmb_add` -/
def lmb_add (lmb : Lmb) (base size : Phys) : Option (Int × Lmb) :=
  (lmb_add_region lmb.memory base size).map fun r => (r.1, { lmb with memory := r.2 })

/-- A call with any arguments. -/
inductive LmbCall
  | add (base size : Phys)
  | reserve (base size : Phys)
  | free (base size : Phys)
  | alloc (size align max_addr : Phys)

/-- Two tables count the same entries and agree on them. -/
structure LmbRegion.Same (rgn rgn' : LmbRegion) : Prop where
  cnt : rgn'.cnt = rgn.cnt
  region : ∀ i < rgn.cnt, rgn'.region i = rgn.region i

theorem LmbRegion.Same.refl (rgn : LmbRegion) : rgn.Same rgn :=
  ⟨rfl, fun _ _ => rfl⟩

/-- The entry `lmb_free` takes the range from. -/
def containing (rgn : LmbRegion) (base size : Phys) : Option Nat :=
  (List.range rgn.cnt).find? fun i =>
    (rgn.region i).base ≤ base ∧ base + size ≤ (rgn.region i).stop

/-- The table once `lmb_free` has cut entry `i` at the beginning of the range. -/
def LmbRegion.cutAt (rgn : LmbRegion) (i : Nat) (base : Phys) : LmbRegion :=
  rgn.set i ⟨(rgn.region i).base, base - (rgn.region i).base⟩

namespace LmbCall

/-- Whether the call reports failure, and the tables it leaves. `lmb_alloc_base`
reports it by 0, the others by a negative number. -/
def run (lmb : Lmb) : LmbCall → Option (Bool × Lmb)
  | .add base size => (lmb_add lmb base size).map fun r => (decide (r.1 < 0), r.2)
  | .reserve base size => (lmb_reserve lmb base size).map fun r => (decide (r.1 < 0), r.2)
  | .free base size => (lmb_free lmb base size).map fun r => (decide (r.1 < 0), r.2)
  | .alloc size align max_addr =>
      (lmb_alloc_base lmb size align max_addr).map fun r => (decide (r.1 = 0), r.2)

/-- The tables after the call. -/
def step (lmb : Lmb) (call : LmbCall) : Option Lmb :=
  (call.run lmb).map Prod.snd

/-- If the call fails, both tables are as before. -/
def Atomic (lmb : Lmb) (call : LmbCall) : Prop :=
  ∀ lmb', call.run lmb = some (true, lmb') →
    lmb.memory.Same lmb'.memory ∧ lmb.reserved.Same lmb'.reserved

/-- A range is freed that has something left of its region on both sides, while
there is no entry to spare and the part behind the range touches no other entry. -/
def CutsFull (lmb : Lmb) : LmbCall → Prop
  | .free base size => ∃ i, containing lmb.reserved base size = some i ∧
      (lmb.reserved.region i).base ≠ base ∧ (lmb.reserved.region i).stop ≠ base + size ∧
      (lmb.reserved.region i).stop ≠ base ∧ lmb.reserved.cnt = MAX_LMB_REGIONS ∧
      firstTouching (lmb.reserved.cutAt i base) (base + size)
        ((lmb.reserved.region i).stop - (base + size)) = none
  | _ => False

end LmbCall

/-! ## What `lmb_add_region` does when it refuses -/

/-- A refused addition changes nothing. -/
theorem lmb_add_region_refused {rgn rgn' : LmbRegion} {base size : Phys} {rc : Int}
    (h : lmb_add_region rgn base size = some (rc, rgn')) (hrc : rc < 0) :
    rgn' = rgn ∧ MAX_LMB_REGIONS ≤ rgn.cnt ∧ firstTouching rgn base size = none := by
  unfold lmb_add_region at h
  split at h
  · simp only [Option.some.injEq, Prod.mk.injEq] at h
    omega
  · split at h
    · dsimp only at h
      split at h
      · simp only [Option.some.injEq, Prod.mk.injEq] at h
        omega
      · split at h
        · obtain ⟨_, -, h⟩ := Option.map_eq_some_iff.mp h
          simp only [Prod.mk.injEq] at h
          omega
        · simp only [Option.some.injEq, Prod.mk.injEq] at h
          omega
    · next hnone =>
        dsimp only at h
        split at h
        · obtain ⟨_, -, h⟩ := Option.map_eq_some_iff.mp h
          simp only [Prod.mk.injEq] at h
          omega
        · split at h
          · next hfull =>
              simp only [Option.some.injEq, Prod.mk.injEq] at h
              exact ⟨h.2.symm, hfull, hnone⟩
          · simp only [Option.some.injEq, Prod.mk.injEq] at h
            omega

/-- A full table refuses a range that touches none of its entries. -/
theorem lmb_add_region_of_full (rgn : LmbRegion) {base size : Phys}
    (hfull : rgn.cnt = MAX_LMB_REGIONS) (hnone : firstTouching rgn base size = none) :
    lmb_add_region rgn base size = some (-1, rgn) := by
  have hlast : rgn.last = MAX_LMB_REGIONS - 1 := by
    rw [LmbRegion.last_of_pos (by rw [hfull]; decide) (le_of_eq hfull), hfull]
  unfold lmb_add_region
  rw [if_neg (by rw [hfull]; simp [MAX_LMB_REGIONS]), hnone]
  simp [hlast, hfull, MAX_LMB_REGIONS]

theorem lmb_remove_region_cnt {rgn rgn' : LmbRegion} {r : Nat}
    (h : lmb_remove_region rgn r = some rgn') : rgn'.cnt ≤ MAX_LMB_REGIONS := by
  unfold lmb_remove_region at h
  split at h
  · simp at h
  · next hle =>
      obtain rfl := Option.some.inj h
      exact not_lt.mp hle

/-- No addition makes the table overflow. -/
theorem lmb_add_region_cnt {rgn rgn' : LmbRegion} {base size : Phys} {rc : Int}
    (h : lmb_add_region rgn base size = some (rc, rgn')) (hle : rgn.cnt ≤ MAX_LMB_REGIONS) :
    rgn'.cnt ≤ MAX_LMB_REGIONS := by
  have merged {i : Nat} {ext : LmbRegion} {rc' : Int}
      (h : (lmb_coalesce_regions ext i (i + 1)).map (fun rgn => (rc', rgn)) = some (rc, rgn')) :
      rgn'.cnt ≤ MAX_LMB_REGIONS := by
    obtain ⟨_, hremove, h⟩ := Option.map_eq_some_iff.mp h
    rw [Prod.mk.injEq] at h
    exact h.2 ▸ lmb_remove_region_cnt hremove
  unfold lmb_add_region at h
  split at h
  · obtain ⟨-, rfl⟩ := Prod.mk.inj (Option.some.inj h)
    exact hle
  · split at h
    · dsimp only at h
      split at h
      · obtain ⟨-, rfl⟩ := Prod.mk.inj (Option.some.inj h)
        exact hle
      · split at h
        · exact merged h
        · obtain ⟨-, rfl⟩ := Prod.mk.inj (Option.some.inj h)
          exact hle
    · dsimp only at h
      split at h
      · exact merged h
      · split at h
        · obtain ⟨-, rfl⟩ := Prod.mk.inj (Option.some.inj h)
          exact hle
        · obtain ⟨-, rfl⟩ := Prod.mk.inj (Option.some.inj h)
          show rgn.cnt + 1 ≤ MAX_LMB_REGIONS
          omega

/-! ## Allocations -/

/-- The search never ends at address 0, which stands for failure. -/
theorem searchDown_ne_zero {reserved : LmbRegion} {lmbbase size align start base : Phys}
    (h : searchDown reserved lmbbase size align start = some base) : base ≠ 0 := by
  fun_induction searchDown reserved lmbbase size align start with
  | case1 start hstart hnone =>
      obtain rfl := Option.some.inj h
      exact hstart.1
  | case2 => simp at h
  | case3 start hstart j hj hsize ih => exact ih h
  | case4 => simp at h

theorem searchMemory_ne_zero {lmb : Lmb} {size align max_addr base : Phys} {n : Nat}
    (h : searchMemory lmb size align max_addr n = some base) : base ≠ 0 := by
  obtain ⟨i, start, hsearch⟩ := exists_searchDown h
  exact searchDown_ne_zero hsearch

/-- An allocation that fails changes nothing. -/
theorem lmb_alloc_base_zero {lmb lmb' : Lmb} {size align max_addr : Phys}
    (h : lmb_alloc_base lmb size align max_addr = some (0, lmb')) : lmb' = lmb := by
  unfold lmb_alloc_base __lmb_alloc_base at h
  split at h
  · simpa using h.symm
  · next base hsearch =>
      obtain ⟨⟨rc, rgn'⟩, hadd, h⟩ := Option.map_eq_some_iff.mp h
      dsimp only at h
      split at h
      · next hrc =>
          obtain ⟨rfl, -⟩ := lmb_add_region_refused hadd hrc
          exact (Prod.mk.inj h).2.symm
      · exact absurd (Prod.mk.inj h).1 (searchMemory_ne_zero hsearch)

/-! ## Frees -/

/-- The cut is visible unless the range begins where the region ends. -/
theorem same_cutAt_iff {rgn : LmbRegion} {i : Nat} {base : Phys} (hi : i < rgn.cnt) :
    rgn.Same (rgn.cutAt i base) ↔ (rgn.region i).stop = base := by
  have hsize : base - (rgn.region i).base = (rgn.region i).size ↔ (rgn.region i).stop = base := by
    unfold LmbProperty.stop
    constructor <;> intro h <;> bv_omega
  rw [← hsize]
  constructor
  · intro same
    have here := congrArg LmbProperty.size (same.region i hi)
    simpa [LmbRegion.cutAt] using here
  · intro h
    refine ⟨rfl, fun k _ => ?_⟩
    by_cases hk : k = i
    · subst hk
      simp [LmbRegion.cutAt, h]
    · simp [LmbRegion.cutAt, hk]

/-- `lmb_free` returns a negative number if no region contains the range, or if the
part behind the range cannot be added. -/
theorem lmb_free_fails {lmb lmb' : Lmb} {base size : Phys} {rc : Int}
    (h : lmb_free lmb base size = some (rc, lmb')) (hrc : rc < 0) :
    lmb' = lmb ∨ ∃ i, containing lmb.reserved base size = some i ∧
      (lmb.reserved.region i).base ≠ base ∧ (lmb.reserved.region i).stop ≠ base + size ∧
      lmb' = { lmb with reserved := lmb.reserved.cutAt i base } ∧
      MAX_LMB_REGIONS ≤ lmb.reserved.cnt ∧
      firstTouching (lmb.reserved.cutAt i base) (base + size)
        ((lmb.reserved.region i).stop - (base + size)) = none := by
  unfold lmb_free at h
  dsimp only at h
  split at h
  · exact .inl (Prod.mk.inj (Option.some.inj h)).2.symm
  · next i hfind =>
      split at h
      · obtain ⟨_, -, h⟩ := Option.map_eq_some_iff.mp h
        have := (Prod.mk.inj h).1
        omega
      · next hwhole =>
          split at h
          · have := (Prod.mk.inj (Option.some.inj h)).1
            omega
          · next hfront =>
              split at h
              · have := (Prod.mk.inj (Option.some.inj h)).1
                omega
              · next hback =>
                  obtain ⟨⟨rc', rgn'⟩, hadd, h⟩ := Option.map_eq_some_iff.mp h
                  obtain ⟨rfl, rfl⟩ := Prod.mk.inj h
                  obtain ⟨rfl, hfull, hnone⟩ := lmb_add_region_refused hadd hrc
                  exact .inr ⟨i, hfind, hfront, hback, rfl, hfull, hnone⟩

/-- A region is cut and the part behind the range lost. -/
theorem lmb_free_of_cutsFull {lmb : Lmb} {base size : Phys} {i : Nat}
    (hfind : containing lmb.reserved base size = some i)
    (hfront : (lmb.reserved.region i).base ≠ base)
    (hback : (lmb.reserved.region i).stop ≠ base + size)
    (hfull : lmb.reserved.cnt = MAX_LMB_REGIONS)
    (hnone : firstTouching (lmb.reserved.cutAt i base) (base + size)
      ((lmb.reserved.region i).stop - (base + size)) = none) :
    lmb_free lmb base size =
      some (-1, { lmb with reserved := lmb.reserved.cutAt i base }) := by
  have hadd := lmb_add_region_of_full (lmb.reserved.cutAt i base) hfull hnone
  unfold containing at hfind
  unfold lmb_free
  simp only [hfind, hfront, hback, false_and, if_false]
  unfold LmbRegion.cutAt at hadd ⊢
  rw [hadd]
  rfl

/-! ## Runs -/

namespace LmbCall

/-- No table counts more entries than it has room for. -/
def Bounded (lmb : Lmb) : Prop :=
  lmb.memory.cnt ≤ MAX_LMB_REGIONS ∧ lmb.reserved.cnt ≤ MAX_LMB_REGIONS

theorem bounded_free {lmb lmb' : Lmb} {base size : Phys} {rc : Int} (h : Bounded lmb)
    (hfree : lmb_free lmb base size = some (rc, lmb')) : Bounded lmb' := by
  unfold lmb_free at hfree
  dsimp only at hfree
  split at hfree
  · obtain ⟨-, rfl⟩ := Prod.mk.inj (Option.some.inj hfree)
    exact h
  · split_ifs at hfree
    · obtain ⟨rgn', hremove, hfree⟩ := Option.map_eq_some_iff.mp hfree
      obtain ⟨-, rfl⟩ := Prod.mk.inj hfree
      exact ⟨h.1, lmb_remove_region_cnt hremove⟩
    · obtain ⟨-, rfl⟩ := Prod.mk.inj (Option.some.inj hfree)
      exact h
    · obtain ⟨-, rfl⟩ := Prod.mk.inj (Option.some.inj hfree)
      exact h
    · obtain ⟨⟨rc', rgn'⟩, hadd, hfree⟩ := Option.map_eq_some_iff.mp hfree
      obtain ⟨-, rfl⟩ := Prod.mk.inj hfree
      exact ⟨h.1, lmb_add_region_cnt hadd h.2⟩

theorem bounded_step {lmb lmb' : Lmb} {call : LmbCall} (h : Bounded lmb)
    (taken : call.step lmb = some lmb') : Bounded lmb' := by
  obtain ⟨⟨failed, after⟩, hrun, rfl⟩ := Option.map_eq_some_iff.mp taken
  cases call with
  | add base size =>
      simp only [run, lmb_add, Option.map_map, Option.map_eq_some_iff] at hrun
      obtain ⟨⟨rc, rgn'⟩, hadd, hrun⟩ := hrun
      obtain ⟨-, rfl⟩ := Prod.mk.inj hrun
      exact ⟨lmb_add_region_cnt hadd h.1, h.2⟩
  | reserve base size =>
      simp only [run, lmb_reserve, Option.map_map, Option.map_eq_some_iff] at hrun
      obtain ⟨⟨rc, rgn'⟩, hadd, hrun⟩ := hrun
      obtain ⟨-, rfl⟩ := Prod.mk.inj hrun
      exact ⟨h.1, lmb_add_region_cnt hadd h.2⟩
  | free base size =>
      obtain ⟨⟨rc, lmb'⟩, hfree, hrun⟩ := Option.map_eq_some_iff.mp hrun
      obtain ⟨-, rfl⟩ := Prod.mk.inj hrun
      exact bounded_free h hfree
  | alloc size align max_addr =>
      obtain ⟨⟨base, lmb'⟩, halloc, hrun⟩ := Option.map_eq_some_iff.mp hrun
      obtain ⟨-, rfl⟩ := Prod.mk.inj hrun
      unfold lmb_alloc_base __lmb_alloc_base at halloc
      split at halloc
      · obtain ⟨-, rfl⟩ := Prod.mk.inj (Option.some.inj halloc)
        exact h
      · obtain ⟨⟨rc, rgn'⟩, hadd, halloc⟩ := Option.map_eq_some_iff.mp halloc
        have hle := lmb_add_region_cnt hadd h.2
        dsimp only at halloc
        split at halloc <;> obtain ⟨-, rfl⟩ := Prod.mk.inj halloc <;> exact ⟨h.1, hle⟩

/-- A failing addition has left the table as it was. -/
theorem atomic_add_region {lmb : Lmb} {rgn : LmbRegion} {base size : Phys}
    (put : LmbRegion → Lmb) (hput : put rgn = lmb) {lmb' : Lmb}
    (h : ((lmb_add_region rgn base size).map fun r => (decide (r.1 < 0), put r.2)) =
      some (true, lmb')) : lmb' = lmb := by
  obtain ⟨⟨rc, rgn'⟩, hadd, h⟩ := Option.map_eq_some_iff.mp h
  obtain ⟨hrc, rfl⟩ := Prod.mk.inj h
  obtain ⟨rfl, -, -⟩ := lmb_add_region_refused hadd (of_decide_eq_true hrc)
  exact hput

/-- One call on tables that count no more entries than they have room for. -/
theorem atomic_iff {lmb : Lmb} (h : Bounded lmb) (call : LmbCall) :
    call.Atomic lmb ↔ ¬ call.CutsFull lmb := by
  have unchanged {call : LmbCall} (same : ∀ lmb', call.run lmb = some (true, lmb') → lmb' = lmb) :
      call.Atomic lmb := by
    intro lmb' hrun
    rw [same lmb' hrun]
    exact ⟨.refl _, .refl _⟩
  cases call with
  | add base size =>
      refine iff_of_true (unchanged fun lmb' hrun => ?_) id
      simp only [run, lmb_add, Option.map_map] at hrun
      exact atomic_add_region (fun rgn => { lmb with memory := rgn }) rfl hrun
  | reserve base size =>
      refine iff_of_true (unchanged fun lmb' hrun => ?_) id
      simp only [run, lmb_reserve, Option.map_map] at hrun
      exact atomic_add_region (fun rgn => { lmb with reserved := rgn }) rfl hrun
  | free base size =>
      constructor
      · rintro atomic ⟨i, hfind, hfront, hback, hcut, hfull, hnone⟩
        have hi : i < lmb.reserved.cnt := List.mem_range.mp (List.mem_of_find?_eq_some hfind)
        have hrun : (free base size).run lmb =
            some (true, { lmb with reserved := lmb.reserved.cutAt i base }) := by
          rw [run, lmb_free_of_cutsFull hfind hfront hback hfull hnone]
          rfl
        exact hcut ((same_cutAt_iff hi).mp (atomic _ hrun).2)
      · intro hnot lmb' hrun
        obtain ⟨⟨rc, after⟩, hfree, hrun⟩ := Option.map_eq_some_iff.mp hrun
        obtain ⟨hrc, rfl⟩ := Prod.mk.inj hrun
        rcases lmb_free_fails hfree (of_decide_eq_true hrc) with
          rfl | ⟨i, hfind, hfront, hback, rfl, hfull, hnone⟩
        · exact ⟨.refl _, .refl _⟩
        · have hi : i < lmb.reserved.cnt := List.mem_range.mp (List.mem_of_find?_eq_some hfind)
          refine ⟨.refl _, (same_cutAt_iff hi).mpr ?_⟩
          by_contra hcut
          exact hnot ⟨i, hfind, hfront, hback, hcut, le_antisymm h.2 hfull, hnone⟩
  | alloc size align max_addr =>
      refine iff_of_true (unchanged fun lmb' hrun => ?_) id
      obtain ⟨⟨base, after⟩, halloc, hrun⟩ := Option.map_eq_some_iff.mp hrun
      obtain ⟨hzero, rfl⟩ := Prod.mk.inj hrun
      obtain rfl : base = 0 := of_decide_eq_true hzero
      exact lmb_alloc_base_zero halloc

/-- Whatever calls were made since `lmb_init`, a failing call leaves both tables as
they were unless it is a `lmb_free` that cuts a region of a full table. -/
theorem lmb_failure_atomic (memory reserved : Nat → LmbProperty) (calls : List LmbCall)
    (lmb : Lmb) (reached : Run (fun lmb call lmb' => call.step lmb = some lmb')
      (Lmb.init memory reserved) calls lmb) (call : LmbCall) :
    call.Atomic lmb ↔ ¬ call.CutsFull lmb := by
  have bounded : Bounded lmb := reached.invariant (I := Bounded)
    (fun _ _ _ h taken => bounded_step h taken)
    ⟨(by decide : 1 ≤ MAX_LMB_REGIONS), (by decide : 1 ≤ MAX_LMB_REGIONS)⟩
  exact atomic_iff bounded call

/-- With one region reserved, the middle of it can be freed. -/
theorem lmb_failure_atomic_split :
    (free 0x1400#32 0x400#32).Atomic
      ⟨.init fun _ => ⟨0, 0⟩, (LmbRegion.init fun _ => ⟨0, 0⟩).set 0 ⟨0x1000#32, 0x1000#32⟩⟩ := by
  refine (lmb_failure_atomic (fun _ => ⟨0, 0⟩) (fun _ => ⟨0, 0⟩) [.reserve 0x1000#32 0x1000#32] _
    (.cons ?_ (.nil _)) (free 0x1400#32 0x400#32)).mpr ?_
  · simp [step, run, Lmb.init, lmb_reserve, lmb_add_region, LmbRegion.init]
  · rintro ⟨i, -, -, -, -, hfull, -⟩
    exact absurd hfull (by decide)

/-- Eight regions fill the table. -/
def fillTable : List LmbCall :=
  (List.range MAX_LMB_REGIONS).map fun i => .reserve (BitVec.ofNat 32 (0x10000 * (i + 1))) 0x1000#32

/-- Freeing the middle of a region of a full table returns -1, and the second half of
the region is no longer reserved. -/
theorem not_lmb_failure_atomic :
    ¬ ∀ (memory reserved : Nat → LmbProperty) (calls : List LmbCall) (lmb : Lmb),
      Run (fun lmb call lmb' => call.step lmb = some lmb') (Lmb.init memory reserved) calls lmb →
        ∀ call : LmbCall, call.Atomic lmb := by
  intro atomic
  have filled : ((fillTable.foldlM step
        (Lmb.init (fun _ => ⟨0, 0⟩) fun _ => ⟨0, 0⟩)).map fun lmb =>
      (lmb.reserved.cnt, lmb.reserved.region 0, containing lmb.reserved 0x10400#32 0x400#32,
        firstTouching (lmb.reserved.cutAt 0 0x10400#32) 0x10800#32 0x800#32)) =
      some (8, ⟨0x10000#32, 0x1000#32⟩, some 0, none) := by decide
  obtain ⟨lmb, hfilled, hlmb⟩ := Option.map_eq_some_iff.mp filled
  simp only [Prod.mk.injEq] at hlmb
  obtain ⟨hcnt, hregion, hfind, hnone⟩ := hlmb
  have hfree := lmb_free_of_cutsFull hfind (by rw [hregion]; decide)
    (by rw [hregion]; decide) hcnt (by rw [hregion]; exact hnone)
  have same := (atomic _ _ _ lmb (Run.of_foldlM hfilled) (free 0x10400#32 0x400#32) _
    (by rw [run, hfree]; rfl)).2.region 0 (by rw [hcnt]; decide)
  simp [LmbRegion.cutAt, hregion] at same

end LmbCall

end UBoot
