/-
# Logical memory blocks

`lib_generic/lmb.c` with 32 bit addresses. A table holds up to `MAX_LMB_REGIONS`
regions sorted by base, and `cnt` says how many of its entries count. The others
are stale, and are read in one situation: with `cnt` 0 the expression `cnt - 1` is
the largest `unsigned long`, so that `lmb_add_region` compares and moves entries
that do not count.
-/

import Mathlib

namespace UBoot

/-- `phys_addr_t`, `phys_size_t` and `ulong`. -/
abbrev Phys := BitVec 32

/-- `MAX_LMB_REGIONS` -/
def MAX_LMB_REGIONS : Nat := 8

/-- `struct lmb_property` -/
structure LmbProperty where
  base : Phys
  size : Phys
  deriving DecidableEq

/-- `struct lmb_region`; its `size` is never used. -/
structure LmbRegion where
  cnt : Nat
  region : Nat → LmbProperty

/-- `struct lmb` -/
structure Lmb where
  memory : LmbRegion
  reserved : LmbRegion

/-- The dummy entry `lmb_init` makes, and stale entries behind it. -/
def LmbRegion.init (stale : Nat → LmbProperty) : LmbRegion :=
  ⟨1, Function.update stale 0 ⟨0, 0⟩⟩

/-- `region[i] = r` -/
def LmbRegion.set (rgn : LmbRegion) (i : Nat) (r : LmbProperty) : LmbRegion :=
  { rgn with region := Function.update rgn.region i r }

/-- `rgn->cnt - 1` -/
def LmbRegion.last (rgn : LmbRegion) : Nat :=
  (BitVec.ofNat 32 rgn.cnt - 1#32).toNat

/-- `lmb_addrs_overlap` -/
def lmb_addrs_overlap (base1 size1 base2 size2 : Phys) : Bool :=
  base1 < base2 + size2 ∧ base2 < base1 + size1

/-- `lmb_addrs_adjacent`: 1 if the second range follows the first, -1 if the first
follows the second. -/
def lmb_addrs_adjacent (base1 size1 base2 size2 : Phys) : Int :=
  if base2 = base1 + size1 then 1 else if base1 = base2 + size2 then -1 else 0

/-- `lmb_regions_adjacent` -/
def lmb_regions_adjacent (rgn : LmbRegion) (r1 r2 : Nat) : Int :=
  lmb_addrs_adjacent (rgn.region r1).base (rgn.region r1).size (rgn.region r2).base
    (rgn.region r2).size

/-- `n` rounds of the loop of `lmb_remove_region`, from `i` on. -/
def moveDown (region : Nat → LmbProperty) (i : Nat) : Nat → Nat → LmbProperty
  | 0 => region
  | n + 1 => moveDown (Function.update region i (region (i + 1))) (i + 1) n

/-- `lmb_remove_region`. With `cnt` 0 the loop runs off the table, and there is no
result. -/
def lmb_remove_region (rgn : LmbRegion) (r : Nat) : Option LmbRegion :=
  if rgn.last > MAX_LMB_REGIONS then none
  else some ⟨rgn.last, moveDown rgn.region r (rgn.last - r)⟩

/-- `lmb_coalesce_regions` -/
def lmb_coalesce_regions (rgn : LmbRegion) (r1 r2 : Nat) : Option LmbRegion :=
  lmb_remove_region (rgn.set r1
    ⟨(rgn.region r1).base, (rgn.region r1).size + (rgn.region r2).size⟩) r2

/-- The loop that makes room in the sorted table, for the entries below `i`. -/
def moveUp (region : Nat → LmbProperty) (new : LmbProperty) : Nat → Nat → LmbProperty
  | 0 => region
  | i + 1 =>
      if new.base < (region i).base then
        moveUp (Function.update region (i + 1) (region i)) new i
      else Function.update region (i + 1) new

/-- `Couldn't coalesce the LMB, so add it to the sorted table.` -/
def addSorted (rgn : LmbRegion) (new : LmbProperty) : LmbRegion :=
  let region := moveUp rgn.region new rgn.cnt
  ⟨rgn.cnt + 1, if new.base < (region 0).base then Function.update region 0 new else region⟩

/-- `First try and coalesce this LMB with another.` The entry the first loop of
`lmb_add_region` stops at. -/
def firstTouching (rgn : LmbRegion) (base size : Phys) : Option Nat :=
  (List.range rgn.cnt).find? fun i =>
    rgn.region i = ⟨base, size⟩ ∨
      lmb_addrs_adjacent base size (rgn.region i).base (rgn.region i).size ≠ 0

/-- The entry `r` extended by an adjacent range. -/
def LmbProperty.extend (r : LmbProperty) (base size : Phys) : LmbProperty :=
  if lmb_addrs_adjacent base size r.base r.size > 0 then ⟨r.base - size, r.size + size⟩
  else ⟨r.base, r.size + size⟩

/-- `lmb_add_region`: the return value and the table, unless it is lost. -/
def lmb_add_region (rgn : LmbRegion) (base size : Phys) : Option (Int × LmbRegion) :=
  if rgn.cnt = 1 ∧ (rgn.region 0).size = 0 then some (0, rgn.set 0 ⟨base, size⟩)
  else
    match firstTouching rgn base size with
    | some i =>
        if rgn.region i = ⟨base, size⟩ then some (0, rgn)
        else
          let rgn := rgn.set i ((rgn.region i).extend base size)
          if i < rgn.last ∧ lmb_regions_adjacent rgn i (i + 1) ≠ 0 then
            (lmb_coalesce_regions rgn i (i + 1)).map fun rgn => (2, rgn)
          else some (1, rgn)
    | none =>
        let i := rgn.cnt
        if i < rgn.last ∧ lmb_regions_adjacent rgn i (i + 1) ≠ 0 then
          (lmb_coalesce_regions rgn i (i + 1)).map fun rgn => (1, rgn)
        else if rgn.cnt ≥ MAX_LMB_REGIONS then some (-1, rgn)
        else some (0, addSorted rgn ⟨base, size⟩)

/-- `lmb_reserve` -/
def lmb_reserve (lmb : Lmb) (base size : Phys) : Option (Int × Lmb) :=
  (lmb_add_region lmb.reserved base size).map fun r => (r.1, { lmb with reserved := r.2 })

/-- The end of an entry. -/
def LmbProperty.stop (r : LmbProperty) : Phys := r.base + r.size

/-- `lmb_free` -/
def lmb_free (lmb : Lmb) (base size : Phys) : Option (Int × Lmb) :=
  let rgn := lmb.reserved
  let stop := base + size
  match (List.range rgn.cnt).find? fun i =>
      (rgn.region i).base ≤ base ∧ stop ≤ (rgn.region i).stop with
  | none => some (-1, lmb)
  | some i =>
      let r := rgn.region i
      if r.base = base ∧ r.stop = stop then
        (lmb_remove_region rgn i).map fun rgn => (0, { lmb with reserved := rgn })
      else if r.base = base then
        some (0, { lmb with reserved := rgn.set i ⟨stop, r.size - size⟩ })
      else if r.stop = stop then
        some (0, { lmb with reserved := rgn.set i ⟨r.base, r.size - size⟩ })
      else
        (lmb_add_region (rgn.set i ⟨r.base, base - r.base⟩) stop (r.stop - stop)).map
          fun r => (r.1, { lmb with reserved := r.2 })

/-- `lmb_overlaps_region` -/
def lmb_overlaps_region (rgn : LmbRegion) (base size : Phys) : Option Nat :=
  (List.range rgn.cnt).find? fun i =>
    lmb_addrs_overlap base size (rgn.region i).base (rgn.region i).size

/-- `lmb_align_down` -/
def lmb_align_down (addr size : Phys) : Phys := addr &&& ~~~(size - 1)

/-- `lmb_align_up` -/
def lmb_align_up (addr size : Phys) : Phys := (addr + (size - 1)) &&& ~~~(size - 1)

theorem lmb_align_down_le (addr size : Phys) : (lmb_align_down addr size).toNat ≤ addr.toNat := by
  rw [lmb_align_down, BitVec.toNat_and]
  exact Nat.and_le_left

/-- The inner loop of `__lmb_alloc_base`: the first range from `base` down to
`lmbbase` that is not reserved. Each round starts below the region that was in the
way. -/
def searchDown (reserved : LmbRegion) (lmbbase size align base : Phys) : Option Phys :=
  if base ≠ 0 ∧ lmbbase ≤ base then
    match hj : lmb_overlaps_region reserved base size with
    | none => some base
    | some j =>
        if hsize : (reserved.region j).base < size then none
        else searchDown reserved lmbbase size align
          (lmb_align_down ((reserved.region j).base - size) align)
  else none
termination_by base.toNat
decreasing_by
  have overlap := List.find?_some hj
  simp only [lmb_addrs_overlap, decide_eq_true_eq] at overlap
  have le := lmb_align_down_le ((reserved.region j).base - size) align
  have lt : ((reserved.region j).base - size).toNat < base.toNat := by
    have below : (reserved.region j).base < base + size := overlap.2
    bv_omega
  omega

/-- `LMB_ALLOC_ANYWHERE` -/
def LMB_ALLOC_ANYWHERE : Phys := 0

/-- Where the inner loop starts in a memory region, if it is looked at. -/
def searchStart (lmbbase lmbsize size align max_addr : Phys) : Option Phys :=
  if lmbsize < size then none
  else if max_addr = LMB_ALLOC_ANYWHERE then
    some (lmb_align_down (lmbbase + lmbsize - size) align)
  else if lmbbase < max_addr then
    some (lmb_align_down ((if lmbbase + lmbsize < max_addr then lmbbase + lmbsize else max_addr)
      - size) align)
  else none

/-- The search of `__lmb_alloc_base` through the memory regions below `i`. -/
def searchMemory (lmb : Lmb) (size align max_addr : Phys) : Nat → Option Phys
  | 0 => none
  | i + 1 =>
      let r := lmb.memory.region i
      match (searchStart r.base r.size size align max_addr).bind
          (searchDown lmb.reserved r.base size align) with
      | some base => some base
      | none => searchMemory lmb size align max_addr i

/-- `__lmb_alloc_base` -/
def __lmb_alloc_base (lmb : Lmb) (size align max_addr : Phys) : Option (Phys × Lmb) :=
  match searchMemory lmb size align max_addr lmb.memory.cnt with
  | none => some (0, lmb)
  | some base =>
      (lmb_add_region lmb.reserved base (lmb_align_up size align)).map fun r =>
        if r.1 < 0 then (0, { lmb with reserved := r.2 }) else (base, { lmb with reserved := r.2 })

/-- `lmb_alloc_base` -/
def lmb_alloc_base (lmb : Lmb) (size align max_addr : Phys) : Option (Phys × Lmb) :=
  __lmb_alloc_base lmb size align max_addr

/-- `lmb_is_reserved` -/
def lmb_is_reserved (lmb : Lmb) (addr : Phys) : Bool :=
  (List.range lmb.reserved.cnt).any fun i =>
    let r := lmb.reserved.region i
    r.base ≤ addr ∧ addr ≤ r.base + r.size - 1

end UBoot
