/-
# Copies between spans of addresses

Addresses are machine words, and the memory is a function of them. A span may wrap around
at the end of the address space. A copy that goes on where another one ended, with the source
and the destination apart, is one copy.
-/

import Mathlib

namespace UBoot.Lib

variable {w : Nat} {β : Type*}

/-- The addresses of `n` bytes from `a` on. -/
def span (a : BitVec w) (n : Nat) : Set (BitVec w) := { x | (x - a).toNat < n }

@[simp]
theorem mem_span {a x : BitVec w} {n : Nat} : x ∈ span a n ↔ (x - a).toNat < n := Iff.rfl

instance (a x : BitVec w) (n : Nat) : Decidable (x ∈ span a n) :=
  inferInstanceAs (Decidable ((x - a).toNat < n))

/-- `n` bytes are loaded from `src` on and stored from `dst` on. A store has an effect where
memory is writable. -/
def copySpan (writable : BitVec w → Bool) (dst src : BitVec w) (n : Nat) (m : BitVec w → β) :
    BitVec w → β :=
  fun x => if writable x = true ∧ x ∈ span dst n then m (src + (x - dst)) else m x

/-- The bytes from `dst` on equal those from `src` on. -/
def SameBytes (m : BitVec w → β) (dst src : BitVec w) (n : Nat) : Prop :=
  ∀ i < n, m (dst + BitVec.ofNat w i) = m (src + BitVec.ofNat w i)

section Spans

variable {a : BitVec w} {i k n : Nat}

theorem offset_toNat (hi : i < 2 ^ w) : (a + BitVec.ofNat w i - a).toNat = i := by
  rw [BitVec.add_comm, BitVec.add_sub_cancel, BitVec.toNat_ofNat, Nat.mod_eq_of_lt hi]

theorem offset_mem_span (hi : i < n) (hn : n ≤ 2 ^ w) : a + BitVec.ofNat w i ∈ span a n := by
  rw [mem_span, offset_toNat (by omega)]
  exact hi

/-- A span that does not wrap around is an interval. -/
theorem mem_span_of_le (wrap : a.toNat + n ≤ 2 ^ w) {x : BitVec w} :
    x ∈ span a n ↔ a.toNat ≤ x.toNat ∧ x.toNat < a.toNat + n := by
  have hx := x.isLt
  rw [mem_span]
  rcases le_or_gt a.toNat x.toNat with hle | hlt
  · rw [BitVec.toNat_sub_of_le hle]
    omega
  · rw [BitVec.toNat_sub, Nat.mod_eq_of_lt (by omega)]
    omega

/-- A span goes on where another one ends. -/
theorem mem_span_add (hk : k + n ≤ 2 ^ w) {x : BitVec w} :
    x ∈ span a (k + n) ↔ x ∈ span a k ∨ x ∈ span (a + BitVec.ofNat w k) n := by
  have hsub : x - (a + BitVec.ofNat w k) = x - a - BitVec.ofNat w k := sub_add_eq_sub_sub x a _
  have hy := (x - a).isLt
  rw [mem_span, mem_span, mem_span, hsub]
  generalize x - a = y at hy
  rcases Nat.eq_zero_or_pos n with rfl | hn
  · simp
  have hk' : (BitVec.ofNat w k).toNat = k := by
    rw [BitVec.toNat_ofNat, Nat.mod_eq_of_lt (by omega)]
  rcases le_or_gt k y.toNat with hle | hlt
  · rw [BitVec.toNat_sub_of_le (by rw [BitVec.le_def, hk']; exact hle), hk']
    omega
  · rw [BitVec.toNat_sub, hk', Nat.mod_eq_of_lt (by omega)]
    omega

end Spans

section Copies

variable {writable : BitVec w → Bool} {dst src : BitVec w} {k n : Nat} {m : BitVec w → β}

@[simp]
theorem copySpan_zero : copySpan writable dst src 0 m = m := by
  funext x
  simp [copySpan]

theorem copySpan_of_notMem {x : BitVec w} (h : x ∉ span dst n) :
    copySpan writable dst src n m x = m x := by
  rw [copySpan, if_neg fun h' => h h'.2]

theorem copySpan_of_not_writable {x : BitVec w} (h : ¬ writable x = true) :
    copySpan writable dst src n m x = m x := by
  rw [copySpan, if_neg fun h' => h h'.1]

theorem copySpan_of_mem {x : BitVec w} (hx : writable x = true) (h : x ∈ span dst n) :
    copySpan writable dst src n m x = m (src + (x - dst)) := by
  rw [copySpan, if_pos ⟨hx, h⟩]

/-- A copy that goes on where another one ended. -/
theorem copySpan_add (hk : k + n ≤ 2 ^ w) (apart : Disjoint (span src (k + n)) (span dst (k + n))) :
    copySpan writable (dst + BitVec.ofNat w k) (src + BitVec.ofNat w k) n
      (copySpan writable dst src k m) = copySpan writable dst src (k + n) m := by
  funext x
  have hcomm : src + BitVec.ofNat w k + (x - (dst + BitVec.ofNat w k)) = src + (x - dst) := by
    rw [sub_add_eq_sub_sub, add_assoc, add_sub_cancel]
  -- what the second copy reads is not in the destination of the first
  have hread (h : x ∈ span dst (k + n)) :
      copySpan writable dst src k m (src + (x - dst)) = m (src + (x - dst)) := by
    apply copySpan_of_notMem
    intro hmem
    apply Set.disjoint_left.mp apart _ ((mem_span_add hk).mpr (Or.inl hmem))
    rw [mem_span, BitVec.add_comm, BitVec.add_sub_cancel]
    exact h
  by_cases hx : writable x = true
  · by_cases hall : x ∈ span dst (k + n)
    · rw [copySpan_of_mem hx hall]
      by_cases hsecond : x ∈ span (dst + BitVec.ofNat w k) n
      · rw [copySpan_of_mem hx hsecond, hcomm, hread hall]
      · have hfirst := ((mem_span_add hk).mp hall).resolve_right hsecond
        rw [copySpan_of_notMem hsecond, copySpan_of_mem hx hfirst]
    · have hneither := fun h => hall ((mem_span_add hk).mpr h)
      rw [copySpan_of_notMem hall, copySpan_of_notMem fun h => hneither (Or.inr h),
        copySpan_of_notMem fun h => hneither (Or.inl h)]
  · rw [copySpan_of_not_writable hx, copySpan_of_not_writable hx, copySpan_of_not_writable hx]

/-- After a copy the bytes are the same, unless one was neither writable nor the same before. -/
theorem sameBytes_copySpan (writable : BitVec w → Bool) (m : BitVec w → β) (hn : n ≤ 2 ^ w)
    (apart : Disjoint (span src n) (span dst n)) :
    SameBytes (copySpan writable dst src n m) dst src n ↔
      ∀ i < n, writable (dst + BitVec.ofNat w i) = false →
        m (dst + BitVec.ofNat w i) = m (src + BitVec.ofNat w i) := by
  apply forall₂_congr
  intro i hi
  rw [copySpan_of_notMem (Set.disjoint_left.mp apart (offset_mem_span hi hn))]
  cases hx : writable (dst + BitVec.ofNat w i) with
  | true =>
      rw [copySpan_of_mem hx (offset_mem_span hi hn), add_sub_cancel_left]
      simp
  | false =>
      rw [copySpan_of_not_writable (by simp [hx])]
      simp

end Copies

end UBoot.Lib
