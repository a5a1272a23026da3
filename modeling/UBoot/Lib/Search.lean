/-
# Searches for the greatest element

What a search from above comes to: the greatest element of a set, or none if the set is empty.
A search that goes on below what it excludes comes to the same.
-/

import Mathlib.Order.Bounds.Basic

namespace UBoot.Lib

variable {α : Type*} [LE α] [Std.IsPartialOrder α]

/-- The greatest element of a set, if there is one at all. -/
def GreatestOf (s : Set α) : Option α → Prop
  | none => s = ∅
  | some a => IsGreatest s a

variable {s : Set α} {o : Option α} {a : α}

theorem GreatestOf.eq_some_iff (h : GreatestOf s o) : o = some a ↔ IsGreatest s a := by
  cases o with
  | none =>
      change s = ∅ at h
      subst h
      constructor
      · intro heq
        cases heq
      · intro greatest
        cases greatest.1
  | some b =>
      change IsGreatest s b at h
      constructor
      · intro heq
        cases heq
        exact h
      · intro greatest
        rw [Std.IsPartialOrder.le_antisymm b a (greatest.2 h.1) (h.2 greatest.1)]

/-- What lies above the point where a search goes on is not in the set. -/
theorem GreatestOf.skip {p : α → Prop} {start next : α} (h : GreatestOf { c | c ≤ next ∧ p c } o)
    (hnext : next ≤ start) (hskip : ∀ c ≤ start, p c → c ≤ next) :
    GreatestOf { c | c ≤ start ∧ p c } o := by
  have hsame : { c | c ≤ start ∧ p c } = { c | c ≤ next ∧ p c } := by
    ext c
    constructor
    · rintro ⟨hle, hp⟩
      exact ⟨hskip c hle hp, hp⟩
    · rintro ⟨hle, hp⟩
      exact ⟨Std.IsPreorder.le_trans c next start hle hnext, hp⟩
  rw [hsame]
  exact h

end UBoot.Lib
