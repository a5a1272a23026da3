/-
# Computations that look at an input

A computation reads cells of an input of so many cells, and has no result when it reads behind
them. `Needs len r n v` says how many cells it takes to come to the result `v`: with fewer there is
none. The number of a sequence is the larger one of its parts.
-/

import Mathlib.Data.List.Basic
import Mathlib.Order.MinMax

namespace UBoot.Lib

universe u
variable {α β : Type u} {len n k : Nat} {r : Option α} {v : α}

/-- The result is `v` if there are `n` cells, and there is none otherwise. -/
def Needs (len : Nat) (r : Option α) (n : Nat) (v : α) : Prop := r = if n ≤ len then some v else none

namespace Needs

theorem pure (v : α) : Needs len (some v) 0 v := rfl

theorem bind {f : α → Option β} {w : β} (h : Needs len r n v) (hf : Needs len (f v) k w) :
    Needs len (r >>= f) (max n k) w := by
  unfold Needs at h hf ⊢
  by_cases hn : n ≤ len
  · rw [h, if_pos hn, Option.bind_eq_bind, Option.bind_some, hf]
    simp only [max_le_iff, hn, true_and]
  · rw [h, if_neg hn, if_neg fun hmax => hn (le_of_max_le_left hmax)]
    rfl

theorem map (h : Needs len r n v) (f : α → β) :
    Needs len (r >>= fun a => some (f a)) n (f v) := by
  rw [← max_eq_left (Nat.zero_le n)]
  exact h.bind (pure (f v))

/-- The result matters only when there are enough cells. -/
theorem congr {w : α} (h : Needs len r n v) (hvw : n ≤ len → v = w) : Needs len r n w := by
  rw [Needs, h]
  by_cases hn : n ≤ len
  · rw [if_pos hn, if_pos hn, hvw hn]
  · rw [if_neg hn, if_neg hn]

theorem eq_some (h : Needs len r n v) (hn : n ≤ len) : r = some v := by
  rw [h, if_pos hn]

theorem eq_some_iff (h : Needs len r n v) {w : α} : r = some w ↔ n ≤ len ∧ v = w := by
  rw [h]
  by_cases hn : n ≤ len
  · rw [if_pos hn, Option.some.injEq, and_iff_right hn]
  · rw [if_neg hn]
    exact iff_of_false nofun fun hw => hn hw.1

end Needs

/-- What is needed in one case only. -/
theorem ite_zero_le_iff {p : Prop} [Decidable p] : (if p then n else 0) ≤ len ↔ (p → n ≤ len) := by
  by_cases hp : p
  · rw [if_pos hp]
    exact ⟨fun hn _ => hn, fun hn => hn hp⟩
  · rw [if_neg hp]
    exact iff_of_true (Nat.zero_le len) fun h => absurd h hp

/-- So many cells from an index on. -/
def cells (l : List β) (i n : Nat) : Option (List β) :=
  if i + n ≤ l.length then some ((l.drop i).take n) else none

theorem needs_cells (l : List β) (i n : Nat) :
    Needs l.length (cells l i n) (i + n) ((l.drop i).take n) := rfl

/-- A cell. -/
theorem needs_cell (l : List β) (i : Nat) (d : β) : Needs l.length l[i]? (i + 1) (l.getD i d) := by
  unfold Needs
  rcases Nat.lt_or_ge i l.length with hlt | hge
  · rw [if_pos (Nat.succ_le_of_lt hlt), List.getD_eq_getElem?_getD, List.getElem?_eq_getElem hlt]
    rfl
  · rw [if_neg (Nat.not_le_of_lt (Nat.lt_succ_of_le hge)), List.getElem?_eq_none hge]

end UBoot.Lib
