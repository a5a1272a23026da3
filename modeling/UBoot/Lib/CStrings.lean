/-
# Terminated strings in memory

A string is in memory when its cells are there, none of them is the terminator, and the terminator
is behind them. A bounded scan for the terminator finds the string, or shows that there is none
before the bound.
-/

import UBoot.Lib.Memory

namespace UBoot.Lib

variable {β : Type*} {nul : β} {m : Nat → β} {i : Nat} {s : List β}

/-- The string `s` is at `i`. -/
structure IsString (nul : β) (m : Nat → β) (i : Nat) (s : List β) : Prop where
  notMem : nul ∉ s
  cells : slice m i s.length = s
  terminated : m (i + s.length) = nul

theorem isString_nil (h : m i = nul) : IsString nul m i [] := ⟨List.not_mem_nil, rfl, h⟩

theorem slice_succ (m : Nat → β) (i n : Nat) : slice m i (n + 1) = m i :: slice m (i + 1) n := by
  rw [Nat.add_comm n 1, slice_append]
  rfl

/-- The first cell, and the rest of the string. -/
theorem isString_cons {b : β} : IsString nul m i (b :: s) ↔
    m i = b ∧ b ≠ nul ∧ IsString nul m (i + 1) s := by
  have hend : i + (b :: s).length = i + 1 + s.length := by
    rw [List.length_cons]
    omega
  constructor
  · rintro ⟨hnot, hcells, hnul⟩
    rw [List.length_cons, slice_succ, List.cons.injEq] at hcells
    rw [List.mem_cons, not_or] at hnot
    rw [hend] at hnul
    exact ⟨hcells.1, Ne.symm hnot.1, hnot.2, hcells.2, hnul⟩
  · rintro ⟨hb, hne, hs⟩
    refine ⟨?_, ?_, ?_⟩
    · rw [List.mem_cons, not_or]
      exact ⟨Ne.symm hne, hs.notMem⟩
    · rw [List.length_cons, slice_succ, hb, hs.cells]
    · rw [hend]
      exact hs.terminated

theorem IsString.cell (h : IsString nul m i s) {k : Nat} (hk : k < s.length) :
    m (i + k) = s[k] := by
  have hcells := h.cells
  have hget := getElem?_slice m (i := i) hk
  rw [hcells, List.getElem?_eq_getElem hk] at hget
  exact (Option.some.inj hget).symm

/-- There is one string at most at an address. -/
theorem IsString.unique (h : IsString nul m i s) {t : List β} (h' : IsString nul m i t) :
    s = t := by
  induction s generalizing i t with
  | nil =>
      cases t with
      | nil => rfl
      | cons b t => exact absurd h.terminated (by rw [isString_cons] at h'; simp [h'.1, h'.2.1])
  | cons a s ih =>
      rw [isString_cons] at h
      cases t with
      | nil => exact absurd h'.terminated (by simp [h.1, h.2.1])
      | cons b t =>
          rw [isString_cons] at h'
          rw [← h.1, ← h'.1, ih h.2.2 h'.2.2]

/-- Cells with a terminator behind them begin with a string: they up to the first terminator. -/
theorem isString_takeWhile [DecidableEq β] (hcells : slice m i s.length = s)
    (hnul : m (i + s.length) = nul) : IsString nul m i (s.takeWhile (· ≠ nul)) := by
  induction s generalizing i with
  | nil => exact isString_nil hnul
  | cons b s ih =>
      rw [List.length_cons, slice_succ, List.cons.injEq] at hcells
      rw [List.length_cons, show i + (s.length + 1) = i + 1 + s.length by omega] at hnul
      by_cases hb : b = nul
      · rw [List.takeWhile_cons_of_neg (by simpa using hb)]
        exact isString_nil (hcells.1.trans hb)
      · rw [List.takeWhile_cons_of_pos (by simpa using hb), isString_cons]
        exact ⟨hcells.1, hb, ih hcells.2 hnul⟩

/-- What follows a cell that is not copied over. -/
theorem IsString.drop (h : IsString nul m i s) {k : Nat} (hk : k ≤ s.length) :
    IsString nul m (i + k) (s.drop k) := by
  refine ⟨fun hmem => h.notMem (List.mem_of_mem_drop hmem), ?_, ?_⟩
  · rw [List.length_drop, ← slice_drop hk, h.cells]
  · rw [List.length_drop, Nat.add_assoc, Nat.add_sub_cancel' hk]
    exact h.terminated

/-- A string beside a copy. -/
theorem IsString.store (h : IsString nul m i s) {dst : Nat} {src : List β}
    (beside : i + s.length < dst ∨ dst + src.length ≤ i) :
    IsString nul (Lib.store m dst src) i s := by
  refine ⟨h.notMem, ?_, ?_⟩
  · rw [slice_store_beside (by omega), h.cells]
  · rw [store_outside (by omega), h.terminated]

/-- A string ends where a terminator is written into it. -/
theorem IsString.cut (h : IsString nul m i s) {k : Nat} (hk : k ≤ s.length) :
    IsString nul (Lib.store m (i + k) [nul]) i (s.take k) := by
  have hlen : (s.take k).length = k := List.length_take_of_le hk
  refine ⟨fun hmem => h.notMem (List.mem_of_mem_take hmem), ?_, ?_⟩
  · rw [hlen, slice_store_beside (by omega)]
    have hsplit := h.cells
    obtain ⟨r, hr⟩ := Nat.exists_eq_add_of_le hk
    rw [hr, slice_append] at hsplit
    rw [← hsplit, List.take_left' (length_slice _ _ _)]
  · rw [hlen]
    exact @store_add _ m (i + k) 0 [nul] nul rfl

/-- The scan from `i` for a terminator, in so many cells. -/
def scanString [DecidableEq β] (nul : β) (m : Nat → β) : Nat → Nat → Option (List β)
  | 0, _ => none
  | n + 1, i => if m i = nul then some [] else (scanString nul m n (i + 1)).map (m i :: ·)

theorem scanString_eq_some [DecidableEq β] {n : Nat} :
    scanString nul m n i = some s ↔ IsString nul m i s ∧ s.length < n := by
  induction n generalizing i s with
  | zero => simp [scanString]
  | succ n ih =>
      rw [scanString]
      by_cases h : m i = nul
      · rw [if_pos h, Option.some.injEq]
        constructor
        · rintro rfl
          exact ⟨isString_nil h, Nat.zero_lt_succ n⟩
        · rintro ⟨hs, -⟩
          exact (isString_nil h).unique hs
      · rw [if_neg h, Option.map_eq_some_iff]
        constructor
        · rintro ⟨t, ht, rfl⟩
          obtain ⟨hstring, hlen⟩ := ih.mp ht
          exact ⟨isString_cons.mpr ⟨rfl, h, hstring⟩, Nat.succ_lt_succ hlen⟩
        · rintro ⟨hs, hlen⟩
          cases s with
          | nil => exact absurd hs.terminated h
          | cons b t =>
              obtain ⟨hb, -, ht⟩ := isString_cons.mp hs
              exact ⟨t, ih.mpr ⟨ht, Nat.lt_of_succ_lt_succ hlen⟩, by rw [hb]⟩

end UBoot.Lib
