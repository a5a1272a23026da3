/-
# Substrings

The search for the first place of a string in another one, from left to right. An element that the
string does not have is a wall: the string is on one side of it.
-/

import Mathlib.Data.List.Basic
import Mathlib.Data.List.Infix

namespace UBoot.Lib

variable {β : Type*} {sub s w t : List β} {c : β}

/-- A string does not go over a wall. -/
theorem prefix_append_cons (h : c ∉ sub) : sub <+: w ++ c :: t ↔ sub <+: w := by
  constructor
  · intro hbegins
    obtain hle | hlt := Nat.lt_or_ge w.length sub.length
    · obtain ⟨rest, hrest⟩ := hbegins
      have hsame : (sub ++ rest)[w.length]? = sub[w.length]? := List.getElem?_append_left hle
      rw [hrest, List.getElem?_append_right le_rfl, Nat.sub_self, List.getElem?_cons_zero] at hsame
      exact absurd (List.mem_of_getElem? hsame.symm) h
    · exact List.prefix_of_prefix_length_le hbegins (List.prefix_append _ _) hlt
  · exact fun hbegins => hbegins.trans (List.prefix_append _ _)

variable [DecidableEq β]

/-- The first place of `sub`: what is in front of it, and what begins there. -/
def findSub (sub : List β) : List β → Option (List β × List β)
  | [] => if sub = [] then some ([], []) else none
  | b :: s =>
      if sub <+: b :: s then some ([], b :: s)
      else (findSub sub s).map fun found => (b :: found.1, found.2)

theorem findSub_of_nil (sub : List β) :
    findSub sub [] = if sub = [] then some ([], []) else none := rfl

theorem findSub_cons (sub : List β) (b : β) (s : List β) :
    findSub sub (b :: s) =
      if sub <+: b :: s then some ([], b :: s)
      else (findSub sub s).map fun found => (b :: found.1, found.2) := rfl

theorem findSub_nil (s : List β) : findSub [] s = some ([], s) := by
  cases s with
  | nil => rfl
  | cons b s => exact if_pos List.nil_prefix

theorem findSub_eq_some {found : List β × List β} (h : findSub sub s = some found) :
    s = found.1 ++ found.2 ∧ sub <+: found.2 := by
  induction s generalizing found with
  | nil =>
      rw [findSub_of_nil] at h
      split at h
      · next hnil =>
          cases h
          exact ⟨rfl, hnil ▸ List.nil_prefix⟩
      · cases h
  | cons b s ih =>
      rw [findSub_cons] at h
      split at h
      · next hbegins =>
          cases h
          exact ⟨rfl, hbegins⟩
      · obtain ⟨rest, hrest, rfl⟩ := Option.map_eq_some_iff.mp h
        obtain ⟨hsplit, hbegins⟩ := ih hrest
        exact ⟨congrArg (b :: ·) hsplit, hbegins⟩

/-- Without a first place there is none. -/
theorem findSub_eq_none : findSub sub s = none ↔ ¬sub <:+: s := by
  induction s with
  | nil =>
      rw [findSub_of_nil, List.infix_nil]
      split
      · next hnil => exact iff_of_false nofun (not_not_intro hnil)
      · next hne => exact iff_of_true rfl hne
  | cons b s ih =>
      rw [findSub_cons, List.infix_cons_iff, not_or]
      split
      · next hbegins => exact iff_of_false nofun fun h => h.1 hbegins
      · next hnot => rw [Option.map_eq_none_iff, ih, and_iff_right hnot]

/-- The first place is in front of the wall, or else behind it. -/
theorem findSub_append_cons (hsub : sub ≠ []) (h : c ∉ sub) (w t : List β) :
    findSub sub (w ++ c :: t) =
      match findSub sub w with
      | some found => some (found.1, found.2 ++ c :: t)
      | none => (findSub sub t).map fun found => (w ++ c :: found.1, found.2) := by
  induction w with
  | nil =>
      have hnot : ¬sub <+: c :: t := by
        rw [← List.nil_append (c :: t), prefix_append_cons h, List.prefix_nil]
        exact hsub
      have hnone : findSub sub ([] : List β) = none := if_neg hsub
      rw [hnone]
      exact if_neg hnot
  | cons b w ih =>
      have hsame : sub <+: b :: (w ++ c :: t) ↔ sub <+: b :: w := prefix_append_cons (w := b :: w) h
      rw [List.cons_append, findSub_cons, findSub_cons]
      by_cases hbegins : sub <+: b :: w
      · rw [if_pos hbegins, if_pos (hsame.mpr hbegins)]
        rfl
      · rw [if_neg hbegins, if_neg (mt hsame.mp hbegins), ih]
        cases findSub sub w with
        | none =>
            simp only [Option.map_none, Option.map_map]
            rfl
        | some found => rfl

end UBoot.Lib

/-!
## Common prefixes

The longest prefix that the lists of a collection have in common. The prefixes of one list are in a
chain, so there is one longest.
-/

namespace UBoot.Lib

variable {β : Type*} {p q s : List β} {lists : List (List β)}

/-- Every list begins with `p`, and what every list begins with is the begin of `p`. -/
structure IsLongestPrefix (p : List β) (lists : List (List β)) : Prop where
  common : ∀ s ∈ lists, p <+: s
  longest : ∀ q, (∀ s ∈ lists, q <+: s) → q <+: p

theorem IsLongestPrefix.unique (h : IsLongestPrefix p lists) (h' : IsLongestPrefix q lists) :
    p = q :=
  (h'.longest p h.common).eq_of_length_le (h.longest q h'.common).length_le

/-- What is behind the first `n` elements goes on from `w` to the whole list. -/
theorem append_drop_eq_iff {w : List β} {n : Nat} (h : n ≤ s.length) :
    w ++ s.drop n = s ↔ w.length = n ∧ w <+: s := by
  constructor
  · intro hsame
    have hlen := congrArg List.length hsame
    rw [List.length_append, List.length_drop] at hlen
    exact ⟨by omega, hsame ▸ List.prefix_append w _⟩
  · rintro ⟨rfl, t, rfl⟩
    rw [List.drop_left]

/-- A length that is right for every prefix of the first list gives the longest one. -/
theorem isLongestPrefix_take {n : Nat} (hmem : s ∈ lists) (hn : n ≤ s.length)
    (h : ∀ k ≤ s.length, k ≤ n ↔ ∀ t ∈ lists, s.take k <+: t) :
    IsLongestPrefix (s.take n) lists := by
  constructor
  · exact (h n hn).mp le_rfl
  · intro q hq
    have hbegins := hq s hmem
    have htake : s.take q.length = q := (List.prefix_iff_eq_take.mp hbegins).symm
    have hle : q.length ≤ n := (h q.length hbegins.length_le).mpr (htake.symm ▸ hq)
    rw [← htake]
    exact List.take_prefix_take_left hle

end UBoot.Lib
