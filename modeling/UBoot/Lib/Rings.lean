/-
# Rings

A ring is a piece of memory that begins again behind its last cell. So many of its cells from one on
are a queue: a cell behind them is put at its end, and where there is none the first one is given up
for it. What a queue of at most `n` elements keeps of a longer list are the last ones.
-/

import UBoot.Lib.Memory
import Mathlib.Data.List.DropRight
import Mathlib.Data.Int.ModEq

namespace UBoot.Lib

variable {β : Type*} {data : Nat → β} {n top size : Nat} {c : β}

/-- So many cells of a ring from one on. -/
def ring (data : Nat → β) (n top size : Nat) : List β := slice (fun j => data (j % n)) top size

@[simp]
theorem length_ring (data : Nat → β) (n top size : Nat) : (ring data n top size).length = size :=
  length_slice _ _ _

theorem ring_mod (data : Nat → β) (n top size : Nat) :
    ring data n (top % n) size = ring data n top size :=
  List.map_congr_left fun _ _ => congrArg data (Nat.mod_add_mod _ _ _)

theorem ring_take {len : Nat} (h : len ≤ size) :
    (ring data n top size).take len = ring data n top len := by
  obtain ⟨k, rfl⟩ := Nat.exists_eq_add_of_le h
  rw [ring, slice_append, List.take_left' (length_slice _ _ _), ring]

theorem ring_drop {len : Nat} (h : len ≤ size) :
    (ring data n top size).drop len = ring data n (top + len) (size - len) := slice_drop h

theorem ring_succ (data : Nat → β) (n top size : Nat) :
    ring data n top (size + 1) = ring data n top size ++ [data ((top + size) % n)] :=
  slice_append _ _ _ _

/-- Two indices with the same cell are a whole turn apart. -/
theorem mod_ne_mod {j k : Nat} (hlt : j < k) (hturn : k < j + n) : j % n ≠ k % n := by
  intro hsame
  have hdvd := (Nat.modEq_iff_dvd' hlt.le).mp hsame
  have hle := Nat.le_of_dvd (by omega) hdvd
  omega

/-- The cell behind a part of a ring is in no part that ends there. -/
theorem ring_update (h : size < n) :
    ring (Function.update data ((top + size) % n) c) n top size = ring data n top size :=
  slice_congr fun _ _ hlt => Function.update_of_ne (mod_ne_mod hlt (by omega)) _ _

/-- An element is put into the cell behind the queue. -/
theorem ring_push (h : size < n) :
    ring (Function.update data ((top + size) % n) c) n top (size + 1) =
      ring data n top size ++ [c] := by
  rw [ring_succ, ring_update h, Function.update_self]

/-- In a ring that is full, it takes the place of the first one. -/
theorem ring_overwrite (h : 0 < n) :
    ring (Function.update data ((top + n) % n) c) n (top + 1) n =
      (ring data n top n).drop 1 ++ [c] := by
  obtain ⟨m, rfl⟩ := Nat.exists_eq_succ_of_ne_zero h.ne'
  have hplace : top + m.succ = top + 1 + m := by omega
  rw [ring_drop (Nat.le_add_left 1 m), hplace, ring_push (Nat.lt_succ_self m), Nat.succ_sub_one]

/-! ## The last elements of a list -/

theorem rtake_of_length_le {l : List β} (h : l.length ≤ n) : l.rtake n = l := by
  rw [List.rtake, Nat.sub_eq_zero_of_le h, List.drop_zero]

/-- Of the last elements and what follows them, the last ones are those of the whole list. -/
theorem rtake_append_rtake (n : Nat) (l l' : List β) :
    (l.rtake n ++ l').rtake n = (l ++ l').rtake n := by
  rw [List.rtake, List.rtake, List.rtake, ← List.drop_append_of_le_length (Nat.sub_le _ _),
    List.drop_drop]
  congr 1
  simp only [List.length_append, List.length_drop]
  omega

/-- One more element in a queue of at most `n`. -/
theorem rtake_append_singleton {l : List β} (hpos : 0 < n) (h : l.length ≤ n) :
    (l ++ [c]).rtake n = if l.length < n then l ++ [c] else l.drop 1 ++ [c] := by
  split
  · next hlt => exact rtake_of_length_le (by rwa [List.length_append])
  · next hge =>
      have hlen : (l ++ [c]).length - n = 1 := by
        rw [List.length_append, List.length_singleton]
        omega
      rw [List.rtake, hlen, List.drop_append_of_le_length (by omega)]

end UBoot.Lib
