/-
# Copies into memory

A transfer in pieces: a source is copied piece by piece, in any order and some
pieces more than once, to where it belongs in memory. What has been copied so far
is a set of positions, `Agrees m base ys S`, and a copy of a piece adds its
positions to the set.
-/

import Mathlib.Order.Interval.Set.Basic
import Mathlib.Data.List.Basic

namespace UBoot.Lib

variable {β : Type*}

/-- `memcpy(dst, src, length)` -/
def store (m : Nat → β) (dst : Nat) (src : List β) : Nat → β :=
  fun i => if dst ≤ i then (src[i - dst]?).getD (m i) else m i

@[simp]
theorem store_nil (m : Nat → β) (dst : Nat) : store m dst [] = m := by
  funext i
  simp [store]

theorem store_add {m : Nat → β} {dst j : Nat} {src : List β} {y : β} (h : src[j]? = some y) :
    store m dst src (dst + j) = y := by
  simp [store, h]

/-- Memory outside the destination is unchanged. -/
theorem store_outside {m : Nat → β} {dst i : Nat} {src : List β}
    (h : i < dst ∨ dst + src.length ≤ i) : store m dst src i = m i := by
  rw [store]
  split
  · next hle =>
      rw [List.getElem?_eq_none (by omega)]
      rfl
  · rfl

/-- A second copy right behind the first. -/
theorem store_append (m : Nat → β) (dst : Nat) (first second : List β) :
    store (store m dst first) (dst + first.length) second = store m dst (first ++ second) := by
  funext i
  simp only [store]
  by_cases h : dst + first.length ≤ i
  · rw [if_pos h, if_pos (by omega), if_pos (by omega), List.getElem?_append_right (by omega),
      List.getElem?_eq_none (l := first) (by omega), show i - dst - first.length =
      i - (dst + first.length) by omega]
    rfl
  · rw [if_neg h]
    split
    · rw [List.getElem?_append_left (by omega)]
    · rfl

/-- The byte of a piece at a position. -/
def byteAt (piece : Nat × List β) (i : Nat) : Option β :=
  if piece.1 ≤ i then piece.2[i - piece.1]? else none

theorem store_eq_byteAt (m : Nat → β) (piece : Nat × List β) (i : Nat) :
    store m piece.1 piece.2 i = (byteAt piece i).getD (m i) := by
  unfold store byteAt
  split <;> rfl

/-- After pieces are stored one over the other, a position holds the byte of the last piece
that covers it. -/
theorem foldl_store_of_last {before after : List (Nat × List β)} {piece : Nat × List β} {i : Nat}
    {y : β} (hy : byteAt piece i = some y) (last : ∀ p ∈ after, byteAt p i = none)
    (m : Nat → β) :
    (before ++ piece :: after).foldl (fun m p => store m p.1 p.2) m i = y := by
  rw [List.foldl_append, List.foldl_cons]
  generalize before.foldl (fun m p => store m p.1 p.2) m = m'
  have here : store m' piece.1 piece.2 i = y := by rw [store_eq_byteAt, hy]; rfl
  generalize store m' piece.1 piece.2 = m'' at here
  induction after generalizing m'' with
  | nil => exact here
  | cons p after ih =>
      rw [List.foldl_cons]
      apply ih fun q hq => last q (List.mem_cons_of_mem _ hq)
      rw [store_eq_byteAt, last p List.mem_cons_self]
      exact here

/-- A position that no piece covers keeps its byte. -/
theorem foldl_store_of_none {pieces : List (Nat × List β)} {i : Nat}
    (h : ∀ p ∈ pieces, byteAt p i = none) (m : Nat → β) :
    pieces.foldl (fun m p => store m p.1 p.2) m i = m i := by
  induction pieces generalizing m with
  | nil => rfl
  | cons p pieces ih =>
      rw [List.foldl_cons, ih fun q hq => h q (List.mem_cons_of_mem _ hq), store_eq_byteAt,
        h p List.mem_cons_self]
      rfl

/-- `memcmp(m + at, src, length) == 0` on the positions in `S`. -/
def Agrees (m : Nat → β) (base : Nat) (ys : List β) (S : Set Nat) : Prop :=
  ∀ i ∈ S, ∀ y, ys[i]? = some y → m (base + i) = y

namespace Agrees

variable {m : Nat → β} {base : Nat} {ys : List β} {S T : Set Nat}

theorem empty : Agrees m base ys ∅ := fun _ h => absurd h (Set.notMem_empty _)

theorem mono (h : Agrees m base ys T) (sub : S ⊆ T) : Agrees m base ys S :=
  fun i hi => h i (sub hi)

/-- A copy of the piece from `i` on. -/
theorem store_piece (h : Agrees m base ys S) (i n : Nat) :
    Agrees (store m (base + i) ((ys.drop i).take n)) base ys (S ∪ Set.Ico i (i + n)) := by
  intro j hj y hy
  by_cases inside : i ≤ j ∧ j < i + n
  · have piece : ((ys.drop i).take n)[j - i]? = some y := by
      rw [List.getElem?_take_of_lt (by omega), List.getElem?_drop, ← hy]
      congr 1
      omega
    rw [show base + j = base + i + (j - i) by omega]
    exact store_add piece
  · have old : j ∈ S := hj.resolve_right inside
    rw [store_outside]
    · exact h j old y hy
    · have := List.length_take_le n (ys.drop i)
      omega

/-- A write outside the set. -/
theorem store_outside (h : Agrees m base ys S) {dst : Nat} {src : List β}
    (outside : ∀ i ∈ S, base + i < dst ∨ dst + src.length ≤ base + i) :
    Agrees (store m dst src) base ys S := by
  intro i hi y hy
  rw [UBoot.Lib.store_outside (outside i hi)]
  exact h i hi y hy

end Agrees

end UBoot.Lib

/-!
## Pieces of memory

So many cells of memory from an address on, as a list. A piece is cut in two, and a copy
into memory either leaves it alone or puts the source in its place.
-/

namespace UBoot.Lib

variable {β : Type*}

/-- So many cells from an address on. -/
def slice (m : Nat → β) (i n : Nat) : List β := (List.range n).map fun k => m (i + k)

@[simp] theorem length_slice (m : Nat → β) (i n : Nat) : (slice m i n).length = n := by
  simp [slice]

theorem slice_append (m : Nat → β) (i n k : Nat) :
    slice m i (n + k) = slice m i n ++ slice m (i + n) k := by
  rw [slice, List.range_add, List.map_append, List.map_map, slice, slice]
  simp [Function.comp_def, Nat.add_assoc]

theorem getElem?_slice (m : Nat → β) {i n k : Nat} (h : k < n) :
    (slice m i n)[k]? = some (m (i + k)) := by
  simp [slice, h]

theorem slice_congr {m m' : Nat → β} {i n : Nat} (h : ∀ k, i ≤ k → k < i + n → m k = m' k) :
    slice m i n = slice m' i n :=
  List.map_congr_left fun k hk => h (i + k) (Nat.le_add_right _ _)
    (Nat.add_lt_add_left (List.mem_range.1 hk) _)

/-- A copy beside the bytes. -/
theorem slice_store_beside {m : Nat → β} {dst i n : Nat} {src : List β}
    (h : i + n ≤ dst ∨ dst + src.length ≤ i) : slice (store m dst src) i n = slice m i n :=
  slice_congr fun k _ _ => store_outside (by omega)

/-- A copy to where the bytes are. -/
theorem slice_store_same {m : Nat → β} {dst : Nat} {src : List β} {n : Nat}
    (h : src.length = n) : slice (store m dst src) dst n = src := by
  refine List.ext_getElem (by simp [h]) fun k hk hk' => ?_
  simp only [slice, List.getElem_map, List.getElem_range]
  exact store_add (List.getElem?_eq_getElem hk')

/-- The bytes in the middle of some. -/
theorem slice_slice {m : Nat → β} {i n j k : Nat} (h : j + k ≤ n) :
    ((slice m i n).drop j).take k = slice m (i + j) k := by
  obtain ⟨r, rfl⟩ := Nat.exists_eq_add_of_le h
  rw [Nat.add_assoc, slice_append, List.drop_left' (length_slice _ _ _), slice_append,
    List.take_left' (length_slice _ _ _)]

theorem slice_drop {m : Nat → β} {i n j : Nat} (h : j ≤ n) :
    (slice m i n).drop j = slice m (i + j) (n - j) := by
  obtain ⟨r, rfl⟩ := Nat.exists_eq_add_of_le h
  rw [slice_append, List.drop_left' (length_slice _ _ _), Nat.add_sub_cancel_left]

theorem getD_slice (m : Nat → β) {i n k : Nat} (h : k < n) (d : β) :
    (slice m i n).getD k d = m (i + k) := by
  rw [List.getD_eq_getElem?_getD, getElem?_slice m h]
  rfl

theorem slice_two (m : Nat → β) (i : Nat) : slice m i 2 = [m i, m (i + 1)] := rfl

end UBoot.Lib
