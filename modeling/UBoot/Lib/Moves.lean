/-
# Overlapping moves

A move of bytes between ranges of memory that may overlap, which reads every byte before it is
overwritten, and a move that is made in chunks from the first to the last. Chunk by chunk a
byte is read after the chunks in front of it have been stored: what the chunked move leaves is
given by a recursion on the bytes, and only the bytes stored and not yet read can go wrong.

Memory keeps where it has been stored to.
-/

import Mathlib.Order.Interval.Set.Basic

namespace UBoot.Lib

variable {β : Type*}

/-- Memory, and whether an address has been stored to. -/
structure Ram (β : Type*) where
  byte : Nat → β
  stored : Nat → Bool

namespace Ram

/-- Memory that nothing has been stored to yet. -/
def ofBytes (bytes : Nat → β) : Ram β := ⟨bytes, fun _ => false⟩

/-- A byte is stored. -/
def set (m : Ram β) (a : Nat) (v : β) : Ram β where
  byte x := if x = a then v else m.byte x
  stored x := x = a || m.stored x

/-- `while (count--) *tmp++ = *s++` -/
def copyUp : Nat → Nat → Nat → Ram β → Ram β
  | 0, _, _, m => m
  | count + 1, tmp, s, m => copyUp count (tmp + 1) (s + 1) (m.set tmp (m.byte s))

/-- `while (count--) *--tmp = *--s`, with `tmp` and `s` behind the `count` bytes from `dest` and
`src` on. -/
def copyDown : Nat → Nat → Nat → Ram β → Ram β
  | 0, _, _, m => m
  | count + 1, dest, src, m => copyDown count dest src (m.set (dest + count) (m.byte (src + count)))

/-- `memmove` -/
def memmove (dest src count : Nat) (m : Ram β) : Ram β :=
  if dest ≤ src then copyUp count dest src m else copyDown count dest src m

/-- The bytes from `src` on are at `dest`, and nothing else has changed. -/
structure Moved (m m' : Ram β) (dest src count : Nat) : Prop where
  byte : ∀ x, m'.byte x =
    if dest ≤ x ∧ x < dest + count then m.byte (src + (x - dest)) else m.byte x
  stored : ∀ x, m'.stored x = (decide (dest ≤ x ∧ x < dest + count) || m.stored x)

theorem copyUp_moved {dest src : Nat} (h : dest ≤ src) (count : Nat) (m : Ram β) :
    Moved m (copyUp count dest src m) dest src count := by
  induction count generalizing dest src m with
  | zero =>
      constructor
      · intro x
        rw [copyUp, if_neg (by omega)]
      · intro x
        rw [copyUp, decide_eq_false (by omega), Bool.false_or]
  | succ count ih =>
      have rest := ih (Nat.succ_le_succ h) (m.set dest (m.byte src))
      constructor
      · intro x
        rw [copyUp, rest.byte]
        simp only [set]
        by_cases hx : x = dest
        · rw [if_neg (by omega), if_pos hx, if_pos (by omega), hx, Nat.sub_self, Nat.add_zero]
        · by_cases hin : dest + 1 ≤ x ∧ x < dest + 1 + count
          · -- the source is not in front of the destination, so it has not been stored to
            rw [if_pos hin, if_neg (by omega), if_pos (by omega)]
            congr 1
            omega
          · rw [if_neg hin, if_neg hx, if_neg (by omega)]
      · intro x
        have hrange : dest ≤ x ∧ x < dest + (count + 1) ↔
            dest + 1 ≤ x ∧ x < dest + 1 + count ∨ x = dest := by omega
        rw [copyUp, rest.stored, set]
        simp only [hrange, Bool.decide_or, Bool.or_assoc]

theorem copyDown_moved {dest src : Nat} (h : src ≤ dest) (count : Nat) (m : Ram β) :
    Moved m (copyDown count dest src m) dest src count := by
  induction count generalizing m with
  | zero =>
      constructor
      · intro x
        rw [copyDown, if_neg (by omega)]
      · intro x
        rw [copyDown, decide_eq_false (by omega), Bool.false_or]
  | succ count ih =>
      have rest := ih (m.set (dest + count) (m.byte (src + count)))
      constructor
      · intro x
        rw [copyDown, rest.byte]
        simp only [set]
        by_cases hx : x = dest + count
        · rw [if_neg (by omega), if_pos hx, if_pos (by omega), hx, Nat.add_sub_cancel_left]
        · by_cases hin : dest ≤ x ∧ x < dest + count
          · rw [if_pos hin, if_neg (by omega), if_pos (by omega)]
          · rw [if_neg hin, if_neg hx, if_neg (by omega)]
      · intro x
        have hrange : dest ≤ x ∧ x < dest + (count + 1) ↔
            dest ≤ x ∧ x < dest + count ∨ x = dest + count := by omega
        rw [copyDown, rest.stored, set]
        simp only [hrange, Bool.decide_or, Bool.or_assoc]

/-- Ranges may overlap in any way. -/
theorem memmove_moved (dest src count : Nat) (m : Ram β) :
    Moved m (memmove dest src count m) dest src count := by
  rw [memmove]
  split
  · next h => exact copyUp_moved h count m
  · next h => exact copyDown_moved (Nat.le_of_lt (Nat.lt_of_not_le h)) count m

/-! ## Chunks -/

/-- `(len > chunksz) ? chunksz : len` -/
def tail (chunksz len : Nat) : Nat := if len > chunksz then chunksz else len

theorem tail_le (chunksz len : Nat) : tail chunksz len ≤ len := by
  rw [tail]
  split <;> omega

theorem tail_pos {chunksz : Nat} (len : Nat) (hchunk : 0 < chunksz) (hlen : 0 < len) :
    0 < tail chunksz len := by
  rw [tail]
  split <;> omega

/-- A chunk is whole, unless it is the last. -/
theorem tail_eq (chunksz len : Nat) :
    tail chunksz len = chunksz ∨ tail chunksz len = len ∧ len ≤ chunksz := by
  rw [tail]
  split
  · exact .inl rfl
  · exact .inr ⟨rfl, by omega⟩

/-- `while (len > 0) { memmove (to, from, tail); .. }` -/
def moveChunks (chunksz : {n : Nat // 0 < n}) (dest src len : Nat) (m : Ram β) : Ram β :=
  if 0 < len then
    moveChunks chunksz (dest + tail chunksz.1 len) (src + tail chunksz.1 len)
      (len - tail chunksz.1 len) (memmove dest src (tail chunksz.1 len) m)
  else m
termination_by len
decreasing_by
  have := tail_pos len chunksz.2 (by omega)
  omega

variable {chunksz : {n : Nat // 0 < n}}

/-- Nothing is stored outside the destination. -/
theorem moveChunks_stored (dest src len : Nat) (m : Ram β) (x : Nat) :
    (moveChunks chunksz dest src len m).stored x =
      (decide (dest ≤ x ∧ x < dest + len) || m.stored x) := by
  fun_induction moveChunks chunksz dest src len m with
  | case1 dest src len m hpos ih =>
      have hle := tail_le chunksz.1 len
      have hrange : dest ≤ x ∧ x < dest + len ↔
          dest + tail chunksz.1 len ≤ x ∧
              x < dest + tail chunksz.1 len + (len - tail chunksz.1 len) ∨
            dest ≤ x ∧ x < dest + tail chunksz.1 len := by omega
      rw [ih, (memmove_moved dest src _ m).stored]
      simp only [hrange, Bool.decide_or, Bool.or_assoc]
  | case2 dest src len m hpos => rw [decide_eq_false (by omega), Bool.false_or]

theorem moveChunks_outside {dest src len x : Nat} (m : Ram β) (h : x < dest ∨ dest + len ≤ x) :
    (moveChunks chunksz dest src len m).byte x = m.byte x := by
  fun_induction moveChunks chunksz dest src len m with
  | case1 dest src len m hpos ih =>
      have hle := tail_le chunksz.1 len
      rw [ih (by omega), (memmove_moved dest src _ m).byte, if_neg (by omega)]
  | case2 => rfl

/-- The byte at `src + i` has been stored to when the chunk it is in is moved. -/
def Clobbered (chunksz dest src i : Nat) : Prop :=
  dest ≤ src + i ∧ src + i < dest + chunksz * (i / chunksz)

instance (chunksz dest src i : Nat) : Decidable (Clobbered chunksz dest src i) :=
  inferInstanceAs (Decidable (_ ∧ _))

/-- Each byte is the one that was at its source, or the one that was moved over that. -/
theorem moveChunks_byte {dest src len i : Nat} (m : Ram β) (hi : i < len) :
    (moveChunks chunksz dest src len m).byte (dest + i) =
      if Clobbered chunksz.1 dest src i then (moveChunks chunksz dest src len m).byte (src + i)
      else m.byte (src + i) := by
  fun_induction moveChunks chunksz dest src len m generalizing i with
  | case1 dest src len m hpos ih =>
      have htail := tail_eq chunksz.1 len
      generalize tail chunksz.1 len = tail at ih htail ⊢
      have moved := (memmove_moved dest src tail m).byte
      rcases Nat.lt_or_ge i tail with hlt | hge
      · have hzero : i / chunksz.1 = 0 := Nat.div_eq_of_lt (by omega)
        rw [moveChunks_outside _ (.inl (by omega)), moved, if_pos (by omega),
          Nat.add_sub_cancel_left, if_neg]
        rw [Clobbered, hzero, Nat.mul_zero]
        omega
      · obtain rfl : tail = chunksz.1 := by omega
        obtain ⟨j, rfl⟩ := Nat.exists_eq_add_of_le hge
        have hdiv : (chunksz.1 + j) / chunksz.1 = j / chunksz.1 + 1 :=
          Nat.add_div_left _ chunksz.2
        have hmul : chunksz.1 * (j / chunksz.1 + 1) = chunksz.1 * (j / chunksz.1) + chunksz.1 :=
          Nat.mul_succ _ _
        rw [← Nat.add_assoc, ← Nat.add_assoc, ih (by omega), Nat.add_assoc src]
        -- the first chunk is stored in front of all that the other chunks are moved to
        by_cases hfirst : dest ≤ src + (chunksz.1 + j) ∧ src + (chunksz.1 + j) < dest + chunksz.1
        · rw [if_neg (by rw [Clobbered]; omega), if_pos (by rw [Clobbered, hdiv]; omega),
            moveChunks_outside _ (.inl (by omega))]
        · rw [moved, if_neg hfirst]
          apply if_congr _ rfl rfl
          rw [Clobbered, Clobbered, hdiv]
          omega
  | case2 dest src len m hpos => omega

/-- A move in chunks leaves the bytes of the source exactly when each byte that was stored to
before it was read is the same as the byte it was stored with. -/
theorem moveChunks_iff {dest src len : Nat} (m : Ram β) :
    (∀ i < len, (moveChunks chunksz dest src len m).byte (dest + i) = m.byte (src + i)) ↔
      ∀ i < len, Clobbered chunksz.1 dest src i →
        m.byte (src + i) = m.byte (src + (src + i - dest)) := by
  have index {i : Nat} (h : Clobbered chunksz.1 dest src i) :
      src + i - dest < i ∧ dest + (src + i - dest) = src + i := by
    have hdiv := Nat.mul_div_le i chunksz.1
    rw [Clobbered] at h
    omega
  constructor
  · intro h i hi hclobbered
    obtain ⟨hlt, heq⟩ := index hclobbered
    rw [← h i hi, moveChunks_byte m hi, if_pos hclobbered, ← heq, h _ (by omega), heq]
  · intro h i
    induction i using Nat.strong_induction_on with
    | _ i ih =>
        intro hi
        rw [moveChunks_byte m hi]
        by_cases hclobbered : Clobbered chunksz.1 dest src i
        · obtain ⟨hlt, heq⟩ := index hclobbered
          rw [if_pos hclobbered, ← heq, ih _ hlt (by omega), ← h i hi hclobbered, heq]
        · rw [if_neg hclobbered]

end Ram

end UBoot.Lib
