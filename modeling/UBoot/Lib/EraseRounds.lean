/-
# Rounds of erasing and programming

Erasing sets the bits of a range of cells, and programming clears bits. A round erases an
area and programs cells from its beginning on, which may be fewer than were erased or more.
Areas are erased upwards. So an erased cell holds in the end what its own round made of it,
and a cell that was not erased has lost the bits that some round cleared.
-/

import Mathlib.Data.BitVec
import Mathlib.Data.List.Pairwise

namespace UBoot.Lib

variable {w : Nat}

/-- The cells of an area are erased. -/
def eraseCells (start length : Nat) (m : Nat → BitVec w) : Nat → BitVec w :=
  fun a => if start ≤ a ∧ a < start + length then BitVec.allOnes w else m a

/-- Cells are programmed from `start` on. -/
def programCells (start length : Nat) (data : Nat → BitVec w) (m : Nat → BitVec w) :
    Nat → BitVec w :=
  fun a => if start ≤ a ∧ a < start + length then m a &&& data (a - start) else m a

/-- Where a round starts, and what it programs there. -/
structure EraseRound (w : Nat) where
  start : Nat
  data : Nat → BitVec w

/-- A round that erases `area` cells and programs `length`. -/
def EraseRound.apply (area length : Nat) (m : Nat → BitVec w) (r : EraseRound w) :
    Nat → BitVec w :=
  programCells r.start length r.data (eraseCells r.start area m)

/-- Rounds, one after the other. -/
def runRounds (area length : Nat) (rounds : List (EraseRound w)) (m : Nat → BitVec w) :
    Nat → BitVec w :=
  rounds.foldl (EraseRound.apply area length) m

/-- The areas do not overlap, and are in order. -/
def Upwards (area : Nat) (rounds : List (EraseRound w)) : Prop :=
  rounds.Pairwise fun r r' => r.start + area ≤ r'.start

section Rounds

variable {area length a : Nat} {rounds : List (EraseRound w)} {m : Nat → BitVec w}

theorem EraseRound.apply_below {r : EraseRound w} (h : a < r.start) :
    r.apply area length m a = m a := by
  rw [apply, programCells, eraseCells, if_neg (by omega), if_neg (by omega)]

/-- A cell of the area of a round. -/
theorem EraseRound.apply_erased {r : EraseRound w} (h : r.start ≤ a ∧ a < r.start + area) :
    r.apply area length m a =
      if a - r.start < length then r.data (a - r.start) else BitVec.allOnes w := by
  rw [apply, programCells, eraseCells, if_pos h]
  split
  · rw [if_pos (by omega), BitVec.allOnes_and]
  · rw [if_neg (by omega)]

/-- A cell of another place. -/
theorem EraseRound.apply_kept (length : Nat) (m : Nat → BitVec w) {r : EraseRound w} (h : ¬ (r.start ≤ a ∧ a < r.start + area)) :
    r.apply area length m a =
      if r.start ≤ a ∧ a < r.start + length then m a &&& r.data (a - r.start) else m a := by
  rw [apply, programCells, eraseCells, if_neg h]

theorem runRounds_below (h : ∀ r ∈ rounds, a < r.start) :
    runRounds area length rounds m a = m a := by
  induction rounds generalizing m with
  | nil => rfl
  | cons r rounds ih =>
      have hrest := ih (m := r.apply area length m) fun r' hr' => h r' (List.mem_cons_of_mem _ hr')
      exact hrest.trans (EraseRound.apply_below (h r List.mem_cons_self))

/-- An erased cell holds what its round programmed. -/
theorem runRounds_erased (upwards : Upwards area rounds) {r : EraseRound w} (hr : r ∈ rounds)
    (h : r.start ≤ a ∧ a < r.start + area) :
    runRounds area length rounds m a =
      if a - r.start < length then r.data (a - r.start) else BitVec.allOnes w := by
  induction rounds generalizing m with
  | nil => cases hr
  | cons r' rounds ih =>
      obtain ⟨hfirst, hrest⟩ := List.pairwise_cons.mp upwards
      rcases List.mem_cons.mp hr with rfl | hr
      · have hbelow : ∀ r' ∈ rounds, a < r'.start := by
          intro r' hr'
          have := hfirst r' hr'
          omega
        exact (runRounds_below hbelow).trans (EraseRound.apply_erased h)
      · exact ih hrest hr

/-- `x` keeps its bits when `d` is programmed, and when `e` is. -/
theorem and_and_eq_left_iff (x d e : BitVec w) :
    x &&& d &&& e = x ↔ x &&& d = x ∧ x &&& e = x := by
  constructor
  · intro h
    have hd : x &&& d = x := by
      calc x &&& d = x &&& d &&& e &&& d := by rw [h]
        _ = x &&& d &&& e := by
            rw [BitVec.and_assoc, BitVec.and_comm e d, ← BitVec.and_assoc,
              BitVec.and_assoc x d d, BitVec.and_self]
        _ = x := h
    rw [hd] at h
    exact ⟨hd, h⟩
  · rintro ⟨hd, he⟩
    rw [hd, he]

/-- What is left of the bits of a cell that is not erased is no more than what one of the
rounds leaves. -/
theorem runRounds_le (length : Nat) (m : Nat → BitVec w) (h : ∀ r ∈ rounds, ¬ (r.start ≤ a ∧ a < r.start + area)) :
    runRounds area length rounds m a &&& m a = runRounds area length rounds m a := by
  induction rounds generalizing m with
  | nil => exact BitVec.and_self
  | cons r rounds ih =>
      have hrest := ih (m := r.apply area length m) fun r' hr' => h r' (List.mem_cons_of_mem _ hr')
      change runRounds area length rounds (r.apply area length m) a &&& m a =
        runRounds area length rounds (r.apply area length m) a
      rw [EraseRound.apply_kept length m (h r List.mem_cons_self)] at hrest
      split at hrest
      · rw [← BitVec.and_assoc, and_and_eq_left_iff] at hrest
        exact hrest.1
      · exact hrest

/-- A cell that is not erased keeps its contents if no round clears a bit of them. -/
theorem runRounds_kept_iff (h : ∀ r ∈ rounds, ¬ (r.start ≤ a ∧ a < r.start + area)) :
    runRounds area length rounds m a = m a ↔
      ∀ r ∈ rounds, r.start ≤ a → a < r.start + length → m a &&& r.data (a - r.start) = m a := by
  induction rounds generalizing m with
  | nil => simp [runRounds]
  | cons r rounds ih =>
      have hr := EraseRound.apply_kept length m (h r List.mem_cons_self)
      have hlater := fun r' hr' => h r' (List.mem_cons_of_mem r hr')
      have hrest := ih (m := r.apply area length m) hlater
      have hle := runRounds_le length (r.apply area length m) hlater
      change runRounds area length rounds (r.apply area length m) a = m a ↔ _
      rw [List.forall_mem_cons]
      split at hr
      · next hin =>
          rw [hr] at hrest hle
          constructor
          · intro heq
            rw [heq] at hrest hle
            have hdata : m a &&& r.data (a - r.start) = m a := by
              rw [← BitVec.and_assoc, BitVec.and_self] at hle
              exact hle
            rw [hdata] at hrest
            exact ⟨fun _ _ => hdata, hrest.mp rfl⟩
          · rintro ⟨hdata, hall⟩
            rw [hdata hin.1 hin.2] at hrest
            exact hrest.mpr hall
      · next hout =>
          rw [hr] at hrest
          rw [hrest]
          constructor
          · intro hall
            exact ⟨fun hle hlt => absurd ⟨hle, hlt⟩ hout, hall⟩
          · intro hall
            exact hall.2

end Rounds

end UBoot.Lib
