/-
# Memory that may be faulty

Each address is wired to a cell, and what is read from a cell is what it keeps of the value that was
written last. A test of such a memory writes values and compares what it reads with values. As what
it does next does not depend on what it has found, it is a list of accesses.
-/

import Mathlib.Data.List.Basic
import Mathlib.Logic.Function.Basic

namespace UBoot.Lib

structure Wiring (α κ β : Type*) where
  cell : α → κ
  hold : κ → β → β

inductive Access (α β : Type*)
  | write (a : α) (v : β)
  | check (a : α) (v : β)

namespace Wiring

variable {α κ β ι : Type*} (w : Wiring α κ β)

def load (m : κ → β) (a : α) : β := w.hold (w.cell a) (m (w.cell a))

variable [DecidableEq κ]

def store (m : κ → β) (a : α) (v : β) : κ → β := Function.update m (w.cell a) v

def after (m : κ → β) : Access α β → κ → β
  | .write a v => w.store m a v
  | .check _ _ => m

/-- The memory after a test. -/
def run (m : κ → β) (accesses : List (Access α β)) : κ → β := accesses.foldl w.after m

/-- The number of comparisons that fail. -/
def errors [DecidableEq β] (m : κ → β) : List (Access α β) → Nat
  | [] => 0
  | .write a v :: rest => errors (w.store m a v) rest
  | .check a v :: rest => (if w.load m a = v then 0 else 1) + errors m rest

/-- All addresses have cells of their own, which keep what is written. -/
structure Sound : Prop where
  injective : Function.Injective w.cell
  hold_eq : ∀ a v, w.hold (w.cell a) v = v

variable {w} {m : κ → β} {xs ys : List (Access α β)} {a b : α} {v : β}

@[simp] theorem run_nil : w.run m [] = m := rfl

@[simp] theorem run_write : w.run m (.write a v :: xs) = w.run (w.store m a v) xs := rfl

@[simp] theorem run_check : w.run m (.check a v :: xs) = w.run m xs := rfl

theorem run_append : w.run m (xs ++ ys) = w.run (w.run m xs) ys := List.foldl_append

theorem load_store_self : w.load (w.store m a v) a = w.hold (w.cell a) v := by
  rw [load, store, Function.update_self]

theorem load_store_of_ne (h : w.cell b ≠ w.cell a) : w.load (w.store m a v) b = w.load m b := by
  rw [load, store, Function.update_of_ne h, load]

/-- What is not written keeps its value. -/
theorem load_run (h : ∀ b v, .write b v ∈ xs → w.cell a ≠ w.cell b) :
    w.load (w.run m xs) a = w.load m a := by
  induction xs generalizing m with
  | nil => rfl
  | cons x xs ih =>
      have hrest := ih (m := w.after m x) fun b v hmem => h b v (.tail _ hmem)
      cases x with
      | write b v => exact hrest.trans (load_store_of_ne (h b v (.head _)))
      | check b v => exact hrest

theorem Sound.load_store [DecidableEq α] (h : w.Sound) :
    w.load (w.store m a v) b = if b = a then v else w.load m b := by
  split
  · next heq => rw [heq, load_store_self, h.hold_eq]
  · next hne => exact load_store_of_ne (h.injective.ne hne)

theorem Sound.load_run (h : w.Sound) (hnot : ∀ v, .write a v ∉ xs) :
    w.load (w.run m xs) a = w.load m a := by
  refine Wiring.load_run fun b v hmem heq => ?_
  rw [← h.injective heq] at hmem
  exact hnot v hmem

variable [DecidableEq β]

theorem errors_append : w.errors m (xs ++ ys) = w.errors m xs + w.errors (w.run m xs) ys := by
  induction xs generalizing m with
  | nil => rw [List.nil_append, errors, Nat.zero_add, run_nil]
  | cons x xs ih =>
      cases x with
      | write a v => rw [List.cons_append, errors, errors, ih, run_write]
      | check a v => rw [List.cons_append, errors, errors, ih, run_check, Nat.add_assoc]

/-- No comparison fails. -/
def Clean (w : Wiring α κ β) (m : κ → β) (accesses : List (Access α β)) : Prop :=
  w.errors m accesses = 0

@[simp] theorem clean_nil : w.Clean m [] := rfl

@[simp] theorem clean_write : w.Clean m (.write a v :: xs) ↔ w.Clean (w.store m a v) xs := Iff.rfl

@[simp] theorem clean_check :
    w.Clean m (.check a v :: xs) ↔ w.load m a = v ∧ w.Clean m xs := by
  rw [Clean, errors, Nat.add_eq_zero_iff, Clean]
  simp

theorem clean_append : w.Clean m (xs ++ ys) ↔ w.Clean m xs ∧ w.Clean (w.run m xs) ys := by
  rw [Clean, errors_append, Nat.add_eq_zero_iff, Clean, Clean]

/-- A comparison that does not fail reads its value. -/
theorem Clean.exists_load (h : w.Clean m xs) (hmem : .check a v ∈ xs) :
    ∃ m', w.load m' a = v := by
  induction xs generalizing m with
  | nil => exact absurd hmem List.not_mem_nil
  | cons x xs ih =>
      cases x with
      | write b u =>
          rw [List.mem_cons] at hmem
          exact ih h (hmem.resolve_left nofun)
      | check b u =>
          rw [clean_check] at h
          obtain heq | hmem := List.mem_cons.mp hmem
          · cases heq
            exact ⟨m, h.1⟩
          · exact ih h.2 hmem

/-- A loop that keeps something. -/
theorem clean_flatMap {f : ι → List (Access α β)} (inv : (κ → β) → Prop) {is : List ι}
    (hstep : ∀ i ∈ is, ∀ m, inv m → w.Clean m (f i) ∧ inv (w.run m (f i))) (h : inv m) :
    w.Clean m (is.flatMap f) ∧ inv (w.run m (is.flatMap f)) := by
  induction is generalizing m with
  | nil => exact ⟨rfl, h⟩
  | cons i is ih =>
      rw [List.forall_mem_cons] at hstep
      obtain ⟨hfirst, hinv⟩ := hstep.1 m h
      obtain ⟨hrest, hend⟩ := ih hstep.2 hinv
      rw [List.flatMap_cons, clean_append, run_append]
      exact ⟨⟨hfirst, hrest⟩, hend⟩

/-- A loop that counts, with what holds in front of each round. -/
theorem clean_range {f : Nat → List (Access α β)} (inv : Nat → (κ → β) → Prop) {n : Nat}
    (hstep : ∀ k < n, ∀ m, inv k m → w.Clean m (f k) ∧ inv (k + 1) (w.run m (f k)))
    (h : inv 0 m) :
    w.Clean m ((List.range n).flatMap f) ∧ inv n (w.run m ((List.range n).flatMap f)) := by
  induction n with
  | zero => exact ⟨rfl, h⟩
  | succ n ih =>
      obtain ⟨hfirst, hinv⟩ := ih fun k hk => hstep k (by omega)
      obtain ⟨hlast, hend⟩ := hstep n (Nat.lt_succ_self n) _ hinv
      rw [List.range_succ, List.flatMap_append, List.flatMap_singleton, clean_append, run_append]
      exact ⟨⟨hfirst, hlast⟩, hend⟩

/-- One round of a loop that counts. -/
theorem Clean.round {f : Nat → List (Access α β)} {n k : Nat}
    (h : w.Clean m ((List.range n).flatMap f)) (hk : k < n) :
    w.Clean (w.run m ((List.range k).flatMap f)) (f k) := by
  induction n with
  | zero => exact absurd hk (Nat.not_lt_zero k)
  | succ n ih =>
      rw [List.range_succ, List.flatMap_append, List.flatMap_singleton, clean_append] at h
      obtain rfl | hlt := Nat.eq_or_lt_of_le (Nat.le_of_lt_succ hk)
      · exact h.2
      · exact ih h.1 hlt

end Wiring

end UBoot.Lib
