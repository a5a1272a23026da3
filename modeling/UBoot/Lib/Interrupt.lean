/-
# Computations that may be cut short

A computation over a persistent store can end in two ways: it returns a value,
or power is lost while it runs and only the store survives. `Triple P m Q C`
is the corresponding contract. `Q` describes the result and the store of a
computation that returned; `C` describes the store it may leave behind when it
is cut, and so has to hold at every point where that can happen.

The rules follow the monad. Sequencing shares one crash condition between both
halves, which is what makes a proof about a sequence of store operations a list
of one contract for each operation.
-/

import Mathlib.Logic.Basic

namespace UBoot.Lib

/-- The exception raised when power is lost. -/
inductive PowerLoss
  | powerLoss
  deriving DecidableEq

/-- A computation over a store of type `σ` that may be cut short. -/
abbrev Interruptible (σ α : Type) := EStateM PowerLoss σ α

variable {σ α β : Type}

/-- From a store satisfying `P`, a return satisfies `Q` and a cut leaves `C`. -/
def Triple (P : σ → Prop) (m : Interruptible σ α) (Q : α → σ → Prop) (C : σ → Prop) : Prop :=
  ∀ s, P s → match m s with
    | .ok a t => Q a t
    | .error _ t => C t

namespace Triple

variable {P P' C C' : σ → Prop} {Q Q' : α → σ → Prop} {R : β → σ → Prop}
  {m : Interruptible σ α} {k : α → Interruptible σ β}

theorem pure {a : α} (h : ∀ s, P s → Q a s) : Triple P (Pure.pure a : Interruptible σ α) Q C :=
  fun s hs => h s hs

theorem bind (first : Triple P m Q C) (rest : ∀ a, Triple (Q a) (k a) R C) :
    Triple P (m >>= k) R C := by
  intro s hs
  have hm := first s hs
  simp only [Bind.bind, EStateM.bind]
  cases hrun : m s with
  | ok a t =>
      rw [hrun] at hm
      exact rest a t hm
  | error e t =>
      rw [hrun] at hm
      exact hm

theorem conseq (triple : Triple P m Q C) (pre : ∀ s, P' s → P s)
    (post : ∀ a s, Q a s → Q' a s) (crash : ∀ s, C s → C' s) : Triple P' m Q' C' := by
  intro s hs
  have hm := triple s (pre s hs)
  cases hrun : m s with
  | ok a t =>
      rw [hrun] at hm
      exact post a t hm
  | error e t =>
      rw [hrun] at hm
      exact crash t hm

theorem pre (triple : Triple P m Q C) (h : ∀ s, P' s → P s) : Triple P' m Q C :=
  triple.conseq h (fun _ _ h => h) fun _ h => h

theorem ite {c : Prop} [Decidable c] {m' : Interruptible σ α}
    (yes : c → Triple P m Q C) (no : ¬ c → Triple P m' Q C) :
    Triple P (if c then m else m') Q C := by
  split
  · next h => exact yes h
  · next h => exact no h

/-- A fact about the past that the precondition records. -/
theorem lift {φ : Prop} (triple : φ → Triple P m Q C) : Triple (fun s => P s ∧ φ) m Q C :=
  fun s hs => triple hs.2 s hs.1

/-- An operation that reports an error code, the code checked at once: a nonzero
code ends the computation, zero continues it. -/
theorem check {m : Interruptible σ Nat} {Q : Nat → σ → Prop} {leave : Nat → β}
    {k : Nat → Interruptible σ β} (first : Triple P m Q C)
    (stop : ∀ code, code ≠ 0 → ∀ s, Q code s → R (leave code) s)
    (rest : Triple (Q 0) (k 0) R C) :
    Triple P (m >>= fun code => if code ≠ 0 then Pure.pure (leave code) else k code) R C := by
  refine first.bind fun code => Triple.ite (fun hcode => ?_) (fun hcode => ?_)
  · exact Triple.pure (stop code hcode)
  · obtain rfl : code = 0 := not_not.mp hcode
    exact rest

/-- Reading the store: the continuation starts in the store it was given. -/
theorem get {k : σ → Interruptible σ β}
    (rest : ∀ s, P s → Triple (fun t => t = s) (k s) R C) : Triple P (MonadState.get >>= k) R C := by
  intro s hs
  exact rest s hs s rfl

end Triple

end UBoot.Lib
