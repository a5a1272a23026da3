/-
# Runs of a step relation

A system under verification is a state type, an event type and a relation that
says which event can take which state to which. `Run` is its reflexive
transitive closure, indexed by the events taken. The one induction every safety
result needs is `Run.invariant`; `Run.of_foldlM` turns an evaluated list of
events into a run, so that a concrete execution can be exhibited by computation.
-/

import Mathlib.Logic.Basic
import Mathlib.Logic.Function.Iterate
import Mathlib.Order.WellFounded
import Mathlib.Data.Fintype.Card
import Mathlib.Data.Fintype.EquivFin
import Mathlib.Logic.Relation

namespace UBoot.Lib

universe u v
variable {σ : Type u} {ε : Type v}

/-- `Run step s events t`: taking `events` in order leads from `s` to `t`. -/
inductive Run (step : σ → ε → σ → Prop) : σ → List ε → σ → Prop
  | nil (s : σ) : Run step s [] s
  | cons {s t u : σ} {e : ε} {events : List ε} :
      step s e t → Run step t events u → Run step s (e :: events) u

namespace Run

variable {step : σ → ε → σ → Prop}

/-- What holds initially and is preserved by every step holds at the end of
every run. -/
theorem invariant {I : σ → Prop} (preserved : ∀ s e t, I s → step s e t → I t)
    {s t : σ} {events : List ε} (run : Run step s events t) (initial : I s) : I t := by
  induction run with
  | nil => exact initial
  | cons taken _ ih => exact ih (preserved _ _ _ initial taken)

/-- A run of a restricted system is a run of the larger one. -/
theorem mono {larger : σ → ε → σ → Prop} (le : ∀ s e t, step s e t → larger s e t)
    {s t : σ} {events : List ε} (run : Run step s events t) : Run larger s events t := by
  induction run with
  | nil => exact .nil _
  | cons taken _ ih => exact .cons (le _ _ _ taken) ih

/-- Runs compose. -/
theorem append {s t u : σ} {first second : List ε} (run : Run step s first t)
    (rest : Run step t second u) : Run step s (first ++ second) u := by
  induction run with
  | nil => exact rest
  | cons taken _ ih => exact .cons taken (ih rest)

/-- Executing a partial step function along a list of events gives a run. -/
theorem of_foldlM {next : σ → ε → Option σ} {s t : σ} {events : List ε}
    (h : events.foldlM next s = some t) : Run (fun s e t => next s e = some t) s events t := by
  induction events generalizing s with
  | nil =>
      obtain rfl : s = t := by simpa using h
      exact .nil s
  | cons e events ih =>
      simp only [List.foldlM_cons, Option.bind_eq_bind, Option.bind_eq_some_iff] at h
      obtain ⟨mid, taken, rest⟩ := h
      exact .cons taken (ih rest)

end Run

end UBoot.Lib

/-!
## Machines

A step function on states, taken again and again. What the steps preserve holds all along a run, and
a run whose steps count down comes to a stop. A run is one of steps that keep a condition; nothing
is claimed of the others.
-/

namespace UBoot.Lib

variable {σ : Type*} {step : σ → σ} {ok inv : σ → Prop}

/-- Every state of the run meets the condition. -/
def Along (step : σ → σ) (ok : σ → Prop) (s : σ) : Prop := ∀ n, ok (step^[n] s)

theorem Along.next {s : σ} (h : Along step ok s) : Along step ok (step s) := fun n => by
  rw [← Function.iterate_succ_apply]
  exact h (n + 1)

/-- What every step preserves that meets the condition holds all along the run. -/
theorem Along.invariant {s : σ} (h : Along step ok s) (hinv : inv s)
    (hstep : ∀ s, inv s → ok s → inv (step s)) : Along step inv s := by
  intro n
  induction n with
  | zero => exact hinv
  | succ n ih =>
      rw [Function.iterate_succ_apply']
      exact hstep _ ih (h n)

/-- A run whose steps count down comes to a stop. -/
theorem Along.stops {s : σ} (inv stopped : σ → Prop) (measure : σ → Nat) (h : Along step ok s)
    (hinv : inv s)
    (hstep : ∀ s, inv s → ok s → inv (step s))
    (hdown : ∀ s, inv s → ok s → ¬stopped s → measure (step s) < measure s) :
    ∃ n, stopped (step^[n] s) := by
  induction hm : measure s using Nat.strong_induction_on generalizing s with
  | _ m ih =>
      by_cases hstop : stopped s
      · exact ⟨0, hstop⟩
      · have hok := h 0
        have hless := hdown s hinv hok hstop
        obtain ⟨n, hn⟩ := ih _ (hm ▸ hless) h.next (hstep s hinv hok) rfl
        exact ⟨n + 1, hn⟩

end UBoot.Lib

/-!
## Walks that come to an end

A relation says which places can follow a place. In a finite set of places, all walks from a place
come to an end exactly if none of them leads into a circle.
-/

namespace UBoot.Lib

open Relation

variable {α : Type*} {follows : α → α → Prop} {a b : α}

/-- Some walk from here comes to a place that it comes to again. -/
def LeadsToCircle (follows : α → α → Prop) (a : α) : Prop :=
  ∃ b, ReflTransGen follows a b ∧ TransGen follows b b

/-- All walks from here come to an end. -/
abbrev Ends (follows : α → α → Prop) (a : α) : Prop := Acc (Function.swap follows) a

theorem Ends.not_circle (h : Ends follows a) : ¬TransGen follows a a := by
  induction h with
  | intro a _ ih =>
      intro circle
      obtain ⟨b, hab, hba⟩ := TransGen.head'_iff.mp circle
      exact ih b hab (TransGen.tail' hba hab)

theorem Ends.of_reflTransGen (h : Ends follows a) (walk : ReflTransGen follows a b) :
    Ends follows b := by
  induction walk with
  | refl => exact h
  | tail _ hbc ih => exact ih.inv hbc

/-- A walk that never ends stays in a finite set, so that it comes to some place again. -/
theorem ends_iff [Finite α] : Ends follows a ↔ ¬LeadsToCircle follows a := by
  constructor
  · rintro hends ⟨b, walk, circle⟩
    exact (hends.of_reflTransGen walk).not_circle circle
  · intro hnone
    let onward (x y : { b // ReflTransGen follows a b }) : Prop := TransGen follows y x
    have : IsTrans _ onward := ⟨fun _ _ _ hxy hyz => hyz.trans hxy⟩
    have : Std.Irrefl onward := ⟨fun x circle => hnone ⟨x, x.2, circle⟩⟩
    have hwf : WellFounded onward := Finite.wellFounded_of_trans_of_irrefl onward
    have hall (x : { b // ReflTransGen follows a b }) : Ends follows x := by
      induction x using hwf.induction with
      | _ x ih =>
          refine ⟨_, fun y hxy => ?_⟩
          exact ih ⟨y, x.2.tail hxy⟩ (.single hxy)
    exact hall ⟨a, .refl⟩

/-! ## Fuel

A walk that branches is computed with some fuel for all of its branches.
-/

theorem mapM_isSome {β γ : Type*} {f : β → Option γ} {l : List β} :
    (l.mapM f).isSome ↔ ∀ x ∈ l, (f x).isSome := by
  induction l with
  | nil => simp
  | cons x l ih =>
      rw [List.mapM_cons, List.forall_mem_cons, ← ih]
      cases f x with
      | none => simp
      | some y => cases l.mapM f <;> simp

/-- Finitely many things that come true in time do so together. -/
theorem exists_forall_of_mono {P : α → Nat → Prop} {l : List α}
    (mono : ∀ x m n, m ≤ n → P x m → P x n) (h : ∀ x ∈ l, ∃ n, P x n) :
    ∃ n, ∀ x ∈ l, P x n := by
  induction l with
  | nil => exact ⟨0, fun x hx => absurd hx List.not_mem_nil⟩
  | cons x l ih =>
      obtain ⟨m, hm⟩ := h x List.mem_cons_self
      obtain ⟨n, hn⟩ := ih fun y hy => h y (List.mem_cons_of_mem _ hy)
      refine ⟨max m n, List.forall_mem_cons.mpr ⟨mono x _ _ (le_max_left m n) hm, fun y hy => ?_⟩⟩
      exact mono y _ _ (le_max_right m n) (hn y hy)

end UBoot.Lib
