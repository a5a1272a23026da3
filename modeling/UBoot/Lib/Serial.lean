/-
# Programs that read a stream

A program with a state reads a stream item by item. It gives a result, or fails, or waits
because the stream so far has ended. What it does once it does not wait is not changed by
what comes later in the stream: such programs are `Local`, and are put together from local
ones.
-/

import Mathlib.Data.List.Basic

namespace UBoot.Lib

variable {σ β α γ : Type}

/-- What comes of reading a stream. -/
inductive Read (σ β α : Type) where
  | wait
  | fail (s : σ) (rest : List β)
  | ok (a : α) (s : σ) (rest : List β)

/-- The same with more behind. -/
def Read.extend (r : Read σ β α) (extra : List β) : Read σ β α :=
  match r with
  | .wait => .wait
  | .fail s rest => .fail s (rest ++ extra)
  | .ok a s rest => .ok a s (rest ++ extra)

/-- What a reader sees of it, without the state. -/
def Read.outcome (r : Read σ β α) : Option (Option α × List β) :=
  match r with
  | .wait => none
  | .fail _ rest => some (none, rest)
  | .ok a _ rest => some (some a, rest)

/-- A program that reads items of type `β`. -/
def Serial (σ β α : Type) := σ → List β → Read σ β α

namespace Serial

/-- Runs a program, and another one with its result. -/
def bind (p : Serial σ β α) (k : α → Serial σ β γ) : Serial σ β γ := fun s stream =>
  match p s stream with
  | .wait => .wait
  | .fail s rest => .fail s rest
  | .ok a s rest => k a s rest

instance instMonad : Monad (Serial σ β) where
  pure a s stream := .ok a s stream
  bind := bind

/-- The next item. -/
def getc : Serial σ β β := fun s stream =>
  match stream with
  | [] => .wait
  | c :: rest => .ok c s rest

/-- Failure. -/
def fail : Serial σ β α := fun s stream => .fail s stream

/-- Changes the state. -/
def modify (f : σ → σ) : Serial σ β Unit := fun s stream => .ok () (f s) stream

section Run

variable {p : Serial σ β α} {k : α → Serial σ β γ} {s s' : σ} {stream rest : List β}

@[simp]
theorem pure_run (a : α) : (Pure.pure a : Serial σ β α) s stream = .ok a s stream := rfl

@[simp]
theorem fail_run : (fail : Serial σ β α) s stream = .fail s stream := rfl

@[simp]
theorem modify_run (f : σ → σ) : (modify f : Serial σ β Unit) s stream = .ok () (f s) stream := rfl

@[simp]
theorem getc_run (c : β) : (getc : Serial σ β β) s (c :: rest) = .ok c s rest := rfl

theorem bind_of_ok {a : α} (h : p s stream = .ok a s' rest) : (p >>= k) s stream = k a s' rest := by
  show bind p k s stream = _
  rw [bind, h]

theorem bind_of_fail (h : p s stream = .fail s' rest) : (p >>= k) s stream = .fail s' rest := by
  show bind p k s stream = _
  rw [bind, h]

theorem bind_of_wait (h : p s stream = .wait) : (p >>= k) s stream = .wait := by
  show bind p k s stream = _
  rw [bind, h]

end Run

/-- What a program does is not changed by what comes later in the stream. -/
def Local (p : Serial σ β α) : Prop :=
  ∀ s stream extra, p s stream ≠ .wait → p s (stream ++ extra) = (p s stream).extend extra

namespace Local

theorem pure (a : α) : Local (Pure.pure a : Serial σ β α) := fun _ _ _ _ => rfl

theorem fail : Local (Serial.fail : Serial σ β α) := fun _ _ _ _ => rfl

theorem modify (f : σ → σ) : Local (Serial.modify f : Serial σ β Unit) := fun _ _ _ _ => rfl

theorem getc : Local (Serial.getc : Serial σ β β) := by
  intro s stream extra h
  cases stream with
  | nil => exact absurd rfl h
  | cons c rest => rfl

theorem bind {p : Serial σ β α} {k : α → Serial σ β γ} (hp : Local p) (hk : ∀ a, Local (k a)) :
    Local (p >>= k) := by
  intro s stream extra h
  have hp := hp s stream extra
  show Serial.bind p k s (stream ++ extra) = (Serial.bind p k s stream).extend extra
  have h : Serial.bind p k s stream ≠ .wait := h
  rw [Serial.bind] at h ⊢
  rw [Serial.bind]
  cases hrun : p s stream with
  | wait => rw [hrun] at h; exact absurd rfl h
  | fail s' rest => rw [hp (by rw [hrun]; simp), hrun]; rfl
  | ok a s' rest =>
      rw [hrun] at h
      rw [hp (by rw [hrun]; simp), hrun]
      exact hk a s' rest extra h

theorem ite {c : Prop} [Decidable c] {p q : Serial σ β α} (hp : Local p) (hq : Local q) :
    Local (if c then p else q) := by
  split
  · exact hp
  · exact hq

end Local

/-- What a program does to its state is in a relation, whether it fails or not. -/
structure Keeps (R : σ → σ → Prop) (p : Serial σ β α) : Prop where
  fail : ∀ s stream s' rest, p s stream = .fail s' rest → R s s'
  ok : ∀ s stream a s' rest, p s stream = .ok a s' rest → R s s'

namespace Keeps

variable {R : σ → σ → Prop}

theorem pure (refl : ∀ s, R s s) (a : α) : Keeps R (Pure.pure a : Serial σ β α) where
  fail := by simp
  ok := by
    rintro s stream a' s' rest h
    obtain ⟨-, rfl, -⟩ := Read.ok.inj h
    exact refl s

theorem failing (refl : ∀ s, R s s) : Keeps R (Serial.fail : Serial σ β α) where
  fail := by
    rintro s stream s' rest h
    obtain ⟨rfl, -⟩ := Read.fail.inj h
    exact refl s
  ok := by simp

theorem modify {f : σ → σ} (h : ∀ s, R s (f s)) : Keeps R (Serial.modify f : Serial σ β Unit) where
  fail := by simp
  ok := by
    rintro s stream a s' rest run
    obtain ⟨-, rfl, -⟩ := Read.ok.inj run
    exact h s

theorem getc (refl : ∀ s, R s s) : Keeps R (Serial.getc : Serial σ β β) where
  fail := by rintro s (_ | ⟨c, stream⟩) s' rest h <;> simp [Serial.getc] at h
  ok := by
    rintro s (_ | ⟨c, stream⟩) a s' rest h
    · simp [Serial.getc] at h
    · obtain ⟨-, rfl, -⟩ := Read.ok.inj h
      exact refl s

theorem bind (trans : ∀ s t u, R s t → R t u → R s u) {p : Serial σ β α} {k : α → Serial σ β γ}
    (hp : Keeps R p) (hk : ∀ a, Keeps R (k a)) : Keeps R (p >>= k) where
  fail := by
    intro s stream s' rest h
    have h : Serial.bind p k s stream = .fail s' rest := h
    rw [Serial.bind] at h
    cases hrun : p s stream with
    | wait => rw [hrun] at h; simp at h
    | fail t mid =>
        rw [hrun] at h
        obtain ⟨rfl, -⟩ := Read.fail.inj h
        exact hp.fail _ _ _ _ hrun
    | ok a t mid =>
        rw [hrun] at h
        exact trans _ _ _ (hp.ok _ _ _ _ _ hrun) ((hk a).fail _ _ _ _ h)
  ok := by
    intro s stream c s' rest h
    have h : Serial.bind p k s stream = .ok c s' rest := h
    rw [Serial.bind] at h
    cases hrun : p s stream with
    | wait => rw [hrun] at h; simp at h
    | fail t mid => rw [hrun] at h; simp at h
    | ok a t mid =>
        rw [hrun] at h
        exact trans _ _ _ (hp.ok _ _ _ _ _ hrun) ((hk a).ok _ _ _ _ _ h)

theorem ite {c : Prop} [Decidable c] {p q : Serial σ β α} (hp : Keeps R p) (hq : Keeps R q) :
    Keeps R (if c then p else q) := by
  split
  · exact hp
  · exact hq

end Keeps

/-- How far a program reads, and what it gives, does not depend on its state. -/
def Oblivious (p : Serial σ β α) : Prop :=
  ∀ s t stream, (p s stream).outcome = (p t stream).outcome

namespace Oblivious

theorem pure (a : α) : Oblivious (Pure.pure a : Serial σ β α) := fun _ _ _ => rfl

theorem fail : Oblivious (Serial.fail : Serial σ β α) := fun _ _ _ => rfl

theorem modify (f : σ → σ) : Oblivious (Serial.modify f : Serial σ β Unit) := fun _ _ _ => rfl

theorem getc : Oblivious (Serial.getc : Serial σ β β) := by
  intro s t stream
  cases stream <;> rfl

theorem bind {p : Serial σ β α} {k : α → Serial σ β γ} (hp : Oblivious p)
    (hk : ∀ a, Oblivious (k a)) : Oblivious (p >>= k) := by
  intro s t stream
  have same := hp s t stream
  show (Serial.bind p k s stream).outcome = (Serial.bind p k t stream).outcome
  rw [Serial.bind, Serial.bind]
  cases hs : p s stream with
  | wait => cases ht : p t stream <;> simp_all [Read.outcome]
  | fail s' rest => cases ht : p t stream <;> simp_all [Read.outcome]
  | ok a s' rest =>
      cases ht : p t stream with
      | wait => simp [hs, ht, Read.outcome] at same
      | fail t' rest' => simp [hs, ht, Read.outcome] at same
      | ok a' t' rest' =>
          obtain ⟨rfl, rfl⟩ : a = a' ∧ rest = rest' := by
            simpa [hs, ht, Read.outcome] using same
          exact hk a s' t' rest

theorem ite {c : Prop} [Decidable c] {p q : Serial σ β α} (hp : Oblivious p)
    (hq : Oblivious q) : Oblivious (if c then p else q) := by
  split
  · exact hp
  · exact hq

end Oblivious

end Serial

end UBoot.Lib
