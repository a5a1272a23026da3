/-
# Tables of terminated strings

A list of non-empty strings, none of which contains the terminator, is stored by
writing each string with a terminator behind it and one more terminator at the
end. Inside such a table no two terminators are adjacent. A scan for the first
such pair therefore finds the end of the table, and a loop that moves bytes until
it has moved such a pair moves the table as a whole.
-/

import Mathlib.Data.List.Chain

namespace UBoot.Lib

variable {α : Type*} {nul : α}

/-- The strings one after another, each with its terminator. -/
def terminated (nul : α) (strings : List (List α)) : List α :=
  strings.flatMap (· ++ [nul])

@[simp]
theorem terminated_nil : terminated nul [] = [] := rfl

@[simp]
theorem terminated_cons (s : List α) (strings : List (List α)) :
    terminated nul (s :: strings) = s ++ nul :: terminated nul strings := by
  simp [terminated]

@[simp]
theorem terminated_append (first second : List (List α)) :
    terminated nul (first ++ second) = terminated nul first ++ terminated nul second := by
  simp [terminated]

/-- No two adjacent entries are both the terminator. -/
def NoPair (nul : α) (l : List α) : Prop :=
  l.IsChain fun a b => ¬ (a = nul ∧ b = nul)

theorem noPair_of_notMem {s : List α} (h : nul ∉ s) : NoPair nul s := by
  induction s with
  | nil => exact List.isChain_nil
  | cons a s ih =>
      refine List.isChain_cons.mpr ⟨fun _ _ hab => h (by simp [hab.1]), ih fun hs => h ?_⟩
      exact List.mem_cons_of_mem _ hs

/-- In a table of non-empty strings terminators stand alone. -/
theorem noPair_terminated {strings : List (List α)} (h : ∀ s ∈ strings, nul ∉ s ∧ s ≠ []) :
    NoPair nul (terminated nul strings) := by
  induction strings with
  | nil => exact List.isChain_nil
  | cons s strings ih =>
      obtain ⟨hs, hne⟩ := h s List.mem_cons_self
      have rest := ih fun t ht => h t (List.mem_cons_of_mem _ ht)
      rw [terminated_cons, NoPair, List.isChain_append]
      refine ⟨noPair_of_notMem hs, ?_, fun x hx y _ hxy => ?_⟩
      · rw [← List.singleton_append, List.isChain_append]
        refine ⟨List.isChain_singleton _, rest, fun x _ y hy hxy => ?_⟩
        cases strings with
        | nil => simp at hy
        | cons t strings =>
            obtain ⟨ht, htne⟩ := h t (by simp)
            obtain ⟨c, t, rfl⟩ := List.exists_cons_of_ne_nil htne
            simp only [terminated_cons, List.cons_append, List.head?_cons, Option.mem_some_iff] at hy
            exact ht (by simp [hy, hxy.2])
      · exact hs (hxy.1 ▸ List.mem_of_mem_getLast? hx)

/-- A table that is not empty ends with a terminator. -/
theorem exists_terminated_eq_append (nul : α) {strings : List (List α)} (h : strings ≠ []) :
    ∃ body, terminated nul strings = body ++ [nul] := by
  obtain ⟨init, last, rfl⟩ := List.eq_nil_or_concat strings |>.resolve_left h
  exact ⟨terminated nul init ++ last, by simp⟩

end UBoot.Lib
