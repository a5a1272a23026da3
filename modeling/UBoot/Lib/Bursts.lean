/-
# Programming in bursts

Cells are programmed in bursts, and what a cell becomes depends on what it was. A burst is
refused when none of its cells would become what is wanted; it is not refused when only
some would not. So this is not always right, and `sound_iff` says when it is.
-/

import Mathlib.Data.List.Nodup
import Mathlib.Logic.Function.Basic

namespace UBoot.Lib

section Bursts

variable {ι V : Type} [DecidableEq ι] [DecidableEq V] (prog : V → V → V) (want : ι → V)

/-- A cell becomes what is wanted. -/
def Takes (s : ι → V) (i : ι) : Prop := prog (s i) (want i) = want i

/-- A cell stays what it is. -/
def Ignores (s : ι → V) (i : ι) : Prop := prog (s i) (want i) = s i

instance instDecidableTakes (s : ι → V) (i : ι) : Decidable (Takes prog want s i) :=
  inferInstanceAs (Decidable (_ = _))

instance instDecidableIgnores (s : ι → V) (i : ι) : Decidable (Ignores prog want s i) :=
  inferInstanceAs (Decidable (_ = _))

/-- Programs the cells of a burst. -/
def programAll (s : ι → V) (burst : List ι) : ι → V :=
  burst.foldl (fun s i => Function.update s i (prog (s i) (want i))) s

/-- Programs bursts until one is refused. -/
def runBursts (s : ι → V) : List (List ι) → Bool × (ι → V)
  | [] => (true, s)
  | burst :: bursts =>
      if ∃ i ∈ burst, Takes prog want s i then runBursts (programAll prog want s burst) bursts
      else (false, s)

/-- Every cell becomes what is wanted. -/
def Clean (s : ι → V) (bursts : List (List ι)) : Prop :=
  ∀ burst ∈ bursts, ∀ i ∈ burst, Takes prog want s i

/-- A burst is refused, and in front of it only cells are programmed that become what is
wanted, or stay what they are. -/
def Stops (s : ι → V) : List (List ι) → Prop
  | [] => False
  | burst :: bursts =>
      (∀ i ∈ burst, ¬ Takes prog want s i) ∨
        (∃ i ∈ burst, Takes prog want s i) ∧
          (∀ i ∈ burst, ¬ Takes prog want s i → Ignores prog want s i) ∧ Stops s bursts

/-- What is expected of programming: all is written, or a cell that does not become what is
wanted is left alone, and that is reported. -/
structure Sound (s : ι → V) (bursts : List (List ι)) : Prop where
  written : (runBursts prog want s bursts).1 = true →
    ∀ burst ∈ bursts, ∀ i ∈ burst, (runBursts prog want s bursts).2 i = want i
  refused : ∀ burst ∈ bursts, ∀ i ∈ burst, ¬ Takes prog want s i →
    (runBursts prog want s bursts).1 = false ∧ (runBursts prog want s bursts).2 i = s i

variable {prog want} {s t : ι → V} {i : ι} {burst : List ι} {bursts : List (List ι)}

omit [DecidableEq V] in
theorem programAll_of_notMem (h : i ∉ burst) : programAll prog want s burst i = s i := by
  induction burst generalizing s with
  | nil => rfl
  | cons j burst ih =>
      rw [List.mem_cons, not_or] at h
      rw [programAll, List.foldl_cons, ← programAll, ih h.2, Function.update_of_ne h.1]

omit [DecidableEq V] in
theorem programAll_of_mem (nodup : burst.Nodup) (h : i ∈ burst) :
    programAll prog want s burst i = prog (s i) (want i) := by
  induction burst generalizing s with
  | nil => simp at h
  | cons j burst ih =>
      rw [List.nodup_cons] at nodup
      rw [programAll, List.foldl_cons, ← programAll]
      rcases List.mem_cons.mp h with rfl | hi
      · rw [programAll_of_notMem nodup.1, Function.update_self]
      · rw [ih nodup.2 hi, Function.update_of_ne]
        rintro rfl
        exact nodup.1 hi

theorem runBursts_of_notMem (h : i ∉ bursts.flatten) :
    (runBursts prog want s bursts).2 i = s i := by
  induction bursts generalizing s with
  | nil => rfl
  | cons burst bursts ih =>
      rw [List.flatten_cons, List.mem_append, not_or] at h
      rw [runBursts]
      split
      · rw [ih h.2, programAll_of_notMem h.1]
      · rfl

/-- The first burst, and the others unless it is refused. -/
theorem runBursts_cons (s : ι → V) (burst : List ι) (bursts : List (List ι)) :
    runBursts prog want s (burst :: bursts) =
      if (runBursts prog want s [burst]).1 then
        runBursts prog want (runBursts prog want s [burst]).2 bursts
      else runBursts prog want s [burst] := by
  simp only [runBursts]
  split <;> rfl

/-- Only what is wanted of the cells that are programmed matters. -/
theorem runBursts_congr {want' : ι → V} (h : ∀ i ∈ bursts.flatten, want i = want' i) :
    runBursts prog want s bursts = runBursts prog want' s bursts := by
  induction bursts generalizing s with
  | nil => rfl
  | cons burst bursts ih =>
      have first : ∀ i ∈ burst, want i = want' i := fun i hi => h i (by simp [hi])
      have same : programAll prog want s burst = programAll prog want' s burst := by
        refine List.foldl_ext _ _ _ fun s i hi => ?_
        rw [first i hi]
      have takes : (∃ i ∈ burst, Takes prog want s i) ↔ ∃ i ∈ burst, Takes prog want' s i :=
        exists_congr fun i => and_congr_right fun hi => by rw [Takes, Takes, first i hi]
      rw [runBursts, runBursts, same, ih fun i hi => h i (List.mem_append_right _ hi)]
      exact if_congr takes rfl rfl

omit [DecidableEq ι] [DecidableEq V] in
theorem Takes.congr (h : s i = t i) : Takes prog want s i ↔ Takes prog want t i := by
  rw [Takes, Takes, h]

omit [DecidableEq ι] [DecidableEq V] in
theorem Clean.congr (h : ∀ i ∈ bursts.flatten, s i = t i) :
    Clean prog want s bursts ↔ Clean prog want t bursts := by
  refine forall₄_congr fun burst hb i hi => Takes.congr (h i ?_)
  exact List.mem_flatten_of_mem hb hi

omit [DecidableEq ι] [DecidableEq V] in
theorem Stops.congr (h : ∀ i ∈ bursts.flatten, s i = t i) :
    Stops prog want s bursts ↔ Stops prog want t bursts := by
  induction bursts with
  | nil => exact Iff.rfl
  | cons burst bursts ih =>
      have first : ∀ i ∈ burst, s i = t i := fun i hi => h i (by simp [hi])
      have rest := ih fun i hi => h i (List.mem_append_right _ hi)
      have takes : ∀ i ∈ burst, (Takes prog want s i ↔ Takes prog want t i) :=
        fun i hi => Takes.congr (first i hi)
      have ignores : ∀ i ∈ burst, (Ignores prog want s i ↔ Ignores prog want t i) :=
        fun i hi => by rw [Ignores, Ignores, first i hi]
      rw [Stops, Stops, rest]
      refine or_congr (forall₂_congr fun i hi => not_congr (takes i hi)) (and_congr ?_ (and_congr_left' ?_))
      · exact exists_congr fun i => and_congr_right fun hi => takes i hi
      · exact forall₂_congr fun i hi => imp_congr (not_congr (takes i hi)) (ignores i hi)

theorem Stops.refused (nodup : bursts.flatten.Nodup) (h : Stops prog want s bursts) :
    (runBursts prog want s bursts).1 = false := by
  induction bursts generalizing s with
  | nil => exact h.elim
  | cons burst bursts ih =>
      rw [List.flatten_cons, List.nodup_append] at nodup
      obtain ⟨-, nodup, apart⟩ := nodup
      rw [runBursts]
      split
      · next takes =>
          rcases h with none | ⟨-, -, h⟩
          · obtain ⟨i, hi, takes⟩ := takes
            exact absurd takes (none i hi)
          · refine ih nodup ((Stops.congr fun i hi => ?_).mpr h)
            exact programAll_of_notMem fun hb => apart i hb i hi rfl
      · rfl

theorem Clean.all (nodup : bursts.flatten.Nodup) (nonempty : ∀ burst ∈ bursts, burst ≠ [])
    (h : Clean prog want s bursts) : (runBursts prog want s bursts).1 = true := by
  induction bursts generalizing s with
  | nil => rfl
  | cons burst bursts ih =>
      rw [List.flatten_cons, List.nodup_append] at nodup
      obtain ⟨-, nodup, apart⟩ := nodup
      obtain ⟨first, nonempty⟩ := List.forall_mem_cons.mp nonempty
      obtain ⟨takes, h⟩ := List.forall_mem_cons.mp h
      obtain ⟨i, hi⟩ := List.exists_mem_of_ne_nil _ first
      rw [runBursts, if_pos ⟨i, hi, takes i hi⟩]
      refine ih nodup nonempty ((Clean.congr fun i hi => ?_).mpr h)
      exact programAll_of_notMem fun hb => apart i hb i hi rfl

/-- The first burst, when it is not refused, and the others. -/
theorem sound_cons (nodup : (burst :: bursts).flatten.Nodup)
    (takes : ∃ i ∈ burst, Takes prog want s i) :
    Sound prog want s (burst :: bursts) ↔
      Sound prog want (programAll prog want s burst) bursts ∧
        ∀ i ∈ burst, ¬ Takes prog want s i →
          (runBursts prog want (programAll prog want s burst) bursts).1 = false ∧
            Ignores prog want s i := by
  rw [List.flatten_cons, List.nodup_append] at nodup
  obtain ⟨nodup, -, apart⟩ := nodup
  have run : runBursts prog want s (burst :: bursts) =
      runBursts prog want (programAll prog want s burst) bursts := if_pos takes
  have first : ∀ i ∈ burst,
      (runBursts prog want (programAll prog want s burst) bursts).2 i = prog (s i) (want i) := by
    intro i hi
    rw [runBursts_of_notMem fun h => apart i hi i h rfl, programAll_of_mem nodup hi]
  have others : ∀ burst' ∈ bursts, ∀ i ∈ burst', programAll prog want s burst i = s i := by
    intro burst' hb i hi
    exact programAll_of_notMem fun h => apart i h i (List.mem_flatten_of_mem hb hi) rfl
  constructor
  · rintro ⟨written, refused⟩
    rw [run] at written refused
    obtain ⟨refused_first, refused⟩ := List.forall_mem_cons.mp refused
    refine ⟨⟨fun all => (List.forall_mem_cons.mp (written all)).2, ?_⟩, ?_⟩
    · intro burst' hb i hi no
      rw [others burst' hb i hi]
      exact refused burst' hb i hi fun h => no ((Takes.congr (others burst' hb i hi)).mpr h)
    · intro i hi no
      obtain ⟨reported, same⟩ := refused_first i hi no
      exact ⟨reported, (first i hi).symm.trans same⟩
  · rintro ⟨sound, inFirst⟩
    constructor
    · rw [run]
      intro all
      refine List.forall_mem_cons.mpr ⟨fun i hi => ?_, sound.written all⟩
      rw [first i hi]
      by_contra no
      exact Bool.noConfusion (all.symm.trans (inFirst i hi no).1)
    · rw [run]
      refine List.forall_mem_cons.mpr ⟨fun i hi no => ?_, fun burst' hb i hi no => ?_⟩
      · obtain ⟨reported, same⟩ := inFirst i hi no
        exact ⟨reported, (first i hi).trans same⟩
      · rw [← others burst' hb i hi]
        exact sound.refused burst' hb i hi fun h => no ((Takes.congr (others burst' hb i hi)).mp h)

/-- Programming in bursts is right when nothing is refused that should be, or when a burst
is refused before a cell is programmed to something else than is wanted. -/
theorem sound_iff (nodup : bursts.flatten.Nodup) (nonempty : ∀ burst ∈ bursts, burst ≠ []) :
    Sound prog want s bursts ↔ Clean prog want s bursts ∨ Stops prog want s bursts := by
  induction bursts generalizing s with
  | nil => exact ⟨fun _ => .inl (by simp [Clean]), fun _ => ⟨by simp, by simp⟩⟩
  | cons burst bursts ih =>
      have nodup' := nodup
      rw [List.flatten_cons, List.nodup_append] at nodup'
      obtain ⟨-, rest, apart⟩ := nodup'
      have others := (List.forall_mem_cons.mp nonempty).2
      by_cases takes : ∃ i ∈ burst, Takes prog want s i
      · have same : ∀ i ∈ bursts.flatten, programAll prog want s burst i = s i :=
          fun i hi => programAll_of_notMem fun hb => apart i hb i hi rfl
        rw [sound_cons nodup takes, ih rest others]
        constructor
        · rintro ⟨clean | stops, first⟩
          · refine .inl (List.forall_mem_cons.mpr ⟨fun i hi => ?_, (Clean.congr same).mp clean⟩)
            by_contra no
            exact Bool.noConfusion ((clean.all rest others).symm.trans (first i hi no).1)
          · exact .inr (.inr ⟨takes, fun i hi no => (first i hi no).2, (Stops.congr same).mp stops⟩)
        · rintro (clean | none | ⟨-, ignores, stops⟩)
          · obtain ⟨first, clean⟩ := List.forall_mem_cons.mp clean
            exact ⟨.inl ((Clean.congr same).mpr clean), fun i hi no => absurd (first i hi) no⟩
          · obtain ⟨i, hi, takes⟩ := takes
            exact absurd takes (none i hi)
          · have stops := (Stops.congr same).mpr stops
            exact ⟨.inr stops, fun i hi no => ⟨stops.refused rest, ignores i hi no⟩⟩
      · have run : runBursts prog want s (burst :: bursts) = (false, s) := if_neg takes
        refine ⟨fun _ => .inr (.inl fun i hi h => takes ⟨i, hi, h⟩), fun _ => ⟨?_, ?_⟩⟩
        · rw [run]
          simp
        · rw [run]
          exact fun _ _ _ _ _ => ⟨rfl, rfl⟩

omit [DecidableEq ι] [DecidableEq V] in
/-- One cell at a time is always right. -/
theorem clean_or_stops_singletons (single : ∀ burst ∈ bursts, ∃ i, burst = [i]) :
    Clean prog want s bursts ∨ Stops prog want s bursts := by
  induction bursts with
  | nil => exact .inl (by simp [Clean])
  | cons burst bursts ih =>
      obtain ⟨⟨i, rfl⟩, others⟩ := List.forall_mem_cons.mp single
      by_cases takes : Takes prog want s i
      · rcases ih others with clean | stops
        · exact .inl (List.forall_mem_cons.mpr ⟨by simpa using takes, clean⟩)
        · refine .inr (.inr ⟨⟨i, by simp, takes⟩, ?_, stops⟩)
          intro j hj no
          obtain rfl : j = i := by simpa using hj
          exact absurd takes no
      · exact .inr (.inl (by simpa using takes))

end Bursts

end UBoot.Lib
