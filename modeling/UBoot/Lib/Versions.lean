/-
# The latest of several versions

Records carry a version, and of those that are about the same thing the latest one
counts. A loop finds it in any order, by keeping what it saw last at a version that is
not smaller; in a list sorted by version it is the last one.
-/

import Mathlib.Data.List.Basic
import Mathlib.Order.Defs.LinearOrder
import Mathlib.Order.Basic
import Mathlib.Order.Lattice

namespace UBoot.Lib

variable {α β κ : Type*} [LinearOrder κ] (version : α → κ)

/-- `a` is a record about `S`, and no other one is later. -/
structure IsLatest (S : α → Prop) (records : List α) (a : α) : Prop where
  mem : a ∈ records
  about : S a
  latest : ∀ b ∈ records, S b → version b ≤ version a

/-- Records about the same thing have different versions. -/
def Distinct (S : α → Prop) (records : List α) : Prop :=
  ∀ a ∈ records, ∀ b ∈ records, S a → S b → version a = version b → a = b

variable {version} {S : α → Prop} {records : List α}

theorem IsLatest.unique (distinct : Distinct version S records) {a b : α}
    (ha : IsLatest version S records a) (hb : IsLatest version S records b) : a = b :=
  distinct a ha.mem b hb.mem ha.about hb.about
    (le_antisymm (hb.latest a ha.mem ha.about) (ha.latest b hb.mem hb.about))

theorem IsLatest.perm {records' : List α} (h : records.Perm records') {a : α}
    (ha : IsLatest version S records a) : IsLatest version S records' a :=
  ⟨h.mem_iff.mp ha.mem, ha.about, fun b hb => ha.latest b (h.mem_iff.mpr hb)⟩

theorem exists_isLatest {a : α} (mem : a ∈ records) (about : S a) :
    ∃ b, IsLatest version S records b := by
  induction records generalizing a with
  | nil => cases mem
  | cons first records ih =>
      by_cases hrest : ∃ b ∈ records, S b
      · obtain ⟨b, hb, hSb⟩ := hrest
        obtain ⟨c, hc⟩ := ih hb hSb
        by_cases hlater : S first ∧ version c < version first
        · refine ⟨first, List.mem_cons_self, hlater.1, ?_⟩
          intro d hd hSd
          rw [List.mem_cons] at hd
          obtain rfl | hd := hd
          · exact le_rfl
          · exact (hc.latest d hd hSd).trans hlater.2.le
        · refine ⟨c, List.mem_cons_of_mem _ hc.mem, hc.about, ?_⟩
          intro d hd hSd
          rw [List.mem_cons] at hd
          obtain rfl | hd := hd
          · exact not_lt.mp fun hlt => hlater ⟨hSd, hlt⟩
          · exact hc.latest d hd hSd
      · refine ⟨a, mem, about, ?_⟩
        intro b hb hSb
        have only (d : α) (hd : d ∈ first :: records) (hSd : S d) : d = first := by
          rw [List.mem_cons] at hd
          exact hd.resolve_right fun hd => hrest ⟨d, hd, hSd⟩
        rw [only b hb hSb, only a mem about]

/-! ## The loop over all records -/

/-- The loop that keeps the value of the latest record, the last one of those at a
version. -/
def keepLatest (version : α → κ) (S : α → Prop) [DecidablePred S] (value : α → β) :
    κ → β → List α → β
  | _, kept, [] => kept
  | v, kept, a :: records =>
      if S a ∧ v ≤ version a then keepLatest version S value (version a) (value a) records
      else keepLatest version S value v kept records

section Loop

variable [DecidablePred S] {value : α → β}

/-- A record that the loop does not keep leaves what is kept. -/
theorem keepLatest_of_none {v : κ} {kept : β} (h : ∀ a ∈ records, S a → version a < v) :
    keepLatest version S value v kept records = kept := by
  induction records with
  | nil => rfl
  | cons a records ih =>
      rw [keepLatest, if_neg]
      · exact ih fun b hb => h b (List.mem_cons_of_mem _ hb)
      · rintro ⟨hS, hle⟩
        exact absurd (h a List.mem_cons_self hS) (not_lt.mpr hle)

/-- With different versions, the loop ends with the latest record. -/
theorem keepLatest_of_isLatest (distinct : Distinct version S records) {a : α}
    (ha : IsLatest version S records a) {v : κ} (hv : v ≤ version a) (kept : β) :
    keepLatest version S value v kept records = value a := by
  induction records generalizing v kept with
  | nil => cases ha.mem
  | cons first records ih =>
      have distinct' : Distinct version S records := fun b hb c hc =>
        distinct b (List.mem_cons_of_mem _ hb) c (List.mem_cons_of_mem _ hc)
      rw [keepLatest]
      by_cases hmem : a ∈ records
      · have rest : IsLatest version S records a :=
          ⟨hmem, ha.about, fun b hb => ha.latest b (List.mem_cons_of_mem _ hb)⟩
        split
        · rename_i hfirst
          exact ih distinct' rest (ha.latest first List.mem_cons_self hfirst.1) _
        · exact ih distinct' rest hv _
      · have hfirst : a = first := (List.mem_cons.mp ha.mem).resolve_right hmem
        subst hfirst
        rw [if_pos ⟨ha.about, hv⟩]
        apply keepLatest_of_none
        intro b hb hS
        apply lt_of_le_of_ne (ha.latest b (List.mem_cons_of_mem _ hb) hS)
        intro heq
        have := distinct b (List.mem_cons_of_mem _ hb) a List.mem_cons_self hS ha.about heq
        exact hmem (this ▸ hb)

end Loop

/-! ## Sorted records -/

/-- The last record about `S`, if there is one. -/
theorem exists_last (S : α → Prop) (records : List α) :
    (∀ a ∈ records, ¬ S a) ∨
      ∃ before a after, records = before ++ a :: after ∧ S a ∧ ∀ b ∈ after, ¬ S b := by
  induction records with
  | nil => exact .inl fun a ha => absurd ha List.not_mem_nil
  | cons first records ih =>
      obtain hnone | ⟨before, a, after, rfl, hS, hlast⟩ := ih
      · by_cases hfirst : S first
        · exact .inr ⟨[], first, records, rfl, hfirst, hnone⟩
        · apply Or.inl
          intro a ha
          rw [List.mem_cons] at ha
          obtain rfl | ha := ha
          · exact hfirst
          · exact hnone a ha
      · exact .inr ⟨first :: before, a, after, rfl, hS, hlast⟩

/-- In a list sorted by version, the last record about `S` is the latest. -/
theorem isLatest_of_sorted {before after : List α} {a : α}
    (sorted : (before ++ a :: after).Pairwise fun b c => version b ≤ version c) (about : S a)
    (last : ∀ b ∈ after, ¬ S b) : IsLatest version S (before ++ a :: after) a := by
  refine ⟨by simp, about, ?_⟩
  intro b hb hS
  rw [List.mem_append, List.mem_cons] at hb
  obtain hb | rfl | hb := hb
  · exact (List.pairwise_append.mp sorted).2.2 b hb a List.mem_cons_self
  · exact le_rfl
  · exact absurd hS (last b hb)

end UBoot.Lib
