/-
# The memory test

One iteration of `do_mem_mtest` in `common/cmd_mem.c`, in the version of `CONFIG_SYS_ALT_MEMTEST`
and in the quick one, on a board with a `long` of 32 bits. Addresses are those of words. The
walking ones of the first version stay in front of the end, and its passes over all words go one
word further.
-/

import UBoot.Lib.Wiring
import Mathlib.Data.BitVec
import Mathlib.Order.Basic

namespace UBoot.Mtest

open UBoot.Lib

abbrev Word := BitVec 32

/-- A range of words, and the word where values are parked. An address of a word has 30 bits. -/
structure Range where
  start : Nat
  stop : Nat
  dummy : Nat
  lt : start < stop
  stop_lt : stop < 2 ^ 30
  dummy_outside : dummy < start ∨ stop ≤ dummy

def Range.len (r : Range) : Nat := r.stop - r.start

/-! ## The version of `CONFIG_SYS_ALT_MEMTEST` -/

def bitpattern : List Word :=
  [0x00000001, 0x00000003, 0x00000007, 0x0000000f, 0x00000005, 0x00000015, 0x00000055, 0xaaaaaaaa]

/-- The values of a loop that shifts until nothing is left, which is so after 32 shifts. -/
def shifts (val : Word) : List Word :=
  ((List.range 32).map fun k => val <<< k).takeWhile (· ≠ 0)

/-- The offsets that are powers of two, from one on. -/
def powers (len offset : Nat) : List Nat :=
  if h : 0 < offset ∧ offset < len then offset :: powers len (2 * offset) else []
termination_by len - offset
decreasing_by omega

section Passes

variable (r : Range)

def dataLine : List (Access Nat Word) :=
  (bitpattern.flatMap shifts).flatMap fun val =>
    [.write r.start val, .write r.dummy (~~~val), .check r.start val,
      .write r.start (~~~val), .write r.dummy val, .check r.start (~~~val)]

def pattern : Word := 0xaaaaaaaa
def anti_pattern : Word := 0x55555555

def addressDefaults : List (Access Nat Word) :=
  (powers r.len 1).map fun offset => .write (r.start + offset) pattern

def addressHigh : List (Access Nat Word) :=
  .write r.start anti_pattern ::
    (powers r.len 1).map (fun offset => .check (r.start + offset) pattern) ++
    [.write r.start pattern]

/-- Of what is read at the tested offset itself, nothing is made. -/
def addressLow : List (Access Nat Word) :=
  (powers r.len 1).flatMap fun test_offset =>
    .write (r.start + test_offset) anti_pattern ::
      ((powers r.len 1).filter (· ≠ test_offset)).map
        (fun offset => .check (r.start + offset) pattern) ++
      [.write (r.start + test_offset) pattern]

def num_words : Nat := r.len + 1

/-- The pattern that goes up from one. -/
def count (offset : Nat) : Word := BitVec.ofNat 32 (offset + 1)

def fill : List (Access Nat Word) :=
  (List.range (num_words r)).flatMap fun offset => [.write (r.start + offset) (count offset)]

def invert : List (Access Nat Word) :=
  (List.range (num_words r)).flatMap fun offset =>
    [.check (r.start + offset) (count offset), .write (r.start + offset) (~~~count offset)]

def zero : List (Access Nat Word) :=
  (List.range (num_words r)).flatMap fun offset =>
    [.check (r.start + offset) (~~~count offset), .write (r.start + offset) 0]

/-- One iteration. -/
def altIteration : List (Access Nat Word) :=
  dataLine r ++ (addressDefaults r ++ addressHigh r ++ addressLow r) ++ (fill r ++ invert r ++ zero r)

/-- So many iterations. -/
def altTest (iterations : Nat) : List (Access Nat Word) :=
  (List.replicate iterations (altIteration r)).flatten

/-! ## The quick version -/

/-- The value after so many times `val += incr`. -/
def val (pattern incr : Word) (k : Nat) : Word := pattern + BitVec.ofNat 32 k * incr

def quickIteration (pattern incr : Word) : List (Access Nat Word) :=
  ((List.range r.len).map fun k => .write (r.start + k) (val pattern incr k)) ++
    (List.range r.len).map fun k => .check (r.start + k) (val pattern incr k)

def quickTest : Nat → Word → Word → List (Access Nat Word)
  | 0, _, _ => []
  | iterations + 1, pattern, incr =>
      quickIteration r pattern incr ++
        quickTest iterations (if pattern &&& 0x80000000 ≠ 0 then -pattern else ~~~pattern) (-incr)

end Passes

/-! ## What is expected -/

/-- A cell that offsets of the range are wired to, or one outside. -/
inductive Cell (γ : Type)
  | inside (c : γ)
  | outside (a : Nat)
  deriving DecidableEq

/-- How the offsets of a range are wired, and which bits of a cell are stuck at which level. -/
structure Faults (γ : Type) where
  wire : Nat → γ
  stuck : γ → Word
  level : γ → Word

section Faults

variable {γ : Type} (f : Faults γ) (r : Range)

def Faults.wiring : Wiring Nat (Cell γ) Word where
  cell a := if r.start ≤ a ∧ a < r.stop then .inside (f.wire (a - r.start)) else .outside a
  hold
    | .inside c, v => v &&& ~~~f.stuck c ||| f.level c &&& f.stuck c
    | .outside _, v => v

/-- Two offsets share a cell, or a bit is stuck. -/
def Faults.Faulty : Prop :=
  (∃ i j, i < r.len ∧ j < r.len ∧ i ≠ j ∧ f.wire i = f.wire j) ∨
    ∃ i < r.len, f.stuck (f.wire i) ≠ 0

end Faults

def Range.Contains (r : Range) (a : Nat) : Prop := r.start ≤ a ∧ a < r.stop

/-- An iteration finds the faults, and both versions write to the range and to the parking word
only. -/
structure Right (r : Range) : Prop where
  finds : ∀ (γ : Type) [DecidableEq γ] (f : Faults γ) (m : Cell γ → Word) (errs : Nat),
    errs < errs + (f.wiring r).errors m (altIteration r) ↔ f.Faulty r
  alt_writes : ∀ iterations a v, .write a v ∈ altTest r iterations → r.Contains a ∨ a = r.dummy
  quick_writes : ∀ iterations pattern incr a v,
    .write a v ∈ quickTest r iterations pattern incr → r.Contains a ∨ a = r.dummy

/-! ## Without faults -/

variable {r : Range}

theorem mem_powers {len offset x : Nat} (h : x ∈ powers len offset) : offset ≤ x ∧ x < len := by
  fun_induction powers len offset with
  | case1 offset hlt ih =>
      obtain rfl | hx := List.mem_cons.mp h
      · exact ⟨le_rfl, hlt.2⟩
      · have := ih hx
        omega
  | case2 offset hge => exact absurd h List.not_mem_nil

section Sound

variable {κ : Type} [DecidableEq κ] {w : Wiring Nat κ Word} {m : κ → Word}

/-- The offsets that are powers of two have the pattern. -/
def Defaults (w : Wiring Nat κ Word) (r : Range) (m : κ → Word) : Prop :=
  ∀ offset ∈ powers r.len 1, w.load m (r.start + offset) = pattern

theorem dataLine_clean (hw : w.Sound) (r : Range) (m : κ → Word) : w.Clean m (dataLine r) := by
  have hne : r.start ≠ r.dummy := by
    have := r.dummy_outside
    have := r.lt
    omega
  refine (Wiring.clean_flatMap (fun _ => True) (fun val _ m _ => ⟨?_, trivial⟩) trivial).1
  simp [hw.load_store, hne]

/-- Comparisons with what is there. -/
theorem checks_clean {xs : List Nat} {v : Word}
    (h : ∀ x ∈ xs, w.load m (r.start + x) = v) :
    w.Clean m (xs.map fun x => .check (r.start + x) v) ∧
      w.run m (xs.map fun x => .check (r.start + x) v) = m := by
  induction xs with
  | nil => exact ⟨rfl, rfl⟩
  | cons x xs ih =>
      rw [List.forall_mem_cons] at h
      rw [List.map_cons, Wiring.clean_check, Wiring.run_check]
      exact ⟨⟨h.1, (ih h.2).1⟩, (ih h.2).2⟩

/-- The same value at some offsets. -/
theorem writes_done (hw : w.Sound) (xs : List Nat) (v : Word) (m : κ → Word) :
    w.Clean m (xs.map fun x => .write (r.start + x) v) ∧ ∀ y, w.load
      (w.run m (xs.map fun x => .write (r.start + x) v)) (r.start + y) =
        if y ∈ xs then v else w.load m (r.start + y) := by
  induction xs generalizing m with
  | nil => exact ⟨rfl, fun y => rfl⟩
  | cons x xs ih =>
      obtain ⟨hclean, hload⟩ := ih (w.store m (r.start + x) v)
      refine ⟨hclean, fun y => ?_⟩
      rw [List.map_cons, Wiring.run_write, hload, hw.load_store]
      grind

/-- A value beside the powers of two, or the pattern. -/
theorem Defaults.store (hw : w.Sound) (offset : Nat) {v : Word} (h : Defaults w r m)
    (hv : offset = 0 ∨ v = pattern) : Defaults w r (w.store m (r.start + offset) v) := by
  intro x hx
  have hpos := (mem_powers hx).1
  rw [hw.load_store]
  split
  · next heq => exact hv.resolve_left (by omega)
  · exact h x hx

theorem addressDefaults_done (hw : w.Sound) (r : Range) (m : κ → Word) :
    w.Clean m (addressDefaults r) ∧ Defaults w r (w.run m (addressDefaults r)) := by
  obtain ⟨hclean, hload⟩ := writes_done hw (powers r.len 1) pattern m
  exact ⟨hclean, fun offset hmem => (hload offset).trans (if_pos hmem)⟩

theorem addressHigh_clean (hw : w.Sound) (h : Defaults w r m) :
    w.Clean m (addressHigh r) ∧ Defaults w r (w.run m (addressHigh r)) := by
  have hanti : Defaults w r (w.store m r.start anti_pattern) := h.store hw 0 (.inl rfl)
  obtain ⟨hclean, hrun⟩ := checks_clean hanti
  rw [addressHigh, List.cons_append, Wiring.clean_write, Wiring.run_write, Wiring.clean_append,
    Wiring.run_append, hrun]
  exact ⟨⟨hclean, rfl⟩, hanti.store hw 0 (.inl rfl)⟩

theorem addressLow_clean (hw : w.Sound) (h : Defaults w r m) : w.Clean m (addressLow r) := by
  refine (Wiring.clean_flatMap (Defaults w r) (fun test_offset _ m h => ?_) h).1
  have hothers : ∀ x ∈ (powers r.len 1).filter (· ≠ test_offset),
      w.load (w.store m (r.start + test_offset) anti_pattern) (r.start + x) = pattern := by
    intro x hx
    rw [List.mem_filter, decide_eq_true_eq] at hx
    rw [hw.load_store, if_neg (by omega), h x hx.1]
  obtain ⟨hclean, hrun⟩ := checks_clean hothers
  rw [List.cons_append, Wiring.clean_write, Wiring.run_write, Wiring.clean_append,
    Wiring.run_append, hrun]
  refine ⟨⟨hclean, rfl⟩, fun x hx => ?_⟩
  rw [Wiring.run_write, Wiring.run_nil, hw.load_store, hw.load_store]
  split
  · rfl
  · exact h x hx

/-- The words of the passes have values. -/
def Filled (w : Wiring Nat κ Word) (r : Range) (value : Nat → Word) (m : κ → Word) : Prop :=
  ∀ offset < num_words r, w.load m (r.start + offset) = value offset

theorem fill_done (hw : w.Sound) (r : Range) (m : κ → Word) :
    w.Clean m (fill r) ∧ Filled w r count (w.run m (fill r)) := by
  refine Wiring.clean_range
    (fun k m => ∀ offset < k, w.load m (r.start + offset) = count offset)
    (fun k _ m h => ⟨rfl, fun offset hlt => ?_⟩) (fun offset hlt => absurd hlt (Nat.not_lt_zero _))
  rw [Wiring.run_write, Wiring.run_nil, hw.load_store]
  split
  · next heq => rw [Nat.add_left_cancel heq]
  · next hne => exact h offset (by omega)

/-- A pass that compares each word with a value and writes another one. -/
theorem pass_done (hw : w.Sound) {old : Nat → Word} (h : Filled w r old m) (new : Nat → Word) :
    w.Clean m ((List.range (num_words r)).flatMap fun offset =>
        [.check (r.start + offset) (old offset), .write (r.start + offset) (new offset)]) ∧
      Filled w r new (w.run m ((List.range (num_words r)).flatMap fun offset =>
        [.check (r.start + offset) (old offset), .write (r.start + offset) (new offset)])) := by
  have hloop := Wiring.clean_range (w := w) (n := num_words r)
    (f := fun offset => [.check (r.start + offset) (old offset),
      .write (r.start + offset) (new offset)])
    (fun k m => ∀ offset < num_words r,
      w.load m (r.start + offset) = if offset < k then new offset else old offset)
    (fun k hk m h => ?_) (fun offset hlt => (h offset hlt).trans (if_neg (Nat.not_lt_zero _)).symm)
  · exact ⟨hloop.1, fun offset hlt => (hloop.2 offset hlt).trans (if_pos hlt)⟩
  · refine ⟨?_, fun offset hlt => ?_⟩
    · rw [Wiring.clean_check]
      exact ⟨(h k hk).trans (if_neg (Nat.lt_irrefl _)), rfl⟩
    · rw [Wiring.run_check, Wiring.run_write, Wiring.run_nil, hw.load_store]
      split
      · next heq =>
          have heq' := Nat.add_left_cancel heq
          rw [heq', if_pos (Nat.lt_succ_self k)]
      · next hne =>
          rw [h offset hlt]
          exact if_congr (by omega) rfl rfl

/-- A sound memory passes. -/
theorem altIteration_clean (hw : w.Sound) (r : Range) (m : κ → Word) :
    w.Clean m (altIteration r) := by
  rw [altIteration]
  simp only [Wiring.clean_append, Wiring.run_append]
  have hdefaults := addressDefaults_done hw r (w.run m (dataLine r))
  have hhigh := addressHigh_clean hw hdefaults.2
  have hfill := fill_done hw r (w.run (w.run (w.run (w.run m (dataLine r)) (addressDefaults r))
    (addressHigh r)) (addressLow r))
  have hinvert := pass_done hw hfill.2 fun offset => ~~~count offset
  have hzero := pass_done hw hinvert.2 fun _ => 0
  exact ⟨⟨dataLine_clean hw r m, ⟨hdefaults.1, hhigh.1⟩, addressLow_clean hw hhigh.2⟩,
    ⟨hfill.1, hinvert.1⟩, hzero.1⟩

end Sound

theorem kept (v level : Word) : v &&& ~~~0#32 ||| level &&& 0#32 = v := by
  ext i hi
  simp only [BitVec.getElem_or, BitVec.getElem_and, BitVec.getElem_not, BitVec.getElem_zero,
    Bool.not_false, Bool.and_true, Bool.and_false, Bool.or_false]

theorem hold_inside {γ : Type} {f : Faults γ} {c : γ} (h : f.stuck c = 0) (v : Word) :
    (f.wiring r).hold (.inside c) v = v := by
  have hhold : (f.wiring r).hold (.inside c) v =
      v &&& ~~~f.stuck c ||| f.level c &&& f.stuck c := rfl
  rw [hhold, h]
  exact kept _ _

theorem sound_of_not_faulty {γ : Type} {f : Faults γ} (h : ¬f.Faulty r) : (f.wiring r).Sound := by
  rw [Faults.Faulty, not_or] at h
  obtain ⟨hwire, hstuck⟩ := h
  have hlen : r.len = r.stop - r.start := rfl
  refine ⟨fun a b heq => ?_, fun a v => ?_⟩
  · simp only [Faults.wiring] at heq
    split at heq
    · next ha =>
        split at heq
        · next hb =>
            by_contra hne
            exact hwire ⟨a - r.start, b - r.start, by omega, by omega, by omega,
              Cell.inside.inj heq⟩
        · exact nomatch heq
    · split at heq
      · exact nomatch heq
      · exact Cell.outside.inj heq
  · cases hcell : (f.wiring r).cell a with
    | outside a => rfl
    | inside c =>
        refine hold_inside ?_ v
        simp only [Faults.wiring] at hcell
        split at hcell
        · next ha =>
            by_contra hne
            rw [← Cell.inside.inj hcell] at hne
            exact hstuck ⟨a - r.start, by omega, hne⟩
        · exact nomatch hcell

/-! ## With faults -/

section Faulty

variable {γ : Type} {f : Faults γ} {m : Cell γ → Word}

theorem cell_inside {i : Nat} (hi : i < r.len) :
    (f.wiring r).cell (r.start + i) = .inside (f.wire i) := by
  have hlen : r.len = r.stop - r.start := rfl
  simp only [Faults.wiring]
  rw [if_pos (by omega), Nat.add_sub_cancel_left]

theorem load_inside {i : Nat} (hi : i < r.len) (m : Cell γ → Word) :
    (f.wiring r).load m (r.start + i) = m (.inside (f.wire i)) &&& ~~~f.stuck (f.wire i) |||
      f.level (f.wire i) &&& f.stuck (f.wire i) := by
  rw [Wiring.load, cell_inside hi]
  rfl

variable [DecidableEq γ]

/-- A bit that is stuck is not what is expected, either before the words are inverted or after. -/
theorem stuck_found {i : Nat} (hi : i < r.len) (h : (f.wiring r).Clean m (altIteration r)) :
    f.stuck (f.wire i) = 0 := by
  have hmem : i ∈ List.range (num_words r) := List.mem_range.mpr (by rw [num_words]; omega)
  have hup : .check (r.start + i) (count i) ∈ invert r :=
    List.mem_flatMap.mpr ⟨i, hmem, .head _⟩
  have hdown : .check (r.start + i) (~~~count i) ∈ zero r :=
    List.mem_flatMap.mpr ⟨i, hmem, .head _⟩
  obtain ⟨m₁, hload₁⟩ := h.exists_load (List.mem_append_right _
    (List.mem_append_left _ (List.mem_append_right _ hup)))
  obtain ⟨m₂, hload₂⟩ := h.exists_load (List.mem_append_right _ (List.mem_append_right _ hdown))
  rw [load_inside hi] at hload₁ hload₂
  rw [← hload₁] at hload₂
  refine BitVec.eq_of_getElem_eq fun k hk => ?_
  have hbit := congrArg (fun v : Word => v[k]) hload₂
  simp only [BitVec.getElem_or, BitVec.getElem_and, BitVec.getElem_not] at hbit
  cases hset : (f.stuck (f.wire i))[k] with
  | false => exact (BitVec.getElem_zero hk).symm
  | true =>
      rw [hset] at hbit
      simp at hbit

/-- In front of the round of a later offset with another cell, the inverted value is there. -/
theorem inverted_kept {i : Nat} (hi : i < r.len) (hstuck : f.stuck (f.wire i) = 0) {d : Nat}
    (hd : i + 1 + d ≤ r.len) (hother : ∀ k, i < k → k < i + 1 + d → f.wire k ≠ f.wire i) :
    (f.wiring r).load ((f.wiring r).run m ((List.range (i + 1 + d)).flatMap fun offset =>
      [.check (r.start + offset) (count offset),
        .write (r.start + offset) (~~~count offset)])) (r.start + i) = ~~~count i := by
  induction d with
  | zero =>
      rw [Nat.add_zero, List.range_succ, List.flatMap_append, List.flatMap_singleton,
        Wiring.run_append, Wiring.run_check, Wiring.run_write, Wiring.run_nil,
        Wiring.load_store_self, cell_inside hi, hold_inside hstuck]
  | succ d ih =>
      rw [← Nat.add_assoc, List.range_succ, List.flatMap_append, List.flatMap_singleton,
        Wiring.run_append, Wiring.run_check, Wiring.run_write, Wiring.run_nil,
        Wiring.load_store_of_ne]
      · exact ih (by omega) fun k hk hlt => hother k hk (by omega)
      · rw [cell_inside hi, cell_inside (by omega)]
        exact fun heq => hother _ (by omega) (by omega) (Cell.inside.inj heq).symm

theorem not_count_ne {i j : Nat} (hi : i < 2 ^ 30) (hj : j < 2 ^ 30) : ~~~count i ≠ count j := by
  intro heq
  have hnat := congrArg BitVec.toNat heq
  rw [BitVec.toNat_not, count, count, BitVec.toNat_ofNat, BitVec.toNat_ofNat,
    Nat.mod_eq_of_lt (by omega), Nat.mod_eq_of_lt (by omega)] at hnat
  omega

/-- Two offsets with one cell: behind the inversion at the first of them, the second one does not
have its value any more. -/
theorem shared_found (h : (f.wiring r).Clean m (altIteration r)) {i j : Nat} (hlt : i < j)
    (hj : j < r.len) : f.wire j ≠ f.wire i := by
  induction hn : j - i using Nat.strong_induction_on generalizing j with
  | _ n ih =>
      intro heq
      have hother : ∀ k, i < k → k < i + 1 + (j - i - 1) → f.wire k ≠ f.wire i :=
        fun k hk hkj => ih (k - i) (by omega) hk (by omega) rfl
      have hstop : i + 1 + (j - i - 1) = j := by omega
      have hi : i < r.len := by omega
      have hpasses := (Wiring.clean_append.mp h).2
      have hinvert := (Wiring.clean_append.mp (Wiring.clean_append.mp hpasses).1).2
      have hround := hinvert.round (k := j) (by rw [num_words]; omega)
      rw [Wiring.clean_check] at hround
      have hkept := inverted_kept (m := (f.wiring r).run ((f.wiring r).run m (dataLine r ++
        (addressDefaults r ++ addressHigh r ++ addressLow r))) (fill r)) hi (stuck_found hi h)
        (d := j - i - 1) (by omega) hother
      have hsame (m : Cell γ → Word) :
          (f.wiring r).load m (r.start + j) = (f.wiring r).load m (r.start + i) := by
        rw [load_inside hi, load_inside hj, heq]
      have hlen : r.len = r.stop - r.start := rfl
      have hstop_lt := r.stop_lt
      rw [hstop] at hkept
      exact not_count_ne (i := i) (j := j) (by omega) (by omega)
        (hkept.symm.trans ((hsame _).symm.trans hround.1))

end Faulty

theorem finds {γ : Type} [DecidableEq γ] (f : Faults γ) (m : Cell γ → Word) (errs : Nat) :
    errs < errs + (f.wiring r).errors m (altIteration r) ↔ f.Faulty r := by
  rw [Nat.lt_add_right_iff_pos, Nat.pos_iff_ne_zero]
  constructor
  · intro herrors
    by_contra hnot
    exact herrors (altIteration_clean (sound_of_not_faulty hnot) r m)
  · rintro (⟨i, j, hi, hj, hne, heq⟩ | ⟨i, hi, hstuck⟩) hclean
    · obtain hlt | hgt := Nat.lt_or_gt_of_ne hne
      · exact shared_found hclean hlt hj heq.symm
      · exact shared_found hclean hgt hi heq
    · exact hstuck (stuck_found hi hclean)

/-! ## What is written -/

theorem contains_add {i : Nat} (h : i < r.len) : r.Contains (r.start + i) := by
  have hlen : r.len = r.stop - r.start := rfl
  exact ⟨Nat.le_add_right _ _, by omega⟩

theorem contains_start (r : Range) : r.Contains r.start := ⟨Nat.le_refl _, r.lt⟩

theorem write_dataLine {a : Nat} {v : Word} (h : .write a v ∈ dataLine r) :
    r.Contains a ∨ a = r.dummy := by
  obtain ⟨val, -, h⟩ := List.mem_flatMap.mp h
  simp only [List.mem_cons, Access.write.injEq, reduceCtorEq, List.not_mem_nil, false_or,
    or_false] at h
  obtain ⟨rfl, -⟩ | ⟨rfl, -⟩ | ⟨rfl, -⟩ | ⟨rfl, -⟩ := h
  · exact .inl (contains_start r)
  · exact .inr rfl
  · exact .inl (contains_start r)
  · exact .inr rfl

/-- The walking ones stay in front of the end. -/
theorem write_address {a : Nat} {v : Word}
    (h : .write a v ∈ addressDefaults r ++ addressHigh r ++ addressLow r) : r.Contains a := by
  simp only [addressDefaults, addressHigh, addressLow, List.mem_append, List.mem_map,
    List.mem_flatMap, List.mem_cons, Access.write.injEq, reduceCtorEq, and_false, exists_false,
    List.not_mem_nil, or_false] at h
  obtain (⟨x, hx, rfl, -⟩ | ⟨rfl, -⟩ | ⟨rfl, -⟩) | ⟨x, hx, ⟨rfl, -⟩ | ⟨rfl, -⟩⟩ := h
  · exact contains_add (mem_powers hx).2
  · exact contains_start r
  · exact contains_start r
  · exact contains_add (mem_powers hx).2
  · exact contains_add (mem_powers hx).2

theorem write_passes {a : Nat} {v : Word} (h : .write a v ∈ fill r ++ invert r ++ zero r) :
    r.Contains a ∨ a = r.stop := by
  simp only [fill, invert, zero, List.mem_append, List.mem_flatMap, List.mem_cons,
    Access.write.injEq, reduceCtorEq, List.not_mem_nil, or_false, false_or, List.mem_range] at h
  have hoffset : ∃ x < num_words r, a = r.start + x := by
    obtain (⟨x, hx, rfl, -⟩ | ⟨x, hx, rfl, -⟩) | ⟨x, hx, rfl, -⟩ := h
    · exact ⟨x, hx, rfl⟩
    · exact ⟨x, hx, rfl⟩
    · exact ⟨x, hx, rfl⟩
  obtain ⟨x, hx, rfl⟩ := hoffset
  have hlen : r.len = r.stop - r.start := rfl
  have hlt := r.lt
  rw [num_words] at hx
  by_cases hin : x < r.len
  · exact .inl (contains_add hin)
  · exact .inr (by omega)

/-- An iteration goes one word too far. -/
theorem write_stop (r : Range) : .write r.stop (count r.len) ∈ altIteration r := by
  have hlen : r.len = r.stop - r.start := rfl
  have hlt := r.lt
  have hstop : r.start + r.len = r.stop := by omega
  refine List.mem_append_right _ (List.mem_append_left _ (List.mem_append_left _ ?_))
  refine List.mem_flatMap.mpr ⟨r.len, List.mem_range.mpr (Nat.lt_succ_self _), ?_⟩
  rw [hstop]
  exact .head _

theorem write_quickTest {iterations : Nat} {pattern incr : Word} {a : Nat} {v : Word}
    (h : .write a v ∈ quickTest r iterations pattern incr) : r.Contains a := by
  induction iterations generalizing pattern incr with
  | zero => exact absurd h List.not_mem_nil
  | succ iterations ih =>
      obtain h | h := List.mem_append.mp h
      · simp only [quickIteration, List.mem_append, List.mem_map, List.mem_range,
          Access.write.injEq, reduceCtorEq, and_false, exists_false, or_false] at h
        obtain ⟨k, hk, rfl, -⟩ := h
        exact contains_add hk
      · exact ih h

theorem Right.dummy_eq (h : Right r) : r.dummy = r.stop := by
  have hmem : .write r.stop (count r.len) ∈ altTest r 1 := by
    simpa [altTest] using write_stop r
  obtain hin | heq := h.alt_writes 1 _ _ hmem
  · exact absurd hin.2 (Nat.lt_irrefl _)
  · exact heq.symm

/-- The test is as it should be exactly if values are parked at the word behind the range, which is
written anyway. -/
theorem mtest_right_iff (r : Range) : Right r ↔ r.dummy = r.stop := by
  refine ⟨Right.dummy_eq, fun hdummy => ?_⟩
  refine ⟨fun γ _ f m errs => finds f m errs, fun iterations a v h => ?_,
    fun iterations pattern incr a v h => .inl (write_quickTest h)⟩
  obtain ⟨accesses, hmem, h⟩ := List.mem_flatten.mp h
  rw [List.eq_of_mem_replicate hmem, altIteration] at h
  obtain h | h := List.mem_append.mp h
  · obtain h | h := List.mem_append.mp h
    · exact write_dataLine h
    · exact .inl (write_address h)
  · rw [hdummy]
    exact write_passes h

/-- One word, and values parked elsewhere. -/
theorem not_mtest_right : ¬∀ r, Right r := by
  intro h
  have hstop := (h ⟨0x400, 0x401, 0, by decide, by decide, by decide⟩).dummy_eq
  exact absurd hstop (by decide)

end UBoot.Mtest
