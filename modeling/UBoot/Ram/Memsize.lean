/-
# The size of the memory

`get_ram_size` of `common/memsize.c` on a board with a `long` of 32 bits. Probes are written at the
powers of two from the top down, and what they overwrite is kept on a stack. A probe behind the
installed memory may be a probe at its base. Taking the stack back undoes the probes in any case;
the zero at the base is no probe, and it is taken back only where memory begins again.
-/

import Mathlib.Data.BitVec
import Mathlib.Data.Nat.Log
import Mathlib.Logic.Function.Basic

namespace UBoot.Memsize

abbrev Word := BitVec 32

/-- What is behind the installed memory: the same memory again, or nothing that can be written, with
a constant in every word. -/
inductive Beyond
  | mirror
  | constant (c : Word)
  deriving DecidableEq

/-- A board with `2 ^ installed` words, of which `2 ^ limit` are looked for. The word at the base
may have bits that are stuck: `hold` is what it keeps of what is written to it. -/
structure Board where
  installed : Nat
  limit : Nat
  installed_le : installed ≤ limit
  limit_le : limit ≤ 28
  beyond : Beyond
  not_probe : ∀ c, beyond = .constant c → ∀ i < limit, c ≠ ~~~BitVec.ofNat 32 (2 ^ i)
  hold : Word → Word
  hold_hold : ∀ v, hold (hold v) = hold v

namespace Board

variable (b : Board)

def words : Nat := 2 ^ b.installed

/-- `maxsize`, in bytes -/
def maxsize : Nat := 2 ^ b.limit * 4

/-- The contents of the installed words. -/
def Contents : Type := { m : Nat → Word // b.hold (m 0) = m 0 }

/-- The cell at an index of `base`. -/
def cell (i : Nat) : Option Nat :=
  if i < b.words then some i
  else
    match b.beyond with
    | .mirror => some (i % b.words)
    | .constant _ => none

def floating : Word :=
  match b.beyond with
  | .mirror => 0
  | .constant c => c

/-- `base[i]` -/
def read (m : b.Contents) (i : Nat) : Word := (b.cell i).elim b.floating m.1

/-- A cell is written. -/
def set (m : b.Contents) (i : Nat) (v : Word) : b.Contents :=
  ⟨Function.update m.1 i (if i = 0 then b.hold v else v), by
    by_cases h : i = 0
    · subst h
      rw [Function.update_self, if_pos rfl, b.hold_hold]
    · rw [Function.update_of_ne (Ne.symm h), m.2]⟩

/-- `base[i] = v` -/
def write (m : b.Contents) (i : Nat) (v : Word) : b.Contents :=
  (b.cell i).elim m fun j => b.set m j v

/-- `cnt`, `cnt >> 1` and so on -/
def down (cnt : Nat) : List Nat := if 0 < cnt then cnt :: down (cnt / 2) else []
termination_by cnt

/-- `cnt`, `cnt << 1` and so on below the limit -/
def up (limit cnt : Nat) : List Nat :=
  if 0 < cnt ∧ cnt < limit then cnt :: up limit (2 * cnt) else []
termination_by limit - cnt

/-- `~cnt` -/
def pattern (cnt : Nat) : Word := ~~~BitVec.ofNat 32 cnt

/-- The loop that writes the probes. The last word on the stack is the first of the list. -/
def probe : List Nat → List Word × b.Contents → List Word × b.Contents
  | [], s => s
  | cnt :: counts, (save, m) =>
      probe counts (b.read m cnt :: save, b.write m cnt (pattern cnt))

/-- `*addr = save[--i]` in a loop -/
def restore : List Nat → List Word → b.Contents → b.Contents
  | cnt :: counts, v :: save, m => restore counts save (b.write m cnt v)
  | _, _, m => m

/-- The loop that looks for the probes. -/
def check : List Nat → List Word → b.Contents → Nat × b.Contents
  | cnt :: counts, v :: save, m =>
      if b.read m cnt ≠ pattern cnt then (cnt * 4, b.restore counts save (b.write m cnt v))
      else check counts save (b.write m cnt v)
  | _, _, m => (b.maxsize, m)

def get_ram_size (m : b.Contents) : Nat × b.Contents :=
  let (save, m) := b.probe (down (b.maxsize / 4 / 2)) ([], m)
  let saved := b.read m 0
  let m := b.write m 0 0
  if b.read m 0 ≠ 0 then (0, b.restore (up (b.maxsize / 4) 1) save (b.write m 0 saved))
  else b.check (up (b.maxsize / 4) 1) save m

/-! ## The powers of two -/

def powers (k : Nat) : List Nat := (List.range k).map (2 ^ ·)

theorem mem_powers {k cnt : Nat} : cnt ∈ powers k ↔ ∃ i < k, cnt = 2 ^ i := by
  simp only [powers, List.mem_map, List.mem_range, eq_comm]

theorem up_eq {k i : Nat} (h : i ≤ k) :
    up (2 ^ k) (2 ^ i) = (List.range' i (k - i)).map (2 ^ ·) := by
  obtain ⟨left, rfl⟩ := Nat.exists_eq_add_of_le h
  rw [Nat.add_sub_cancel_left]
  induction left generalizing i with
  | zero => rw [up, if_neg (by simp), List.range'_zero, List.map_nil]
  | succ left ih =>
      have hlt : 2 ^ i < 2 ^ (i + (left + 1)) := Nat.pow_lt_pow_right Nat.one_lt_two (by omega)
      have hnext := ih (i := i + 1) (by omega)
      rw [Nat.add_right_comm i 1 left, Nat.add_assoc, Nat.pow_succ' (m := 2) (n := i)] at hnext
      rw [up, if_pos ⟨Nat.two_pow_pos i, hlt⟩, hnext, List.range'_succ, List.map_cons]

theorem up_limit (k : Nat) : up (2 ^ k) 1 = powers k := by
  have h := up_eq (Nat.zero_le k)
  rw [Nat.pow_zero, Nat.sub_zero] at h
  rw [h, powers, List.range_eq_range']

theorem down_limit (k : Nat) : down (2 ^ k / 2) = (powers k).reverse := by
  induction k with
  | zero => rw [down, if_neg (by decide)]; rfl
  | succ k ih =>
      rw [Nat.pow_succ, Nat.mul_div_cancel _ Nat.two_pos, down, if_pos (Nat.two_pow_pos k), ih,
        powers, powers, List.range_succ, List.map_append, List.reverse_append]
      rfl

theorem pattern_ne_zero {i : Nat} (h : i < 28) : pattern (2 ^ i) ≠ 0 := by
  have hle : 2 ^ i ≤ 2 ^ 28 := Nat.pow_le_pow_right Nat.two_pos h.le
  intro hzero
  have hones := congrArg (fun v => (~~~v).toNat) hzero
  simp only [pattern, BitVec.not_not, BitVec.toNat_ofNat] at hones
  rw [Nat.mod_eq_of_lt (by omega)] at hones
  have : (~~~(0 : Word)).toNat = 2 ^ 32 - 1 := by decide
  omega

/-! ## The probes are undone -/

variable {b} {m : b.Contents} {save : List Word} {counts more : List Nat} {v : Word}

theorem contents_ext {m m' : b.Contents} (h : ∀ i, m.1 i = m'.1 i) : m = m' :=
  Subtype.ext (funext h)

@[simp] theorem set_self (m : b.Contents) (i : Nat) (v : Word) :
    (b.set m i v).1 i = if i = 0 then b.hold v else v := Function.update_self _ _ _

@[simp] theorem set_of_ne {i j : Nat} (h : j ≠ i) : (b.set m i v).1 j = m.1 j :=
  Function.update_of_ne h _ _

theorem cell_zero : b.cell 0 = some 0 := if_pos (Nat.two_pow_pos _)

theorem write_zero : b.write m 0 v = b.set m 0 v := by
  rw [write, cell_zero]
  rfl

/-- What was read is written back. -/
theorem write_back (cnt : Nat) : b.write (b.write m cnt v) cnt (b.read m cnt) = m := by
  rw [write, write, read]
  cases b.cell cnt with
  | none => rfl
  | some i =>
      refine contents_ext fun j => ?_
      change (b.set (b.set m i v) i (m.1 i)).1 j = m.1 j
      by_cases hj : j = i
      · subst hj
        rw [set_self]
        split
        · next hzero =>
            subst hzero
            exact m.2
        · rfl
      · rw [set_of_ne hj, set_of_ne hj]

theorem restore_cons (cnt : Nat) (v : Word) (counts : List Nat) (save : List Word) (m : b.Contents) :
    b.restore (cnt :: counts) (v :: save) m = b.restore counts save (b.write m cnt v) := rfl

/-- Taking the stack back undoes the probes, in the reverse of their order. -/
theorem restore_probe (counts more : List Nat) (save : List Word) (m : b.Contents) :
    b.restore (counts.reverse ++ more) (b.probe counts (save, m)).1
      (b.probe counts (save, m)).2 = b.restore more save m := by
  induction counts generalizing more save m with
  | nil => rfl
  | cons cnt counts ih =>
      rw [List.reverse_cons, List.append_assoc, probe, ih, List.cons_append, List.nil_append,
        restore_cons, write_back]

theorem length_probe (counts : List Nat) (save : List Word) (m : b.Contents) :
    (b.probe counts (save, m)).1.length = counts.length + save.length := by
  induction counts generalizing save m with
  | nil => exact (Nat.zero_add _).symm
  | cons cnt counts ih =>
      rw [probe, ih, List.length_cons, List.length_cons]
      omega

/-- What is left in memory does not depend on where the search ends. -/
theorem check_contents (counts : List Nat) (save : List Word) (m : b.Contents) :
    (b.check counts save m).2 = b.restore counts save m := by
  induction counts generalizing save m with
  | nil => cases save <;> rfl
  | cons cnt counts ih =>
      cases save with
      | nil => rfl
      | cons v save =>
          rw [check, restore_cons]
          split
          · rfl
          · exact ih save _

/-! ## The zero at the base -/

theorem write_set (cnt : Nat) (w : Word) (h : b.cell cnt ≠ some 0) :
    b.write (b.set m 0 v) cnt w = b.set (b.write m cnt w) 0 v := by
  rw [write, write]
  cases hcell : b.cell cnt with
  | none => rfl
  | some i =>
      have hi : i ≠ 0 := by
        rintro rfl
        exact h hcell
      refine contents_ext fun j => ?_
      change (b.set (b.set m 0 v) i w).1 j = (b.set (b.set m i w) 0 v).1 j
      by_cases hj : j = i
      · subst hj
        rw [set_self, set_of_ne hi, set_self]
      · rw [set_of_ne hj]
        by_cases hzero : j = 0
        · subst hzero
          rw [set_self, set_self]
        · rw [set_of_ne hzero, set_of_ne hzero, set_of_ne hj]

/-- The base stays as it is when no probe was there. -/
theorem restore_set_of_not_base (h : ∀ cnt ∈ counts, b.cell cnt ≠ some 0) :
    b.restore counts save (b.set m 0 v) = b.set (b.restore counts save m) 0 v := by
  induction counts generalizing save m with
  | nil => cases save <;> rfl
  | cons cnt counts ih =>
      obtain ⟨hfirst, hrest⟩ := List.forall_mem_cons.mp h
      cases save with
      | nil => rfl
      | cons w save => rw [restore_cons, restore_cons, write_set cnt w hfirst, ih hrest]

/-- The base is restored with a probe that was there. -/
theorem restore_set_of_base (hlength : counts.length ≤ save.length)
    (h : ∃ cnt ∈ counts, b.cell cnt = some 0) :
    b.restore counts save (b.set m 0 v) = b.restore counts save m := by
  induction counts generalizing save m with
  | nil =>
      obtain ⟨cnt, hmem, -⟩ := h
      cases hmem
  | cons cnt counts ih =>
      cases save with
      | nil => cases hlength
      | cons w save =>
          rw [restore_cons, restore_cons]
          by_cases hcell : b.cell cnt = some 0
          · have hover : b.write (b.set m 0 v) cnt w = b.write m cnt w := by
              rw [write, write, hcell]
              refine contents_ext fun j => ?_
              change (b.set (b.set m 0 v) 0 w).1 j = (b.set m 0 w).1 j
              by_cases hj : j = 0
              · subst hj
                rw [set_self, set_self]
              · rw [set_of_ne hj, set_of_ne hj, set_of_ne hj]
            rw [hover]
          · obtain ⟨cnt', hmem, hbase⟩ := h
            obtain rfl | hlater := List.mem_cons.mp hmem
            · exact absurd hbase hcell
            · rw [write_set cnt w hcell]
              exact ih (Nat.le_of_succ_le_succ hlength) ⟨cnt', hlater, hbase⟩

/-! ## The size -/

theorem cell_power_lt {i : Nat} (h : i < b.installed) : b.cell (2 ^ i) = some (2 ^ i) :=
  if_pos (Nat.pow_lt_pow_right Nat.one_lt_two h)

theorem cell_power_ge {i : Nat} (h : b.installed ≤ i) :
    b.cell (2 ^ i) = match b.beyond with
      | .mirror => some 0
      | .constant _ => none := by
  have hle : b.words ≤ 2 ^ i := Nat.pow_le_pow_right Nat.two_pos h
  have hmod : 2 ^ i % b.words = 0 := Nat.mod_eq_zero_of_dvd (Nat.pow_dvd_pow 2 h)
  rw [cell, if_neg (Nat.not_lt.mpr hle), hmod]

/-- A word that is probed at most once holds its probe. -/
theorem probe_kept {j : Nat} (hj : ∀ cnt ∈ counts, b.cell cnt ≠ some j) :
    (b.probe counts (save, m)).2.1 j = m.1 j := by
  induction counts generalizing save m with
  | nil => rfl
  | cons cnt counts ih =>
      obtain ⟨hfirst, hrest⟩ := List.forall_mem_cons.mp hj
      rw [probe, ih hrest, write]
      cases hcell : b.cell cnt with
      | none => rfl
      | some i => exact set_of_ne fun h => hfirst (by rw [hcell, h])

theorem probe_pattern {j : Nat} (hzero : j ≠ 0) (hmem : j ∈ counts) (hnodup : counts.Nodup)
    (hcell : ∀ cnt ∈ counts, b.cell cnt = some j ↔ cnt = j) :
    (b.probe counts (save, m)).2.1 j = pattern j := by
  induction counts generalizing save m with
  | nil => cases hmem
  | cons cnt counts ih =>
      obtain ⟨hnotin, hnodup⟩ := List.nodup_cons.mp hnodup
      obtain ⟨hfirst, hrest⟩ := List.forall_mem_cons.mp hcell
      rw [probe]
      by_cases heq : cnt = j
      · subst heq
        rw [probe_kept fun c hc h => hnotin ((hrest c hc).mp h ▸ hc), write, hfirst.mpr rfl]
        exact (set_self _ _ _).trans (if_neg hzero)
      · have hlater := (List.mem_cons.mp hmem).resolve_left fun h => heq h.symm
        exact ih hlater hnodup hrest

/-- The probes in the installed memory are found. -/
theorem check_installed (hnodup : counts.Nodup) (hlength : (counts ++ more).length ≤ save.length)
    (h : ∀ cnt ∈ counts, cnt ≠ 0 ∧ b.cell cnt = some cnt ∧ m.1 cnt = pattern cnt) :
    ∃ save' m', (b.check (counts ++ more) save m).1 = (b.check more save' m').1 ∧
      more.length ≤ save'.length ∧ m'.1 0 = m.1 0 := by
  induction counts generalizing save m with
  | nil => exact ⟨save, m, rfl, hlength, rfl⟩
  | cons cnt counts ih =>
      obtain ⟨hnotin, hnodup⟩ := List.nodup_cons.mp hnodup
      obtain ⟨⟨hzero, hcell, hpattern⟩, hrest⟩ := List.forall_mem_cons.mp h
      cases save with
      | nil => cases hlength
      | cons v save =>
          have hwrite : b.write m cnt v = b.set m cnt v := by
            rw [write, hcell]
            rfl
          have hread : b.read m cnt = pattern cnt := by
            rw [read, hcell]
            exact hpattern
          have hkept : ∀ c ∈ counts, c ≠ 0 ∧ b.cell c = some c ∧
              (b.write m cnt v).1 c = pattern c := by
            intro c hc
            obtain ⟨hc₀, hccell, hcpattern⟩ := hrest c hc
            have hne : c ≠ cnt := by
              rintro rfl
              exact hnotin hc
            refine ⟨hc₀, hccell, ?_⟩
            rw [hwrite, set_of_ne hne]
            exact hcpattern
          obtain ⟨save', m', heq, hle, hbase⟩ := ih hnodup (Nat.le_of_succ_le_succ hlength) hkept
          refine ⟨save', m', ?_, hle, ?_⟩
          · rw [List.cons_append, check, if_neg (not_not.mpr hread), heq]
          · rw [hbase, hwrite, set_of_ne hzero.symm]

/-- Where nothing is installed there is no probe, if the base is zero. -/
theorem read_beyond {i : Nat} (hle : b.installed ≤ i) (hlt : i < b.limit) (hbase : m.1 0 = 0) :
    b.read m (2 ^ i) ≠ pattern (2 ^ i) := by
  rw [read, cell_power_ge hle]
  cases hbeyond : b.beyond with
  | mirror =>
      have hlimit := b.limit_le
      change m.1 0 ≠ _
      rw [hbase]
      exact (pattern_ne_zero (by omega)).symm
  | constant c =>
      change b.floating ≠ _
      rw [floating, hbeyond]
      exact b.not_probe c hbeyond i hlt

theorem powers_nodup (k : Nat) : (powers k).Nodup :=
  List.nodup_range.map (Nat.pow_right_injective le_rfl)

theorem powers_split {k l : Nat} (h : l ≤ k) :
    powers k = powers l ++ (List.range' l (k - l)).map (2 ^ ·) := by
  obtain ⟨left, rfl⟩ := Nat.exists_eq_add_of_le h
  rw [powers, powers, ← List.map_append, Nat.add_sub_cancel_left, List.range_eq_range',
    List.range_eq_range', ← List.range'_append_1, Nat.zero_add]

/-- The search for the probes ends where nothing is installed. -/
theorem check_size (hbase : m.1 0 = 0) (hlength : b.limit ≤ save.length)
    (hprobes : ∀ i < b.installed, m.1 (2 ^ i) = pattern (2 ^ i)) :
    (b.check (powers b.limit) save m).1 = b.words * 4 := by
  have hle := b.installed_le
  have hcounts : (powers b.limit).length ≤ save.length := by
    rw [powers, List.length_map, List.length_range]
    exact hlength
  have hinstalled : ∀ cnt ∈ powers b.installed,
      cnt ≠ 0 ∧ b.cell cnt = some cnt ∧ m.1 cnt = pattern cnt := by
    intro cnt hcnt
    obtain ⟨i, hi, rfl⟩ := mem_powers.mp hcnt
    exact ⟨(Nat.two_pow_pos i).ne', cell_power_lt hi, hprobes i hi⟩
  rw [powers_split hle] at hcounts ⊢
  obtain ⟨save', m', heq, hlength', hbase'⟩ :=
    check_installed (powers_nodup _) hcounts hinstalled
  rw [heq]
  obtain hall | hmore := Nat.eq_or_lt_of_le hle
  · rw [← hall, Nat.sub_self, List.range'_zero, List.map_nil, check, maxsize, ← hall]
    · rfl
    · nofun
  · obtain ⟨left, hleft⟩ : ∃ left, b.limit - b.installed = left + 1 :=
      ⟨b.limit - b.installed - 1, by omega⟩
    rw [hleft, List.range'_succ, List.map_cons] at hlength' ⊢
    cases save' with
    | nil => cases hlength'
    | cons v save' =>
        rw [check, if_pos (read_beyond le_rfl hmore (hbase'.trans hbase))]
        rfl

/-! ## What is detected, and what is left -/

/-- The size is right, or none where the base does not hold a zero, and memory is what it was. -/
structure Detects (b : Board) (m : b.Contents) : Prop where
  size : (b.get_ram_size m).1 = if b.hold 0 = 0 then b.words * 4 else 0
  contents : (b.get_ram_size m).2 = m

variable (b m)

/-- What the probes leave. -/
def probed : List Word × b.Contents := b.probe (powers b.limit).reverse ([], m)

theorem get_ram_size_eq : b.get_ram_size m =
    if b.hold 0 ≠ 0 then (0, m)
    else b.check (powers b.limit) (b.probed m).1 (b.set (b.probed m).2 0 0) := by
  have hlimit : b.maxsize / 4 = 2 ^ b.limit := Nat.mul_div_cancel _ (by decide)
  have hread : b.read (b.set (b.probed m).2 0 0) 0 = b.hold 0 := by
    rw [read, cell_zero]
    exact (set_self _ _ _).trans (if_pos rfl)
  have hback := write_back (m := (b.probed m).2) (v := 0) 0
  have hundo := restore_probe (powers b.limit).reverse [] [] m
  rw [List.reverse_reverse, List.append_nil] at hundo
  rw [get_ram_size, hlimit, down_limit, up_limit]
  change (if b.read (b.write (b.probed m).2 0 0) 0 ≠ 0 then
      (0, b.restore (powers b.limit) (b.probed m).1
        (b.write (b.write (b.probed m).2 0 0) 0 (b.read (b.probed m).2 0)))
    else b.check (powers b.limit) (b.probed m).1 (b.write (b.probed m).2 0 0)) = _
  rw [hback, write_zero, hread]
  exact if_congr Iff.rfl (congrArg (0, ·) hundo) rfl

variable {b m}

theorem probed_length : (b.probed m).1.length = b.limit := by
  rw [probed, length_probe, List.length_reverse, powers, List.length_map, List.length_range]
  rfl

theorem probed_power {i : Nat} (h : i < b.installed) :
    (b.probed m).2.1 (2 ^ i) = pattern (2 ^ i) := by
  have hpos := Nat.two_pow_pos i
  refine probe_pattern hpos.ne' (List.mem_reverse.mpr (mem_powers.mpr ⟨i, ?_, rfl⟩))
    (List.nodup_reverse.mpr (powers_nodup _)) fun cnt hcnt => ?_
  · exact h.trans_le b.installed_le
  · obtain ⟨j, hj, rfl⟩ := mem_powers.mp (List.mem_reverse.mp hcnt)
    by_cases hlt : j < b.installed
    · rw [cell_power_lt hlt, Option.some.injEq]
    · have hpow : 2 ^ i < 2 ^ j := Nat.pow_lt_pow_right Nat.one_lt_two (by omega)
      rw [cell_power_ge (Nat.le_of_not_lt hlt)]
      cases b.beyond with
      | mirror =>
          rw [Option.some.injEq]
          omega
      | constant c =>
          refine iff_of_false nofun ?_
          omega

theorem size_eq : (b.get_ram_size m).1 = if b.hold 0 = 0 then b.words * 4 else 0 := by
  by_cases hgood : b.hold 0 = 0
  · rw [get_ram_size_eq, if_neg (not_not.mpr hgood), if_pos hgood]
    refine check_size ?_ probed_length.ge fun i hi => ?_
    · rw [set_self, if_pos rfl, hgood]
    · rw [set_of_ne (Nat.two_pow_pos i).ne']
      exact probed_power hi
  · rw [get_ram_size_eq, if_pos hgood, if_neg hgood]

/-- The zero at the base is what is left, unless a probe behind the installed memory was there. -/
theorem contents_eq (hgood : b.hold 0 = 0) : (b.get_ram_size m).2 =
    if b.beyond = .mirror ∧ b.installed < b.limit then m else b.set m 0 0 := by
  have hundo := restore_probe (powers b.limit).reverse [] [] m
  rw [List.reverse_reverse, List.append_nil] at hundo
  rw [get_ram_size_eq, if_neg (not_not.mpr hgood), check_contents]
  split
  · next hmirror =>
      rw [restore_set_of_base]
      · exact hundo
      · rw [probed_length, powers, List.length_map, List.length_range]
      · refine ⟨2 ^ b.installed, mem_powers.mpr ⟨_, hmirror.2, rfl⟩, ?_⟩
        rw [cell_power_ge le_rfl, hmirror.1]
  · next hnot =>
      rw [restore_set_of_not_base]
      · exact congrArg (b.set · 0 0) hundo
      · intro cnt hcnt
        obtain ⟨i, hi, rfl⟩ := mem_powers.mp hcnt
        by_cases hlt : i < b.installed
        · rw [cell_power_lt hlt, Ne, Option.some.injEq]
          exact (Nat.two_pow_pos i).ne'
        · rw [cell_power_ge (Nat.le_of_not_lt hlt)]
          cases hbeyond : b.beyond with
          | mirror => exact absurd ⟨hbeyond, by omega⟩ hnot
          | constant c => nofun

/-- The detection is right except where the word at the base was not zero: it is left zero, unless
the memory begins again behind its end, or does not hold a zero at all. -/
theorem detects_iff : b.Detects m ↔
    b.hold 0 ≠ 0 ∨ m.1 0 = 0 ∨ b.beyond = .mirror ∧ b.installed < b.limit := by
  by_cases hgood : b.hold 0 = 0
  · have hset : b.set m 0 0 = m ↔ m.1 0 = 0 := by
      constructor
      · intro h
        rw [← h, set_self, if_pos rfl, hgood]
      · intro h
        refine contents_ext fun i => ?_
        by_cases hi : i = 0
        · subst hi
          rw [set_self, if_pos rfl, hgood, h]
        · exact set_of_ne hi
    have hright : b.Detects m ↔ (b.get_ram_size m).2 = m :=
      ⟨fun h => h.contents, fun h => ⟨size_eq, h⟩⟩
    rw [hright, contents_eq hgood]
    split
    · next hmirror => exact iff_of_true rfl (.inr (.inr hmirror))
    · next hnot =>
        rw [hset]
        constructor
        · exact fun h => .inr (.inl h)
        · rintro (hbad | h | hmirror)
          · exact absurd hgood hbad
          · exact h
          · exact absurd hmirror hnot
  · refine iff_of_true ⟨size_eq, ?_⟩ (.inl hgood)
    rw [get_ram_size_eq, if_pos hgood]

/-- A board with one word, all of which is looked for. -/
def oneWord : Board where
  installed := 0
  limit := 0
  installed_le := le_rfl
  limit_le := by decide
  beyond := .mirror
  not_probe := nofun
  hold := id
  hold_hold _ := rfl

/-- The word is lost. -/
theorem not_detects : ¬∀ (b : Board) (m : b.Contents), b.Detects m := by
  intro h
  have hcontents := (h oneWord ⟨fun _ => 5, rfl⟩).contents
  have hleft := (contents_eq (b := oneWord) (m := ⟨fun _ => 5, rfl⟩) rfl).symm.trans hcontents
  exact absurd (congrArg (fun m => m.1 0) hleft) (by decide)

end Board

end UBoot.Memsize
