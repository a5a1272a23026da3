/-
# The arguments of a command

`parse_line` of `common/main.c` fills `argv`, which has one more slot than a command has
arguments. Its loop ends at the end of the line and writes the closing `NULL`, or it ends because
all places are taken; then the slot behind the last argument keeps what was in it before.
-/

import UBoot.Main.MacroExpansion

namespace UBoot.Main

/-- What an element of `argv` is: `NULL`, a string, or whatever was on the stack. -/
inductive Slot
  | null
  | arg (chars : List Byte)
  | garbage
  deriving DecidableEq

/-- `char *argv[CONFIG_SYS_MAXARGS + 1]` -/
structure Argv (maxargs : Nat) where
  slots : List Slot
  size : slots.length = maxargs + 1

variable {maxargs : Nat}

/-- `argv[i] = x` -/
def Argv.set (argv : Argv maxargs) (i : Nat) (x : Slot) : Argv maxargs :=
  ⟨argv.slots.set i x, by rw [List.length_set, argv.size]⟩

/-- `*line == ' ' || *line == '\t'` -/
def blank (c : Byte) : Bool := c = 0x20#8 || c = 0x09#8

/-- The loop of `parse_line`, with the number of arguments there is still a place for. -/
def parseLoop : (places : Nat) → (nargs : Nat) → List Byte → Argv maxargs → Nat × Argv maxargs
  | 0, nargs, _, argv => (nargs, argv)
  | places + 1, nargs, line, argv =>
      let line := line.dropWhile blank
      if line = [] then (nargs, argv.set nargs .null)
      else
        let argv := argv.set nargs (.arg (line.takeWhile (! blank ·)))
        match line.dropWhile (! blank ·) with
        | [] => (nargs + 1, argv.set (nargs + 1) .null)
        | _ :: line => parseLoop places (nargs + 1) line argv

/-- `parse_line` -/
def parse_line (line : List Byte) (argv : Argv maxargs) : Nat × Argv maxargs :=
  parseLoop maxargs 0 line argv

/-! ## Words -/

/-- The words of a line, which are separated by blanks. -/
def words (line : List Byte) : List (List Byte) := (line.splitOnP blank).filter (· ≠ [])

/-- The words have places in `argv`, and if they take them all, the last one ends the line. -/
def Fits (places : Nat) (line : List Byte) : Prop :=
  (words line).length < places ∨
    (words line).length = places ∧ ∃ c ∈ line.getLast?, blank c = false

instance (places : Nat) (line : List Byte) : Decidable (Fits places line) :=
  inferInstanceAs (Decidable (_ ∨ _ ∧ _))

@[simp] theorem words_nil : words [] = [] := rfl

theorem words_blank {c : Byte} (h : blank c) (line : List Byte) :
    words (c :: line) = words line := by
  rw [words, List.splitOnP_cons_eq_if_modifyHead, if_pos h, List.filter_cons_of_neg (by simp)]
  rfl

theorem words_dropWhile (line : List Byte) : words (line.dropWhile blank) = words line := by
  induction line with
  | nil => rfl
  | cons c line ih =>
      rw [List.dropWhile_cons]
      split
      · rename_i hc
        rw [ih, words_blank hc]
      · rfl

/-- A word at the begin of a line, and what is behind the blank that ends it. -/
theorem words_word {word : List Byte} (hne : word ≠ []) (hword : ∀ c ∈ word, blank c = false)
    {b : Byte} (hb : blank b) (line : List Byte) :
    words (word ++ b :: line) = word :: words line := by
  rw [words, List.splitOnP_append_cons_of_forall_mem hword b hb,
    List.filter_cons_of_pos (by simpa using hne)]
  rfl

theorem words_single {word : List Byte} (hne : word ≠ []) (hword : ∀ c ∈ word, blank c = false) :
    words word = [word] := by
  rw [words, List.splitOnP_eq_singleton hword, List.filter_cons_of_pos (by simpa using hne)]
  rfl

theorem fits_dropWhile (places : Nat) {line : List Byte} (h : line.dropWhile blank ≠ []) :
    Fits places (line.dropWhile blank) ↔ Fits places line := by
  rw [Fits, Fits, words_dropWhile]
  obtain ⟨blanks, hblanks⟩ := List.dropWhile_suffix blank (l := line)
  rw [← hblanks, List.getLast?_append_of_ne_nil _ h, hblanks]

/-- Nothing but blanks is left. -/
theorem fits_blanks (places : Nat) {line : List Byte} (h : line.dropWhile blank = []) :
    words line = [] ∧ (Fits places line ↔ 0 < places) := by
  have hwords : words line = [] := by rw [← words_dropWhile, h, words_nil]
  refine ⟨hwords, ?_⟩
  rw [Fits, hwords]
  constructor
  · rintro (hlt | ⟨-, c, hc, hblank⟩)
    · exact hlt
    · have hmem := List.mem_of_getLast? hc
      have hall := List.dropWhile_eq_nil_iff.mp h c hmem
      rw [hblank] at hall
      cases hall
  · exact .inl

theorem fits_word {word : List Byte} (hne : word ≠ []) (hword : ∀ c ∈ word, blank c = false)
    {b : Byte} (hb : blank b) (places : Nat) (line : List Byte) :
    Fits (places + 1) (word ++ b :: line) ↔ Fits places line := by
  have hlast : (∃ c ∈ (word ++ b :: line).getLast?, blank c = false) ↔
      ∃ c ∈ line.getLast?, blank c = false := by
    cases line with
    | nil => simp [hb]
    | cons c line => simp [List.getLast?_append, List.getLast?_cons_cons]
  rw [Fits, Fits, words_word hne hword hb, List.length_cons, hlast,
    Nat.add_lt_add_iff_right, Nat.add_right_cancel_iff]

/-- A line that is one word fits if there is a place for it. -/
theorem fits_single {word : List Byte} (hne : word ≠ []) (hword : ∀ c ∈ word, blank c = false)
    (places : Nat) : Fits (places + 1) word := by
  rw [Fits, words_single hne hword]
  obtain hlt | rfl := Nat.eq_zero_or_pos places |>.symm
  · exact .inl (Nat.succ_lt_succ hlt)
  · have hmem := List.getLast_mem hne
    exact .inr ⟨rfl, _, List.getLast?_eq_getLast_of_ne_nil hne, hword _ hmem⟩

/-- Behind the blanks of a line stands a word, which ends the line or is ended by a blank. -/
theorem next_word {line : List Byte} (h : line.dropWhile blank ≠ []) :
    ∃ word, (line.dropWhile blank).takeWhile (! blank ·) = word ∧ word ≠ [] ∧
      (∀ c ∈ word, blank c = false) ∧
      ((line.dropWhile blank).dropWhile (! blank ·) = [] ∧ line.dropWhile blank = word ∨
        ∃ b rest, (line.dropWhile blank).dropWhile (! blank ·) = b :: rest ∧ blank b ∧
          line.dropWhile blank = word ++ b :: rest) := by
  have hsplit := List.takeWhile_append_dropWhile (p := (! blank ·)) (l := line.dropWhile blank)
  refine ⟨_, rfl, ?_, ?_, ?_⟩
  · have hhead := List.head_dropWhile_not blank h
    obtain ⟨c, rest, hline⟩ := List.exists_cons_of_ne_nil h
    simp only [hline, List.head_cons] at hhead ⊢
    rw [List.takeWhile_cons_of_pos (by rw [hhead]; rfl)]
    nofun
  · intro c hc
    simpa using List.mem_takeWhile_imp hc
  · cases hrest : (line.dropWhile blank).dropWhile (! blank ·) with
    | nil =>
        rw [hrest, List.append_nil] at hsplit
        exact .inl ⟨rfl, hsplit.symm⟩
    | cons b rest =>
        have hb := List.head_dropWhile_not (! blank ·) (l := line.dropWhile blank)
          (by rw [hrest]; nofun)
        simp only [hrest, List.head_cons] at hb
        rw [hrest] at hsplit
        exact .inr ⟨b, rest, rfl, by simpa using hb, hsplit.symm⟩

theorem words_ne_nil {line : List Byte} (h : line.dropWhile blank ≠ []) : words line ≠ [] := by
  obtain ⟨word, -, hne, hword, ⟨-, hline⟩ | ⟨b, rest, -, hb, hline⟩⟩ := next_word h
  · rw [← words_dropWhile, hline, words_single hne hword]
    nofun
  · rw [← words_dropWhile, hline, words_word hne hword hb]
    nofun

theorem not_fits_zero (line : List Byte) : ¬ Fits 0 line := by
  rintro (hlt | ⟨hzero, c, hc, hblank⟩)
  · exact Nat.not_lt_zero _ hlt
  · apply words_ne_nil _ (List.length_eq_zero_iff.mp hzero)
    intro hnone
    have hall := List.dropWhile_eq_nil_iff.mp hnone c (List.mem_of_getLast? hc)
    rw [hblank] at hall
    cases hall

/-! ## The loop -/

theorem Argv.take_set (argv : Argv maxargs) {i : Nat} (hi : i ≤ maxargs) (x : Slot) :
    (argv.set i x).slots.take (i + 1) = argv.slots.take i ++ [x] := by
  have hlt : i < argv.slots.length := by
    rw [argv.size]
    omega
  rw [Argv.set, List.take_add_one, List.take_set_of_le (Nat.le_refl i), List.getElem?_set_self hlt]
  rfl

/-- What `argv` is when the loop ends: the arguments follow what it held, and either `NULL` does, or
all places are taken and the last slot is as it was. -/
structure Parsed (places nargs : Nat) (line : List Byte) (argv : Argv maxargs)
    (result : Nat × Argv maxargs) : Prop where
  argc : result.1 = nargs + ((words line).take places).length
  args : result.2.slots.take result.1 =
    argv.slots.take nargs ++ ((words line).take places).map .arg
  closed : Fits places line → result.2.slots[result.1]? = some .null
  open' : ¬ Fits places line → result.1 = maxargs ∧
    result.2.slots[maxargs]? = argv.slots[maxargs]?

theorem parseLoop_spec (places nargs : Nat) (line : List Byte) (argv : Argv maxargs)
    (h : nargs + places = maxargs) :
    Parsed places nargs line argv (parseLoop places nargs line argv) := by
  induction places generalizing nargs line argv with
  | zero =>
      constructor
      · rfl
      · rw [parseLoop, List.take_zero, List.map_nil, List.append_nil]
      · exact fun hfits => absurd hfits (not_fits_zero line)
      · intro _
        exact ⟨h, rfl⟩
  | succ places ih =>
      rw [parseLoop]
      dsimp only
      split
      · rename_i hnone
        obtain ⟨hwords, hfits⟩ := fits_blanks (places + 1) hnone
        constructor
        · rw [hwords]
          rfl
        · rw [hwords, List.take_nil, List.map_nil, List.append_nil]
          exact List.take_set_of_le (Nat.le_refl nargs)
        · intro _
          exact List.getElem?_set_self (by rw [argv.size]; omega)
        · exact fun hopen => absurd (hfits.mpr places.succ_pos) hopen
      · rename_i hsome
        obtain ⟨word, hfirst, hne, hword, ⟨hrest, hline⟩ | ⟨b, rest, hrest, hb, hline⟩⟩ :=
          next_word hsome
        · have hwords : words line = [word] := by
            rw [← words_dropWhile, hline, words_single hne hword]
          rw [hrest, hfirst]
          constructor
          · rw [hwords]
            simp
          · rw [hwords, List.take_succ_cons, List.take_nil]
            change ((argv.set nargs (.arg word)).slots.set (nargs + 1) .null).take (nargs + 1) = _
            rw [List.take_set_of_le (Nat.le_refl _), argv.take_set (by omega)]
            rfl
          · intro _
            exact List.getElem?_set_self (by rw [Argv.size]; omega)
          · intro hopen
            rw [← fits_dropWhile _ hsome, hline] at hopen
            exact absurd (fits_single hne hword places) hopen
        · have hwords : words line = word :: words rest := by
            rw [← words_dropWhile, hline, words_word hne hword hb]
          have hfits : Fits (places + 1) line ↔ Fits places rest := by
            rw [← fits_dropWhile _ hsome, hline, fits_word hne hword hb]
          rw [hrest, hfirst]
          have hparsed := ih (nargs + 1) rest (argv.set nargs (.arg word)) (by omega)
          dsimp only
          constructor
          · rw [hparsed.argc, hwords, List.take_succ_cons, List.length_cons]
            omega
          · rw [hparsed.args, argv.take_set (by omega), hwords, List.take_succ_cons, List.map_cons,
              List.append_assoc, List.singleton_append]
          · exact fun hclosed => hparsed.closed (hfits.mp hclosed)
          · intro hopen
            obtain ⟨hall, hslot⟩ := hparsed.open' (fun hclosed => hopen (hfits.mpr hclosed))
            refine ⟨hall, hslot.trans ?_⟩
            exact List.getElem?_set_ne (by omega)

/-- `parse_line`, on whatever `argv` held before. -/
theorem parse_line_spec (line : List Byte) (argv : Argv maxargs) :
    Parsed maxargs 0 line argv (parse_line line argv) :=
  parseLoop_spec maxargs 0 line argv (Nat.zero_add maxargs)

end UBoot.Main
