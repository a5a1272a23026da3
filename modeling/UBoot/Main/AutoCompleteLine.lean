/-
# The candidates of a line

What the completion of a line should choose from: the commands, or the variables behind a command
that takes one. The list that the code makes of them is cut off where its places or its buffer end.
-/

import UBoot.Lib.Substrings
import UBoot.Main.AutoComplete

namespace UBoot.Main

open UBoot.Lib
open UBoot.Bootm (find_cmd_tbl)

/-! ## The word at the end -/

/-- The word being completed: it is empty behind a blank. -/
def wordAtEnd (line : List Byte) : List Byte := (line.reverse.takeWhile (! blank ·)).reverse

/-- What is in front of it. -/
def beforeWord (line : List Byte) : List Byte := (line.reverse.dropWhile (! blank ·)).reverse

theorem beforeWord_append_wordAtEnd (line : List Byte) :
    beforeWord line ++ wordAtEnd line = line := by
  rw [beforeWord, wordAtEnd, ← List.reverse_append, List.takeWhile_append_dropWhile,
    List.reverse_reverse]

theorem not_blank_of_mem_wordAtEnd {line : List Byte} {b : Byte} (h : b ∈ wordAtEnd line) :
    blank b = false := by
  have hmem := List.mem_takeWhile_imp (List.mem_reverse.mp h)
  simpa using hmem

theorem wordAtEnd_eq_nil_iff (line : List Byte) :
    wordAtEnd line = [] ↔ space line.getLast? = true := by
  rw [wordAtEnd, List.reverse_eq_nil_iff, space, List.getLast?_eq_head?_reverse]
  cases line.reverse with
  | nil => exact iff_of_true rfl rfl
  | cons b rest =>
      rw [List.head?_cons, Option.all_some, List.takeWhile_cons]
      cases blank b with
      | true => exact iff_of_true rfl rfl
      | false => exact iff_of_false (List.cons_ne_nil _ _) Bool.false_ne_true

/-- The words on both sides of a blank. -/
theorem words_append_blank {b : Byte} (hb : blank b) (front behind : List Byte) :
    words (front ++ b :: behind) = words front ++ words behind := by
  rw [words, List.splitOnP_append_cons front behind hb, List.filter_append]
  rfl

/-- The words of a line, the last one of which is the word being completed or in front of it. -/
theorem words_eq_before_append (line : List Byte) :
    words line =
      words (beforeWord line) ++ if wordAtEnd line = [] then [] else [wordAtEnd line] := by
  have hlast : words (wordAtEnd line) =
      if wordAtEnd line = [] then [] else [wordAtEnd line] := by
    split
    · next hnil => rw [hnil, words_nil]
    · next hne => exact words_single hne fun b hb => not_blank_of_mem_wordAtEnd hb
  rw [← hlast]
  nth_rewrite 1 [← beforeWord_append_wordAtEnd line]
  cases hbefore : line.reverse.dropWhile (! blank ·) with
  | nil =>
      rw [beforeWord, hbefore]
      rfl
  | cons b rest =>
      have hb := List.head_dropWhile_not (! blank ·) (l := line.reverse) (by rw [hbefore]; nofun)
      simp only [hbefore, List.head_cons, Bool.not_eq_false'] at hb
      have hend : words (rest.reverse ++ [b]) = words rest.reverse := by
        rw [words_append_blank hb, words_nil, List.append_nil]
      rw [beforeWord, hbefore, List.reverse_cons, hend, List.append_assoc, List.singleton_append]
      exact words_append_blank hb _ _

/-- `make_argv` keeps as many words as there are places. -/
theorem makeArgvLoop_eq (places : Nat) (s : List Byte) :
    makeArgvLoop places s = (words s).take places := by
  induction places generalizing s with
  | zero => rw [makeArgvLoop, List.take_zero]
  | succ places ih =>
      rw [makeArgvLoop]
      split
      · next hnone =>
          rw [(fits_blanks (places + 1) hnone).1, List.take_nil]
      · next hsome =>
          obtain ⟨word, hfirst, hne, hword, ⟨hrest, hline⟩ | ⟨b, rest, hrest, hb, hline⟩⟩ :=
            next_word hsome
          · rw [hfirst, hrest, ← words_dropWhile, hline, words_single hne hword,
              List.take_succ_cons, List.take_nil]
          · rw [hfirst, hrest, ← words_dropWhile, hline, words_word hne hword hb,
              List.take_succ_cons]
            exact congrArg (word :: ·) (ih rest)

/-! ## The candidates -/

/-- The names of the variables. -/
def variableNames (env : Variables) : List (List Byte) :=
  env.1.map fun entry => entry.takeWhile (· ≠ 0x3d#8)

/-- The candidates for the word at the end of a line: the commands that begin with it up to its
first dot, or the variables that begin with it, behind a command that has a handler. -/
def candidates (table : List Completable) (env : Variables) (line : List Byte) :
    List (List Byte) :=
  match words (beforeWord line) with
  | [] =>
      (table.map Completable.name).filter fun name =>
        (wordAtEnd line).takeWhile (· ≠ 0x2e#8) <+: name
  | [cmd] =>
      if (find_cmd_tbl Completable.name cmd table).any (·.complete) then
        (variableNames env).filter fun name => wordAtEnd line <+: name
      else []
  | _ => []

/-- A list that ends in dots where there is no place or no room for the next one. -/
def cut (cost : List Byte → Nat) : (places room : Nat) → List (List Byte) → List (List Byte)
  | _, _, [] => []
  | places, room, name :: names =>
      if places = 0 ∨ room < cost name then [dots]
      else name :: cut cost (places - 1) (room - cost name) names

/-- The candidates as they are shown. Only the names of variables are copied. -/
def shown (table : List Completable) (env : Variables) (line : List Byte) : List (List Byte) :=
  match words (beforeWord line) with
  | [] => cut (fun _ => 0) (maxv - 2) tmpSize (candidates table env line)
  | _ => cut (fun name => name.length + 1) (maxv - 2) tmpSize (candidates table env line)

theorem listLoop_eq (found room : Nat) (table : List Completable) :
    listLoop found table =
      cut (fun _ => 0) (maxv - 2 - found) room (table.map Completable.name) := by
  induction table generalizing found with
  | nil => rfl
  | cons cmdtp table ih =>
      rw [listLoop, List.map_cons, cut, ih (found + 1), Nat.sub_zero, Nat.sub_add_eq (maxv - 2)]
      refine if_congr ?_ rfl rfl
      rw [Nat.sub_eq_zero_iff_le, or_iff_left (Nat.not_lt_zero room)]

theorem matchLoop_eq {cmd : List Byte} {len : Nat} (hlen : len ≤ cmd.length) (found room : Nat)
    (table : List Completable) :
    matchLoop cmd len found table =
      cut (fun _ => 0) (maxv - 2 - found) room
        ((table.map Completable.name).filter fun name => cmd.take len <+: name) := by
  induction table generalizing found with
  | nil => rfl
  | cons cmdtp table ih =>
      have hlength : (cmd.take len).length = len := List.length_take_of_le hlen
      rw [matchLoop, List.map_cons]
      by_cases hmatch : cmd.take len <+: cmdtp.name
      · have hle : len ≤ cmdtp.name.length := hlength ▸ hmatch.length_le
        have hsame : cmd.take len = cmdtp.name.take len := by
          have htake := List.prefix_iff_eq_take.mp hmatch
          rwa [hlength] at htake
        rw [if_neg (Nat.not_lt.mpr hle), if_neg (not_not.mpr hsame),
          List.filter_cons_of_pos (by simpa using hmatch), cut, ih (found + 1), Nat.sub_zero,
          Nat.sub_add_eq (maxv - 2)]
        refine if_congr ?_ rfl rfl
        rw [Nat.sub_eq_zero_iff_le, or_iff_left (Nat.not_lt_zero room)]
      · rw [List.filter_cons_of_neg (by simpa using hmatch), ih found]
        split
        · rfl
        · refine if_pos fun hsame => hmatch ?_
          rw [hsame]
          exact List.take_prefix len cmdtp.name

theorem envLoop_eq (var : List Byte) (found bufsz : Nat) (entries : List (List Byte)) :
    envLoop var found bufsz entries =
      cut (fun name => name.length + 1) (maxv - 2 - found) bufsz
        ((entries.map fun entry => entry.takeWhile (· ≠ 0x3d#8)).filter fun name =>
          var <+: name) := by
  induction entries generalizing found bufsz with
  | nil => rfl
  | cons lval entries ih =>
      have hname : lval.takeWhile (· ≠ 0x3d#8) <+: lval := List.takeWhile_prefix _
      rw [envLoop, List.map_cons]
      by_cases hmatch : var <+: lval.takeWhile (· ≠ 0x3d#8)
      · have hsame : lval.take var.length = var :=
          (List.prefix_iff_eq_take.mp (hmatch.trans hname)).symm
        rw [if_neg, List.filter_cons_of_pos (by simpa using hmatch), cut, ih,
          Nat.sub_add_eq (maxv - 2)]
        · refine if_congr ?_ rfl rfl
          rw [Nat.sub_eq_zero_iff_le]
        · rintro ⟨-, hshort | hother⟩
          · exact Nat.not_lt.mpr hmatch.length_le hshort
          · exact hother hsame
      · rw [if_pos, List.filter_cons_of_neg (by simpa using hmatch), ih]
        refine ⟨List.length_pos_iff.mpr fun hnil => hmatch (hnil ▸ List.nil_prefix), ?_⟩
        by_contra hnot
        rw [not_or, Nat.not_lt, not_not] at hnot
        refine hmatch (List.prefix_of_prefix_length_le ?_ hname hnot.1)
        exact List.prefix_iff_eq_take.mpr hnot.2.symm

section Shown

variable (c : Console) (table : List Completable) (env : Variables) (line : List Byte)

theorem make_argv_eq :
    make_argv line (c.CONFIG_SYS_MAXARGS + 1) = (words line).take c.CONFIG_SYS_MAXARGS :=
  makeArgvLoop_eq _ _

theorem env_complete_eq (var : List Byte) :
    env_complete env var =
      cut (fun name => name.length + 1) (maxv - 2) tmpSize
        ((variableNames env).filter fun name => var <+: name) :=
  envLoop_eq var 0 tmpSize env.1

/-- The handler of a command makes a list of variables for its only argument. -/
theorem complete_cmdv_args {cmd : List Byte} {args : List (List Byte)}
    (h : args ≠ [] ∨ space line.getLast? = true) :
    complete_cmdv table env (cmd :: args) line.getLast? =
      if (find_cmd_tbl Completable.name cmd table).any (·.complete) then
        var_complete env (cmd :: args) line.getLast?
      else [] := by
  rw [complete_cmdv, if_pos h]
  cases find_cmd_tbl Completable.name cmd table with
  | none => rfl
  | some cmdtp => rfl

variable {env line}

theorem var_complete_space {last_char : Option Byte} (h : space last_char = true)
    (argv : List (List Byte)) :
    var_complete env argv last_char = if argv.length = 1 then env_complete env [] else [] := by
  rw [var_complete.eq_def]
  by_cases hone : argv.length = 1
  · rw [if_pos ⟨h, hone⟩, if_pos hone]
  · rw [if_neg (fun hboth => hone hboth.2), if_neg hone]
    split
    · exact if_pos h
    · rfl

theorem var_complete_word {last_char : Option Byte} (h : ¬space last_char = true)
    (cmd var : List Byte) (more : List (List Byte)) :
    var_complete env (cmd :: var :: more) last_char =
      if more = [] then env_complete env var else [] := by
  rw [var_complete.eq_def, if_neg (fun hboth => h hboth.1)]
  cases more with
  | nil => exact (if_neg h).trans (if_pos rfl).symm
  | cons other more => rfl

variable (env line)

/-- The list of the code is the one that is shown. -/
theorem complete_cmdv_eq :
    complete_cmdv table env (make_argv line (c.CONFIG_SYS_MAXARGS + 1)) line.getLast? =
      shown table env line := by
  obtain ⟨places, hplaces⟩ := Nat.exists_eq_add_of_le' c.three_le
  have hspace := wordAtEnd_eq_nil_iff line
  rw [make_argv_eq, words_eq_before_append, shown, hplaces]
  cases hbefore : words (beforeWord line) with
  | nil =>
      rw [List.nil_append, candidates, hbefore]
      dsimp only
      split
      · next hnil =>
          rw [List.take_nil, complete_cmdv, hnil, listLoop_eq 0 tmpSize]
          refine congrArg (cut _ _ _) (List.filter_eq_self.mpr fun name _ => ?_).symm
          exact decide_eq_true List.nil_prefix
      · next hne =>
          have hstem : (wordAtEnd line).take ((wordAtEnd line).takeWhile (· ≠ 0x2e#8)).length =
              (wordAtEnd line).takeWhile (· ≠ 0x2e#8) :=
            (List.prefix_iff_eq_take.mp (List.takeWhile_prefix _)).symm
          rw [List.take_succ_cons, List.take_nil, complete_cmdv,
            if_neg (by simpa using mt hspace.mpr hne),
            matchLoop_eq (List.takeWhile_prefix _).length_le 0 tmpSize, hstem]
          rfl
  | cons cmd before =>
      have hargs : before ++ (if wordAtEnd line = [] then [] else [wordAtEnd line]) ≠ [] ∨
          space line.getLast? = true := by
        by_cases hnil : wordAtEnd line = []
        · exact .inr (hspace.mp hnil)
        · rw [if_neg hnil]
          exact .inl (List.append_ne_nil_of_right_ne_nil _ (List.cons_ne_nil _ _))
      rw [List.cons_append, List.take_succ_cons, complete_cmdv_args, candidates, hbefore]
      · cases before with
        | nil =>
            dsimp only
            by_cases hhandler :
                (find_cmd_tbl Completable.name cmd table).any (·.complete) = true
            · rw [if_pos hhandler, if_pos hhandler, List.nil_append]
              split
              · next hnil =>
                  rw [var_complete_space (hspace.mp hnil), List.take_nil,
                    if_pos List.length_singleton, env_complete_eq, hnil]
              · next hne =>
                  rw [List.take_succ_cons, List.take_nil,
                    var_complete_word (mt hspace.mpr hne), if_pos rfl, env_complete_eq]
            · rw [if_neg hhandler, if_neg hhandler]
              rfl
        | cons cmd' before =>
            refine ite_eq_right_iff.mpr fun _ => ?_
            rw [List.cons_append, List.take_succ_cons]
            split
            · next hnil =>
                rw [var_complete_space (hspace.mp hnil), if_neg (by simp)]
            · next hne =>
                have hmore : (before ++ [wordAtEnd line]).take (places + 1) ≠ [] := by simp
                rw [var_complete_word (mt hspace.mpr hne), if_neg hmore]
      · refine hargs.imp_left fun hne hnil => hne ?_
        simpa using hnil

end Shown

end UBoot.Main
