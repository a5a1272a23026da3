/-
# When a completion is right

The completion takes the length of what is typed from the last argument, which is not the word being
completed behind a blank, goes on behind a dot that the matching has left out, and does not tell the
dots at the end of a list that is cut off from a candidate.
-/

import UBoot.Main.AutoCompleteLine

namespace UBoot.Main

open UBoot.Lib

/-! ## The common prefix -/

theorem le_agreeLoop_iff {len n : Nat} {s : List Byte} (hn : n ≤ s.length) (t : List Byte) :
    n ≤ agreeLoop len s t ↔ n ≤ len ∧ s.take n <+: t := by
  induction len generalizing n s t with
  | zero =>
      have hzero : agreeLoop 0 s t = 0 := by rw [agreeLoop.eq_def]
      rw [hzero, Nat.le_zero]
      refine (and_iff_left_of_imp ?_).symm
      rintro rfl
      exact List.nil_prefix
  | succ len ih =>
      cases n with
      | zero => exact iff_of_true (Nat.zero_le _) ⟨Nat.zero_le _, List.nil_prefix⟩
      | succ n =>
          cases s with
          | nil => cases hn
          | cons a s =>
              cases t with
              | nil => simp [agreeLoop]
              | cons b t =>
                  rw [agreeLoop, List.take_succ_cons, List.cons_prefix_cons]
                  split
                  · next hne => simp [Ne.symm hne]
                  · next heq =>
                      rw [not_not] at heq
                      rw [Nat.add_le_add_iff_right, Nat.add_le_add_iff_right,
                        ih (Nat.le_of_succ_le_succ hn), and_iff_right heq.symm]

theorem le_find_common_prefix_iff {n : Nat} {cand : List Byte} (hn : n ≤ cand.length)
    (more : List (List Byte)) :
    n ≤ find_common_prefix (cand :: more) ↔ ∀ t ∈ cand :: more, cand.take n <+: t := by
  have hfold (len : Nat) : n ≤ more.foldl (fun len t => agreeLoop len cand t) len ↔
      n ≤ len ∧ ∀ t ∈ more, cand.take n <+: t := by
    induction more generalizing len with
    | nil => simp
    | cons t more ih =>
        rw [List.foldl_cons, ih, le_agreeLoop_iff hn, List.forall_mem_cons, and_assoc]
  rw [ find_common_prefix, hfold, List.forall_mem_cons, and_iff_right hn,
    and_iff_right (List.take_prefix n cand)]

theorem agreeLoop_le (len : Nat) (s t : List Byte) : agreeLoop len s t ≤ len := by
  fun_induction agreeLoop len s t with
  | case1 => exact Nat.zero_le _
  | case2 _ _ _ _ _ _ ih => exact Nat.succ_le_succ ih
  | case3 => exact Nat.zero_le _

theorem find_common_prefix_le (cand : List Byte) (more : List (List Byte)) :
    find_common_prefix (cand :: more) ≤ cand.length := by
  rw [ find_common_prefix]
  generalize cand.length = len
  induction more generalizing len with
  | nil => exact le_rfl
  | cons t more ih => exact (ih _).trans (agreeLoop_le len cand t)

/-- What the candidates have in common. -/
theorem take_find_common_prefix (cand : List Byte) (more : List (List Byte)) :
    IsLongestPrefix (cand.take ( find_common_prefix (cand :: more))) (cand :: more) :=
  isLongestPrefix_take List.mem_cons_self (find_common_prefix_le cand more)
    fun _ hk => le_find_common_prefix_iff hk more

/-! ## The claim -/

/-- The word at the end becomes the only candidate with a blank behind it, or what the candidates
have in common. -/
def Continues (cands : List (List Byte)) (word added : List Byte) : Prop :=
  (∃ cand, cands = [cand] ∧ word ++ added = cand ++ [0x20#8]) ∨
    2 ≤ cands.length ∧ IsLongestPrefix (word ++ added) cands

/-- The line is as it was, or it is continued in its buffer, and the counts say so. -/
def Completed (c : Console) (cands : List (List Byte)) (line after : Typed) : Prop :=
  ∃ added,
    after = ⟨line.buf ++ added, line.np + added.length, line.colp + added.length⟩ ∧
    after.buf.length ≤ c.CONFIG_SYS_CBSIZE - 1 ∧
    (added = [] ∨ Continues cands (wordAtEnd line.buf) added)

/-- The completion reads nothing but the line and the candidates, and completes the line. -/
def CompletesRight (c : Console) (table : List Completable) (env : Variables)
    (prompt : List Byte) (line : Typed) : Prop :=
  ∃ ret after, cmd_auto_complete c table env prompt line = some (ret, after) ∧
    Completed c (candidates table env line.buf) line after

/-- There is room for `k` characters. -/
def Room (c : Console) (line : List Byte) (k : Nat) : Prop :=
  line.length + k < c.CONFIG_SYS_CBSIZE - 2

/-- What is appended to the last word that was typed goes on from it to the candidate. In a list
that is cut off, the dots are taken for a candidate, and they have to be right by chance. -/
def GoesOn (cands list : List (List Byte)) (line last cand added : List Byte) : Prop :=
  if list = cands then wordAtEnd line ≠ [] ∧ last <+: cand
  else Continues cands (wordAtEnd line) added

/-- When a completion is right: there are no candidates; or there is one, as long as the last word
at least, and if there is room it goes on from this word; or the candidates have nothing in common,
or no more than is there already, or what they have goes on from the last word. -/
def InOrder (c : Console) (table : List Completable) (env : Variables) (prompt : List Byte)
    (line : List Byte) : Prop :=
  prompt ≠ c.CONFIG_SYS_PROMPT ∨
  match shown table env line with
  | [] => True
  | [cand] =>
      ∃ last ∈ (words line).getLast?, last.length ≤ cand.length ∧
        (Room c line (cand.length - last.length + 1) →
          GoesOn (candidates table env line) [cand] line last cand
            (cand.drop last.length ++ [0x20#8]))
  | cand :: more =>
      let j := find_common_prefix (cand :: more)
      j = 0 ∨ ∃ last ∈ (words line).getLast?, last.length < j →
        Room c line (j - last.length) →
          GoesOn (candidates table env line) (cand :: more) line last cand
            ((cand.take j).drop last.length)

/-! ## The last word -/

section Right

variable {c : Console} {table : List Completable} {env : Variables} {line last cand : List Byte}

theorem words_length_le (h : shown table env line ≠ []) : (words line).length ≤ 2 := by
  have hbefore : (words (beforeWord line)).length ≤ 1 := by
    by_contra hmany
    rw [shown] at h
    obtain ⟨cmd, before, hbefore⟩ :=
      List.exists_cons_of_length_pos (l := words (beforeWord line)) (by omega)
    rw [hbefore, List.length_cons] at hmany
    obtain ⟨cmd', before, rfl⟩ := List.exists_cons_of_length_pos (l := before) (by omega)
    rw [candidates, hbefore] at h
    exact h rfl
  rw [words_eq_before_append, List.length_append]
  split
  · exact Nat.le_succ_of_le hbefore
  · exact Nat.succ_le_succ hbefore

/-- The last argument is the last word. -/
theorem make_argv_getLast? (h : shown table env line ≠ []) :
    (make_argv line (c.CONFIG_SYS_MAXARGS + 1)).getLast? = (words line).getLast? := by
  have hle := words_length_le h
  have hmax := c.three_le
  rw [make_argv_eq, List.take_of_length_le (by omega)]

theorem last_ne_nil (h : last ∈ (words line).getLast?) : last ≠ [] := by
  have hmem := List.mem_of_mem_getLast? h
  rw [words, List.mem_filter] at hmem
  simpa using hmem.2

/-- The word being completed is the last word if it is not empty. -/
theorem last_eq (hlast : last ∈ (words line).getLast?) (h : wordAtEnd line ≠ []) :
    last = wordAtEnd line := by
  rw [words_eq_before_append, if_neg h, List.getLast?_concat] at hlast
  exact (Option.some.inj hlast).symm

/-- As many characters are typed of the word as the last argument has. -/
theorem typed_iff (hlast : last ∈ (words line).getLast?) (s : List Byte) :
    (wordAtEnd line).length = last.length ∧ wordAtEnd line <+: s ↔
      wordAtEnd line ≠ [] ∧ last <+: s := by
  have hne := last_ne_nil hlast
  constructor
  · rintro ⟨hlen, hbegins⟩
    have hword : wordAtEnd line ≠ [] := by
      rintro hnil
      rw [hnil] at hlen
      exact hne (List.length_eq_zero_iff.mp hlen.symm)
    exact ⟨hword, last_eq hlast hword ▸ hbegins⟩
  · rintro ⟨hword, hbegins⟩
    rw [last_eq hlast hword] at hbegins ⊢
    exact ⟨rfl, hbegins⟩

/-! ## What goes on -/

/-- The only candidate, with a blank. -/
theorem goesOn_one {cands : List (List Byte)} (hlast : last ∈ (words line).getLast?)
    (hle : last.length ≤ cand.length) :
    GoesOn cands [cand] line last cand (cand.drop last.length ++ [0x20#8]) ↔
      Continues cands (wordAtEnd line) (cand.drop last.length ++ [0x20#8]) := by
  rw [GoesOn]
  split
  · next hall =>
      subst hall
      rw [← typed_iff hlast, ← append_drop_eq_iff hle, Continues,
        or_iff_left (fun h => absurd h.1 (by simp)), ← List.append_assoc]
      constructor
      · exact fun hsame => ⟨cand, rfl, congrArg (· ++ [0x20#8]) hsame⟩
      · rintro ⟨cand', hcand, hsame⟩
        cases hcand
        exact List.append_cancel_right hsame
  · rfl

/-- What several candidates have in common. -/
theorem goesOn_several {cands more : List (List Byte)} (hlast : last ∈ (words line).getLast?)
    (hmore : more ≠ []) (hlt : last.length < find_common_prefix (cand :: more)) :
    GoesOn cands (cand :: more) line last cand
        ((cand.take ( find_common_prefix (cand :: more))).drop last.length) ↔
      Continues cands (wordAtEnd line)
        ((cand.take ( find_common_prefix (cand :: more))).drop last.length) := by
  have hcommon := take_find_common_prefix cand more
  have hlen : (cand.take ( find_common_prefix (cand :: more))).length =
      find_common_prefix (cand :: more) :=
    List.length_take_of_le (find_common_prefix_le cand more)
  rw [GoesOn]
  split
  · next hall =>
      subst hall
      have hbegins : last <+: cand ↔ last <+: cand.take ( find_common_prefix (cand :: more)) := by
        constructor
        · intro h
          exact List.prefix_of_prefix_length_le h (List.take_prefix _ _) (hlen.symm ▸ hlt.le)
        · exact fun h => h.trans (List.take_prefix _ _)
      have hone : ¬∃ other, cand :: more = [other] ∧ wordAtEnd line ++
          (cand.take ( find_common_prefix (cand :: more))).drop last.length =
            other ++ [0x20#8] := by
        rintro ⟨other, hother, -⟩
        cases hother
        exact hmore rfl
      rw [hbegins, ← typed_iff hlast, ← append_drop_eq_iff (hlen.symm ▸ hlt.le), Continues,
        or_iff_right hone]
      constructor
      · intro hsame
        rw [hsame]
        exact ⟨Nat.succ_le_succ (List.length_pos_iff.mpr hmore), hcommon⟩
      · exact fun h => h.2.unique hcommon
  · rfl

/-! ## A word without a dot -/

theorem prefix_of_mem_candidates (hdot : 0x2e#8 ∉ wordAtEnd line)
    (h : cand ∈ candidates table env line) : wordAtEnd line <+: cand := by
  have hstem : (wordAtEnd line).takeWhile (· ≠ 0x2e#8) = wordAtEnd line :=
    List.takeWhile_eq_self_iff.mpr fun b hb => decide_eq_true fun hb' => hdot (hb' ▸ hb)
  rw [candidates] at h
  split at h
  · rw [hstem] at h
    exact of_decide_eq_true (List.mem_filter.mp h).2
  · split at h
    · exact of_decide_eq_true (List.mem_filter.mp h).2
    · cases h
  · cases h

/-- A word that has no dot is completed in order if all its candidates are shown. -/
theorem inOrder_of_word (c : Console) (prompt : List Byte) (hword : wordAtEnd line ≠ [])
    (hdot : 0x2e#8 ∉ wordAtEnd line) (hall : shown table env line = candidates table env line) :
    InOrder c table env prompt line := by
  have hlast : (words line).getLast? = some (wordAtEnd line) := by
    rw [words_eq_before_append, if_neg hword, List.getLast?_concat]
  refine .inr ?_
  rw [hall, hlast]
  have hbegins : ∀ cand ∈ candidates table env line, wordAtEnd line <+: cand :=
    fun cand hmem => prefix_of_mem_candidates hdot hmem
  generalize candidates table env line = cands at hbegins
  cases cands with
  | nil => trivial
  | cons cand more =>
      have hcand := hbegins cand List.mem_cons_self
      cases more with
      | nil =>
          refine ⟨_, rfl, hcand.length_le, fun _ => ?_⟩
          rw [GoesOn, if_pos rfl]
          exact ⟨hword, hcand⟩
      | cons other more =>
          refine .inr ⟨_, rfl, fun _ _ => ?_⟩
          rw [GoesOn, if_pos rfl]
          exact ⟨hword, hcand⟩

/-! ## The completion -/

/-- Something that is appended is right if there is no room for it. -/
theorem completed_append_iff {cands : List (List Byte)} {line : Typed} {s sep : List Byte}
    (hne : s ++ sep ≠ []) (hlen : line.buf.length ≤ c.CONFIG_SYS_CBSIZE - 1)
    (hnp : line.np = line.buf.length) :
    Completed c cands line (appendFits c line s sep) ↔
      (Room c line.buf (s.length + sep.length) →
        Continues cands (wordAtEnd line.buf) (s ++ sep)) := by
  rw [appendFits, Room, hnp]
  split
  · next hfull =>
      refine iff_of_true ⟨[], ?_, hlen, .inl rfl⟩ (fun h => absurd h (Nat.not_lt.mpr hfull))
      rw [List.append_nil]
      rfl
  · next hroom =>
      rw [Nat.not_le] at hroom
      rw [forall_prop_of_true hroom]
      constructor
      · rintro ⟨added, hafter, -, hadded⟩
        have hsame : s ++ sep = added := List.append_cancel_left (congrArg Typed.buf hafter)
        subst hsame
        exact hadded.resolve_left hne
      · intro hadded
        refine ⟨s ++ sep, ?_, ?_, .inr hadded⟩
        · rw [List.length_append, hnp]
        · simp only [List.length_append]
          omega

theorem completed_unchanged {cands : List (List Byte)} {line : Typed}
    (hlen : line.buf.length ≤ c.CONFIG_SYS_CBSIZE - 1) : Completed c cands line line := by
  refine ⟨[], ?_, hlen, .inl rfl⟩
  rw [List.append_nil]
  rfl

/-- What is left of a call that returns. -/
theorem returns_iff {cands : List (List Byte)} {line after : Typed} (ret : Bool) :
    (∃ ret' after', some (ret, after) = some (ret', after') ∧ Completed c cands line after') ↔
      Completed c cands line after := by
  refine ⟨?_, fun h => ⟨ret, after, rfl, h⟩⟩
  rintro ⟨ret', after', hsame, h⟩
  cases hsame
  exact h

/-- One candidate. -/
theorem one_right_iff {cands : List (List Byte)} {line : Typed}
    (hlen : line.buf.length ≤ c.CONFIG_SYS_CBSIZE - 1) (hnp : line.np = line.buf.length)
    (hlast : last ∈ (words line.buf).getLast?) :
    (∃ ret after, (if cand.length < last.length then none
        else some (true, appendFits c line (cand.drop last.length) [0x20#8])) =
          some (ret, after) ∧ Completed c cands line after) ↔
      last.length ≤ cand.length ∧ (Room c line.buf (cand.length - last.length + 1) →
        GoesOn cands [cand] line.buf last cand (cand.drop last.length ++ [0x20#8])) := by
  by_cases hle : last.length ≤ cand.length
  · have hne : cand.drop last.length ++ [0x20#8] ≠ [] := by simp
    rw [if_neg (Nat.not_lt.mpr hle), returns_iff, completed_append_iff hne hlen hnp,
      ← goesOn_one hlast hle, List.length_drop, List.length_singleton, and_iff_right hle]
  · rw [if_pos (Nat.not_le.mp hle)]
    exact iff_of_false nofun (fun h => hle h.1)

/-- Several candidates that have something in common. -/
theorem several_right_iff {cands more : List (List Byte)} {line : Typed} (hmore : more ≠ [])
    (hlen : line.buf.length ≤ c.CONFIG_SYS_CBSIZE - 1) (hnp : line.np = line.buf.length)
    (hlast : last ∈ (words line.buf).getLast?) {j : Nat} (hj : find_common_prefix (cand :: more) = j) :
    (∃ ret after, (if last.length < j then
          some (true, appendFits c line ((cand.drop last.length).take (j - last.length)) [])
        else some (true, line)) = some (ret, after) ∧ Completed c cands line after) ↔
      (last.length < j → Room c line.buf (j - last.length) →
        GoesOn cands (cand :: more) line.buf last cand ((cand.take j).drop last.length)) := by
  subst hj
  by_cases hlt : last.length < find_common_prefix (cand :: more)
  · have hlength : ((cand.take ( find_common_prefix (cand :: more))).drop last.length).length =
        find_common_prefix (cand :: more) - last.length := by
      rw [List.length_drop, List.length_take_of_le (find_common_prefix_le cand more)]
    have hne : (cand.take ( find_common_prefix (cand :: more))).drop last.length ++ [] ≠ [] := by
      rw [List.append_nil, ← List.length_pos_iff, hlength]
      exact Nat.sub_pos_of_lt hlt
    rw [if_pos hlt, forall_prop_of_true hlt, returns_iff, ← List.drop_take,
      completed_append_iff hne hlen hnp, goesOn_several hlast hmore hlt, hlength, List.append_nil]
    rfl
  · rw [if_neg hlt, returns_iff]
    exact iff_of_true (completed_unchanged hlen) (fun h => absurd h hlt)

/-- A completion reads what it may and is right exactly if it is in order. -/
theorem completesRight_iff_inOrder (c : Console) (table : List Completable) (env : Variables)
    (prompt : List Byte) (line : Typed) (hlen : line.buf.length ≤ c.CONFIG_SYS_CBSIZE - 1)
    (hnp : line.np = line.buf.length) :
    CompletesRight c table env prompt line ↔ InOrder c table env prompt line.buf := by
  have hsame : Completed c (candidates table env line.buf) line line := completed_unchanged hlen
  rw [CompletesRight, cmd_auto_complete, InOrder]
  by_cases hprompt : prompt = c.CONFIG_SYS_PROMPT
  · rw [if_neg (not_not.mpr hprompt), or_iff_right (not_not.mpr hprompt)]
    dsimp only
    rw [complete_cmdv_eq c table env line.buf]
    cases hshown : shown table env line.buf with
    | nil => exact iff_of_true ((returns_iff _).mpr hsame) trivial
    | cons cand more =>
        have hargv := @make_argv_getLast? c table env line.buf
          (by rw [hshown]; exact List.cons_ne_nil _ _)
        cases hwords : (words line.buf).getLast? with
        | none =>
            -- There is no last argument, so nothing may be read of it.
            cases more with
            | nil =>
                dsimp only
                rw [hargv, hwords]
                exact iff_of_false nofun nofun
            | cons other more =>
                dsimp only
                split
                · next hzero => exact iff_of_true ((returns_iff _).mpr hsame) (.inl hzero)
                · next hj =>
                    rw [hargv, hwords, or_iff_right hj]
                    exact iff_of_false nofun nofun
        | some last =>
            cases more with
            | nil =>
                dsimp only
                rw [hargv, hwords, Option.bind_some, one_right_iff hlen hnp hwords]
                exact ⟨fun h => ⟨last, rfl, h⟩, fun ⟨_, heq, h⟩ => Option.some.inj heq ▸ h⟩
            | cons other more =>
                dsimp only
                split
                · next hzero => exact iff_of_true ((returns_iff _).mpr hsame) (.inl hzero)
                · next hj =>
                    rw [hargv, hwords, Option.bind_some, or_iff_right hj,
                      several_right_iff (List.cons_ne_nil _ _) hlen hnp hwords rfl]
                    exact ⟨fun h => ⟨last, rfl, h⟩, fun ⟨_, heq, h⟩ => Option.some.inj heq ▸ h⟩
  · rw [if_pos hprompt]
    exact iff_of_true ((returns_iff false).mpr hsame) (.inl hprompt)

/-! ## `r` and `cp.b` -/

/-- Eight arguments and 256 characters. -/
def console : Console := ⟨[0x3e#8], 256, 8, by decide⟩

def noVariables : Variables := ⟨[], List.not_mem_nil⟩

/-- `r` for `run`. -/
theorem completesRight_run :
    CompletesRight console [⟨[0x72#8, 0x75#8, 0x6e#8], true⟩] noVariables [0x3e#8]
      ⟨[0x72#8], 1, 2⟩ :=
  (completesRight_iff_inOrder console _ _ _ ⟨[0x72#8], 1, 2⟩ (by decide) rfl).mpr
    (inOrder_of_word console _ (by decide) (by decide) (by decide))

/-- The rest of `cp` is looked for behind `cp.b`. -/
theorem not_completesRight :
    ¬∀ (c : Console) (table : List Completable) (env : Variables) (prompt : List Byte)
      (line : Typed), line.buf.length ≤ c.CONFIG_SYS_CBSIZE - 1 → line.np = line.buf.length →
        CompletesRight c table env prompt line := by
  intro hall
  obtain ⟨ret, after, hreturns, -⟩ := hall console [⟨[0x63#8, 0x70#8], false⟩] noVariables
    [0x3e#8] ⟨[0x63#8, 0x70#8, 0x2e#8, 0x62#8], 4, 5⟩ (by decide) rfl
  have hnone : cmd_auto_complete console [⟨[0x63#8, 0x70#8], false⟩] noVariables [0x3e#8]
      ⟨[0x63#8, 0x70#8, 0x2e#8, 0x62#8], 4, 5⟩ = none := by decide
  rw [hnone] at hreturns
  cases hreturns

end Right

end UBoot.Main
