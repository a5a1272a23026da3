/-
# Which commands a line runs

The tokens of a line are the pieces that the separators leave, and the loop over `cmdbuf` is a run
over these pieces unless the line begins with a quote. A call is in order if the words of its token
have places in `argv`; where they have not, it depends on what the slot behind the last argument
held before.
-/

import UBoot.Main.RunCommand

namespace UBoot.Main

/-! ## The pieces of a line -/

/-- Whether there is an open quote behind a piece. A quote behind a backslash does not count. -/
def quoteFold (state : Bool × Byte) (c : Byte) : Bool × Byte :=
  (if c = quote ∧ state.2 ≠ backslash then !state.1 else state.1, c)

def insideQuotes (piece : List Byte) : Bool := (piece.foldl quoteFold (false, 0#8)).1

/-- A separator behind the piece cuts the line: it is not the first character of the piece, not
behind a backslash and not inside quotes. -/
def Cuts (piece : List Byte) : Prop :=
  piece ≠ [] ∧ piece.getLast? ≠ some backslash ∧ insideQuotes piece = false

instance (piece : List Byte) : Decidable (Cuts piece) := inferInstanceAs (Decidable (_ ∧ _ ∧ _))

/-- The pieces of a line whose first characters are known. -/
def pieces : List Byte → List Byte → List (List Byte)
  | piece, [] => if piece = [] then [] else [piece]
  | piece, c :: line =>
      if c = semicolon ∧ Cuts piece then piece :: pieces [] line else pieces (piece ++ [c]) line

theorem quoteFold_last (piece : List Byte) :
    (piece.foldl quoteFold (false, 0#8)).2 = piece.getLastD 0#8 := by
  induction piece using List.reverseRecOn with
  | nil => rfl
  | append_singleton piece c _ => rw [List.foldl_concat, List.getLastD_concat]; rfl

theorem insideQuotes_append (piece : List Byte) (c : Byte) :
    insideQuotes (piece ++ [c]) =
      if c = quote ∧ piece.getLastD 0#8 ≠ backslash then !insideQuotes piece
      else insideQuotes piece := by
  rw [insideQuotes, List.foldl_concat, quoteFold, quoteFold_last]
  rfl

/-- What stands in front of `sep` is the end of the token, or the NUL in front of it. -/
def Behind (passed token : List Byte) : Prop := passed.head? = some (token.getLastD 0#8)

theorem Behind.unescaped {passed token : List Byte} (h : Behind passed token) :
    unescaped passed = some (decide (token.getLastD 0#8 ≠ backslash)) := by
  rw [Main.unescaped, h]
  rfl

theorem Behind.next (passed token : List Byte) (c : Byte) :
    Behind (c :: passed) (token ++ [c]) := by
  rw [Behind, List.getLastD_concat, List.head?_cons]

theorem Behind.quoteStep {passed token : List Byte} (h : Behind passed token) (c : Byte) :
    quoteStep passed (insideQuotes token) c = some (insideQuotes (token ++ [c])) := by
  rw [Main.quoteStep, h.unescaped, insideQuotes_append]
  by_cases hc : c = quote
  · rw [if_pos hc]
    by_cases hlast : token.getLastD 0#8 = backslash
    · rw [if_neg (fun hquote => hquote.2 hlast), decide_eq_false (not_not.mpr hlast)]
      exact congrArg some (Bool.xor_false _)
    · rw [if_pos ⟨hc, hlast⟩, decide_eq_true hlast]
      exact congrArg some (Bool.xor_true _)
  · rw [if_neg hc, if_neg (fun hquote => hc hquote.1)]

theorem getLastD_ne_backslash (token : List Byte) :
    token.getLastD 0#8 ≠ backslash ↔ token.getLast? ≠ some backslash := by
  cases token using List.reverseRecOn with
  | nil => decide
  | append_singleton token c =>
      rw [List.getLastD_concat, List.getLast?_concat, ne_eq, ne_eq, Option.some.injEq]

theorem Behind.separates {passed token : List Byte} (h : Behind passed token) (c : Byte) :
    separates passed token (insideQuotes (token ++ [c])) c =
      some (decide (c = semicolon ∧ Cuts token)) := by
  rw [Main.separates, h.unescaped]
  by_cases hc : c = semicolon
  · have hquotes : insideQuotes (token ++ [c]) = insideQuotes token := by
      rw [insideQuotes_append, if_neg]
      rw [hc]
      exact fun hquote => absurd hquote.1 (by decide)
    have hcuts : Cuts token ↔ (insideQuotes token = false ∧ c = semicolon ∧ token ≠ []) ∧
        token.getLastD 0#8 ≠ backslash := by
      rw [Cuts, getLastD_ne_backslash]
      tauto
    rw [hquotes]
    split
    · rename_i hall
      apply congrArg some (decide_eq_decide.mpr _)
      rw [hcuts]
      exact ⟨fun hlast => ⟨hc, hall, hlast⟩, fun hcut => hcut.2.2⟩
    · rename_i hnot
      rw [decide_eq_false]
      exact fun hcut => hnot (hcuts.mp hcut.2).1
  · rw [if_neg (fun hall => hc hall.2.1), decide_eq_false (fun hcut => hc hcut.1)]

/-- The loop finds the first piece of what is left of the line. -/
theorem findSep_pieces {passed token : List Byte} (h : Behind passed token) (ahead : List Byte) :
    ∃ piece passed' sep,
      findSep passed token (insideQuotes token) ahead = some (piece, passed', sep) ∧
      (sep = [] ∧ pieces token ahead = pieces piece [] ∨
        ∃ rest, sep = semicolon :: rest ∧ pieces token ahead = piece :: pieces [] rest) := by
  induction ahead generalizing passed token with
  | nil => exact ⟨token, passed, [], rfl, .inl ⟨rfl, rfl⟩⟩
  | cons c ahead ih =>
      rw [findSep, h.quoteStep c, pieces]
      change ∃ piece passed' sep, ((separates passed token (insideQuotes (token ++ [c])) c).bind
        fun separator => if separator = true then some (token, passed, c :: ahead)
          else findSep (c :: passed) (token ++ [c]) (insideQuotes (token ++ [c])) ahead) = _ ∧ _
      rw [h.separates c, Option.bind_some]
      by_cases hcut : c = semicolon ∧ Cuts token
      · rw [decide_eq_true hcut, if_pos rfl, if_pos hcut, hcut.1]
        exact ⟨token, passed, _, rfl, .inr ⟨ahead, rfl, rfl⟩⟩
      · rw [decide_eq_false hcut, if_neg Bool.false_ne_true, if_neg hcut]
        exact ih (Behind.next passed token c)

theorem length_pieces_le (piece line : List Byte) :
    ∀ p ∈ pieces piece line, p.length ≤ piece.length + line.length := by
  induction line generalizing piece with
  | nil =>
      intro p hp
      rw [pieces] at hp
      split at hp
      · cases hp
      · rw [List.mem_singleton.mp hp]
        exact Nat.le_add_right _ _
  | cons c line ih =>
      intro p hp
      rw [pieces] at hp
      rw [List.length_cons]
      split at hp
      · obtain rfl | hp := List.mem_cons.mp hp
        · exact Nat.le_add_right _ _
        · have hlength := ih [] p hp
          rw [List.length_nil] at hlength
          omega
      · have hlength := ih (piece ++ [c]) p hp
        rw [List.length_append, List.length_singleton] at hlength
        omega

/-! ## The loop over the pieces -/

section Run

variable {cbsize maxargs : Nat} {W : Type} {getenv : W → List Byte → Option CString}
  {table : List (Cmd maxargs W)}

/-- Each token is handled until a command was interrupted. -/
def runPieces (cbsize : Nat) {maxargs : Nat} {W : Type} (getenv : W → List Byte → Option CString)
    (table : List (Cmd maxargs W)) :
    List (List Byte) → Shell maxargs W → Option (Shell maxargs W)
  | [], s => some s
  | token :: rest, s => do
      let s ← runToken cbsize getenv table token s
      if s.stopped then return s
      runPieces cbsize getenv table rest s

/-- The token that is found is run, and what is behind its separator. -/
theorem commandLoop_found {passed passed' token sep : List Byte} {c : Byte} {str : List Byte}
    {s : Shell maxargs W} : findSep passed [] false (c :: str) = some (token, passed', sep) →
    commandLoop cbsize getenv table passed (c :: str) s =
      (runToken cbsize getenv table token s).bind fun s =>
        if s.stopped then some s
        else match sep with
          | [] => some s
          | _ :: rest => commandLoop cbsize getenv table (0#8 :: passed') rest s := by
  intro h
  rw [commandLoop]
  split
  · rename_i hnone
    rw [h] at hnone
    cases hnone
  · rename_i hsome
    rw [h] at hsome
    cases hsome
    cases sep with
    | nil => rfl
    | cons k rest => rfl

/-- The last token of a line. -/
theorem commandLoop_last {passed passed' token : List Byte} {c : Byte} {str : List Byte}
    {s : Shell maxargs W} (h : findSep passed [] false (c :: str) = some (token, passed', [])) :
    commandLoop cbsize getenv table passed (c :: str) s =
      runPieces cbsize getenv table [token] s := commandLoop_found h

/-- A token with a separator behind it. -/
theorem commandLoop_more {passed passed' token : List Byte} {c k : Byte} {str rest : List Byte}
    {s : Shell maxargs W}
    (h : findSep passed [] false (c :: str) = some (token, passed', k :: rest)) :
    commandLoop cbsize getenv table passed (c :: str) s =
      (runToken cbsize getenv table token s).bind fun s =>
        if s.stopped then some s
        else commandLoop cbsize getenv table (0#8 :: passed') rest s := commandLoop_found h

/-- In front of a token there is a NUL, or it is the first one and does not begin with a quote. -/
def Begins (passed str : List Byte) : Prop :=
  passed.head? = some 0#8 ∨ passed = [] ∧ str.head? ≠ some quote

theorem findSep_begin {passed : List Byte} {c : Byte} {str : List Byte}
    (h : Begins passed (c :: str)) :
    ∃ token passed' sep, findSep passed [] false (c :: str) = some (token, passed', sep) ∧
      (sep = [] ∧ pieces [] (c :: str) = pieces token [] ∨
        ∃ rest, sep = semicolon :: rest ∧ pieces [] (c :: str) = token :: pieces [] rest) := by
  obtain hnul | ⟨rfl, hquote⟩ := h
  · exact findSep_pieces (show Behind passed [] from hnul) (c :: str)
  · -- neither test of the first character looks in front of `cmdbuf`
    have hc : c ≠ quote := fun hc => hquote (congrArg some hc)
    have hquotes : insideQuotes [c] = false := by
      rw [← List.nil_append [c], insideQuotes_append, if_neg (fun hall => hc hall.1)]
      rfl
    have hfirst : findSep [] [] false (c :: str) = findSep [c] [c] (insideQuotes [c]) str := by
      have hstep : quoteStep [] false c = some false := if_neg hc
      have hsep : separates [] [] false c = some false := if_neg fun hall => hall.2.2 rfl
      rw [findSep, hstep, hquotes]
      change ((separates [] [] false c).bind fun separator =>
        if separator = true then _ else findSep [c] ([] ++ [c]) false str) = _
      rw [hsep]
      rfl
    have hpieces : pieces [] (c :: str) = pieces [c] str := by
      rw [pieces, if_neg (fun hcut => hcut.2.1 rfl), List.nil_append]
    rw [hfirst, hpieces]
    exact findSep_pieces (Behind.next [] [] c) str

/-- On a line that does not begin with a quote, `commandLoop` handles the pieces. -/
theorem commandLoop_pieces {passed str : List Byte} {s : Shell maxargs W} (h : Begins passed str) :
    commandLoop cbsize getenv table passed str s =
      runPieces cbsize getenv table (pieces [] str) s := by
  induction hlength : str.length using Nat.strong_induction_on generalizing passed str s with
  | _ n ih =>
      cases str with
      | nil =>
          rw [commandLoop]
          rfl
      | cons c str =>
          obtain ⟨token, passed', sep, hfound, hsep⟩ := findSep_begin h
          have hfoundLength := findSep_length hfound
          obtain ⟨rfl, hpieces⟩ | ⟨rest, rfl, hpieces⟩ := hsep
          · have hne : token ≠ [] := by
              rintro rfl
              cases hfoundLength
            rw [commandLoop_last hfound, hpieces, pieces, if_neg hne]
          · have hshorter : rest.length < n := by
              simp only [List.length_cons, List.length_nil] at hfoundLength hlength
              omega
            have hbegins : Begins (0#8 :: passed') rest := .inl rfl
            rw [commandLoop_more hfound, hpieces, runPieces]
            apply congrArg (Option.bind _)
            funext s
            rw [ih _ hshorter hbegins rfl]
            rfl

/-- A line that begins with a quote makes it look in front of `cmdbuf`. -/
theorem commandLoop_quote (str : List Byte) (s : Shell maxargs W) :
    commandLoop cbsize getenv table [] (quote :: str) s = none := by
  rw [commandLoop]
  split
  · rfl
  · rename_i h
    cases h

/-! ## Calls -/

/-- What the claim asks of a call: `argv` is the words of the line, closed by `NULL`. -/
structure Dispatched (maxargs : Nat) (line : List Byte) (call : Call) : Prop where
  argc : call.argc ≤ maxargs
  closed : call.argv[call.argc]? = some .null
  args : call.argv.take call.argc = (words line).map .arg

/-- A line with more words than `argv` has places for is not called with. -/
theorem Dispatched.words_le {line : List Byte} {argv : Argv maxargs} {argc : Nat}
    (h : Dispatched maxargs line ⟨argc, argv.slots⟩) : (words line).length ≤ maxargs := by
  have hlength := congrArg List.length h.args
  rw [List.length_map, List.length_take] at hlength
  have hargc : argc ≤ maxargs := h.argc
  change min argc argv.slots.length = _ at hlength
  omega

/-- The call that `parse_line` prepares is in order if the words fit, or if they have places and the
slot behind the last one holds `NULL` already. -/
def Ready (line : List Byte) (argv : Argv maxargs) : Prop :=
  Fits maxargs line ∨
    (words line).length ≤ maxargs ∧ argv.slots[maxargs]? = some .null

theorem dispatched_iff_ready (line : List Byte) (argv : Argv maxargs) :
    Dispatched maxargs line ⟨(parse_line line argv).1, (parse_line line argv).2.slots⟩ ↔
      Ready line argv := by
  have hparsed := parse_line_spec line argv
  have hargc := hparsed.argc
  have hargs := hparsed.args
  rw [List.take_zero, List.nil_append] at hargs
  rw [Nat.zero_add] at hargc
  have hle : (parse_line line argv).1 ≤ maxargs := by
    rw [hargc, List.length_take]
    exact Nat.min_le_left _ _
  have hall : (words line).length ≤ maxargs → (words line).take maxargs = words line :=
    fun h => List.take_of_length_le h
  by_cases hfits : Fits maxargs line
  · have hwords : (words line).length ≤ maxargs := by
      obtain hlt | ⟨heq, -⟩ := hfits
      · exact hlt.le
      · exact heq.le
    rw [hall hwords] at hargs
    exact ⟨fun _ => .inl hfits, fun _ => ⟨hle, hparsed.closed hfits, hargs⟩⟩
  · obtain ⟨hfull, hslot⟩ := hparsed.open' hfits
    constructor
    · intro h
      have hclosed := h.closed
      dsimp only at hclosed
      rw [hfull, hslot] at hclosed
      exact .inr ⟨h.words_le, hclosed⟩
    · rintro (h | ⟨hwords, hnull⟩)
      · exact absurd h hfits
      · rw [hall hwords] at hargs
        refine ⟨hle, ?_, hargs⟩
        dsimp only
        rw [hfull, hslot, hnull]

/-- The words of a line name a command that takes as many arguments as there are, and it is no
recursion of `bootd`. -/
def Called (table : List (Cmd maxargs W)) (line : List Byte) (flag : Nat) : Prop :=
  ∃ name cmdtp, ((words line).take maxargs).head? = some name ∧ find_cmd table name = some cmdtp ∧
    ((words line).take maxargs).length ≤ cmdtp.maxargs ∧
    ¬ (cmdtp.bootd ∧ flag &&& CMD_FLAG_BOOTD ≠ 0)

/-- What handling a token leaves. -/
structure TokenStep (table : List (Cmd maxargs W)) (token line : List Byte) (call : Option Call)
    (s s' : Shell maxargs W) : Prop where
  handled : s'.handled = s.handled ++ [⟨token, line, call⟩]
  called : call.isSome ↔ Called table line s.flag
  prepared : ∀ c ∈ call, c = ⟨(parse_line line s.argv).1, (parse_line line s.argv).2.slots⟩
  stopped : s.stopped = false → s'.stopped → s'.board.ctrlc_was_pressed

/-- A token without a call. -/
theorem TokenStep.skip {token line : List Byte} {s s' : Shell maxargs W}
    (handled : s'.handled = s.handled ++ [⟨token, line, none⟩]) (stopped : s'.stopped = s.stopped)
    (hnot : ¬ Called table line s.flag) : TokenStep table token line none s s' where
  handled := handled
  called := ⟨nofun, fun h => absurd h hnot⟩
  prepared := nofun
  stopped hrun hstop := by
    rw [stopped, hrun] at hstop
    cases hstop

theorem runToken_spec (getenv : W → List Byte → Option CString) (table : List (Cmd maxargs W))
    {token : List Byte} (hfits : token.length < cbsize) (s : Shell maxargs W) :
    ∃ line call s', finalText cbsize getenv token s.board.world = some line ∧
      runToken cbsize getenv table token s = some s' ∧ TokenStep table token line call s s' := by
  obtain ⟨text, htext, -⟩ := process_macros_terminates (getenv s.board.world) hfits
  have hline : finalText cbsize getenv token s.board.world =
      some ((text ++ [0#8]).takeWhile (· ≠ 0#8)) := by
    rw [finalText, htext]
    rfl
  generalize hvalue : (text ++ [0#8]).takeWhile (· ≠ 0#8) = line at hline
  have hparsed := parse_line_spec line s.argv
  have hargc := hparsed.argc
  have hargs := hparsed.args
  rw [List.take_zero, List.nil_append] at hargs
  rw [Nat.zero_add] at hargc
  rw [runToken, hline]
  dsimp only [Option.bind_eq_bind, Option.bind_some]
  rcases hprepared : parse_line line s.argv with ⟨argc, argv⟩
  rw [hprepared] at hargc hargs
  dsimp only at hargc hargs ⊢
  by_cases hnone : argc = 0
  · rw [if_pos hnone]
    refine ⟨line, none, _, rfl, rfl, .skip rfl rfl ?_⟩
    rintro ⟨name, cmdtp, hname, -⟩
    rw [hnone, eq_comm, List.length_eq_zero_iff] at hargc
    rw [hargc] at hname
    cases hname
  · rw [if_neg hnone]
    obtain ⟨name, rest, hwords⟩ : ∃ name rest, (words line).take maxargs = name :: rest := by
      apply List.exists_cons_of_ne_nil
      intro hnil
      rw [hnil] at hargc
      exact hnone hargc
    have hname : argv.slots.head? = some (.arg name) := by
      have hhead := congrArg List.head? hargs
      rw [hwords, List.map_cons, List.head?_cons, List.head?_take, if_neg hnone] at hhead
      exact hhead
    rw [hname]
    dsimp only
    rcases hfind : find_cmd table name with _ | cmdtp
    · refine ⟨line, none, _, rfl, rfl, .skip rfl rfl ?_⟩
      rintro ⟨name', cmdtp, hname', hfind', -⟩
      rw [hwords, List.head?_cons, Option.some.injEq] at hname'
      rw [← hname', hfind] at hfind'
      cases hfind'
    · have hcalled : Called table line s.flag ↔
          argc ≤ cmdtp.maxargs ∧ ¬ (cmdtp.bootd ∧ s.flag &&& CMD_FLAG_BOOTD ≠ 0) := by
        constructor
        · rintro ⟨name', cmdtp', hname', hfind', hlimit, hbootd⟩
          rw [hwords, List.head?_cons, Option.some.injEq] at hname'
          rw [← hname', hfind] at hfind'
          cases hfind'
          rw [← hargc] at hlimit
          exact ⟨hlimit, hbootd⟩
        · rintro ⟨hlimit, hbootd⟩
          rw [hargc] at hlimit
          exact ⟨name, cmdtp, by rw [hwords]; rfl, hfind, hlimit, hbootd⟩
      dsimp only
      by_cases hlimit : argc > cmdtp.maxargs
      · rw [if_pos hlimit]
        exact ⟨line, none, _, rfl, rfl, .skip rfl rfl fun h => (hcalled.mp h).1.not_gt hlimit⟩
      · rw [if_neg hlimit]
        by_cases hbootd : cmdtp.bootd ∧ s.flag &&& CMD_FLAG_BOOTD ≠ 0
        · rw [if_pos hbootd]
          exact ⟨line, none, _, rfl, rfl, .skip rfl rfl fun h => (hcalled.mp h).2 hbootd⟩
        · rw [if_neg hbootd]
          refine ⟨line, some ⟨argc, argv.slots⟩, _, rfl, rfl, ?_⟩
          constructor
          · rw [Shell.record, Shell.call_handled]
          · exact ⟨fun _ => hcalled.mpr ⟨not_lt.mp hlimit, hbootd⟩, fun _ => rfl⟩
          · rintro c hc
            rw [hprepared]
            exact (Option.some.inj hc).symm
          · intro _ hstop
            rw [Shell.record, Shell.call_stopped] at hstop
            exact hstop

/-- What a token needs: if it leads to a call, its arguments are ready. -/
def TokenOk (cbsize : Nat) {maxargs : Nat} {W : Type} (getenv : W → List Byte → Option CString)
    (table : List (Cmd maxargs W)) (token : List Byte) (s : Shell maxargs W) : Prop :=
  ∀ line ∈ finalText cbsize getenv token s.board.world,
    Called table line s.flag → Ready line s.argv

/-- Every token of a run has what it needs in the state it is handled in. -/
def RunOk (cbsize : Nat) {maxargs : Nat} {W : Type} (getenv : W → List Byte → Option CString)
    (table : List (Cmd maxargs W)) : List (List Byte) → Shell maxargs W → Prop
  | [], _ => True
  | token :: rest, s => TokenOk cbsize getenv table token s ∧
      ∀ s' ∈ runToken cbsize getenv table token s, s'.stopped = false →
        RunOk cbsize getenv table rest s'

/-- All calls among what was handled are in order. -/
def CallsOk (maxargs : Nat) (handled : List Handled) : Prop :=
  ∀ h ∈ handled, ∀ call ∈ h.call, Dispatched maxargs h.finaltoken call

/-- All pieces were handled, or those up to one whose command was interrupted. -/
def Complete (pieces : List (List Byte)) (handled : List Handled) (s : Shell maxargs W) : Prop :=
  s.stopped = false ∧ handled.map Handled.token = pieces ∨
    s.board.ctrlc_was_pressed ∧ handled.map Handled.token <+: pieces

theorem TokenStep.callOk {token line : List Byte} {call : Option Call} {s s' : Shell maxargs W}
    (h : TokenStep table token line call s s') :
    (∀ c ∈ call, Dispatched maxargs line c) ↔ (Called table line s.flag → Ready line s.argv) := by
  rw [← h.called, ← dispatched_iff_ready]
  cases call with
  | none => exact ⟨nofun, nofun⟩
  | some c =>
      rw [h.prepared c rfl]
      exact ⟨fun hall _ => hall _ rfl, fun himp _ hc => Option.some.inj hc ▸ himp rfl⟩

/-- A run handles the pieces, and its calls are in order if and only if every token has what it
needs. -/
theorem runPieces_spec (getenv : W → List Byte → Option CString) (table : List (Cmd maxargs W))
    {tokens : List (List Byte)} (hfits : ∀ t ∈ tokens, t.length < cbsize)
    {s : Shell maxargs W} (hrun : s.stopped = false) :
    ∃ s' handled, runPieces cbsize getenv table tokens s = some s' ∧
      s'.handled = s.handled ++ handled ∧ Complete tokens handled s' ∧
      (CallsOk maxargs handled ↔ RunOk cbsize getenv table tokens s) := by
  induction tokens generalizing s with
  | nil =>
      exact ⟨s, [], rfl, (List.append_nil _).symm, .inl ⟨hrun, rfl⟩, fun _ => trivial, fun _ => nofun⟩
  | cons token tokens ih =>
      obtain ⟨htoken, htokens⟩ := List.forall_mem_cons.mp hfits
      obtain ⟨line, call, s₁, hline, hstep, hspec⟩ :=
        runToken_spec getenv table htoken s
      have hok : TokenOk cbsize getenv table token s ↔ ∀ c ∈ call, Dispatched maxargs line c := by
        rw [hspec.callOk, TokenOk, hline]
        exact ⟨fun hall => hall line rfl, fun hone _ hl => Option.some.inj hl ▸ hone⟩
      rw [runPieces, hstep, Option.bind_eq_bind, Option.bind_some]
      by_cases hstop : s₁.stopped
      · rw [if_pos hstop]
        refine ⟨s₁, [⟨token, line, call⟩], rfl, hspec.handled, .inr ⟨hspec.stopped hrun hstop, ?_⟩, ?_⟩
        · exact ⟨tokens, rfl⟩
        · rw [CallsOk, List.forall_mem_singleton, RunOk, hok, hstep]
          refine ⟨fun hcall => ⟨hcall, fun s' hs' hgo => ?_⟩, And.left⟩
          cases hs'
          rw [hstop] at hgo
          cases hgo
      · rw [if_neg hstop]
        obtain ⟨s', handled, hrest, hhandled, hcomplete, hcalls⟩ :=
          ih htokens (Bool.eq_false_iff.mpr hstop)
        refine ⟨s', ⟨token, line, call⟩ :: handled, hrest, ?_, ?_, ?_⟩
        · rw [hhandled, hspec.handled, List.append_assoc, List.singleton_append]
        · obtain ⟨hgo, hall⟩ | ⟨hpressed, hsome⟩ := hcomplete
          · exact .inl ⟨hgo, congrArg (token :: ·) hall⟩
          · exact .inr ⟨hpressed, List.cons_prefix_cons.mpr ⟨rfl, hsome⟩⟩
        · rw [CallsOk, List.forall_mem_cons, RunOk, hok, hstep]
          refine and_congr_right fun _ => hcalls.trans ⟨fun hrest s' hs' _ => ?_, fun hrest => ?_⟩
          · cases hs'
            exact hrest
          · exact hrest s₁ rfl (Bool.eq_false_iff.mpr hstop)

/-- What is asked of `run_command`: no character in front of `cmdbuf` is looked at, the pieces of
the line are handled in order, and every call is in order. -/
def Dispatches (getenv : W → List Byte → Option CString) (table : List (Cmd maxargs W))
    (cmd : Token cbsize) (flag : Nat) (board : Board W) (argv : Argv maxargs) : Prop :=
  ∃ ret s, run_command cbsize getenv table (some ⟨cmd.chars, cmd.terminated⟩) flag board argv =
      some (ret, s) ∧
    Complete (pieces [] cmd.chars) s.handled s ∧ CallsOk maxargs s.handled

/-- `run_command` on a line that has something in it. -/
theorem run_command_loop {c : Byte} {line : List Byte} (terminated : 0#8 ∉ c :: line)
    (fits : (c :: line).length < cbsize) (flag : Nat) (board : Board W) (argv : Argv maxargs) :
    run_command cbsize getenv table (some ⟨c :: line, terminated⟩) flag board argv =
      (commandLoop cbsize getenv table [] (c :: line) (Shell.start board argv flag)).map
        fun s => (if s.stopped then -1 else if s.rc ≠ 0 then s.rc else s.repeatable, s) := by
  rw [run_command]
  dsimp only
  rw [if_neg nofun, if_neg (Nat.not_le.mpr fits)]
  cases commandLoop cbsize getenv table [] (c :: line) (Shell.start board argv flag) <;> rfl

theorem not_dispatches_quote {cmd : Token cbsize} (h : cmd.chars.head? = some quote) (flag : Nat)
    (board : Board W) (argv : Argv maxargs) : ¬ Dispatches getenv table cmd flag board argv := by
  obtain ⟨chars, terminated, fits⟩ := cmd
  cases chars with
  | nil => cases h
  | cons c line =>
      cases h
      rintro ⟨ret, s, hrun, -⟩
      rw [run_command_loop terminated fits, commandLoop_quote] at hrun
      cases hrun

theorem dispatches_iff_runOk {cmd : Token cbsize} (h : cmd.chars.head? ≠ some quote) (flag : Nat)
    (board : Board W) (argv : Argv maxargs) :
    Dispatches getenv table cmd flag board argv ↔
      RunOk cbsize getenv table (pieces [] cmd.chars) (Shell.start board argv flag) := by
  obtain ⟨chars, terminated, fits⟩ := cmd
  have hpieces : ∀ t ∈ pieces [] chars, t.length < cbsize := by
    intro t ht
    have hlength := length_pieces_le [] chars t ht
    rw [List.length_nil] at hlength
    omega
  obtain ⟨s, handled, hrun, hhandled, hcomplete, hcalls⟩ :=
    runPieces_spec getenv table hpieces
      (show (Shell.start board argv flag).stopped = false from rfl)
  change s.handled = [] ++ handled at hhandled
  rw [List.nil_append] at hhandled
  rw [← hhandled] at hcomplete hcalls
  cases chars with
  | nil =>
      cases hrun
      exact ⟨fun _ => trivial, fun _ => ⟨_, _, rfl, hcomplete, hcalls.mpr trivial⟩⟩
  | cons c line =>
      rw [Dispatches, run_command_loop terminated fits, commandLoop_pieces (.inr ⟨rfl, h⟩), hrun,
        ← hcalls]
      constructor
      · rintro ⟨ret, s', hsame, -, hall⟩
        cases hsame
        exact hall
      · exact fun hall => ⟨_, s, rfl, hcomplete, hall⟩

/-- `run_command` is right on the lines that do not begin with a quote, if in its run no command is
called whose words have no place in `argv`, or take all places and have a blank behind them. -/
theorem run_command_dispatches_iff (getenv : W → List Byte → Option CString)
    (table : List (Cmd maxargs W)) (cmd : Token cbsize) (flag : Nat) (board : Board W)
    (argv : Argv maxargs) :
    Dispatches getenv table cmd flag board argv ↔
      cmd.chars.head? ≠ some quote ∧
        RunOk cbsize getenv table (pieces [] cmd.chars) (Shell.start board argv flag) := by
  by_cases h : cmd.chars.head? = some quote
  · exact ⟨fun hall => absurd hall (not_dispatches_quote h flag board argv),
      fun hall => absurd h hall.1⟩
  · rw [dispatches_iff_runOk h]
    exact ⟨fun hall => ⟨h, hall⟩, And.right⟩

end Run

/-- `echo`, which takes as many arguments as there are. -/
def echo (maxargs : Nat) : Cmd maxargs Unit :=
  ⟨ascii "echo", maxargs, 1, false, fun _ _ argv board => (0, argv, board)⟩

/-- `echo` is called although it has 17 words. -/
theorem not_run_command_dispatches : ¬ ∀ (cbsize maxargs : Nat) (W : Type)
    (getenv : W → List Byte → Option CString) (table : List (Cmd maxargs W)) (cmd : Token cbsize)
    (flag : Nat) (board : Board W) (argv : Argv maxargs),
    Dispatches getenv table cmd flag board argv := by
  intro hall
  have hline := hall 256 16 Unit (fun _ _ => none) [echo 16]
    ⟨ascii "echo 1 2 3 4 5 6 7 8 9 a b c d e f g", by decide, by decide⟩ 0 ⟨(), false⟩
    ⟨List.replicate 17 .garbage, rfl⟩
  rw [dispatches_iff_runOk (by decide),
    show pieces [] (ascii "echo 1 2 3 4 5 6 7 8 9 a b c d e f g") =
      [ascii "echo 1 2 3 4 5 6 7 8 9 a b c d e f g"] by decide] at hline
  have htext : finalText 256 (fun _ _ => none) (ascii "echo 1 2 3 4 5 6 7 8 9 a b c d e f g") () =
      some (ascii "echo 1 2 3 4 5 6 7 8 9 a b c d e f g") := by
    rw [finalText, process_macros_plain _ (by decide) (by decide)]
    decide
  have hwords : (words (ascii "echo 1 2 3 4 5 6 7 8 9 a b c d e f g")).length = 17 := by decide
  obtain ⟨(hlt | ⟨heq, -⟩) | ⟨hle, -⟩, -⟩ := And.imp_left (fun htoken => htoken _ htext
    ⟨ascii "echo", echo 16, by decide, rfl, by decide, by decide⟩) hline
  all_goals omega

end UBoot.Main
