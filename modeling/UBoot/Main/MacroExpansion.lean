/-
# What the references of a command become

For a command without escapes and quotes the machine writes what `scan` says, cut off at the
budget. `scan` and `expand` read a command in the same pieces; they agree on every environment if
no piece is one of those the machine treats differently, and `Regular` says which these are.
-/

import UBoot.Main.ProcessMacros

namespace UBoot.Main

/-- One of the commands between the separators of a line: a string that fits into `cmdbuf`. -/
structure Token (cbsize : Nat) where
  chars : List Byte
  terminated : 0#8 ∉ chars
  fits : chars.length < cbsize

/-- A command without backslashes and quotes. -/
def Plain (s : List Byte) : Prop := ∀ c ∈ s, c ≠ backslash ∧ c ≠ quote

instance (s : List Byte) : Decidable (Plain s) := List.decidableBAll _ s

/-- The characters that are kept back for the name of a variable. -/
def Scan.held : Scan → List Byte
  | .name read => read
  | _ => []

/-! ## The budget -/

/-- What is written and what may still be written make up the buffer. -/
def Macros.Budget (cbsize : Nat) (m : Macros) : Prop :=
  m.output.length + m.outputcnt = cbsize

@[simp] theorem Macros.emit_state (c : Byte) (m : Macros) : (m.emit c).state = m.state := rfl

@[simp] theorem Macros.emit_prev (c : Byte) (m : Macros) : (m.emit c).prev = m.prev := rfl

theorem Macros.Budget.emit {cbsize : Nat} {m : Macros} (h : m.Budget cbsize)
    (hroom : m.outputcnt ≠ 0) (c : Byte) : (m.emit c).Budget cbsize := by
  unfold Macros.Budget at h ⊢
  rw [Macros.emit, List.length_append, List.length_singleton]
  change m.output.length + 1 + (m.outputcnt - 1) = cbsize
  omega

theorem take_append_take (n : Nat) (written rest : List Byte) :
    (written.take n ++ rest).take n = (written ++ rest).take n := by
  rw [List.take_append, List.take_append, List.take_take, Nat.min_self, List.length_take]
  congr 2
  omega

/-- Written is what the buffer has room for. -/
theorem Macros.Budget.full {cbsize : Nat} {m : Macros} (h : m.Budget cbsize)
    (hfull : m.outputcnt = 0) (rest : List Byte) :
    m.output = (m.output ++ rest).take cbsize := by
  have hlength : m.output.length = cbsize := by
    unfold Macros.Budget at h
    omega
  rw [← hlength, List.take_left]

theorem Macros.Budget.take {cbsize : Nat} {m : Macros} (h : m.Budget cbsize) :
    m.output = m.output.take cbsize := by
  apply (List.take_of_length_le _).symm
  unfold Macros.Budget at h
  omega

theorem emitAll_spec {cbsize : Nat} :
    ∀ (value : List Byte) {m : Macros}, m.Budget cbsize →
      (Macros.emitAll value m).Budget cbsize ∧
      (Macros.emitAll value m).output = (m.output ++ value).take cbsize ∧
      (Macros.emitAll value m).state = m.state ∧ (Macros.emitAll value m).prev = m.prev
  | [], m, h => by
      rw [List.append_nil]
      exact ⟨h, h.take, rfl, rfl⟩
  | c :: value, m, h => by
      rw [Macros.emitAll]
      split
      · rename_i hfull
        exact ⟨h, h.full hfull _, rfl, rfl⟩
      · rename_i hroom
        obtain ⟨hbudget, houtput, hstate, hprev⟩ := emitAll_spec value (h.emit hroom c)
        refine ⟨hbudget, ?_, hstate, hprev⟩
        rw [houtput, Macros.emit, List.append_assoc, List.singleton_append]

/-- One character keeps the budget, and a name grows by at most what was read. -/
theorem switch_budget {cbsize : Nat} (getenv : List Byte → Option CString) (escaped : Bool)
    (c : Byte) {m : Macros} (h : m.Budget cbsize) (hroom : m.outputcnt ≠ 0)
    (hheld : m.state.held.length + escaped.toNat < cbsize) :
    ∃ m', m.switch cbsize getenv escaped c = some m' ∧ m'.Budget cbsize ∧
      m'.state.held.length ≤ m.state.held.length + escaped.toNat + 1 := by
  unfold Macros.switch
  split
  · split
    · exact ⟨_, rfl, h, Nat.zero_le _⟩
    · split
      · exact ⟨_, rfl, h, Nat.zero_le _⟩
      · rename_i hstate _ _
        refine ⟨_, rfl, h.emit hroom c, ?_⟩
        rw [Macros.emit_state]
        omega
  · split
    · exact ⟨_, rfl, h, Nat.zero_le _⟩
    · have hdollar : (Macros.emit dollar { m with state := .waiting }).Budget cbsize :=
        Macros.Budget.emit h hroom dollar
      refine ⟨_, rfl, ?_, ?_⟩
      · split
        · rename_i hmore
          exact hdollar.emit hmore c
        · exact hdollar
      · split <;> exact Nat.zero_le _
  · rename_i read hstate
    have hlength : (if escaped then read ++ [backslash] else read).length =
        m.state.held.length + escaped.toNat := by
      rw [hstate, Scan.held]
      cases escaped <;> simp
    dsimp only
    split
    · rw [if_pos (by omega)]
      obtain ⟨hbudget, _, hwaiting, _⟩ := emitAll_spec
        (valueOf getenv (if escaped then read ++ [backslash] else read))
        (m := { m with state := .waiting }) h
      refine ⟨_, rfl, hbudget, ?_⟩
      rw [hwaiting]
      exact Nat.zero_le _
    · refine ⟨_, rfl, h, ?_⟩
      rw [Scan.held, List.length_append, hlength]
      exact Nat.le_refl _
  · split
    · exact ⟨_, rfl, h, Nat.zero_le _⟩
    · refine ⟨_, rfl, h.emit hroom c, ?_⟩
      rw [Macros.emit_state]
      omega

/-- The whole command is read, or as much of it as there is room for, and no name is too long. -/
theorem macrosLoop_budget {cbsize : Nat} (getenv : List Byte → Option CString) :
    ∀ (input : List Byte) {m : Macros}, m.Budget cbsize →
      m.state.held.length + input.length < cbsize →
      ∃ m', macrosLoop cbsize getenv input m = some m' ∧ m'.Budget cbsize
  | [], m, h, _ => ⟨m, rfl, h⟩
  | c :: input, m, h, hheld => by
      rw [List.length_cons] at hheld
      rw [macrosLoop.eq_def]
      dsimp only
      split
      · exact ⟨m, rfl, h⟩
      · rename_i hroom
        split
        · match input with
          | [] => exact ⟨m, rfl, h⟩
          | c' :: input =>
              rw [List.length_cons] at hheld
              obtain ⟨m', hswitch, hbudget, hgrown⟩ :=
                switch_budget getenv true c' (m := { m with prev := c }) h hroom
                  (by change m.state.held.length + 1 < cbsize; omega)
              change m'.state.held.length ≤ m.state.held.length + 1 + 1 at hgrown
              dsimp only
              rw [hswitch]
              exact macrosLoop_budget getenv input (m := { m' with prev := c' }) hbudget
                (by change m'.state.held.length + input.length < cbsize; omega)
        · obtain ⟨m', hswitch, hbudget, hgrown⟩ := switch_budget getenv false c h hroom
            (by change m.state.held.length + 0 < cbsize; omega)
          change m'.state.held.length ≤ m.state.held.length + 0 + 1 at hgrown
          rw [hswitch]
          exact macrosLoop_budget getenv input (m := { m' with prev := c }) hbudget
            (by change m'.state.held.length + input.length < cbsize; omega)

/-! ## What the machine writes -/

section Scanning

variable (getenv : List Byte → Option CString)

/-- What is written for a plain command without a budget. -/
def scan : Scan → List Byte → List Byte
  | _, [] => []
  | .waiting, c :: s => if c = dollar then scan .dollar s else c :: scan .waiting s
  | .dollar, c :: s =>
      if opens c then scan (.name []) s else dollar :: c :: scan .waiting s
  | .name read, c :: s =>
      if closes c then valueOf getenv read ++ scan .waiting s else scan (.name (read ++ [c])) s
  | .quoted, c :: s => c :: scan .quoted s

end Scanning

/-- A plain character writes what `scan` writes for it. -/
theorem switch_scan {cbsize : Nat} (getenv : List Byte → Option CString) {c : Byte} {m : Macros}
    (s : List Byte) (h : m.Budget cbsize) (hroom : m.outputcnt ≠ 0)
    (hheld : m.state.held.length < cbsize) (hc : c ≠ quote) (hprev : m.prev ≠ backslash)
    (hstate : m.state ≠ .quoted) :
    ∃ m', m.switch cbsize getenv false c = some m' ∧ m'.Budget cbsize ∧ m'.state ≠ .quoted ∧
      (m'.output ++ scan getenv m'.state s).take cbsize =
        (m.output ++ scan getenv m.state (c :: s)).take cbsize := by
  unfold Macros.switch
  split
  · rename_i hwaiting
    rw [if_neg (fun hquote => hc hquote.1), hwaiting, scan]
    by_cases hd : c = dollar
    · rw [if_pos ⟨hd, hprev⟩, if_pos hd]
      exact ⟨_, rfl, h, nofun, rfl⟩
    · rw [if_neg (fun hdollar => hd hdollar.1), if_neg hd]
      refine ⟨_, rfl, h.emit hroom c, by rw [Macros.emit_state]; exact hstate, ?_⟩
      rw [Macros.emit_state, hwaiting, Macros.emit, List.append_assoc, List.singleton_append]
  · rename_i hdollar
    rw [hdollar, scan]
    split
    · exact ⟨_, rfl, h, nofun, rfl⟩
    · have hone : (Macros.emit dollar { m with state := .waiting }).Budget cbsize :=
        Macros.Budget.emit h hroom dollar
      refine ⟨_, rfl, ?_⟩
      split
      · rename_i hmore
        refine ⟨hone.emit hmore c, nofun, ?_⟩
        change (m.output ++ [dollar] ++ [c] ++ scan getenv .waiting s).take cbsize = _
        rw [List.append_assoc, List.append_assoc]
        rfl
      · rename_i hfull
        refine ⟨hone, nofun, ?_⟩
        have hcut : ∀ rest, m.output ++ [dollar] = (m.output ++ [dollar] ++ rest).take cbsize :=
          hone.full (not_not.mp hfull)
        change (m.output ++ [dollar] ++ scan getenv .waiting s).take cbsize = _
        rw [← hcut, hcut (c :: scan getenv .waiting s), List.append_assoc, List.singleton_append]
  · rename_i read hname
    rw [hname, Scan.held] at hheld
    rw [hname, scan]
    dsimp only
    rw [if_neg Bool.false_ne_true]
    split
    · obtain ⟨hbudget, houtput, hwaiting, _⟩ := emitAll_spec (valueOf getenv read)
        (m := { m with state := .waiting }) h
      refine ⟨_, rfl, hbudget, by rw [hwaiting]; nofun, ?_⟩
      rw [hwaiting, houtput, take_append_take, List.append_assoc]
    · exact ⟨_, rfl, h, nofun, rfl⟩
  · contradiction

theorem macrosLoop_scan {cbsize : Nat} (getenv : List Byte → Option CString) :
    ∀ {input : List Byte} {m : Macros}, Plain input → m.Budget cbsize →
      m.state.held.length + input.length < cbsize → m.prev ≠ backslash → m.state ≠ .quoted →
      ∃ m', macrosLoop cbsize getenv input m = some m' ∧ m'.Budget cbsize ∧
        m'.output = (m.output ++ scan getenv m.state input).take cbsize
  | [], m, _, h, _, _, _ => by
      refine ⟨m, rfl, h, ?_⟩
      have hnothing : scan getenv m.state [] = [] := by
        cases m.state <;> rfl
      rw [hnothing, List.append_nil]
      exact h.take
  | c :: input, m, hplain, h, hheld, hprev, hstate => by
      obtain ⟨hbackslash, hquote⟩ := hplain c List.mem_cons_self
      rw [List.length_cons] at hheld
      rw [macrosLoop.eq_def]
      dsimp only
      split
      · rename_i hfull
        exact ⟨m, rfl, h, h.full hfull _⟩
      · rename_i hroom
        rw [if_neg (fun hescape => hbackslash hescape.2.1)]
        obtain ⟨m', hswitch, hbudget, hgrown⟩ := switch_budget getenv false c h hroom
          (by change m.state.held.length + 0 < cbsize; omega)
        change m'.state.held.length ≤ m.state.held.length + 0 + 1 at hgrown
        obtain ⟨m'', hswitch', _, hstate', hscan⟩ :=
          switch_scan getenv input h hroom (by omega) hquote hprev hstate
        rw [hswitch] at hswitch'
        cases hswitch'
        rw [hswitch, ← hscan]
        exact macrosLoop_scan getenv (m := { m' with prev := c })
          (fun k hk => hplain k (List.mem_cons_of_mem c hk)) hbudget
          (by change m'.state.held.length + input.length < cbsize; omega) hbackslash hstate'

theorem budget_begin (cbsize : Nat) : Macros.Budget cbsize ⟨.waiting, 0#8, [], cbsize⟩ :=
  Nat.zero_add _

/-- `process_macros` of a plain command: `scan`, cut off at the end of the buffer. -/
theorem process_macros_plain {cbsize : Nat} (getenv : List Byte → Option CString) {s : List Byte}
    (hplain : Plain s) (hfits : s.length < cbsize) :
    process_macros cbsize getenv s =
      some ((scan getenv .waiting s).take (cbsize - 1) ++ [0#8]) := by
  obtain ⟨m, hrun, hbudget, houtput⟩ :=
    macrosLoop_scan getenv hplain (budget_begin cbsize)
      (by change 0 + s.length < cbsize; omega) (show 0#8 ≠ backslash by decide) nofun
  change m.output = (scan getenv .waiting s).take cbsize at houtput
  unfold Macros.Budget at hbudget
  have hlength := congrArg List.length houtput
  rw [List.length_take] at hlength
  rw [process_macros, hrun]
  change some ((if m.outputcnt ≠ 0 then m.output else m.output.dropLast) ++ [0#8]) = _
  split
  · rw [houtput, List.take_of_length_le (by omega), List.take_of_length_le (by omega)]
  · rw [houtput, List.dropLast_eq_take, List.take_take, List.length_take]
    congr 3
    omega

/-- `process_macros` of any command that fits ends its output inside the buffer. -/
theorem process_macros_terminates {cbsize : Nat} (getenv : List Byte → Option CString)
    {s : List Byte} (hfits : s.length < cbsize) :
    ∃ text, process_macros cbsize getenv s = some (text ++ [0#8]) ∧ text.length < cbsize := by
  obtain ⟨m, hrun, hbudget⟩ := macrosLoop_budget getenv s
    (budget_begin cbsize) (by change 0 + s.length < cbsize; omega)
  unfold Macros.Budget at hbudget
  refine ⟨if m.outputcnt ≠ 0 then m.output else m.output.dropLast, ?_, ?_⟩
  · rw [process_macros, hrun]
    rfl
  · split
    · omega
    · rw [List.length_dropLast]
      omega

/-! ## The pieces of a command -/

/-- No bracket that may end a name. -/
def NoClose (s : List Byte) : Prop := ∀ c ∈ s, ¬ closes c

/-- A string is a name and what the first closing bracket leaves, if there is one. -/
theorem noClose_or_first (s : List Byte) :
    NoClose s ∨ ∃ name close rest, s = name ++ close :: rest ∧ NoClose name ∧ closes close := by
  induction s with
  | nil => exact .inl nofun
  | cons c s ih =>
      by_cases hc : closes c
      · exact .inr ⟨[], c, s, rfl, nofun, hc⟩
      · obtain hnone | ⟨name, close, rest, hs, hname, hclose⟩ := ih
        · exact .inl (List.forall_mem_cons.mpr ⟨hc, hnone⟩)
        · exact .inr ⟨c :: name, close, rest, by rw [hs]; rfl,
            List.forall_mem_cons.mpr ⟨hc, hname⟩, hclose⟩

/-- Induction over the pieces of a command: a character other than `$`, a `$` at the end, a `$`
without a bracket behind it, one whose bracket is never closed, and one with a name. -/
@[elab_as_elim]
theorem piecesInduction {P : List Byte → Prop} (nil : P [])
    (char : ∀ c s, c ≠ dollar → P s → P (c :: s)) (last : P [dollar])
    (lone : ∀ c s, ¬ opens c → P s → P (dollar :: c :: s))
    (unclosed : ∀ c s, opens c → NoClose s → P (dollar :: c :: s))
    (named : ∀ c name close rest, opens c → NoClose name → closes close → P rest →
      P (dollar :: c :: (name ++ close :: rest))) :
    ∀ s, P s
  | [] => nil
  | [d] => by
      by_cases hd : d = dollar
      · rw [hd]
        exact last
      · exact char d [] hd nil
  | d :: c :: s => by
      by_cases hd : d = dollar
      · rw [hd]
        by_cases hc : opens c
        · obtain hnone | ⟨name, close, rest, hs, hname, hclose⟩ := noClose_or_first s
          · exact unclosed c s hc hnone
          · rw [hs]
            exact named c name close rest hc hname hclose
              (piecesInduction nil char last lone unclosed named rest)
        · exact lone c s hc (piecesInduction nil char last lone unclosed named s)
      · exact char d (c :: s) hd (piecesInduction nil char last lone unclosed named (c :: s))
  termination_by s => s.length
  decreasing_by
    all_goals simp_all only [List.length_cons, List.length_append]
    all_goals omega

theorem closes_closing (c : Byte) : closes (closing c) := by
  unfold closing
  split <;> decide

/-! ### The machine over a piece -/

section Pieces

variable {getenv : List Byte → Option CString}

theorem scan_unclosed {s : List Byte} (h : NoClose s) (read : List Byte) :
    scan getenv (.name read) s = [] := by
  induction s generalizing read with
  | nil => rfl
  | cons c s ih =>
      obtain ⟨hc, hs⟩ := List.forall_mem_cons.mp h
      rw [scan, if_neg hc]
      exact ih hs _

theorem scan_named {name rest : List Byte} {close : Byte} (h : NoClose name) (hclose : closes close)
    (read : List Byte) :
    scan getenv (.name read) (name ++ close :: rest) =
      valueOf getenv (read ++ name) ++ scan getenv .waiting rest := by
  induction name generalizing read with
  | nil => rw [List.nil_append, scan, if_pos hclose, List.append_nil]
  | cons c name ih =>
      obtain ⟨hc, hname⟩ := List.forall_mem_cons.mp h
      rw [List.cons_append, scan, if_neg hc, ih hname, List.append_assoc, List.singleton_append]

/-! ### References over a piece -/

theorem reference_of_ne {c : Byte} (h : c ≠ dollar) (s : List Byte) : reference (c :: s) = none := by
  cases s with
  | nil => rfl
  | cons k s => exact if_neg fun hall => h hall.1

theorem reference_of_not_opens {c : Byte} (h : ¬ opens c) (s : List Byte) :
    reference (dollar :: c :: s) = none :=
  if_neg fun hall => h hall.2.1

/-- A reference is a name up to the bracket that closes it. -/
theorem reference_named {c : Byte} (hopens : opens c) {name : List Byte} (h : closing c ∉ name)
    (rest : List Byte) : reference (dollar :: c :: (name ++ closing c :: rest)) = some (name, rest) := by
  have htake : (name ++ closing c :: rest).takeWhile (· ≠ closing c) = name := by
    rw [List.takeWhile_append_of_pos, List.takeWhile_cons_of_neg, List.append_nil]
    · simp
    · intro k hk
      exact decide_eq_true (ne_of_mem_of_not_mem hk h)
  rw [reference, htake, if_pos ⟨rfl, hopens, by simp⟩]
  simp

theorem reference_unclosed {c : Byte} {s : List Byte} (h : closing c ∉ s) :
    reference (dollar :: c :: s) = none := by
  have htake : s.takeWhile (· ≠ closing c) = s :=
    List.takeWhile_eq_self_iff.mpr fun k hk => decide_eq_true (ne_of_mem_of_not_mem hk h)
  rw [reference, htake, if_neg (fun hall => Nat.lt_irrefl _ hall.2.2)]

theorem expand_reference {s name rest : List Byte} (h : reference s = some (name, rest)) :
    expand getenv s = valueOf getenv name ++ expand getenv rest := by
  rw [expand]
  split
  · rename_i name' rest' h'
    rw [h] at h'
    cases h'
    rfl
  · rename_i h'
    rw [h] at h'
    cases h'

theorem expand_cons {c : Byte} {s : List Byte} (h : reference (c :: s) = none) :
    expand getenv (c :: s) = c :: expand getenv s := by
  rw [expand]
  split
  · rename_i name' rest' h'
    rw [h] at h'
    cases h'
  · rfl

/-! ### A `$` without a bracket -/

theorem scan_lone {c : Byte} (hc : ¬ opens c) (s : List Byte) :
    scan getenv .waiting (dollar :: c :: s) = dollar :: c :: scan getenv .waiting s := by
  rw [scan, if_pos rfl, scan, if_neg hc]

theorem expand_lone {c : Byte} (hc : ¬ opens c) {s : List Byte}
    (h : c = dollar → reference (dollar :: s) = none) :
    expand getenv (dollar :: c :: s) = dollar :: c :: expand getenv s := by
  have hsecond : reference (c :: s) = none := by
    by_cases hd : c = dollar
    · rw [hd]
      exact h hd
    · exact reference_of_ne hd s
  rw [expand_cons (reference_of_not_opens hc s), expand_cons hsecond]

/-! ### Lengths -/

variable (hshort : ∀ name, (valueOf getenv name).length ≤ 1)
include hshort

theorem length_scan_le (s : List Byte) : (scan getenv .waiting s).length ≤ s.length := by
  induction s using piecesInduction with
  | nil => exact Nat.le_refl _
  | char c s hc ih =>
      rw [scan, if_neg hc, List.length_cons, List.length_cons]
      omega
  | last => exact Nat.zero_le _
  | lone c s hc ih =>
      rw [scan_lone hc]
      simp only [List.length_cons]
      omega
  | unclosed c s hc hs =>
      rw [scan, if_pos rfl, scan, if_pos hc, scan_unclosed hs]
      exact Nat.zero_le _
  | named c name close rest hc hname hclose ih =>
      rw [scan, if_pos rfl, scan, if_pos hc, scan_named hname hclose]
      have hvalue := hshort ([] ++ name)
      simp only [List.length_append, List.length_cons]
      omega

theorem length_expand_le (s : List Byte) : (expand getenv s).length ≤ s.length := by
  induction s using expand.induct with
  | case1 s name rest h hlt ih =>
      rw [expand_reference h, List.length_append]
      have hvalue := hshort name
      omega
  | case2 h => 
      rw [expand]
      split <;> simp_all
  | case3 c s h ih =>
      rw [expand_cons h, List.length_cons, List.length_cons]
      omega

end Pieces

/-! ## The commands the machine expands -/

/-- Where a command is read: in its text, behind a `$`, or in a name that a bracket ends. -/
inductive Mode
  | text
  | dollar
  | name (close : Byte)

/-- The commands on which the machine and `expand` agree. No `$` is the last character, no
reference begins right behind a `$` that was copied, and the first bracket that may end a name is
the one that matches. -/
def Regular : Mode → List Byte → Prop
  | .text, [] => True
  | .text, c :: s => if c = dollar then Regular .dollar s else Regular .text s
  | .dollar, [] => False
  | .dollar, c :: s =>
      if opens c then Regular (.name (closing c)) s
      else (c = dollar → reference (dollar :: s) = none) ∧ Regular .text s
  | .name _, [] => False
  | .name close, c :: s => if closes c then c = close ∧ Regular .text s else Regular (.name close) s

theorem regular_text {c : Byte} (hc : ¬ c = dollar) (s : List Byte) :
    Regular .text (c :: s) = Regular .text s := if_neg hc

theorem regular_dollar (s : List Byte) : Regular .text (dollar :: s) = Regular .dollar s := if_pos rfl

theorem regular_bracket {c : Byte} (hc : opens c) (s : List Byte) :
    Regular .dollar (c :: s) = Regular (.name (closing c)) s := if_pos hc

theorem regular_lone {c : Byte} (hc : ¬ opens c) (s : List Byte) :
    Regular .dollar (c :: s) =
      ((c = dollar → reference (dollar :: s) = none) ∧ Regular .text s) := if_neg hc

theorem regular_closed {c : Byte} (hc : closes c) (close : Byte) (s : List Byte) :
    Regular (.name close) (c :: s) = (c = close ∧ Regular .text s) := if_pos hc

theorem regular_name {c : Byte} (hc : ¬ closes c) (close : Byte) (s : List Byte) :
    Regular (.name close) (c :: s) = Regular (.name close) s := if_neg hc

theorem not_regular_unclosed {s : List Byte} (h : NoClose s) (close : Byte) :
    ¬ Regular (.name close) s := by
  induction s with
  | nil => exact id
  | cons c s ih =>
      obtain ⟨hc, hs⟩ := List.forall_mem_cons.mp h
      rw [regular_name hc]
      exact ih hs

theorem regular_named {name : List Byte} (h : NoClose name) {close close' : Byte}
    (hclose : closes close) (rest : List Byte) :
    Regular (.name close') (name ++ close :: rest) ↔ close = close' ∧ Regular .text rest := by
  induction name with
  | nil => rw [List.nil_append, regular_closed hclose]
  | cons c name ih =>
      obtain ⟨hc, hname⟩ := List.forall_mem_cons.mp h
      rw [List.cons_append, regular_name hc]
      exact ih hname

theorem scan_eq_expand (getenv : List Byte → Option CString) {s : List Byte}
    (h : Regular .text s) : scan getenv .waiting s = expand getenv s := by
  induction s using piecesInduction with
  | nil => rw [scan, expand]; rfl
  | char c s hc ih =>
      rw [regular_text hc] at h
      rw [scan, if_neg hc, expand_cons (reference_of_ne hc s), ih h]
  | last => exact absurd h id
  | lone c s hc ih =>
      rw [regular_dollar, regular_lone hc] at h
      rw [scan_lone hc, expand_lone hc h.1, ih h.2]
  | unclosed c s hc hs =>
      rw [regular_dollar, regular_bracket hc] at h
      exact absurd h (not_regular_unclosed hs _)
  | named c name close rest hc hname hclose ih =>
      rw [regular_dollar, regular_bracket hc, regular_named hname hclose] at h
      obtain ⟨rfl, hrest⟩ := h
      have hnot : closing c ∉ name := fun hmem => hname _ hmem hclose
      rw [scan, if_pos rfl, scan, if_pos hc, scan_named hname hclose, List.nil_append, ih hrest,
        expand_reference (reference_named hc hnot rest)]

/-! ### Environments that tell the two apart -/

/-- Every variable is one character. -/
def oneChar (name : List Byte → Prop) [DecidablePred name] (v : List Byte) : Option CString :=
  some (if name v then ⟨[0x78#8], by decide⟩ else ⟨[0x79#8], by decide⟩)

theorem valueOf_oneChar (name : List Byte → Prop) [DecidablePred name] (v : List Byte) :
    valueOf (oneChar name) v = if name v then [0x78#8] else [0x79#8] := by
  rw [valueOf, oneChar]
  split <;> rfl

/-- A name that the wrong bracket ends: its variable is `x`, and every other one `y`. -/
theorem scan_ne_of_mismatch {c close : Byte} {name : List Byte} (rest : List Byte) (hc : opens c)
    (hname : NoClose name) (hclose : closes close) (hne : close ≠ closing c) :
    scan (oneChar (· = name)) .waiting (dollar :: c :: (name ++ close :: rest)) ≠
      expand (oneChar (· = name)) (dollar :: c :: (name ++ close :: rest)) := by
  rw [scan, if_pos rfl, scan, if_pos hc, scan_named hname hclose, List.nil_append,
    valueOf_oneChar, if_pos rfl]
  intro heq
  by_cases hmem : closing c ∈ name ++ close :: rest
  · obtain ⟨name', rest', hs, hname'⟩ := List.eq_append_cons_of_mem hmem
    have hother : name' ≠ name := by
      rintro rfl
      rw [List.append_cancel_left_eq] at hs
      exact hne (List.cons.inj hs).1
    rw [hs, expand_reference (reference_named hc hname' rest'), valueOf_oneChar,
      if_neg hother] at heq
    exact absurd (List.cons.inj heq).1 (by decide)
  · rw [expand_cons (reference_unclosed hmem)] at heq
    exact absurd (List.cons.inj heq).1 (by decide)

/-- A command that is not regular has an environment on which the two differ. -/
theorem exists_scan_ne {s : List Byte} (h : ¬ Regular .text s) :
    ∃ getenv, (∀ name, (valueOf getenv name).length ≤ 1) ∧
      scan getenv .waiting s ≠ expand getenv s := by
  have hshort : ∀ (name : List Byte → Prop) [DecidablePred name] (v : List Byte),
      (valueOf (oneChar name) v).length ≤ 1 := by
    intro name _ v
    rw [valueOf_oneChar]
    split <;> exact Nat.le_refl 1
  induction s using piecesInduction with
  | nil => exact absurd trivial h
  | char c s hc ih =>
      rw [regular_text hc] at h
      obtain ⟨getenv, hvalues, hne⟩ := ih h
      refine ⟨getenv, hvalues, ?_⟩
      rw [scan, if_neg hc, expand_cons (reference_of_ne hc s)]
      exact fun heq => hne (List.cons.inj heq).2
  | last =>
      refine ⟨_, hshort fun _ => True, ?_⟩
      rw [expand_cons rfl]
      nofun
  | lone c s hc ih =>
      rw [regular_dollar, regular_lone hc] at h
      by_cases hreference : c = dollar → reference (dollar :: s) = none
      · obtain ⟨getenv, hvalues, hne⟩ := ih fun hrest => h ⟨hreference, hrest⟩
        refine ⟨getenv, hvalues, ?_⟩
        rw [scan_lone hc, expand_lone hc hreference]
        exact fun heq => hne (List.cons.inj (List.cons.inj heq).2).2
      · -- the second `$` begins a reference, and is copied with it
        rw [Classical.not_imp] at hreference
        obtain ⟨rfl, hsome⟩ := hreference
        obtain ⟨⟨name, rest⟩, hsome⟩ := Option.ne_none_iff_exists'.mp hsome
        refine ⟨_, hshort fun _ => True, ?_⟩
        rw [scan_lone hc, expand_cons (reference_of_not_opens hc s), expand_reference hsome,
          valueOf_oneChar, if_pos trivial]
        intro heq
        exact absurd (List.cons.inj (List.cons.inj heq).2).1 (by decide)
  | unclosed c s hc hs =>
      refine ⟨_, hshort fun _ => True, ?_⟩
      rw [scan, if_pos rfl, scan, if_pos hc, scan_unclosed hs]
      have hnot : closing c ∉ s := fun hmem => hs _ hmem (closes_closing c)
      rw [expand_cons (reference_unclosed hnot)]
      nofun
  | named c name close rest hc hname hclose ih =>
      by_cases hmatch : close = closing c
      · obtain ⟨getenv, hvalues, hne⟩ := ih fun hrest => h (by
          rw [regular_dollar, regular_bracket hc, regular_named hname hclose]
          exact ⟨hmatch, hrest⟩)
        refine ⟨getenv, hvalues, ?_⟩
        subst hmatch
        have hnot : closing c ∉ name := fun hmem => hname _ hmem hclose
        rw [scan, if_pos rfl, scan, if_pos hc, scan_named hname hclose, List.nil_append,
          expand_reference (reference_named hc hnot rest)]
        exact fun heq => hne (List.append_cancel_left heq)
      · exact ⟨_, hshort (· = name), scan_ne_of_mismatch rest hc hname hclose hmatch⟩

/-! ## Every command -/

/-- On a regular plain command, and on no other one, the references are expanded in every
environment. The output of every command ends inside the buffer. -/
theorem process_macros_expands_iff (cbsize : Nat) (s : Token cbsize) :
    (Plain s.chars →
      ((∀ getenv, process_macros cbsize getenv s.chars =
        some ((expand getenv s.chars).take (cbsize - 1) ++ [0#8])) ↔ Regular .text s.chars)) ∧
    ∀ getenv, ∃ text, process_macros cbsize getenv s.chars = some (text ++ [0#8]) ∧
      text.length < cbsize := by
  refine ⟨fun hplain => ⟨fun hall => ?_, fun hregular getenv => ?_⟩,
    fun getenv => process_macros_terminates getenv s.fits⟩
  · by_contra hregular
    obtain ⟨getenv, hshort, hne⟩ := exists_scan_ne hregular
    have hfits := s.fits
    have hscan := length_scan_le hshort s.chars
    have hexpand := length_expand_le hshort s.chars
    have hsame := hall getenv
    -- the values are too short for the budget to hide the difference
    rw [process_macros_plain getenv hplain s.fits, List.take_of_length_le (by omega),
      List.take_of_length_le (by omega)] at hsame
    exact hne (List.append_cancel_right (Option.some.inj hsame))
  · rw [process_macros_plain getenv hplain s.fits, scan_eq_expand getenv hregular]

/-- `echo $(a) $b$ c` -/
theorem process_macros_expands_iff_echo :
    Plain (ascii "echo $(a) $b$ c") ∧
    ∀ getenv, process_macros 256 getenv (ascii "echo $(a) $b$ c") =
      some ((expand getenv (ascii "echo $(a) $b$ c")).take 255 ++ [0#8]) := by
  have hplain : Plain (ascii "echo $(a) $b$ c") := by decide
  refine ⟨hplain, ?_⟩
  apply ((process_macros_expands_iff 256
    ⟨ascii "echo $(a) $b$ c", by decide, by decide⟩).1 hplain).mpr
  simp [Regular, ascii, dollar, opens, closes, closing]

/-- `echo $` becomes `echo `. -/
theorem not_process_macros_expands : ¬ ∀ (cbsize : Nat) (s : Token cbsize),
    (Plain s.chars → ∀ getenv, process_macros cbsize getenv s.chars =
      some ((expand getenv s.chars).take (cbsize - 1) ++ [0#8])) ∧
    ∀ getenv, ∃ text, process_macros cbsize getenv s.chars = some (text ++ [0#8]) ∧
      text.length < cbsize := by
  intro hall
  have hwrong := (hall 256 ⟨ascii "echo $", by decide, by decide⟩).1 (by decide) fun _ => none
  have hscan : scan (fun _ => none) .waiting (ascii "echo $") = ascii "echo " := by decide
  have hexpand : expand (fun _ => none) (ascii "echo $") = ascii "echo $" := by
    simp [expand, ascii, reference, dollar]
  rw [process_macros_plain _ (by decide) (by decide), hscan, hexpand] at hwrong
  exact absurd hwrong (by decide)

end UBoot.Main
