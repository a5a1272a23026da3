/-
# The history from line to line

A line that is entered leaves `hist_cur` at the next line, so the history is navigated from the
latest line on when the next line is read. A line that is given up leaves `hist_cur` where it is.
So the history is navigated from the latest line on at the begin of every line, exactly in those
runs in which no line is given up while an earlier one is shown.
-/

import UBoot.Main.CreadLine

namespace UBoot.Main

open Hist

/-- The line that an event enters in the history, if it is the end of one. -/
def Session.entered (s : Session) : Event → List (List Byte)
  | .readline _ => []
  | .key ichar =>
      match s.editing with
      | none => []
      | some ed =>
          let line := cstring (ed.line.buf.set ed.line.eol_num 0#8)
          if (ichar = 0x0a#8 ∨ ichar = 0x0d#8) ∧ line ≠ [] ∧
              line.head? ≠ some CREAD_HIST_CHAR then
            [line]
          else []

/-- A line is given up with `^C`. -/
def Session.Aborts (auto : Option Completion) (s : Session) : Event → Prop
  | .readline _ => False
  | .key ichar =>
      ∃ ed ∈ s.editing, ¬ (ichar = 0x0a#8 ∨ ichar = 0x0d#8) ∧ ed.esc_save = [] ∧
        action auto.isSome ichar = .abort

/-- Whenever no line is being read, the lines entered so far are navigated from the latest on. -/
def AllNavigate (auto : Option Completion) (s : Session) (lines : List (List Byte)) :
    List Event → Prop
  | [] => s.editing = none → Navigates s.hist lines
  | e :: events =>
      (s.editing = none → Navigates s.hist lines) ∧
        ∀ t, s.step auto e = .ok t → AllNavigate auto t (s.entered e ++ lines) events

/-- Whenever a line is given up, no earlier line is shown. -/
def AllInSync (auto : Option Completion) (s : Session) : List Event → Prop
  | [] => True
  | e :: events =>
      ∀ t, s.step auto e = .ok t → (s.Aborts auto e → s.hist.InSync) ∧ AllInSync auto t events

/-! ## Steps -/

/-- The history is left as it is, moved in, or goes on to the next line. -/
inductive HistStep (s t : Session) (entered : List (List Byte)) (aborts : Prop) : Prop
  | same : t.hist = s.hist → entered = [] →
      (t.editing = none → s.editing = none ∨ aborts) → HistStep s t entered aborts
  | moved : t.hist = s.hist.hist_prev.2 ∨ t.hist = s.hist.hist_next.2 → entered = [] →
      t.editing ≠ none → HistStep s t entered aborts
  | ended : t.hist = s.hist.sync → entered = [] → HistStep s t entered aborts
  | entered (line : List Byte) : t.hist = (s.hist.cread_add_to_hist line).sync →
      entered = [line] → HistStep s t entered aborts

theorem bind_eq_ok {α β : Type} {x : Checked α} {f : α → Checked β} {b : β}
    (h : (x >>= f) = .ok b) : ∃ a, x = .ok a ∧ f a = .ok b := by
  cases x with
  | error e => cases h
  | ok a => exact ⟨a, rfl, h⟩

theorem perform_hist {auto : Option Completion} {ed : Editor} {hist : Hist} {a : Action}
    {t : Session} (h : perform auto ed hist a = .ok t) (ed' : Editor) :
    HistStep ⟨hist, some ed'⟩ t [] (a = .abort) := by
  have edits {line : Checked Line}
      (h : (do let line ← line; return ⟨hist, some { ed with line }⟩ : Checked Session) = .ok t) :
      HistStep ⟨hist, some ed'⟩ t [] (a = .abort) := by
    obtain ⟨l, -, hl⟩ := bind_eq_ok h
    cases hl
    exact .same rfl rfl fun h => (nomatch h)
  cases a with
  | escape =>
      cases h
      exact .same rfl rfl fun h => (nomatch h)
  | abort =>
      obtain ⟨buf, -, hbuf⟩ := bind_eq_ok h
      cases hbuf
      exact .same rfl rfl fun _ => .inr rfl
  | toggle =>
      cases h
      exact .same rfl rfl fun h => (nomatch h)
  | history prev =>
      have hfound : (if prev then hist.hist_prev else hist.hist_next).2 = hist.hist_prev.2 ∨
          (if prev then hist.hist_prev else hist.hist_next).2 = hist.hist_next.2 := by
        cases prev with
        | true => exact .inl rfl
        | false => exact .inr rfl
      simp only [perform, recallLine] at h
      generalize (if prev then hist.hist_prev else hist.hist_next) = found at h hfound
      obtain ⟨hline, hist'⟩ := found
      cases hline with
      | none =>
          cases h
          exact .moved hfound rfl (Option.some_ne_none _)
      | some text =>
          obtain ⟨buf, -, hbuf⟩ := bind_eq_ok h
          cases hbuf
          exact .moved hfound rfl (Option.some_ne_none _)
  | home => exact edits h
  | right => exact edits h
  | left => exact edits h
  | delete => exact edits h
  | erase_to_eol => exact edits h
  | to_eol => exact edits h
  | erase_line => exact edits h
  | rubout => exact edits h
  | complete => exact edits h
  | char c => exact edits h

theorem replay_hist {esc_save : List Byte} {ed : Editor} {hist : Hist} {t : Session}
    (h : replay esc_save ed hist = .ok t) (aborts : Prop) :
    HistStep ⟨hist, some ed⟩ t [] aborts := by
  obtain ⟨l, -, hl⟩ := bind_eq_ok h
  cases hl
  exact .same rfl rfl fun h => (nomatch h)

theorem HistStep.imp {s t : Session} {entered : List (List Byte)} {aborts aborts' : Prop}
    (h : HistStep s t entered aborts) (himp : aborts → aborts') :
    HistStep s t entered aborts' := by
  cases h with
  | same hhist hnone hedit => exact .same hhist hnone fun ht => (hedit ht).imp_right himp
  | moved hhist hnone hedit => exact .moved hhist hnone hedit
  | ended hhist hnone => exact .ended hhist hnone
  | entered line hhist hline => exact .entered line hhist hline

theorem enter_hist {ed : Editor} {hist : Hist} {t : Session} (h : enter ed hist = .ok t)
    {ichar : Byte} (hend : ichar = 0x0a#8 ∨ ichar = 0x0d#8) (aborts : Prop) :
    HistStep ⟨hist, some ed⟩ t (Session.entered ⟨hist, some ed⟩ (.key ichar)) aborts := by
  obtain ⟨buf, hbuf, hrest⟩ := bind_eq_ok h
  have hset : buf = ed.line.buf.set ed.line.eol_num 0#8 := by
    rw [put] at hbuf
    split at hbuf <;> cases hbuf
    rfl
  subst hset
  simp only [Session.entered]
  dsimp only at hrest
  split at hrest
  · next hskip =>
      cases hrest
      apply HistStep.ended rfl
      rw [if_neg]
      tauto
  · next hskip =>
      split at hrest <;> cases hrest
      apply HistStep.entered _ rfl
      rw [if_pos]
      tauto

theorem readKey_hist {auto : Option Completion} {ed : Editor} {hist : Hist} {ichar : Byte}
    {t : Session} (h : readKey auto ed hist ichar = .ok t) :
    HistStep ⟨hist, some ed⟩ t (Session.entered ⟨hist, some ed⟩ (.key ichar))
      (Session.Aborts auto ⟨hist, some ed⟩ (.key ichar)) := by
  rw [readKey] at h
  by_cases hend : ichar = 0x0a#8 ∨ ichar = 0x0d#8
  · rw [if_pos hend] at h
    exact enter_hist h hend _
  · rw [if_neg hend] at h
    have hnone : Session.entered ⟨hist, some ed⟩ (.key ichar) = [] := by
      simp only [Session.entered]
      rw [if_neg fun h => hend h.1]
    rw [hnone]
    match hsave : ed.esc_save with
    | [] =>
        rw [hsave] at h
        exact (perform_hist h ed).imp fun ha => ⟨ed, rfl, hend, hsave, ha⟩
    | [esc] =>
        rw [hsave] at h
        dsimp only at h
        split at h
        · cases h
          exact .same rfl rfl fun h => (nomatch h)
        · exact replay_hist h _
    | c₁ :: c₂ :: rest =>
        rw [hsave] at h
        dsimp only at h
        split at h
        · next c harrow =>
            apply (perform_hist h ed).imp
            intro ha
            have hmem := arrowKey_action harrow auto.isSome
            rw [ha] at hmem
            rcases hmem with h | h | h | h | h <;> cases h
        · exact replay_hist h _

theorem step_hist {auto : Option Completion} {s t : Session} {e : Event}
    (h : s.step auto e = .ok t) : HistStep s t (s.entered e) (s.Aborts auto e) := by
  obtain ⟨hist, editing⟩ := s
  cases e with
  | readline buf =>
      cases editing with
      | none =>
          obtain ⟨ed, -, hed⟩ := bind_eq_ok h
          cases hed
          exact .same rfl rfl fun h => (nomatch h)
      | some ed =>
          cases h
          exact .same rfl rfl fun h => (nomatch h)
  | key ichar =>
      cases editing with
      | none =>
          cases h
          exact .same rfl rfl fun _ => .inl rfl
      | some ed => exact readKey_hist h

/-- After a step the lines are in the ring, and at the begin of a line none of them is shown
unless the line in front of it was given up. -/
theorem HistStep.shows {s t : Session} {entered lines : List (List Byte)} {aborts : Prop}
    {depth : Nat} (h : HistStep s t entered aborts) (hs : Shows s.hist lines depth) :
    ∃ depth', Shows t.hist (entered ++ lines) depth' ∧
      (t.editing = none → depth' = 0 ∨ depth' = depth ∧ (s.editing = none ∨ aborts)) := by
  cases h with
  | same hhist hnone hedit =>
      subst hnone
      exact ⟨depth, hhist ▸ hs, fun ht => .inr ⟨rfl, hedit ht⟩⟩
  | moved hhist hnone hedit =>
      subst hnone
      rcases hhist with hhist | hhist
      · obtain ⟨depth', hdepth'⟩ := hs.exists_prev
        exact ⟨depth', hhist ▸ hdepth', fun ht => absurd ht hedit⟩
      · obtain ⟨depth', hdepth'⟩ := hs.exists_next
        exact ⟨depth', hhist ▸ hdepth', fun ht => absurd ht hedit⟩
  | ended hhist hnone =>
      subst hnone
      exact ⟨0, hhist ▸ hs.sync, fun _ => .inl rfl⟩
  | entered line hhist hline =>
      subst hline
      exact ⟨0, hhist ▸ hs.add line, fun _ => .inl rfl⟩

/-- A line that is given up is the end of a line. -/
theorem aborts_editing {auto : Option Completion} {s t : Session} {e : Event}
    (h : s.step auto e = .ok t) (ha : s.Aborts auto e) : t.hist = s.hist ∧ t.editing = none := by
  cases e with
  | readline buf => exact ha.elim
  | key ichar =>
      obtain ⟨ed, hed, hend, hsave, haction⟩ := ha
      obtain ⟨hist, editing⟩ := s
      cases hed
      simp only [Session.step, readKey, if_neg hend, hsave, haction] at h
      obtain ⟨buf, -, hbuf⟩ := bind_eq_ok h
      cases hbuf
      exact ⟨rfl, rfl⟩

/-! ## Runs -/

theorem allNavigate_iff {auto : Option Completion} (events : List Event) {s : Session}
    {lines : List (List Byte)} {depth : Nat} (hs : Shows s.hist lines depth)
    (hstart : s.editing = none → depth = 0) :
    AllNavigate auto s lines events ↔ AllInSync auto s events := by
  induction events generalizing s lines depth with
  | nil =>
      apply iff_of_true _ trivial
      intro hnone
      exact hs.navigates_iff.mpr (hstart hnone)
  | cons e events ih =>
      rw [AllNavigate, AllInSync]
      have hhere : s.editing = none → Navigates s.hist lines := fun hnone =>
        hs.navigates_iff.mpr (hstart hnone)
      rw [and_iff_right hhere]
      apply forall₂_congr
      intro t ht
      obtain ⟨depth', hdepth', hbegin⟩ := (step_hist ht).shows hs
      by_cases hsync : s.Aborts auto e → s.hist.InSync
      · rw [and_iff_right hsync]
        apply ih hdepth'
        intro hnone
        rcases hbegin hnone with hzero | ⟨rfl, hwas⟩
        · exact hzero
        · rcases hwas with hwas | haborts
          · exact hstart hwas
          · exact hs.inSync_iff.mp (hsync haborts)
      · apply iff_of_false _ fun h => hsync h.1
        intro hrest
        apply hsync
        intro haborts
        obtain ⟨hhist, hnone⟩ := aborts_editing ht haborts
        have hnav : Navigates t.hist (s.entered e ++ lines) := by
          cases events with
          | nil => exact hrest hnone
          | cons e' events => exact hrest.1 hnone
        have hzero := hdepth'.navigates_iff.mp hnav
        subst hzero
        rw [← hhist]
        exact hdepth'.inSync_iff.mpr rfl

/-- At the begin of every line of a run the history is navigated from the latest line on, through
as many lines as it shows and back to the empty line, exactly when in this run no line is given up
while an earlier line is shown. -/
theorem cread_line_navigates_iff (auto : Option Completion) (events : List Event) :
    AllNavigate auto .init [] events ↔ AllInSync auto .init events :=
  allNavigate_iff events init_shows fun _ => rfl

/-- A buffer with an empty string. -/
def emptyBuf : InitBuf :=
  ⟨List.replicate 256 0#8, List.length_replicate, List.mem_replicate.mpr ⟨by decide, rfl⟩⟩

set_option maxRecDepth 4000 in
/-- Not in every run: the line `a` is entered, shown again in the next line and given up there,
and cannot be shown any more when the line after that begins. -/
theorem not_cread_line_navigates :
    ¬ ∀ (auto : Option Completion) (events : List Event), AllNavigate auto .init [] events := by
  intro h
  have hrun := h none [.readline emptyBuf, .key 0x61#8, .key 0x0d#8, .readline emptyBuf,
    .key 0x10#8, .key 0x03#8]
  have hstart := ((((((hrun.2 _ rfl).2 _ rfl).2 _ rfl).2 _ rfl).2 _ rfl).2 _ rfl) rfl
  exact absurd (hstart.back 1 (by decide)) (by decide)

end UBoot.Main
