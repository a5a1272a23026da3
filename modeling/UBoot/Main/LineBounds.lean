/-
# The bounds of the line editor

Between two keys the line ends within the buffer, with room for its NUL. What keeps it there is
one comparison in `cread_add_char`, which lets a line of `MAX_CMDBUF_SIZE - 1` characters grow by
one more. So the line stays within its bounds in exactly those runs in which no character comes
in when it is full.
-/

import UBoot.Main.CreadLine

namespace UBoot.Main

/-- The line is in the buffer and has at most so many characters. -/
structure Line.Within (l : Line) (limit : Nat) : Prop where
  length : l.buf.length = MAX_CMDBUF_SIZE
  num_le : l.num ≤ l.eol_num
  eol_le : l.eol_num ≤ limit

/-- The strings of the history fit their slots. -/
def Hist.Fits (h : Hist) : Prop := ∀ i, (h.hist_lines i).length < HIST_SIZE

/-- What holds between keys: there is room for a NUL behind the line, each string of the history
fits a slot, and `esc_len` is the number of characters in `esc_save`. -/
structure Session.Safe (s : Session) : Prop where
  hist : s.hist.Fits
  line : ∀ ed ∈ s.editing, ed.line.Within (MAX_CMDBUF_SIZE - 1)
  esc : ∀ ed ∈ s.editing, ed.esc_save.length < 8

/-- What holds before each event of a run: it leads from safe states to safe states without a
fault. -/
def AllSafe (auto : Option Completion) (s : Session) : List Event → Prop
  | [] => s.Safe
  | e :: events => s.Safe ∧ ∃ t, s.step auto e = .ok t ∧ AllSafe auto t events

/-! ## Room -/

/-- How long a line becomes by so many characters. -/
def Line.extent (l : Line) (insert : Bool) (n : Nat) : Nat :=
  if insert then l.eol_num + n else max l.eol_num (l.num + n)

/-- A character is not added to a full line, and a completion fits or is not made. -/
def actionFits (auto : Option Completion) (ed : Editor) : Action → Prop
  | .char _ => ed.line.extent ed.insert 1 ≤ MAX_CMDBUF_SIZE - 1
  | .complete => ∀ c ∈ auto, ed.line.num = ed.line.eol_num →
      ∀ t ∈ c.text (cstring (ed.line.buf.set ed.line.num 0#8)),
        ed.line.num + t.length < c.cbsize - 2 → ed.line.eol_num + t.length ≤ MAX_CMDBUF_SIZE - 1
  | _ => True

/-- What a key adds to a line fits, the characters of a sequence that is no key among it. -/
def keyFits (auto : Option Completion) (ed : Editor) (ichar : Byte) : Prop :=
  if ichar = 0x0a#8 ∨ ichar = 0x0d#8 then True
  else
    match ed.esc_save with
    | [] => actionFits auto ed (action auto.isSome ichar)
    | [_] => ichar ≠ 0x5b#8 → ed.line.extent ed.insert 1 ≤ MAX_CMDBUF_SIZE - 1
    | esc_save =>
        arrowKey ichar = none →
          ed.line.extent ed.insert (esc_save.length + 1) ≤ MAX_CMDBUF_SIZE - 1

/-- Only keys may not fit. -/
def stepFits (auto : Option Completion) (s : Session) : Event → Prop
  | .readline _ => True
  | .key ichar => ∀ ed ∈ s.editing, keyFits auto ed ichar

/-- Each step of a run fits. -/
def AllFit (auto : Option Completion) (s : Session) : List Event → Prop
  | [] => True
  | e :: events => stepFits auto s e ∧ ∀ t, s.step auto e = .ok t → AllFit auto t events

/-! ## Writes -/

theorem put_ok {buf : List Byte} {i : Nat} (h : i < buf.length) (c : Byte) :
    put buf i c = .ok (buf.set i c) := if_pos h

theorem move_ok (buf : List Byte) (dst src n : Nat) (hdst : dst + n ≤ buf.length)
    (hsrc : src + n ≤ buf.length) :
    ∃ buf', move buf dst src n = .ok buf' ∧ buf'.length = buf.length := by
  apply Exists.intro (buf.take dst ++ (buf.drop src).take n ++ buf.drop (dst + n))
  apply And.intro (if_pos ⟨hdst, hsrc⟩)
  simp only [List.length_append, List.length_take, List.length_drop]
  omega

theorem strcpy_ok (buf : List Byte) (i : Nat) (s : List Byte) (h : i + s.length < buf.length) :
    ∃ buf', strcpy buf i s = .ok buf' ∧ buf'.length = buf.length := by
  apply Exists.intro (buf.take i ++ s ++ 0#8 :: buf.drop (i + s.length + 1))
  apply And.intro (if_pos h)
  simp only [List.length_append, List.length_take, List.length_cons, List.length_drop]
  omega

/-- A character is added without a fault, and the line grows up to the end of the buffer. -/
theorem cread_add_char_spec {l : Line} (hl : l.Within MAX_CMDBUF_SIZE) (ichar : Byte)
    (insert : Bool) :
    ∃ l', cread_add_char ichar insert MAX_CMDBUF_SIZE l = .ok l' ∧ l'.Within MAX_CMDBUF_SIZE ∧
      ∀ n, min MAX_CMDBUF_SIZE (l'.extent insert n) =
        min MAX_CMDBUF_SIZE (l.extent insert (n + 1)) := by
  obtain ⟨hlength, hnum, heol⟩ := hl
  rw [cread_add_char]
  simp only [MAX_CMDBUF_SIZE] at hlength heol ⊢
  by_cases hfull : (insert = true ∨ l.num = l.eol_num) ∧ l.eol_num > 256 - 1
  · rw [if_pos hfull]
    apply Exists.intro l
    refine ⟨rfl, ⟨hlength, hnum, heol⟩, ?_⟩
    intro n
    simp only [Line.extent]
    split <;> omega
  · rw [if_neg hfull]
    cases insert with
    | true =>
        simp only [true_or, true_and, if_true] at hfull ⊢
        have insertAt {buf' : List Byte} (hlength' : buf'.length = 256) :
            ∃ l', (do
                let buf ← put buf' l.num ichar
                return ⟨buf, l.num + 1, l.eol_num + 1⟩ : Checked Line) = .ok l' ∧ l'.Within 256 ∧
              ∀ n, min 256 (l'.extent true n) = min 256 (l.extent true (n + 1)) := by
          apply Exists.intro ⟨buf'.set l.num ichar, l.num + 1, l.eol_num + 1⟩
          constructor
          · rw [put_ok (by omega)]
            rfl
          · constructor
            · constructor
              · rw [List.length_set, hlength']
                rfl
              · exact Nat.succ_le_succ hnum
              · show l.eol_num + 1 ≤ 256
                omega
            · intro n
              simp only [Line.extent, if_true]
              omega
        by_cases hmid : l.eol_num + 1 - l.num > 1
        · obtain ⟨buf', hbuf', hlength'⟩ := move_ok l.buf (l.num + 1) l.num
            (l.eol_num + 1 - l.num - 1) (by omega) (by omega)
          rw [if_pos hmid, hbuf']
          exact insertAt (hlength'.trans hlength)
        · rw [if_neg hmid]
          exact insertAt hlength
    | false =>
        simp only [Bool.false_eq_true, false_or, if_false] at hfull ⊢
        rw [put_ok (by omega)]
        apply Exists.intro ⟨l.buf.set l.num ichar, l.num + 1,
          if l.num = l.eol_num then l.eol_num + 1 else l.eol_num⟩
        apply And.intro rfl
        constructor
        · constructor
          · rw [List.length_set, hlength]
            rfl
          · show l.num + 1 ≤ if l.num = l.eol_num then l.eol_num + 1 else l.eol_num
            split <;> omega
          · show (if l.num = l.eol_num then l.eol_num + 1 else l.eol_num) ≤ 256
            split <;> omega
        · intro n
          simp only [Line.extent, Bool.false_eq_true, if_false]
          split <;> omega

/-- The length of a line is what it would be with one more character of none. -/
theorem Line.Within.extent_zero {l : Line} {limit : Nat} (hl : l.Within limit) (insert : Bool) :
    l.extent insert 0 = l.eol_num := by
  have := hl.num_le
  simp only [Line.extent]
  split <;> omega

theorem cread_add_str_spec (str : List Byte) (insert : Bool) {l : Line}
    (hl : l.Within MAX_CMDBUF_SIZE) :
    ∃ l', cread_add_str str insert MAX_CMDBUF_SIZE l = .ok l' ∧ l'.Within MAX_CMDBUF_SIZE ∧
      l'.eol_num = min MAX_CMDBUF_SIZE (l.extent insert str.length) := by
  induction str generalizing l with
  | nil =>
      apply Exists.intro l
      refine ⟨rfl, hl, ?_⟩
      rw [List.length_nil, hl.extent_zero, Nat.min_eq_right hl.eol_le]
  | cons c str ih =>
      obtain ⟨l₁, hadd, hl₁, hextent⟩ := cread_add_char_spec hl c insert
      obtain ⟨l₂, hrest, hl₂, heol⟩ := ih hl₁
      apply Exists.intro l₂
      refine ⟨?_, hl₂, ?_⟩
      · rw [cread_add_str, List.foldlM_cons, hadd]
        exact hrest
      · rw [heol, hextent, List.length_cons]

theorem addInit_spec (strsize str : Nat) {l : Line} (hl : l.Within MAX_CMDBUF_SIZE) :
    ∃ l', addInit MAX_CMDBUF_SIZE strsize str l = .ok l' ∧ l'.Within MAX_CMDBUF_SIZE ∧
      l'.eol_num = min MAX_CMDBUF_SIZE (l.eol_num + strsize) := by
  induction strsize generalizing str l with
  | zero => exact ⟨l, rfl, hl, (Nat.min_eq_right hl.eol_le).symm⟩
  | succ strsize ih =>
      obtain ⟨l₁, hadd, hl₁, hextent⟩ := cread_add_char_spec hl (l.buf.getD str 0#8) true
      obtain ⟨l₂, hrest, hl₂, heol⟩ := ih (str + 1) hl₁
      apply Exists.intro l₂
      refine ⟨?_, hl₂, ?_⟩
      · rw [addInit, hadd]
        exact hrest
      · have := hextent strsize
        simp only [Line.extent, if_true] at this
        rw [heol, this, Nat.add_comm strsize]

theorem Line.Within.mono {l : Line} {m n : Nat} (h : l.Within m) (hle : m ≤ n) : l.Within n :=
  ⟨h.length, h.num_le, h.eol_le.trans hle⟩

/-- A line that has grown as far as it fits is a safe one if it fits. -/
theorem Line.Within.of_extent {l l' : Line} {insert : Bool} {n : Nat}
    (hl' : l'.Within MAX_CMDBUF_SIZE)
    (heol : l'.eol_num = min MAX_CMDBUF_SIZE (l.extent insert n)) :
    l'.Within (MAX_CMDBUF_SIZE - 1) ↔ l.extent insert n ≤ MAX_CMDBUF_SIZE - 1 := by
  simp only [MAX_CMDBUF_SIZE] at *
  constructor
  · intro h
    have := h.eol_le
    omega
  · intro h
    exact ⟨hl'.length, hl'.num_le, by omega⟩

theorem length_cstring_le (buf : List Byte) : (cstring buf).length ≤ buf.length :=
  (List.takeWhile_prefix _).length_le

/-- A NUL in the buffer ends the string in front of it. -/
theorem length_cstring_set (buf : List Byte) (i : Nat) :
    (cstring (buf.set i 0#8)).length ≤ i ∨ buf.length ≤ i := by
  induction buf generalizing i with
  | nil => exact .inr (Nat.zero_le i)
  | cons c buf ih =>
      cases i with
      | zero =>
          left
          simp [cstring]
      | succ i =>
          rcases ih i with hshort | hend
          · left
            rw [List.set_cons_succ, cstring, List.takeWhile_cons]
            split
            · exact Nat.succ_le_succ hshort
            · exact Nat.zero_le _
          · exact .inr (Nat.succ_le_succ hend)

/-! ## Keys -/

theorem autoComplete_put (c : Completion) {l : Line} (hlt : l.num < l.buf.length) :
    autoComplete c l =
      match c.text (cstring (l.buf.set l.num 0#8)) with
      | none => .ok { l with buf := l.buf.set l.num 0#8 }
      | some t =>
          if l.num + t.length ≥ c.cbsize - 2 then .ok { l with buf := l.buf.set l.num 0#8 }
          else do
            let buf ← strcpy (l.buf.set l.num 0#8) (cstring (l.buf.set l.num 0#8)).length t
            return ⟨buf, l.num + t.length, l.eol_num + t.length⟩ := by
  rw [autoComplete, put_ok hlt]
  rfl

/-- At the end of a line a completion is made within the bounds if it fits. -/
theorem autoComplete_spec {c : Completion} {l : Line} (hl : l.Within (MAX_CMDBUF_SIZE - 1))
    (hend : l.num = l.eol_num) :
    (∃ l', autoComplete c l = .ok l' ∧ l'.Within (MAX_CMDBUF_SIZE - 1)) ↔
      ∀ t ∈ c.text (cstring (l.buf.set l.num 0#8)),
        l.num + t.length < c.cbsize - 2 → l.eol_num + t.length ≤ MAX_CMDBUF_SIZE - 1 := by
  obtain ⟨hlength, hnum, heol⟩ := hl
  have hlt : l.num < l.buf.length := by
    simp only [MAX_CMDBUF_SIZE] at *
    omega
  have hlength' : (l.buf.set l.num 0#8).length = MAX_CMDBUF_SIZE := by
    rw [List.length_set, hlength]
  have hshort : (cstring (l.buf.set l.num 0#8)).length ≤ l.num :=
    (length_cstring_set l.buf l.num).resolve_right (Nat.not_le_of_lt hlt)
  have same : Line.Within { l with buf := l.buf.set l.num 0#8 } (MAX_CMDBUF_SIZE - 1) :=
    ⟨hlength', hnum, heol⟩
  rw [autoComplete_put c hlt]
  cases c.text (cstring (l.buf.set l.num 0#8)) with
  | none =>
      apply iff_of_true ⟨_, rfl, same⟩
      intro t ht
      cases ht
  | some t =>
      simp only [Option.mem_some, forall_eq']
      by_cases hmade : l.num + t.length ≥ c.cbsize - 2
      · rw [if_pos hmade]
        apply iff_of_true ⟨_, rfl, same⟩
        intro h
        omega
      · rw [if_neg hmade]
        constructor
        · rintro ⟨l', hl', hwithin⟩ -
          cases hcopy : strcpy (l.buf.set l.num 0#8) (cstring (l.buf.set l.num 0#8)).length t with
          | error e =>
              rw [hcopy] at hl'
              cases hl'
          | ok buf =>
              rw [hcopy] at hl'
              cases hl'
              exact hwithin.eol_le
        · intro hfits
          have hroom := hfits (by omega)
          obtain ⟨buf', hbuf', hlength''⟩ := strcpy_ok (l.buf.set l.num 0#8)
            (cstring (l.buf.set l.num 0#8)).length t
            (by simp only [MAX_CMDBUF_SIZE] at *; omega)
          rw [hbuf']
          exact ⟨_, rfl, hlength''.trans hlength', Nat.add_le_add_right hnum _, hroom⟩

/-- A key that only changes the line leaves it within its bounds, if what it adds fits. -/
theorem editLine_spec {auto : Option Completion} {ed : Editor}
    (hl : ed.line.Within (MAX_CMDBUF_SIZE - 1)) (a : Action) :
    (∃ l', editLine auto ed.insert ed.line a = .ok l' ∧ l'.Within (MAX_CMDBUF_SIZE - 1)) ↔
      actionFits auto ed a := by
  obtain ⟨hlength, hnum, heol⟩ := hl
  have same : ed.line.Within (MAX_CMDBUF_SIZE - 1) := ⟨hlength, hnum, heol⟩
  have stays {l' : Line} (h : l'.Within (MAX_CMDBUF_SIZE - 1)) :
      (∃ l'', (.ok l' : Checked Line) = .ok l'' ∧ l''.Within (MAX_CMDBUF_SIZE - 1)) ↔ True :=
    iff_of_true ⟨l', rfl, h⟩ trivial
  cases a with
  | char c =>
      obtain ⟨l', hadd, hl', hextent⟩ :=
        cread_add_char_spec (same.mono (Nat.sub_le _ _)) c ed.insert
      have heol' := hextent 0
      rw [hl'.extent_zero, Nat.min_eq_right hl'.eol_le] at heol'
      rw [editLine, hadd, actionFits]
      constructor
      · rintro ⟨l'', hl'', hwithin⟩
        cases hl''
        exact (hl'.of_extent heol').mp hwithin
      · intro hfits
        exact ⟨l', rfl, (hl'.of_extent heol').mpr hfits⟩
  | complete =>
      simp only [editLine, actionFits]
      cases auto with
      | none =>
          apply (stays same).trans
          apply iff_of_true trivial
          intro c hc
          cases hc
      | some c =>
          simp only [Option.mem_some, forall_eq']
          split
          · next h =>
              apply (stays same).trans
              apply iff_of_true trivial
              intro hend
              omega
          · next h =>
              have hend : ed.line.num = ed.line.eol_num := by omega
              apply (autoComplete_spec same hend).trans
              constructor
              · exact fun hfits _ => hfits
              · exact fun hfits => hfits hend
  | home => exact stays ⟨hlength, Nat.zero_le _, heol⟩
  | right =>
      apply stays
      split
      · next h => exact ⟨hlength, h, heol⟩
      · exact same
  | left =>
      apply stays
      split
      · exact ⟨hlength, (Nat.sub_le _ _).trans hnum, heol⟩
      · exact same
  | delete =>
      simp only [editLine]
      split
      · next h =>
          have shorter {buf : List Byte} (hbuf : buf.length = MAX_CMDBUF_SIZE) :
              Line.Within ⟨buf, ed.line.num, ed.line.eol_num - 1⟩ (MAX_CMDBUF_SIZE - 1) :=
            ⟨hbuf, Nat.le_sub_one_of_lt h, (Nat.sub_le _ _).trans heol⟩
          split
          · obtain ⟨buf', hbuf', hlength'⟩ := move_ok ed.line.buf ed.line.num
              (ed.line.num + 1) (ed.line.eol_num - ed.line.num - 1)
              (by simp only [MAX_CMDBUF_SIZE] at *; omega)
              (by simp only [MAX_CMDBUF_SIZE] at *; omega)
            rw [hbuf']
            exact stays (shorter (hlength'.trans hlength))
          · exact stays (shorter hlength)
      · exact stays same
  | erase_to_eol =>
      apply stays
      split
      · exact ⟨hlength, le_refl _, hnum.trans heol⟩
      · exact same
  | to_eol =>
      apply stays
      split
      · exact ⟨hlength, le_refl _, heol⟩
      · exact same
  | erase_line => exact stays ⟨hlength, le_refl _, Nat.zero_le _⟩
  | rubout =>
      simp only [editLine]
      split
      · next h =>
          obtain ⟨buf', hbuf', hlength'⟩ := move_ok ed.line.buf (ed.line.num - 1)
            ed.line.num (ed.line.eol_num - ed.line.num)
            (by simp only [MAX_CMDBUF_SIZE] at *; omega) (by simp only [MAX_CMDBUF_SIZE] at *; omega)
          rw [hbuf']
          exact stays ⟨hlength'.trans hlength, Nat.sub_le_sub_right hnum 1,
            (Nat.sub_le _ _).trans heol⟩
      · exact stays same
  | escape => exact stays same
  | abort => exact stays same
  | toggle => exact stays same
  | history prev => exact stays same

/-! ## Steps -/

theorem Hist.Fits.prev {h : Hist} (hfits : h.Fits) :
    h.hist_prev.2.Fits ∧ ∀ line ∈ h.hist_prev.1, line.length < HIST_SIZE := by
  rw [Hist.hist_prev]
  by_cases hneg : h.hist_cur < 0
  · rw [if_pos hneg]
    exact ⟨hfits, fun _ h => by cases h⟩
  · rw [if_neg hneg]
    dsimp only
    generalize (if h.hist_cur - 1 < 0 then (h.hist_max : Int) else h.hist_cur - 1) = cur
    split
    · exact ⟨hfits, fun _ h => by cases h⟩
    · constructor
      · exact hfits
      · intro line hline
        cases hline
        exact hfits _

theorem Hist.Fits.next {h : Hist} (hfits : h.Fits) :
    h.hist_next.2.Fits ∧ ∀ line ∈ h.hist_next.1, line.length < HIST_SIZE := by
  rw [Hist.hist_next]
  by_cases hneg : h.hist_cur < 0
  · rw [if_pos hneg]
    exact ⟨hfits, fun _ h => by cases h⟩
  · rw [if_neg hneg]
    by_cases hlast : h.hist_cur = h.hist_add_idx
    · rw [if_pos hlast]
      exact ⟨hfits, fun _ h => by cases h⟩
    · rw [if_neg hlast]
      dsimp only
      generalize (if h.hist_cur + 1 > h.hist_max then 0 else h.hist_cur + 1) = cur
      constructor
      · exact hfits
      · intro line hline
        cases hline
        split
        · exact Nat.zero_lt_of_lt (hfits 0)
        · exact hfits _

theorem Hist.Fits.add {h : Hist} (hfits : h.Fits) {line : List Byte}
    (hline : line.length < HIST_SIZE) : (h.cread_add_to_hist line).sync.Fits := by
  intro i
  simp only [Hist.sync, Hist.cread_add_to_hist, Function.update_apply]
  split
  · exact hline
  · exact hfits i

/-- The state of an editor is safe with a history. -/
theorem safe_some {hist : Hist} {ed : Editor} :
    Session.Safe ⟨hist, some ed⟩ ↔
      hist.Fits ∧ ed.line.Within (MAX_CMDBUF_SIZE - 1) ∧ ed.esc_save.length < 8 := by
  constructor
  · intro h
    exact ⟨h.hist, h.line ed rfl, h.esc ed rfl⟩
  · rintro ⟨hhist, hline, hesc⟩
    constructor
    · exact hhist
    · intro ed' hed'
      cases hed'
      exact hline
    · intro ed' hed'
      cases hed'
      exact hesc

theorem safe_none {hist : Hist} (h : hist.Fits) : Session.Safe ⟨hist, none⟩ :=
  ⟨h, fun _ hed => (nomatch hed), fun _ hed => (nomatch hed)⟩

/-- A line of the history is shorter than the buffer. -/
theorem recallLine_spec {prev : Bool} {ed : Editor} {hist : Hist}
    (hs : Session.Safe ⟨hist, some ed⟩) : ∃ t, recallLine prev ed hist = .ok t ∧ t.Safe := by
  obtain ⟨hhist, hline, hesc⟩ := safe_some.mp hs
  have hfound : (if prev then hist.hist_prev else hist.hist_next).2.Fits ∧
      ∀ line ∈ (if prev then hist.hist_prev else hist.hist_next).1, line.length < HIST_SIZE := by
    cases prev with
    | true => exact hhist.prev
    | false => exact hhist.next
  rw [recallLine]
  generalize (if prev then hist.hist_prev else hist.hist_next) = found at hfound ⊢
  obtain ⟨hline', hist'⟩ := found
  obtain ⟨hfits, hshort⟩ := hfound
  cases hline' with
  | none => exact ⟨_, rfl, safe_some.mpr ⟨hfits, hline, hesc⟩⟩
  | some text =>
      have hlt := hshort text rfl
      obtain ⟨buf', hbuf', hlength'⟩ := strcpy_ok ed.line.buf 0 text
        (by rw [Nat.zero_add, hline.length]; exact hlt)
      dsimp only
      rw [hbuf']
      exact ⟨_, rfl, safe_some.mpr ⟨hfits,
        ⟨hlength'.trans hline.length, le_refl _, Nat.le_sub_one_of_lt hlt⟩, hesc⟩⟩

theorem perform_spec {auto : Option Completion} {ed : Editor} {hist : Hist}
    (hs : Session.Safe ⟨hist, some ed⟩) (a : Action) :
    (∃ t, perform auto ed hist a = .ok t ∧ t.Safe) ↔ actionFits auto ed a := by
  obtain ⟨hhist, hline, hesc⟩ := safe_some.mp hs
  have edits : (∃ t, (do
      let line ← editLine auto ed.insert ed.line a
      return ⟨hist, some { ed with line }⟩ : Checked Session) = .ok t ∧ t.Safe) ↔
        actionFits auto ed a := by
    rw [← editLine_spec hline a]
    cases editLine auto ed.insert ed.line a with
    | error e =>
        constructor
        · rintro ⟨t, ht, -⟩
          cases ht
        · rintro ⟨l', hl', -⟩
          cases hl'
    | ok l =>
        constructor
        · rintro ⟨t, ht, hsafe⟩
          cases ht
          exact ⟨l, rfl, (safe_some.mp hsafe).2.1⟩
        · rintro ⟨l', hl', hwithin⟩
          cases hl'
          exact ⟨_, rfl, safe_some.mpr ⟨hhist, hwithin, hesc⟩⟩
  cases a with
  | escape => exact iff_of_true ⟨_, rfl, safe_some.mpr ⟨hhist, hline, by show 1 < 8; decide⟩⟩ trivial
  | abort =>
      apply iff_of_true _ trivial
      rw [perform, put_ok (by rw [hline.length]; decide)]
      exact ⟨_, rfl, safe_none hhist⟩
  | toggle => exact iff_of_true ⟨_, rfl, safe_some.mpr ⟨hhist, hline, hesc⟩⟩ trivial
  | history prev => exact iff_of_true (recallLine_spec hs) trivial
  | home => exact edits
  | right => exact edits
  | left => exact edits
  | delete => exact edits
  | erase_to_eol => exact edits
  | to_eol => exact edits
  | erase_line => exact edits
  | rubout => exact edits
  | complete => exact edits
  | char c => exact edits

theorem replay_spec {esc_save : List Byte} {ed : Editor} {hist : Hist}
    (hs : Session.Safe ⟨hist, some ed⟩) :
    (∃ t, replay esc_save ed hist = .ok t ∧ t.Safe) ↔
      ed.line.extent ed.insert esc_save.length ≤ MAX_CMDBUF_SIZE - 1 := by
  obtain ⟨hhist, hline, hesc⟩ := safe_some.mp hs
  obtain ⟨l', hadd, hl', heol⟩ :=
    cread_add_str_spec esc_save ed.insert (hline.mono (Nat.sub_le _ _))
  rw [← hl'.of_extent heol, replay, hadd]
  constructor
  · rintro ⟨t, ht, hsafe⟩
    cases ht
    exact (safe_some.mp hsafe).2.1
  · intro hwithin
    exact ⟨_, rfl, safe_some.mpr ⟨hhist, hwithin, by show 0 < 8; decide⟩⟩

/-- The end of a line: there is room for its NUL, and in a slot of the history. -/
theorem enter_spec {ed : Editor} {hist : Hist} (hs : Session.Safe ⟨hist, some ed⟩) :
    ∃ t, enter ed hist = .ok t ∧ t.Safe := by
  obtain ⟨hhist, hline, hesc⟩ := safe_some.mp hs
  have hlt : ed.line.eol_num < ed.line.buf.length := by
    rw [hline.length]
    exact Nat.lt_of_le_of_lt hline.eol_le (by decide)
  have hshort : (cstring (ed.line.buf.set ed.line.eol_num 0#8)).length < HIST_SIZE :=
    Nat.lt_of_le_of_lt
      ((length_cstring_set _ _).resolve_right (Nat.not_le_of_lt hlt))
      (Nat.lt_of_lt_of_eq hlt hline.length)
  rw [enter, put_ok hlt]
  simp only [bind, Except.bind, pure, Except.pure, if_pos hshort]
  split
  · exact ⟨_, rfl, safe_none hhist⟩
  · exact ⟨_, rfl, safe_none (hhist.add hshort)⟩

/-- A sequence that stands for a key adds nothing to the line. -/
theorem arrowKey_fits {auto : Option Completion} {ed : Editor} {ichar c : Byte}
    (h : arrowKey ichar = some c) (b : Bool) : actionFits auto ed (action b c) := by
  rcases arrowKey_action h b with ha | ha | ha | ha | ha <;> rw [ha] <;> trivial

theorem readKey_spec {auto : Option Completion} {ed : Editor} {hist : Hist}
    (hs : Session.Safe ⟨hist, some ed⟩) (ichar : Byte) :
    (∃ t, readKey auto ed hist ichar = .ok t ∧ t.Safe) ↔ keyFits auto ed ichar := by
  obtain ⟨hhist, hline, hesc⟩ := safe_some.mp hs
  rw [readKey, keyFits]
  by_cases hend : ichar = 0x0a#8 ∨ ichar = 0x0d#8
  · rw [if_pos hend, if_pos hend]
    exact iff_of_true (enter_spec hs) trivial
  · rw [if_neg hend, if_neg hend]
    match hsave : ed.esc_save with
    | [] => exact perform_spec hs _
    | [esc] =>
        dsimp only
        by_cases hbracket : ichar = 0x5b#8
        · rw [if_pos hbracket]
          apply iff_of_true
          · exact ⟨_, rfl, safe_some.mpr ⟨hhist, hline, by show 2 < 8; decide⟩⟩
          · exact fun h => absurd hbracket h
        · rw [if_neg hbracket]
          apply (replay_spec hs).trans
          rw [List.length_singleton]
          exact ⟨fun h _ => h, fun h => h hbracket⟩
    | c₁ :: c₂ :: rest =>
        dsimp only
        cases harrow : arrowKey ichar with
        | none =>
            apply (replay_spec hs).trans
            rw [List.length_append, List.length_singleton]
            exact ⟨fun h _ => h, fun h => h rfl⟩
        | some c =>
            have hs' : Session.Safe ⟨hist, some { ed with esc_save := [] }⟩ :=
              safe_some.mpr ⟨hhist, hline, by show 0 < 8; decide⟩
            apply iff_of_true ((perform_spec hs' _).mpr (arrowKey_fits harrow _))
            intro h
            cases h

/-- A line begins within its bounds. -/
theorem cread_line_spec (buf : InitBuf) :
    ∃ ed, cread_line buf = .ok ed ∧ ed.line.Within (MAX_CMDBUF_SIZE - 1) ∧
      ed.line.eol_num = (cstring buf.1).length ∧ ed.insert = true ∧ ed.esc_save = [] := by
  obtain ⟨hlength, hnul⟩ := buf.2
  have hempty : Line.Within ⟨buf.1, 0, 0⟩ MAX_CMDBUF_SIZE := ⟨hlength, le_refl _, Nat.zero_le _⟩
  have hshort : (cstring buf.1).length < MAX_CMDBUF_SIZE := by
    apply Nat.lt_of_lt_of_eq _ hlength
    apply Nat.lt_of_le_of_ne (length_cstring_le buf.1)
    intro heq
    have hall := (List.takeWhile_prefix (l := buf.1) (· ≠ 0#8)).eq_of_length heq
    rw [← hall] at hnul
    simpa using List.mem_takeWhile_imp hnul
  obtain ⟨l, hl, hwithin, heol⟩ := addInit_spec (cstring buf.1).length 0 hempty
  rw [Nat.zero_add, Nat.min_eq_right (Nat.le_of_lt hshort)] at heol
  rw [cread_line, hl]
  exact ⟨_, rfl, ⟨hwithin.length, hwithin.num_le, heol ▸ Nat.le_sub_one_of_lt hshort⟩, heol, rfl,
    rfl⟩

/-- A step leads from a safe state to a safe state, without a fault, exactly when it fits. -/
theorem step_safe_iff {auto : Option Completion} {s : Session} (hs : s.Safe) (e : Event) :
    (∃ t, s.step auto e = .ok t ∧ t.Safe) ↔ stepFits auto s e := by
  obtain ⟨hist, editing⟩ := s
  cases e with
  | readline buf =>
      apply iff_of_true _ trivial
      cases editing with
      | none =>
          obtain ⟨ed, hed, hline, -, -, hesc⟩ := cread_line_spec buf
          simp only [Session.step, hed]
          exact ⟨_, rfl, safe_some.mpr ⟨hs.hist, hline, by rw [hesc]; decide⟩⟩
      | some ed => exact ⟨_, rfl, hs⟩
  | key ichar =>
      cases editing with
      | none =>
          apply iff_of_true ⟨_, rfl, hs⟩
          intro ed hed
          cases hed
      | some ed =>
          simp only [stepFits, Option.mem_some, forall_eq']
          exact readKey_spec hs ichar

theorem allSafe_iff {auto : Option Completion} {s : Session} (hs : s.Safe) (events : List Event) :
    AllSafe auto s events ↔ AllFit auto s events := by
  induction events generalizing s with
  | nil => exact iff_of_true hs trivial
  | cons e events ih =>
      rw [AllSafe, AllFit, ← step_safe_iff hs e]
      constructor
      · rintro ⟨-, t, ht, hrest⟩
        have hsafe : t.Safe := by
          cases events with
          | nil => exact hrest
          | cons e' events => exact hrest.1
        constructor
        · exact ⟨t, ht, hsafe⟩
        · intro t' ht'
          rw [ht] at ht'
          cases ht'
          exact (ih hsafe).mp hrest
      · rintro ⟨⟨t, ht, hsafe⟩, hrest⟩
        exact ⟨hs, t, ht, (ih hsafe).mpr (hrest t ht)⟩

theorem init_safe : Session.init.Safe := safe_none fun _ => by show 0 < HIST_SIZE; decide

/-- In a run of the line editor every state is safe, and no write is outside the buffer or a slot
of the history, exactly when no character is added to a line of `MAX_CMDBUF_SIZE - 1` characters
that has no other to take its place. -/
theorem cread_line_safe_iff (auto : Option Completion) (events : List Event) :
    AllSafe auto .init events ↔ AllFit auto .init events :=
  allSafe_iff init_safe events

/-- A buffer with 255 characters, which fill it up to its NUL. -/
def fullBuf : InitBuf :=
  ⟨List.replicate 255 0x61#8 ++ [0#8], by rw [List.length_append, List.length_replicate]; rfl,
    List.mem_append_right _ (List.mem_singleton_self _)⟩

/-- Not every run is safe: a full line takes another character. -/
theorem not_cread_line_safe :
    ¬ ∀ (auto : Option Completion) (events : List Event), AllSafe auto .init events := by
  intro h
  have hfit := (allSafe_iff init_safe _).mp (h none [.readline fullBuf, .key 0x62#8, .key 0x0d#8])
  obtain ⟨ed, hed, -, heol, hinsert, hesc⟩ := cread_line_spec fullBuf
  have hstep : Session.init.step none (.readline fullBuf) = .ok ⟨.init, some ed⟩ := by
    simp only [Session.step, Session.init, hed]
    rfl
  have hkey := (hfit.2 _ hstep).1 ed rfl
  have hlength : (cstring fullBuf.1).length = 255 := by
    have hplain : ∀ c ∈ List.replicate 255 0x61#8, decide (c ≠ 0#8) = true := by
      intro c hc
      rw [List.eq_of_mem_replicate hc]
      rfl
    rw [cstring, fullBuf, List.takeWhile_append_of_pos hplain, List.length_append,
      List.length_replicate]
    rfl
  have haction : action false 0x62#8 = .char 0x62#8 := rfl
  rw [keyFits, if_neg (by decide), hesc] at hkey
  simp only [Option.isSome_none, haction, actionFits, Line.extent, hinsert, if_true, heol, hlength,
    MAX_CMDBUF_SIZE] at hkey
  omega

end UBoot.Main
