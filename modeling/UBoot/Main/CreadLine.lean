/-
# The line editor

`cread_line` of `common/main.c`, for one line after the other. A line begins with what the buffer
holds, and each key may change the line, the cursor and the history. A write outside the buffer,
or outside a slot of the history, is a fault, and so is the end of the run. What is printed is
left out, and no line times out.
-/

import UBoot.Main.History

namespace UBoot.Main

/-- A write outside the buffer, or outside a slot of the history. -/
inductive Fault
  | buf
  | hist
  deriving DecidableEq

abbrev Checked := Except Fault

/-- `buf[i] = c` -/
def put (buf : List Byte) (i : Nat) (c : Byte) : Checked (List Byte) :=
  if i < buf.length then .ok (buf.set i c) else .error .buf

/-- `memmove(&buf[dst], &buf[src], n)` -/
def move (buf : List Byte) (dst src n : Nat) : Checked (List Byte) :=
  if dst + n ≤ buf.length ∧ src + n ≤ buf.length then
    .ok (buf.take dst ++ (buf.drop src).take n ++ buf.drop (dst + n))
  else .error .buf

/-- `strcpy(&buf[i], s)` -/
def strcpy (buf : List Byte) (i : Nat) (s : List Byte) : Checked (List Byte) :=
  if i + s.length < buf.length then
    .ok (buf.take i ++ s ++ 0#8 :: buf.drop (i + s.length + 1))
  else .error .buf

/-- The string at the begin of a buffer. -/
def cstring (buf : List Byte) : List Byte := buf.takeWhile (· ≠ 0#8)

/-! ## Characters -/

/-- The line, its cursor and its length. -/
structure Line where
  buf : List Byte
  num : Nat
  eol_num : Nat

/-- `cread_add_char` -/
def cread_add_char (ichar : Byte) (insert : Bool) (len : Nat) (l : Line) : Checked Line :=
  if (insert ∨ l.num = l.eol_num) ∧ l.eol_num > len - 1 then .ok l
  else do
    let eol_num := if insert ∨ l.num = l.eol_num then l.eol_num + 1 else l.eol_num
    if insert then
      let wlen := eol_num - l.num
      let buf ← if wlen > 1 then move l.buf (l.num + 1) l.num (wlen - 1) else pure l.buf
      let buf ← put buf l.num ichar
      return ⟨buf, l.num + 1, eol_num⟩
    else
      let buf ← put l.buf l.num ichar
      return ⟨buf, l.num + 1, eol_num⟩

/-- `cread_add_str` -/
def cread_add_str (str : List Byte) (insert : Bool) (len : Nat) (l : Line) : Checked Line :=
  str.foldlM (fun l ichar => cread_add_char ichar insert len l) l

/-- `cread_add_str(buf, init_len, 1, ..)`, whose string is in the buffer it writes to. -/
def addInit (len : Nat) : Nat → Nat → Line → Checked Line
  | 0, _, l => .ok l
  | strsize + 1, str, l => do
      let l ← cread_add_char (l.buf.getD str 0#8) true len l
      addInit len strsize (str + 1) l

/-! ## Keys -/

/-- What a key does. -/
inductive Action
  | escape
  | home
  | abort
  | right
  | left
  | delete
  | erase_to_eol
  | to_eol
  | toggle
  | erase_line
  | rubout
  | history (prev : Bool)
  | complete
  | char (c : Byte)

/-- `CTL_CH(c)` -/
def CTL_CH (c : Byte) : Byte := c - 0x61#8 + 1#8

/-- The cases of the `switch`. A tabulator is one of them when `CONFIG_AUTO_COMPLETE` is set. -/
def action (auto : Bool) (ichar : Byte) : Action :=
  if ichar = 0x1b#8 then .escape
  else if ichar = CTL_CH 0x61#8 then .home
  else if ichar = CTL_CH 0x63#8 then .abort
  else if ichar = CTL_CH 0x66#8 then .right
  else if ichar = CTL_CH 0x62#8 then .left
  else if ichar = CTL_CH 0x64#8 then .delete
  else if ichar = CTL_CH 0x6b#8 then .erase_to_eol
  else if ichar = CTL_CH 0x65#8 then .to_eol
  else if ichar = CTL_CH 0x6f#8 then .toggle
  else if ichar = CTL_CH 0x78#8 ∨ ichar = CTL_CH 0x75#8 then .erase_line
  else if ichar = 255#8 ∨ ichar = 127#8 ∨ ichar = 8#8 then .rubout
  else if ichar = CTL_CH 0x70#8 then .history true
  else if ichar = CTL_CH 0x6e#8 then .history false
  else if auto ∧ ichar = 9#8 then .complete
  else .char ichar

/-- The last character of the sequences that stand for keys. -/
def arrowKey (ichar : Byte) : Option Byte :=
  if ichar = 0x44#8 then some (CTL_CH 0x62#8)
  else if ichar = 0x43#8 then some (CTL_CH 0x66#8)
  else if ichar = 0x48#8 then some (CTL_CH 0x61#8)
  else if ichar = 0x41#8 then some (CTL_CH 0x70#8)
  else if ichar = 0x42#8 then some (CTL_CH 0x6e#8)
  else none

/-- The sequences move the cursor, or in the history. -/
theorem arrowKey_action {ichar c : Byte} (h : arrowKey ichar = some c) (auto : Bool) :
    action auto c ∈ ({.left, .right, .home, .history true, .history false} : Set Action) := by
  have hc : c ∈ [CTL_CH 0x62#8, CTL_CH 0x66#8, CTL_CH 0x61#8, CTL_CH 0x70#8, CTL_CH 0x6e#8] := by
    rw [arrowKey] at h
    split_ifs at h <;> cases h <;> decide
  simp only [List.mem_cons, List.not_mem_nil, or_false] at hc
  simp only [Set.mem_insert_iff, Set.mem_singleton_iff]
  rcases hc with rfl | rfl | rfl | rfl | rfl
  · exact .inl rfl
  · exact .inr (.inl rfl)
  · exact .inr (.inr (.inl rfl))
  · exact .inr (.inr (.inr (.inl rfl)))
  · exact .inr (.inr (.inr (.inr rfl)))

/-- `cmd_auto_complete`: what the table of commands adds to a string, and `CONFIG_SYS_CBSIZE`. -/
structure Completion where
  text : List Byte → Option (List Byte)
  cbsize : Nat

/-- The state of `cread_line`. `esc_save` has `esc_len` characters in use. -/
structure Editor where
  line : Line
  insert : Bool
  esc_save : List Byte

/-- The history, and the line that is being read. -/
structure Session where
  hist : Hist
  editing : Option Editor

/-- `cmd_auto_complete(prompt, buf, &num2, &col)` at the end of the line. -/
def autoComplete (c : Completion) (l : Line) : Checked Line := do
  let buf ← put l.buf l.num 0#8
  match c.text (cstring buf) with
  | none => return { l with buf }
  | some t =>
      if l.num + t.length ≥ c.cbsize - 2 then return { l with buf }
      else
        let buf ← strcpy buf (cstring buf).length t
        return ⟨buf, l.num + t.length, l.eol_num + t.length⟩

/-- The line behind a key that only changes the line. -/
def editLine (auto : Option Completion) (insert : Bool) (l : Line) : Action → Checked Line
  | .home => return { l with num := 0 }
  | .right => return if l.num < l.eol_num then { l with num := l.num + 1 } else l
  | .left => return if l.num ≠ 0 then { l with num := l.num - 1 } else l
  | .delete =>
      if l.num < l.eol_num then do
        let wlen := l.eol_num - l.num - 1
        let buf ← if wlen ≠ 0 then move l.buf l.num (l.num + 1) wlen else pure l.buf
        return { l with buf, eol_num := l.eol_num - 1 }
      else return l
  | .erase_to_eol => return if l.num < l.eol_num then { l with eol_num := l.num } else l
  | .to_eol => return if l.num < l.eol_num then { l with num := l.eol_num } else l
  | .erase_line => return { l with num := 0, eol_num := 0 }
  | .rubout =>
      if l.num ≠ 0 then do
        let buf ← move l.buf (l.num - 1) l.num (l.eol_num - l.num)
        return ⟨buf, l.num - 1, l.eol_num - 1⟩
      else return l
  | .complete =>
      match auto with
      | some c => if l.num < l.eol_num then return l else autoComplete c l
      | none => return l
  | .char c => cread_add_char c insert MAX_CMDBUF_SIZE l
  | _ => return l

/-- `hist_prev` or `hist_next`, and the line that it returns in the buffer. -/
def recallLine (prev : Bool) (ed : Editor) (hist : Hist) : Checked Session := do
  let (hline, hist) := if prev then hist.hist_prev else hist.hist_next
  match hline with
  | none => return ⟨hist, some ed⟩
  | some hline =>
      let buf ← strcpy ed.line.buf 0 hline
      return ⟨hist, some { ed with line := ⟨buf, hline.length, hline.length⟩ }⟩

/-- The `switch` over the keys. -/
def perform (auto : Option Completion) (ed : Editor) (hist : Hist) : Action → Checked Session
  | .escape => return ⟨hist, some { ed with esc_save := [0x1b#8] }⟩
  | .abort => do
      let _ ← put ed.line.buf 0 0#8
      return ⟨hist, none⟩
  | .toggle => return ⟨hist, some { ed with insert := !ed.insert }⟩
  | .history prev => recallLine prev ed hist
  | a => do
      let line ← editLine auto ed.insert ed.line a
      return ⟨hist, some { ed with line }⟩

/-- The characters of a sequence that is no key are added to the line. -/
def replay (esc_save : List Byte) (ed : Editor) (hist : Hist) : Checked Session := do
  let line ← cread_add_str esc_save ed.insert MAX_CMDBUF_SIZE ed.line
  return ⟨hist, some { ed with line, esc_save := [] }⟩

def CREAD_HIST_CHAR : Byte := 0x21#8

/-- The end of a line. -/
def enter (ed : Editor) (hist : Hist) : Checked Session := do
  let buf ← put ed.line.buf ed.line.eol_num 0#8
  let line := cstring buf
  if line = [] ∨ line.head? = some CREAD_HIST_CHAR then return ⟨hist.sync, none⟩
  else if line.length < HIST_SIZE then return ⟨(hist.cread_add_to_hist line).sync, none⟩
  else .error .hist

/-- A key of a line. -/
def readKey (auto : Option Completion) (ed : Editor) (hist : Hist) (ichar : Byte) :
    Checked Session :=
  if ichar = 0x0a#8 ∨ ichar = 0x0d#8 then enter ed hist
  else
    match ed.esc_save with
    | [] => perform auto ed hist (action auto.isSome ichar)
    | [esc] =>
        if ichar = 0x5b#8 then return ⟨hist, some { ed with esc_save := [esc, ichar] }⟩
        else replay [esc] ed hist
    | esc_save =>
        match arrowKey ichar with
        | some ichar => perform auto { ed with esc_save := [] } hist (action auto.isSome ichar)
        | none => replay (esc_save ++ [ichar]) ed hist

/-- A buffer with a string in it. -/
abbrev InitBuf := { buf : List Byte // buf.length = MAX_CMDBUF_SIZE ∧ 0#8 ∈ buf }

/-- What happens on the console. -/
inductive Event
  /-- `cread_line` is called. -/
  | readline (buf : InitBuf)
  /-- A character comes in. -/
  | key (ichar : Byte)

/-- `cread_line`, up to the first key. -/
def cread_line (buf : InitBuf) : Checked Editor := do
  let line ← addInit MAX_CMDBUF_SIZE (cstring buf.1).length 0 ⟨buf.1, 0, 0⟩
  return ⟨line, true, []⟩

/-- One step. A character that comes while no line is read is not looked at, and `cread_line` is
not called again before it returns. -/
def Session.step (auto : Option Completion) (s : Session) : Event → Checked Session
  | .readline buf =>
      match s.editing with
      | none => do
          let ed ← cread_line buf
          return ⟨s.hist, some ed⟩
      | some _ => return s
  | .key ichar =>
      match s.editing with
      | none => return s
      | some ed => readKey auto ed s.hist ichar

/-- The state behind `hist_init`. -/
def Session.init : Session := ⟨.init, none⟩

end UBoot.Main
