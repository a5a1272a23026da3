/-
# Console multiplexing

`iomux_doenv` of `common/iomux.c`, which gives a console the devices that a comma separated list
names, with `search_device` of `common/console.c`, `stdio_get_by_name` of `common/stdio.c` and
`serial_assign` of `common/serial.c`. A pointer to a device is its place in the list of those that
are registered. A name is the bytes in front of its NUL.
-/

import UBoot.LibGeneric.Crc32
import Mathlib.Data.List.Basic
import Mathlib.Data.List.Nodup

namespace UBoot.Console

/-- What is looked at of a `struct stdio_dev`. -/
structure StdioDev where
  name : List Byte
  flags : BitVec 32

def DEV_FLAGS_INPUT : BitVec 32 := 1#32
def DEV_FLAGS_OUTPUT : BitVec 32 := 2#32

def comma : Byte := 44#8

/-- `stdio_get_by_name` -/
def stdio_get_by_name (devs : List StdioDev) (name : List Byte) : Option Nat :=
  devs.findIdx? (·.name == name)

/-- `search_device` -/
def search_device (devs : List StdioDev) (flags : BitVec 32) (name : List Byte) : Option Nat :=
  match stdio_get_by_name devs name with
  | none => none
  | some dev => if (devs.getD dev ⟨[], 0⟩).flags &&& flags ≠ 0 then some dev else none

/-- `serial_assign`, with the names of the serial devices. -/
def serial_assign (serial_devices : List (List Byte)) (name : List Byte) : Int :=
  if name ∈ serial_devices then 0 else 1

/-- What is there when `iomux_doenv` is called: the devices, with `CONFIG_SERIAL_MULTI` the names of
the serial ones, which allocations succeed, and what `console_assign` returns for the `j`-th name. -/
structure Board where
  devs : List StdioDev
  serial_devices : Option (List (List Byte))
  strdup : Bool
  malloc : Bool
  calloc : Bool
  realloc : Bool
  console_assign : Nat → Int

/-- The lists of the consoles, with `none` for NULL, and their lengths. -/
structure Consoles where
  console_devices : Int → Option (List Nat)
  cd_count : Int → Nat

/-- The first loop: one more than there are commas. -/
def countLoop (temp : List Byte) : Nat :=
  match h : temp.dropWhile (· ≠ comma) with
  | [] => 1
  | _ :: rest => countLoop rest + 1
termination_by temp.length
decreasing_by
  have hle : (temp.dropWhile (· ≠ comma)).length ≤ temp.length :=
    (List.dropWhile_sublist _).length_le
  rw [h, List.length_cons] at hle
  omega

/-- The second loop: the names that `start` points to, when each comma has become a NUL. -/
def startLoop (temp : List Byte) : List (List Byte) :=
  match h : temp.dropWhile (· ≠ comma) with
  | [] => [temp]
  | _ :: rest => temp.takeWhile (· ≠ comma) :: startLoop rest
termination_by temp.length
decreasing_by
  have hle : (temp.dropWhile (· ≠ comma)).length ≤ temp.length :=
    (List.dropWhile_sublist _).length_le
  rw [h, List.length_cons] at hle
  omega

/-- `io_flag`, where there is such a console. -/
def ioFlag (console : Int) : Option (BitVec 32) :=
  if console = 0 then some DEV_FLAGS_INPUT
  else if console = 1 ∨ console = 2 then some DEV_FLAGS_OUTPUT
  else none

/-- `serial_assign(start[j]) < 0`, where it is called. -/
def Board.serialFails (b : Board) (name : List Byte) : Bool :=
  match b.serial_devices with
  | none => false
  | some serial_devices => serial_assign serial_devices name < 0

/-- The third loop, from the `j`-th name on: the devices in `cons_set`. -/
def Board.setLoop (b : Board) (io_flag : BitVec 32) (cons_set : List Nat) (j : Nat) :
    List (List Byte) → List Nat
  | [] => cons_set
  | name :: start =>
      match search_device b.devs io_flag name with
      | none => setLoop b io_flag cons_set (j + 1) start
      | some dev =>
          if dev ∈ cons_set then setLoop b io_flag cons_set (j + 1) start
          else if b.console_assign j < 0 then setLoop b io_flag cons_set (j + 1) start
          else if b.serialFails name then setLoop b io_flag cons_set (j + 1) start
          else setLoop b io_flag (cons_set ++ [dev]) (j + 1) start

/-- `iomux_doenv` -/
def Board.iomux_doenv (b : Board) (s : Consoles) (console : Int) (arg : List Byte) :
    Int × Consoles :=
  if !b.strdup then (1, s)
  else if !b.malloc then (1, s)
  else if !b.calloc then (1, s)
  else
    match ioFlag console with
    | none => (1, s)
    | some io_flag =>
        let cons_set := b.setLoop io_flag [] 0 (startLoop arg)
        if cons_set = [] then (1, s)
        else if !b.realloc then
          (1, { s with console_devices := Function.update s.console_devices console none })
        else
          (0, { console_devices := Function.update s.console_devices console (some cons_set)
                cd_count := Function.update s.cd_count console cons_set.length })

/-! ## Names -/

section Names

variable {name rest : List Byte}

theorem dropWhile_name (h : comma ∉ name) : name.dropWhile (· ≠ comma) = [] := by
  rw [List.dropWhile_eq_nil_iff]
  exact fun c hc => decide_eq_true (fun hcomma => h (hcomma ▸ hc))

theorem dropWhile_name_append (h : comma ∉ name) :
    (name ++ comma :: rest).dropWhile (· ≠ comma) = comma :: rest := by
  rw [List.dropWhile_append, dropWhile_name h]
  rfl

theorem takeWhile_name_append (h : comma ∉ name) :
    (name ++ comma :: rest).takeWhile (· ≠ comma) = name := by
  have hcut := List.takeWhile_append_dropWhile (p := (· ≠ comma)) (l := name ++ comma :: rest)
  rw [dropWhile_name_append h] at hcut
  exact List.append_cancel_right hcut

theorem countLoop_name (h : comma ∉ name) : countLoop name = 1 := by
  rw [countLoop]
  split
  · rfl
  · next hcons => exact absurd ((dropWhile_name h).symm.trans hcons) (List.cons_ne_nil _ _).symm

theorem countLoop_append (h : comma ∉ name) :
    countLoop (name ++ comma :: rest) = countLoop rest + 1 := by
  rw [countLoop]
  split
  · next hnil => exact absurd ((dropWhile_name_append h).symm.trans hnil) (List.cons_ne_nil _ _)
  · next hcons => rw [List.tail_eq_of_cons_eq ((dropWhile_name_append h).symm.trans hcons)]

theorem startLoop_name (h : comma ∉ name) : startLoop name = [name] := by
  rw [startLoop]
  split
  · rfl
  · next hcons => exact absurd ((dropWhile_name h).symm.trans hcons) (List.cons_ne_nil _ _).symm

theorem startLoop_append (h : comma ∉ name) :
    startLoop (name ++ comma :: rest) = name :: startLoop rest := by
  rw [startLoop, takeWhile_name_append h]
  split
  · next hnil => exact absurd ((dropWhile_name_append h).symm.trans hnil) (List.cons_ne_nil _ _)
  · next hcons => rw [List.tail_eq_of_cons_eq ((dropWhile_name_append h).symm.trans hcons)]

end Names

/-- The names are the pieces between the commas, and there are as many slots as names. -/
theorem startLoop_eq (arg : List Byte) :
    startLoop arg = arg.splitOn comma ∧ countLoop arg = (startLoop arg).length := by
  induction hlen : arg.length using Nat.strong_induction_on generalizing arg with
  | _ n ih =>
      by_cases hmem : comma ∈ arg
      · obtain ⟨name, rest, rfl, hname⟩ := List.eq_append_cons_of_mem hmem
        have hlt : rest.length < n := by
          rw [← hlen, List.length_append, List.length_cons]
          omega
        obtain ⟨hstart, hcount⟩ := ih _ hlt rest rfl
        rw [startLoop_append hname, countLoop_append hname, hcount, hstart,
          List.splitOn_append_cons_self_of_not_mem hname]
        exact ⟨rfl, rfl⟩
      · rw [startLoop_name hmem, countLoop_name hmem, List.splitOn_eq_singleton hmem]
        exact ⟨rfl, rfl⟩

/-! ## Devices -/

/-- The device that the `j`-th name gives. -/
def Board.valid (b : Board) (io_flag : BitVec 32) (j : Nat) (name : List Byte) : Option Nat :=
  if b.console_assign j < 0 then none else search_device b.devs io_flag name

/-- The valid devices, each where it is named first. -/
def Board.validDevs (b : Board) (io_flag : BitVec 32) (arg : List Byte) : List Nat :=
  ((arg.splitOn comma).zipIdx.filterMap fun named =>
    b.valid io_flag named.2 named.1).eraseDups

/-- `serial_assign` never is below zero. -/
theorem Board.serialFails_eq (b : Board) (name : List Byte) : b.serialFails name = false := by
  rw [Board.serialFails]
  cases b.serial_devices with
  | none => rfl
  | some serial_devices =>
      change decide (serial_assign serial_devices name < 0) = false
      rw [serial_assign]
      split <;> rfl

theorem eraseDups_of_nodup {l : List Nat} (h : l.Nodup) : l.eraseDups = l := by
  induction l with
  | nil => rfl
  | cons a l ih =>
      obtain ⟨ha, hl⟩ := List.nodup_cons.mp h
      have hothers : l.filter (fun b => !b == a) = l := by
        rw [List.filter_eq_self]
        intro b hb
        simpa using fun heq : b = a => ha (heq ▸ hb)
      rw [List.eraseDups_cons, hothers, ih hl]

theorem eraseDups_append_cons {l : List Nat} {a : Nat} (h : a ∈ l) (rest : List Nat) :
    (l ++ a :: rest).eraseDups = (l ++ rest).eraseDups := by
  have hremove : (a :: rest).removeAll l = rest.removeAll l := by
    rw [List.cons_removeAll, if_neg]
    simpa using h
  rw [List.eraseDups_append, List.eraseDups_append, hremove]

/-- The loop puts the valid devices behind the ones it has. -/
theorem Board.setLoop_eq (b : Board) (io_flag : BitVec 32) (start : List (List Byte)) (j : Nat)
    {cons_set : List Nat} (hset : cons_set.Nodup) :
    b.setLoop io_flag cons_set j start =
      (cons_set ++ (start.zipIdx j).filterMap fun named =>
        b.valid io_flag named.2 named.1).eraseDups := by
  induction start generalizing j cons_set with
  | nil =>
      rw [List.zipIdx_nil, List.filterMap_nil, List.append_nil, eraseDups_of_nodup hset]
      rfl
  | cons name start ih =>
      have hskip (hnone : b.valid io_flag j name = none) :
          b.setLoop io_flag cons_set (j + 1) start =
            (cons_set ++ ((name :: start).zipIdx j).filterMap fun named =>
              b.valid io_flag named.2 named.1).eraseDups := by
        rw [ih _ hset, List.zipIdx_cons, List.filterMap_cons, hnone]
      rw [Board.setLoop]
      cases hdev : search_device b.devs io_flag name with
      | none => exact hskip (by rw [Board.valid, hdev, ite_self])
      | some dev =>
          dsimp only
          by_cases hassign : b.console_assign j < 0
          · rw [if_pos hassign, ite_self]
            exact hskip (if_pos hassign)
          · have hvalid : b.valid io_flag j name = some dev := (if_neg hassign).trans hdev
            rw [if_neg hassign, b.serialFails_eq, if_neg Bool.false_ne_true, List.zipIdx_cons,
              List.filterMap_cons, hvalid]
            by_cases hmem : dev ∈ cons_set
            · rw [if_pos hmem, ih _ hset]
              exact (eraseDups_append_cons hmem _).symm
            · have hnodup : (cons_set ++ [dev]).Nodup := by
                rw [List.nodup_append_comm]
                exact List.nodup_cons.mpr ⟨hmem, hset⟩
              rw [if_neg hmem, ih _ hnodup, List.append_assoc]
              rfl

/-- What the loop leaves is what the string names. -/
theorem Board.setLoop_start (b : Board) (io_flag : BitVec 32) (arg : List Byte) :
    b.setLoop io_flag [] 0 (startLoop arg) = b.validDevs io_flag arg := by
  rw [b.setLoop_eq io_flag _ 0 List.nodup_nil, (startLoop_eq arg).1]
  rfl

/-! ## The contract -/

/-- With result 1 the console is as before, and otherwise it has the valid devices. -/
def Board.Atomic (b : Board) (s : Consoles) (console : Int) (arg : List Byte) : Prop :=
  let (ret, t) := b.iomux_doenv s console arg
  if ret = 1 then
    t.console_devices console = s.console_devices console ∧ t.cd_count console = s.cd_count console
  else
    ∃ io_flag, ioFlag console = some io_flag ∧
      t.console_devices console = some (b.validDevs io_flag arg) ∧
      t.cd_count console = (b.validDevs io_flag arg).length

/-- The list is allocated anew: nothing has failed, and a device is valid. -/
def Board.Reallocates (b : Board) (console : Int) (arg : List Byte) : Prop :=
  b.strdup = true ∧ b.malloc = true ∧ b.calloc = true ∧
    ∃ io_flag, ioFlag console = some io_flag ∧ b.validDevs io_flag arg ≠ []

/-- Where the list is not allocated anew, nothing is done. -/
theorem iomux_doenv_of_not {b : Board} {console : Int} {arg : List Byte}
    (h : ¬b.Reallocates console arg) (s : Consoles) : b.iomux_doenv s console arg = (1, s) := by
  rw [Board.iomux_doenv]
  split
  · rfl
  · split
    · rfl
    · split
      · rfl
      · next hstrdup hmalloc hcalloc =>
          cases hflag : ioFlag console with
          | none => rfl
          | some io_flag =>
              have hnone : b.setLoop io_flag [] 0 (startLoop arg) = [] := by
                by_contra hsome
                rw [b.setLoop_start] at hsome
                exact h ⟨by simpa using hstrdup, by simpa using hmalloc, by simpa using hcalloc,
                  io_flag, hflag, hsome⟩
              exact if_pos hnone

/-- Where it is, all depends on whether there is a place for it. -/
theorem iomux_doenv_of_reallocates {b : Board} {console : Int} {arg : List Byte}
    (h : b.Reallocates console arg) (s : Consoles) :
    ∃ io_flag, ioFlag console = some io_flag ∧ b.iomux_doenv s console arg =
      if b.realloc then
        (0, ⟨Function.update s.console_devices console (some (b.validDevs io_flag arg)),
          Function.update s.cd_count console (b.validDevs io_flag arg).length⟩)
      else (1, ⟨Function.update s.console_devices console none, s.cd_count⟩) := by
  obtain ⟨hstrdup, hmalloc, hcalloc, io_flag, hflag, hvalid⟩ := h
  refine ⟨io_flag, hflag, ?_⟩
  rw [Board.iomux_doenv, hstrdup, hmalloc, hcalloc, hflag]
  simp only [b.setLoop_start, if_neg hvalid]
  cases b.realloc <;> rfl

/-- The list is lost when it cannot be allocated anew, and otherwise a call does all or nothing. -/
theorem iomux_doenv_atomic_iff (b : Board) (s : Consoles) (console : Int) (arg : List Byte) :
    b.Atomic s console arg ↔
      (b.Reallocates console arg → b.realloc = true ∨ s.console_devices console = none) := by
  by_cases hnew : b.Reallocates console arg
  · obtain ⟨io_flag, hflag, hcall⟩ := iomux_doenv_of_reallocates hnew s
    rw [Board.Atomic, hcall]
    cases hrealloc : b.realloc with
    | true =>
        refine iff_of_true ?_ fun _ => .inl rfl
        exact ⟨io_flag, hflag, Function.update_self _ _ _, Function.update_self _ _ _⟩
    | false =>
        have hlost : Function.update s.console_devices console none console = none :=
          Function.update_self _ _ _
        constructor
        · rintro ⟨hdevices, -⟩ -
          exact .inr (hdevices.symm.trans hlost)
        · intro hsafe
          have hnone := (hsafe hnew).resolve_left Bool.false_ne_true
          exact ⟨hlost.trans hnone.symm, rfl⟩
  · rw [Board.Atomic, iomux_doenv_of_not hnew s]
    exact iff_of_true ⟨rfl, rfl⟩ fun h => absurd h hnew

/-- One device, which can be used for output, and no place for its list. -/
def serialBoard : Board where
  devs := [⟨[115#8], 3#32⟩]
  serial_devices := none
  strdup := true
  malloc := true
  calloc := true
  realloc := false
  console_assign := fun _ => 0

/-- The second console loses its device. -/
theorem not_iomux_doenv_atomic :
    ¬∀ (b : Board) (s : Consoles) (console : Int) (arg : List Byte), b.Atomic s console arg := by
  intro h
  have hatomic := h serialBoard ⟨fun _ => some [0], fun _ => 1⟩ 1 [115#8]
  have hstart : startLoop [115#8] = [[115#8]] := startLoop_name (by decide)
  simp [Board.Atomic, Board.iomux_doenv, hstart, serialBoard, ioFlag, Board.setLoop,
    search_device, stdio_get_by_name, DEV_FLAGS_OUTPUT, Board.serialFails] at hatomic

end UBoot.Console
