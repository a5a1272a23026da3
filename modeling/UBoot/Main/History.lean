/-
# Command history

The history of `common/main.c`: a ring of `HIST_MAX` slots for lines, the slot of the next line,
the last slot in use, and the slot that is shown. The lines are found again by how many lines
lie between them and the next one: `Shows h lines depth` says that the lines entered so far, the
latest first, are in the ring and that the line at `depth` is shown. The slot of the next line is
a gap in the ring, so one line fewer than there are slots can be shown.
-/

import UBoot.LibGeneric.Strtoul

namespace UBoot.Main

def MAX_CMDBUF_SIZE : Nat := 256
def HIST_MAX : Nat := 20
def HIST_SIZE : Nat := MAX_CMDBUF_SIZE

/-- The static variables of the history, with the strings in `hist_lines`. -/
structure Hist where
  hist_max : Nat
  hist_add_idx : Nat
  hist_cur : Int
  hist_lines : Nat → List Byte

namespace Hist

/-- `hist_init` -/
def init : Hist := ⟨0, 0, -1, fun _ => []⟩

/-- `cread_add_to_hist`, for a line that fits its slot. -/
def cread_add_to_hist (h : Hist) (line : List Byte) : Hist :=
  let hist_add_idx := if h.hist_add_idx + 1 ≥ HIST_MAX then 0 else h.hist_add_idx + 1
  { h with
    hist_lines := Function.update h.hist_lines h.hist_add_idx line
    hist_add_idx := hist_add_idx
    hist_max := if hist_add_idx > h.hist_max then hist_add_idx else h.hist_max }

/-- `hist_prev` -/
def hist_prev (h : Hist) : Option (List Byte) × Hist :=
  if h.hist_cur < 0 then (none, h)
  else
    let hist_cur := if h.hist_cur - 1 < 0 then (h.hist_max : Int) else h.hist_cur - 1
    if hist_cur = h.hist_add_idx then (none, h)
    else (some (h.hist_lines hist_cur.toNat), { h with hist_cur })

/-- `hist_next` -/
def hist_next (h : Hist) : Option (List Byte) × Hist :=
  if h.hist_cur < 0 then (none, h)
  else if h.hist_cur = h.hist_add_idx then (none, h)
  else
    let hist_cur := if h.hist_cur + 1 > h.hist_max then 0 else h.hist_cur + 1
    (some (if hist_cur = h.hist_add_idx then [] else h.hist_lines hist_cur.toNat),
      { h with hist_cur })

/-- `hist_cur = hist_add_idx` -/
def sync (h : Hist) : Hist := { h with hist_cur := h.hist_add_idx }

/-- How many lines can be shown. -/
def shown (lines : List (List Byte)) : Nat := min lines.length (HIST_MAX - 1)

/-- The lines entered so far, the latest first, are in the ring, and `hist_cur` has gone back by
`depth` lines. Before the first line is read, `hist_cur` is negative. -/
structure Shows (h : Hist) (lines : List (List Byte)) (depth : Nat) : Prop where
  depth_le : depth ≤ shown lines
  max_eq : h.hist_max = shown lines
  add_idx_eq : h.hist_add_idx = lines.length % HIST_MAX
  cur_eq : h.hist_cur = ((lines.length - depth) % HIST_MAX : Nat) ∨ lines = [] ∧ h.hist_cur < 0
  line : ∀ i < shown lines, lines[i]? = some (h.hist_lines ((lines.length - 1 - i) % HIST_MAX))

theorem init_shows : Shows init [] 0 where
  depth_le := le_refl 0
  max_eq := rfl
  add_idx_eq := rfl
  cur_eq := .inr ⟨rfl, by decide⟩
  line _ h := absurd h (Nat.not_lt_zero _)

theorem Shows.sync {h : Hist} {lines : List (List Byte)} {depth : Nat} (shows : Shows h lines depth) :
    Shows h.sync lines 0 where
  depth_le := Nat.zero_le _
  max_eq := shows.max_eq
  add_idx_eq := shows.add_idx_eq
  cur_eq := .inl (congrArg Int.ofNat shows.add_idx_eq)
  line := shows.line

/-- A line that is entered takes the gap, and the slot behind it becomes the gap. -/
theorem Shows.add {h : Hist} {lines : List (List Byte)} {depth : Nat} (shows : Shows h lines depth)
    (line : List Byte) : Shows (h.cread_add_to_hist line).sync (line :: lines) 0 := by
  have hmax := shows.max_eq
  have hadd := shows.add_idx_eq
  have hnext : (h.cread_add_to_hist line).hist_add_idx = (line :: lines).length % HIST_MAX := by
    rw [List.length_cons]
    by_cases hwrap : h.hist_add_idx + 1 ≥ HIST_MAX
    · simp only [cread_add_to_hist, if_pos hwrap]
      simp only [HIST_MAX] at hadd hwrap ⊢
      omega
    · simp only [cread_add_to_hist, if_neg hwrap]
      simp only [HIST_MAX] at hadd hwrap ⊢
      omega
  have hlast : (h.cread_add_to_hist line).hist_max = shown (line :: lines) := by
    have hmax' : (h.cread_add_to_hist line).hist_max =
        max (h.cread_add_to_hist line).hist_add_idx h.hist_max := by
      rw [cread_add_to_hist]
      dsimp only
      rw [Nat.max_def]
      split_ifs <;> omega
    rw [hmax', hnext, hmax, shown, shown, List.length_cons]
    simp only [HIST_MAX]
    omega
  constructor
  · exact Nat.zero_le _
  · exact hlast
  · exact hnext
  · exact .inl (congrArg Int.ofNat hnext)
  · intro i hi
    simp only [shown, HIST_MAX, List.length_cons] at hi
    cases i with
    | zero =>
        rw [List.getElem?_cons_zero]
        simp only [Hist.sync, cread_add_to_hist, List.length_cons, Nat.add_sub_cancel, Nat.sub_zero,
          ← hadd, Function.update_self]
    | succ i =>
        have hold := shows.line i (by simp only [shown, HIST_MAX]; omega)
        rw [List.getElem?_cons_succ, hold]
        simp only [Hist.sync, cread_add_to_hist, List.length_cons, Nat.add_sub_cancel]
        rw [show lines.length - (i + 1) = lines.length - 1 - i by omega, Function.update_of_ne]
        simp only [HIST_MAX] at hadd ⊢
        omega

/-- One line back, as long as there is one. -/
theorem Shows.prev {h : Hist} {lines : List (List Byte)} {depth : Nat} (shows : Shows h lines depth) :
    if depth < shown lines then
      (hist_prev h).1 = lines[depth]? ∧ Shows (hist_prev h).2 lines (depth + 1)
    else hist_prev h = (none, h) := by
  have hdepth := shows.depth_le
  have hmax := shows.max_eq
  have hadd := shows.add_idx_eq
  have hcur := shows.cur_eq
  split
  · next hlt =>
      have hline := shows.line depth hlt
      have hpos : lines ≠ [] := by
        rintro rfl
        exact absurd hlt (Nat.not_lt_zero _)
      replace hcur := hcur.resolve_right fun h => hpos h.1
      have hback : (if h.hist_cur - 1 < 0 then (h.hist_max : Int) else h.hist_cur - 1) =
          ((lines.length - (depth + 1)) % HIST_MAX : Nat) := by
        simp only [shown, HIST_MAX] at hmax hlt hcur ⊢
        split <;> omega
      have hgap : ((lines.length - (depth + 1)) % HIST_MAX : Nat) ≠ h.hist_add_idx := by
        simp only [shown, HIST_MAX] at hlt hadd ⊢
        omega
      have hnonneg : ¬ h.hist_cur < 0 := by omega
      rw [hist_prev, if_neg hnonneg]
      dsimp only
      rw [hback, if_neg (by exact_mod_cast hgap)]
      constructor
      · rw [hline, Int.toNat_natCast, Nat.sub_sub, Nat.add_comm 1]
      · exact ⟨hlt, hmax, hadd, .inl rfl, shows.line⟩
  · next hge =>
      rw [hist_prev]
      rcases hcur with hcur | ⟨rfl, hneg⟩
      · have hback : (if h.hist_cur - 1 < 0 then (h.hist_max : Int) else h.hist_cur - 1) =
            h.hist_add_idx := by
          simp only [shown, HIST_MAX] at hdepth hge hmax hcur hadd ⊢
          split <;> omega
        rw [if_neg (by omega)]
        dsimp only
        rw [if_pos hback]
      · rw [if_pos hneg]

/-- One line forth, up to the line that is not entered yet. -/
theorem Shows.next {h : Hist} {lines : List (List Byte)} {depth : Nat}
    (shows : Shows h lines (depth + 1)) :
    (hist_next h).1 = (if depth = 0 then some [] else lines[depth - 1]?) ∧
      Shows (hist_next h).2 lines depth := by
  have hdepth := shows.depth_le
  have hmax := shows.max_eq
  have hadd := shows.add_idx_eq
  have hpos : lines ≠ [] := by
    rintro rfl
    exact absurd hdepth (Nat.not_succ_le_zero _)
  have hcur := shows.cur_eq.resolve_right fun h => hpos h.1
  have hforth : (if h.hist_cur + 1 > h.hist_max then 0 else h.hist_cur + 1) =
      ((lines.length - depth) % HIST_MAX : Nat) := by
    simp only [shown, HIST_MAX] at hmax hdepth hcur ⊢
    split <;> omega
  have hgap : h.hist_cur ≠ h.hist_add_idx := by
    simp only [shown, HIST_MAX] at hdepth hadd hcur ⊢
    omega
  have hshows : Shows { h with hist_cur := ((lines.length - depth) % HIST_MAX : Nat) } lines depth :=
    ⟨by omega, hmax, hadd, .inl rfl, shows.line⟩
  rw [hist_next, if_neg (by omega), if_neg hgap]
  dsimp only
  rw [hforth]
  apply And.intro _ hshows
  by_cases hzero : depth = 0
  · rw [if_pos hzero, if_pos]
    rw [hadd, hzero, Nat.sub_zero]
  · have hline := shows.line (depth - 1) (by omega)
    rw [if_neg hzero, if_neg, hline, Int.toNat_natCast]
    · rw [show lines.length - 1 - (depth - 1) = lines.length - depth by omega]
    · simp only [shown, HIST_MAX] at hdepth hadd ⊢
      omega

/-- There is nothing behind the line that is not entered yet. -/
theorem Shows.next_zero {h : Hist} {lines : List (List Byte)} (shows : Shows h lines 0) :
    hist_next h = (none, h) := by
  rw [hist_next]
  rcases shows.cur_eq with hcur | ⟨-, hneg⟩
  · rw [Nat.sub_zero, ← shows.add_idx_eq] at hcur
    rw [if_neg (by omega), if_pos hcur]
  · rw [if_pos hneg]

theorem Shows.exists_prev {h : Hist} {lines : List (List Byte)} {depth : Nat}
    (shows : Shows h lines depth) : ∃ depth', Shows h.hist_prev.2 lines depth' := by
  have hprev := shows.prev
  split at hprev
  · exact ⟨depth + 1, hprev.2⟩
  · rw [hprev]
    exact ⟨depth, shows⟩

theorem Shows.exists_next {h : Hist} {lines : List (List Byte)} {depth : Nat}
    (shows : Shows h lines depth) : ∃ depth', Shows h.hist_next.2 lines depth' := by
  cases depth with
  | zero =>
      rw [shows.next_zero]
      exact ⟨0, shows⟩
  | succ depth => exact ⟨depth, shows.next.2⟩

/-- No earlier line is shown. -/
def InSync (h : Hist) : Prop := h.hist_cur = h.hist_add_idx ∨ h.hist_cur < 0

theorem Shows.inSync_iff {h : Hist} {lines : List (List Byte)} {depth : Nat}
    (shows : Shows h lines depth) : h.InSync ↔ depth = 0 := by
  have hdepth := shows.depth_le
  have hadd := shows.add_idx_eq
  rcases shows.cur_eq with hcur | ⟨rfl, hneg⟩
  · simp only [InSync, shown, HIST_MAX] at *
    omega
  · apply iff_of_true (.inr hneg)
    exact Nat.eq_zero_of_le_zero hdepth

/-! ## Navigation -/

/-- An operation that is called so many times: what it returns, and the history behind it. -/
def walk (op : Hist → Option (List Byte) × Hist) : Nat → Hist → List (Option (List Byte)) × Hist
  | 0, h => ([], h)
  | n + 1, h =>
      let (line, h) := op h
      let (lines, h) := walk op n h
      (line :: lines, h)

/-- The calls of `hist_prev` return the lines, the latest first, up to the one that does not move;
as many calls of `hist_next` return the same lines back to the empty line. -/
structure Navigates (h : Hist) (lines : List (List Byte)) : Prop where
  back : ∀ i ≤ shown lines, (walk hist_prev i h).1 = (lines.take i).map some
  stop : hist_prev (walk hist_prev (shown lines) h).2 =
    (none, (walk hist_prev (shown lines) h).2)
  forth : ∀ i ≤ shown lines, 0 < i →
    (walk hist_next i (walk hist_prev i h).2).1 = ((lines.take (i - 1)).reverse ++ [[]]).map some

theorem walk_succ (op : Hist → Option (List Byte) × Hist) (n : Nat) (h : Hist) :
    (walk op (n + 1) h).1 = (walk op n h).1 ++ [(op (walk op n h).2).1] := by
  induction n generalizing h with
  | zero => rfl
  | succ n ih =>
      rw [walk]
      dsimp only
      rw [ih, walk]
      rfl

theorem Shows.walk_prev {h : Hist} {lines : List (List Byte)} {depth : Nat}
    (shows : Shows h lines depth) {i : Nat} (hi : depth + i ≤ shown lines) :
    (walk hist_prev i h).1 = ((lines.drop depth).take i).map some ∧
      Shows (walk hist_prev i h).2 lines (depth + i) := by
  induction i generalizing h depth with
  | zero => exact ⟨rfl, shows⟩
  | succ i ih =>
      have hstep := shows.prev
      rw [if_pos (by omega)] at hstep
      obtain ⟨hlines, hshows⟩ := ih hstep.2 (by omega)
      rw [walk]
      dsimp only
      constructor
      · have hlt : depth < lines.length := by
          have := Nat.min_le_left lines.length (HIST_MAX - 1)
          rw [shown] at hi
          omega
        rw [hstep.1, hlines, List.drop_eq_getElem_cons hlt, List.take_succ_cons, List.map_cons,
          List.getElem?_eq_getElem hlt]
      · rw [← Nat.add_assoc, Nat.add_right_comm]
        exact hshows

theorem Shows.walk_next {h : Hist} {lines : List (List Byte)} {i : Nat}
    (shows : Shows h lines (i + 1)) :
    (walk hist_next (i + 1) h).1 = ((lines.take i).reverse ++ [[]]).map some := by
  induction i generalizing h with
  | zero =>
      simp only [walk]
      rw [shows.next.1]
      rfl
  | succ i ih =>
      have hlt : i < lines.length :=
        Nat.lt_of_lt_of_le (Nat.lt_of_succ_lt shows.depth_le) (Nat.min_le_left _ _)
      rw [walk]
      dsimp only
      rw [ih shows.next.2, shows.next.1, if_neg (Nat.succ_ne_zero i), Nat.add_sub_cancel,
        List.getElem?_eq_getElem hlt, List.take_add_one, List.getElem?_eq_getElem hlt]
      simp only [Option.toList_some, List.reverse_append, List.reverse_singleton, List.map_append,
        List.map_cons, List.map_nil, List.cons_append, List.nil_append]

/-- At a new line the history is navigated from the latest line on, unless an earlier line is
still shown. -/
theorem Shows.navigates_iff {h : Hist} {lines : List (List Byte)} {depth : Nat}
    (shows : Shows h lines depth) : Navigates h lines ↔ depth = 0 := by
  constructor
  · intro nav
    by_contra hne
    have hdepth := shows.depth_le
    -- the lines that are left run out before all of them have been returned
    have hback := nav.back (shown lines - depth + 1) (by omega)
    obtain ⟨-, hshows⟩ := shows.walk_prev (i := shown lines - depth) (by omega)
    have hstop := hshows.prev
    rw [if_neg (by omega)] at hstop
    rw [walk_succ, hstop] at hback
    have hmem : none ∈ (lines.take (shown lines - depth + 1)).map some := by
      rw [← hback]
      exact List.mem_append_right _ (List.mem_singleton_self _)
    obtain ⟨line, -, hline⟩ := List.mem_map.mp hmem
    cases hline
  · rintro rfl
    constructor
    · intro i hi
      exact (shows.walk_prev (by omega)).1
    · obtain ⟨-, hshows⟩ := shows.walk_prev (i := shown lines) (by omega)
      have hstop := hshows.prev
      rwa [if_neg (by omega)] at hstop
    · intro i hi hpos
      obtain ⟨j, rfl⟩ := Nat.exists_eq_add_of_lt hpos
      obtain ⟨-, hshows⟩ := shows.walk_prev (i := 0 + j + 1) (by omega)
      rw [Nat.zero_add, Nat.zero_add] at hshows
      rw [Nat.zero_add, Nat.add_sub_cancel]
      exact hshows.walk_next

end Hist

end UBoot.Main
