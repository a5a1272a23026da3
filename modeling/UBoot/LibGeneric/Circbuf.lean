/-
# The circular buffer

`lib_generic/circbuf.c`: bytes are put behind the last one, and taken from the first one on. What is
pushed into a buffer that is full takes the place of the oldest bytes. Pointers into the buffer are
their distances from `data`, so that `end` is at `totalsize`.
-/

import UBoot.LibGeneric.Crc32
import UBoot.Lib.Rings

namespace UBoot.Circ

open UBoot.Lib

/-- `circbuf_t`, with the bytes at `data`. -/
structure Circbuf where
  size : Nat
  totalsize : Nat
  top : Nat
  tail : Nat
  data : Nat → Byte

/-- `buf_init`, where the buffer that is allocated has any bytes. -/
def buf_init (data : Nat → Byte) (size : Nat) : Circbuf := ⟨0, size, 0, 0, data⟩

/-- `p++`, and back to `data` at the end. -/
def Circbuf.advance (buf : Circbuf) (p : Nat) : Nat := if p + 1 = buf.totalsize then 0 else p + 1

/-- The loop of `buf_pop`: the bytes, and the pointer behind them. -/
def popLoop (buf : Circbuf) : Nat → Nat → List Byte × Nat
  | 0, p => ([], p)
  | len + 1, p =>
      let (dest, q) := popLoop buf len (buf.advance p)
      (buf.data p :: dest, q)

/-- `buf_pop`: the return value, what is put into `dest`, and the buffer. -/
def buf_pop (buf : Circbuf) (len : Nat) : Nat × List Byte × Circbuf :=
  let len := if len > buf.size then buf.size else len
  let (dest, p) := popLoop buf len buf.top
  (len, dest, { buf with top := p, size := buf.size - len })

/-- One turn of the loop of `buf_push`. -/
def pushByte (buf : Circbuf) (p : Nat) (c : Byte) : Circbuf :=
  let buf := { buf with data := Function.update buf.data p c }
  if buf.size < buf.totalsize then { buf with size := buf.size + 1 }
  else { buf with top := buf.advance buf.top }

/-- The loop of `buf_push`: the buffer, and the pointer behind the bytes. -/
def pushLoop : Circbuf → Nat → List Byte → Circbuf × Nat
  | buf, p, [] => (buf, p)
  | buf, p, c :: src => pushLoop (pushByte buf p c) (buf.advance p) src

/-- `buf_push`: the return value and the buffer. -/
def buf_push (buf : Circbuf) (src : List Byte) : Nat × Circbuf :=
  let (buf, p) := pushLoop buf buf.tail src
  (src.length, { buf with tail := p })

/-! ## Runs -/

/-- What is called. -/
inductive Call
  | push (src : List Byte)
  | pop (len : Nat)

/-- The buffer behind a call, with what is returned and put into `dest`. -/
def Circbuf.call (buf : Circbuf) : Call → (Nat × List Byte) × Circbuf
  | .push src =>
      let (returned, buf) := buf_push buf src
      ((returned, []), buf)
  | .pop len =>
      let (returned, dest, buf) := buf_pop buf len
      ((returned, dest), buf)

/-- The buffer behind some calls, with what each of them returned. -/
def Circbuf.calls : Circbuf → List Call → List (Nat × List Byte) × Circbuf
  | buf, [] => ([], buf)
  | buf, c :: rest =>
      let (returned, buf) := buf.call c
      let (all, buf) := buf.calls rest
      (returned :: all, buf)

/-- The same calls to a queue of at most `n` bytes: a push keeps the last ones, and a pop takes the
first ones. -/
def queueCalls (n : Nat) : List Byte → List Call → List (Nat × List Byte) × List Byte
  | q, [] => ([], q)
  | q, .push src :: rest =>
      let (all, q) := queueCalls n ((q ++ src).rtake n) rest
      ((src.length, []) :: all, q)
  | q, .pop len :: rest =>
      let (all, r) := queueCalls n (q.drop len) rest
      (((q.take len).length, q.take len) :: all, r)

/-! ## The invariant -/

/-- The bytes in the buffer, from the oldest one on. -/
def Circbuf.contents (buf : Circbuf) : List Byte := ring buf.data buf.totalsize buf.top buf.size

/-- The pointers are inside the buffer, and the bytes fit in it. -/
structure Circbuf.Inside (buf : Circbuf) (n : Nat) : Prop where
  totalsize : buf.totalsize = n
  size : buf.size ≤ n
  top : buf.top < n
  tail : buf.tail < n

/-- The tail is behind the bytes. When all cells are in use or none is, it is at the top. -/
structure Circbuf.Ok (buf : Circbuf) (n : Nat) : Prop extends buf.Inside n where
  behind : buf.tail = (buf.top + buf.size) % n

section Buffer

variable {buf : Circbuf} {n : Nat}

theorem Circbuf.Inside.advance (h : buf.Inside n) {p : Nat} (hp : p < n) :
    buf.advance p = (p + 1) % n := by
  rw [Circbuf.advance, h.totalsize]
  split
  · next hend => rw [hend, Nat.mod_self]
  · next hend => rw [Nat.mod_eq_of_lt (by omega)]

theorem Circbuf.Inside.pos (h : buf.Inside n) : 0 < n := Nat.zero_lt_of_lt h.top

/-! ## Popping -/

/-- The loop takes a piece of the ring. -/
theorem popLoop_eq (h : buf.Inside n) {p : Nat} (hp : p < n) (len : Nat) :
    popLoop buf len p = (ring buf.data n p len, (p + len) % n) := by
  induction len generalizing p with
  | zero => rw [popLoop, Nat.add_zero, Nat.mod_eq_of_lt hp]; rfl
  | succ len ih =>
      have hfirst : ring buf.data n p (len + 1) = buf.data p :: ring buf.data n (p + 1) len := by
        rw [Nat.add_comm len 1, ring, slice_append]
        exact congrArg (fun i => buf.data i :: ring buf.data n (p + 1) len) (Nat.mod_eq_of_lt hp)
      rw [popLoop, h.advance hp, ih (Nat.mod_lt _ h.pos), ring_mod, Nat.mod_add_mod, hfirst,
        Nat.add_assoc, Nat.add_comm 1]

theorem buf_pop_eq (h : buf.Ok n) (len : Nat) :
    (buf_pop buf len).1 = (buf.contents.take len).length ∧
      (buf_pop buf len).2.1 = buf.contents.take len ∧
      (buf_pop buf len).2.2.Ok n ∧ (buf_pop buf len).2.2.contents = buf.contents.drop len := by
  have hcap : (if len > buf.size then buf.size else len) = min len buf.size := by
    split
    · next hgt => rw [Nat.min_eq_right hgt.le]
    · next hle => rw [Nat.min_eq_left (Nat.not_lt.mp hle)]
  have hlen : buf.contents.length = buf.size := length_ring _ _ _ _
  have htake : buf.contents.take len = buf.contents.take (min len buf.size) := by
    rw [← hlen, List.take_eq_take_min]
  have hdrop : buf.contents.drop len = buf.contents.drop (min len buf.size) := by
    rw [← hlen, List.drop_eq_drop_min]
  unfold buf_pop
  rw [hcap, htake, hdrop]
  have hle : min len buf.size ≤ buf.size := Nat.min_le_right _ _
  generalize min len buf.size = k at hle ⊢
  simp only [popLoop_eq h.toInside h.top]
  refine ⟨?_, ?_, ⟨⟨h.totalsize, (Nat.sub_le _ _).trans h.size,
    Nat.mod_lt _ h.pos, h.tail⟩, ?_⟩, ?_⟩
  · rw [List.length_take, hlen, Nat.min_eq_left hle]
  · rw [Circbuf.contents, ring_take hle, h.totalsize]
  · rw [h.behind, Nat.mod_add_mod, Nat.add_assoc, Nat.add_sub_cancel' hle]
  · rw [Circbuf.contents, Circbuf.contents, h.totalsize, ring_mod, ring_drop hle]

/-! ## Pushing -/

/-- The buffer with the pointer that the loop holds. -/
def Circbuf.withTail (buf : Circbuf) (p : Nat) : Circbuf := { buf with tail := p }

theorem pushByte_ok {p : Nat} (h : (buf.withTail p).Ok n) (c : Byte) :
    ((pushByte buf p c).withTail (buf.advance p)).Ok n ∧
      (pushByte buf p c).contents = (buf.contents ++ [c]).rtake n := by
  have hpos := h.pos
  have htotal : buf.totalsize = n := h.totalsize
  have hsize : buf.size ≤ n := h.size
  have hbehind : p = (buf.top + buf.size) % n := h.behind
  have hlen : buf.contents.length = buf.size := length_ring _ _ _ _
  have hadvance : buf.advance p = (buf.top + buf.size + 1) % n := by
    rw [show buf.advance p = (p + 1) % n from h.advance h.tail, hbehind, Nat.mod_add_mod]
  rw [rtake_append_singleton hpos (hlen.trans_le hsize), hlen, hadvance]
  by_cases hroom : buf.size < n
  · rw [if_pos hroom, pushByte, if_pos (hroom.trans_eq htotal.symm)]
    refine ⟨⟨⟨htotal, hroom, h.top, Nat.mod_lt _ hpos⟩, rfl⟩, ?_⟩
    simp only [Circbuf.contents, htotal, hbehind]
    exact ring_push hroom
  · have hfull : buf.size = n := Nat.le_antisymm hsize (Nat.not_lt.mp hroom)
    have htop : ({ buf with data := Function.update buf.data p c } : Circbuf).advance
        buf.top = (buf.top + 1) % n := h.advance h.top
    rw [if_neg hroom, pushByte, if_neg (hfull.trans htotal.symm).not_lt, htop]
    refine ⟨⟨⟨htotal, hsize, Nat.mod_lt _ hpos, Nat.mod_lt _ hpos⟩, ?_⟩, ?_⟩
    · simp only [Circbuf.withTail, hfull, Nat.mod_add_mod, Nat.add_right_comm]
    · simp only [Circbuf.contents, htotal, hbehind, hfull, ring_mod]
      exact ring_overwrite hpos

/-- The loop puts the bytes behind the others, one by one. -/
theorem pushLoop_ok {p : Nat} (h : (buf.withTail p).Ok n) (src : List Byte) :
    ((pushLoop buf p src).1.withTail (pushLoop buf p src).2).Ok n ∧
      (pushLoop buf p src).1.contents = (buf.contents ++ src).rtake n := by
  induction src generalizing buf p with
  | nil =>
      have hlen : buf.contents.length ≤ n := (length_ring _ _ _ _).trans_le h.size
      rw [List.append_nil, rtake_of_length_le hlen]
      exact ⟨h, rfl⟩
  | cons c src ih =>
      obtain ⟨hok, hcontents⟩ := pushByte_ok h c
      obtain ⟨hok', hcontents'⟩ := ih hok
      rw [hcontents, rtake_append_rtake, List.append_assoc, List.singleton_append] at hcontents'
      exact ⟨hok', hcontents'⟩

theorem buf_push_eq (h : buf.Ok n) (src : List Byte) :
    (buf_push buf src).2.Ok n ∧
      (buf_push buf src).2.contents = (buf.contents ++ src).rtake n :=
  pushLoop_ok (p := buf.tail) h src

/-! ## Calls -/

theorem buf_init_ok (h : 0 < n) (data : Nat → Byte) : (buf_init data n).Ok n :=
  ⟨⟨rfl, Nat.zero_le n, h, h⟩, (Nat.zero_mod n).symm⟩

/-- What the calls return is what those to the queue return. -/
theorem calls_eq (h : buf.Ok n) (calls : List Call) :
    (buf.calls calls).1 = (queueCalls n buf.contents calls).1 ∧
      (buf.calls calls).2.Ok n ∧
      (buf.calls calls).2.contents = (queueCalls n buf.contents calls).2 := by
  induction calls generalizing buf with
  | nil => exact ⟨rfl, h, rfl⟩
  | cons call rest ih =>
      cases call with
      | push src =>
          obtain ⟨hok, hcontents⟩ := buf_push_eq h src
          obtain ⟨hreturned, hrest⟩ := ih hok
          rw [hcontents] at hreturned hrest
          exact ⟨congrArg (List.cons (src.length, [])) hreturned, hrest⟩
      | pop len =>
          obtain ⟨hret, hdest, hok, hcontents⟩ := buf_pop_eq h len
          obtain ⟨hreturned, hrest⟩ := ih hok
          rw [hcontents] at hreturned hrest
          refine ⟨?_, hrest⟩
          have hfirst : (buf.call (.pop len)).1 = ((buf.contents.take len).length,
              buf.contents.take len) := Prod.ext hret hdest
          exact congrArg₂ List.cons hfirst hreturned

end Buffer

/-- In every run the pointers stay inside the buffer, and each call returns what the call to a queue
of at most `totalsize` bytes does. -/
theorem circbuf_refines (data : Nat → Byte) (totalsize : Nat) (hpos : 0 < totalsize)
    (calls : List Call) :
    ((buf_init data totalsize).calls calls).2.Inside totalsize ∧
      ((buf_init data totalsize).calls calls).1 = (queueCalls totalsize [] calls).1 ∧
      ((buf_init data totalsize).calls calls).2.contents = (queueCalls totalsize [] calls).2 := by
  obtain ⟨hreturned, hok, hcontents⟩ := calls_eq (buf_init_ok hpos data) calls
  exact ⟨hok.toInside, hreturned, hcontents⟩

/-- Five bytes are pushed into a buffer of three. -/
theorem circbuf_refines_three :
    0 < 3 ∧ ((buf_init (fun _ => 0#8) 3).calls [.push [1, 2, 3, 4, 5], .pop 2, .pop 2]).1 =
      [(5, []), (2, [3, 4]), (1, [5])] := by
  obtain ⟨-, hreturned, -⟩ := circbuf_refines (fun _ => 0#8) 3 (by decide)
    [.push [1, 2, 3, 4, 5], .pop 2, .pop 2]
  exact ⟨by decide, hreturned.trans (by decide)⟩

end UBoot.Circ
