/-
# A terminal over USB

`drivers/serial/usbtty.c`: output goes through a circular buffer into urbs, and what is received
through an urb into another one. The controller is a parameter: whenever it is asked it may complete
urbs, refuse to transmit, and deliver packets. Calls that wait do so for some rounds, after which a
run ends in the middle of a call. The terminal notes what has gone through it, and what was in a
buffer whenever bytes were added that nobody had made room for.
-/

import UBoot.LibGeneric.Circbuf
import UBoot.LibGeneric.Strtoul

namespace UBoot.Usbtty

open UBoot.Lib UBoot.Circ

def USBTTY_BUFFER_SIZE : Nat := 256
/-- The size of `buffer_data` of an urb. -/
def URB_BUFFER_SIZE : Nat := 256

/-! ## The endpoints -/

/-- An urb to transmit: the bytes up to `actual_length`. -/
structure Urb where
  buffer : List Byte
  buffer_length : Nat
  fits : buffer.length ≤ buffer_length

/-- The room behind `actual_length`. -/
def Urb.space (urb : Urb) : Nat := urb.buffer_length - urb.buffer.length

/-- Bytes are copied behind `actual_length`. -/
def Urb.append (urb : Urb) (dest : List Byte) : Urb where
  buffer := (urb.buffer ++ dest).take urb.buffer_length
  buffer_length := urb.buffer_length
  fits := List.length_take_le _ _

/-- The side of an endpoint that transmits. An urb is the number by which it was allocated. -/
structure Endpoint where
  urbs : Nat → Urb
  allocated : Nat
  tx_urb : Nat
  tx : List Nat
  done : List Nat
  tx_queue : Nat
  sent : Nat
  last : Nat

/-- `usbd_alloc_urb` -/
def usbd_alloc_urb (endpoint : Endpoint) : Nat × Endpoint :=
  (endpoint.allocated, { endpoint with
    urbs := Function.update endpoint.urbs endpoint.allocated ⟨[], URB_BUFFER_SIZE, Nat.zero_le _⟩
    allocated := endpoint.allocated + 1 })

/-- `first_urb_detached (&endpoint->done)`, or else a new urb. -/
def freeUrb (endpoint : Endpoint) : Nat × Endpoint :=
  match endpoint.done with
  | urb :: done => (urb, { endpoint with done := done })
  | [] => usbd_alloc_urb endpoint

/-- `next_urb` -/
def next_urb (endpoint : Endpoint) : Nat × Endpoint :=
  let current_urb :=
    if endpoint.tx_queue = 0 then endpoint.tx_urb else endpoint.tx.getLastD endpoint.tx_urb
  if (endpoint.urbs current_urb).space > 0 then (current_urb, endpoint)
  else
    let (current_urb, endpoint) := freeUrb endpoint
    (current_urb, { endpoint with
      tx := endpoint.tx ++ [current_urb], tx_queue := endpoint.tx_queue + 1 })

/-- The controller, with its state: what is received when it is asked for interrupts, and whether a
write is pre-empted. It may do anything with the endpoint. -/
structure Udc (σ : Type) where
  udc_irq : σ → Endpoint → List (List Byte) × Endpoint × σ
  udc_endpoint_write : σ → Endpoint → Bool × Endpoint × σ
  udc_set_nak : σ → σ
  udc_unset_nak : σ → σ

/-! ## The terminal -/

/-- Bytes that are added to others. -/
structure Arrival where
  held : Nat
  added : Nat

/-- The terminal with the urb that is received. -/
structure Term (σ : Type) where
  usbtty_configured_flag : Bool
  usbtty_input : Circbuf
  usbtty_output : Circbuf
  /-- `rcv_urb->buffer`, as much as is inside of it -/
  rcv_buffer : List Byte
  /-- `rcv_urb->actual_length` -/
  rcv_length : Nat
  endpoint : Endpoint
  udc : σ
  /-- what was put out, and what of it was copied to urbs -/
  written : List Byte
  handed : List Byte
  /-- what was received, and what of it `usbtty_getc` returned -/
  received : List Byte
  returned : List Byte
  /-- what `usbtty_putc` adds to the output, and packets add to the urb -/
  putcs : List Arrival
  packets : List Arrival

variable {σ : Type} (u : Udc σ)

/-- A packet is stored behind `actual_length`, and `usbd_rcv_complete` counts it. -/
def Term.receive (s : Term σ) (packet : List Byte) : Term σ :=
  { s with
    rcv_buffer := (s.rcv_buffer ++ packet).take URB_BUFFER_SIZE
    rcv_length := s.rcv_length + packet.length
    received := s.received ++ packet
    packets := s.packets ++ [⟨s.rcv_length, packet.length⟩] }

/-- `udc_irq` -/
def Term.irq (s : Term σ) : Term σ :=
  let (packets, endpoint, udc) := u.udc_irq s.udc s.endpoint
  packets.foldl Term.receive { s with endpoint := endpoint, udc := udc }

/-- `udc_endpoint_write`: whether the write is pre-empted. -/
def Term.endpointWrite (s : Term σ) : Bool × Term σ :=
  let (preempted, endpoint, udc) := u.udc_endpoint_write s.udc s.endpoint
  (preempted, { s with endpoint := endpoint, udc := udc })

/-- `buf_pop` of the output to an urb. -/
def Term.popTo (s : Term σ) (current_urb popnum : Nat) : Term σ :=
  let (_, dest, output) := buf_pop s.usbtty_output popnum
  { s with
    usbtty_output := output
    handed := s.handed ++ dest
    endpoint := { s.endpoint with
      urbs := Function.update s.endpoint.urbs current_urb
        ((s.endpoint.urbs current_urb).append dest) } }

/-- The loop of `write_buffer`; every round takes a byte at least. -/
def writeLoop (current_urb : Nat) : Nat → Int → Term σ → Int × Term σ
  | 0, total, s => (total, s)
  | fuel + 1, total, s =>
      if s.usbtty_output.size = 0 then (total, s)
      else
        let space_avail := (s.endpoint.urbs current_urb).space
        let popnum := min space_avail s.usbtty_output.size
        if popnum = 0 then (total, s)
        else
          let s := s.popTo current_urb popnum
          if s.endpoint.last = 0 then
            let (preempted, s) := s.endpointWrite u
            if preempted then (-1, s) else writeLoop current_urb fuel (total + popnum) s
          else writeLoop current_urb fuel (total + popnum) s

/-- `write_buffer` -/
def write_buffer (s : Term σ) : Int × Term σ :=
  if !s.usbtty_configured_flag then (0, s)
  else
    let (current_urb, endpoint) := next_urb s.endpoint
    let s := { s with endpoint := endpoint }
    if s.endpoint.sent < (s.endpoint.urbs current_urb).buffer.length then
      let (preempted, s) := s.endpointWrite u
      if preempted then (-1, s) else writeLoop u current_urb s.usbtty_output.size 0 s
    else writeLoop u current_urb s.usbtty_output.size 0 s

/-- `fill_buffer` -/
def fill_buffer (s : Term σ) : Nat × Term σ :=
  if s.rcv_length = 0 then (0, s)
  else
    let rx_avail := s.usbtty_input.totalsize - s.usbtty_input.size
    if rx_avail ≥ s.rcv_length then
      (s.rcv_length, { s with
        usbtty_input := (buf_push s.usbtty_input s.rcv_buffer).2
        rcv_buffer := []
        rcv_length := 0 })
    else (0, s)

/-- `usbtty_poll` -/
def usbtty_poll (s : Term σ) : Term σ :=
  let s := s.irq u
  let s := if s.usbtty_configured_flag then (write_buffer u s).2 else s
  let s := s.irq u
  let s := if s.usbtty_configured_flag then (fill_buffer s).2 else s
  s.irq u

/-! ## Calls -/

/-- `'\n'` and `'\r'` -/
def newline : Byte := 0x0A#8
def carriageReturn : Byte := 0x0D#8

/-- What is put out for a character. -/
def expand (c : Byte) : List Byte := if c = newline then [c, carriageReturn] else [c]

/-- `buf_push` to the output. -/
def Term.push (s : Term σ) (src : List Byte) : Term σ :=
  { s with usbtty_output := (buf_push s.usbtty_output src).2, written := s.written ++ src }

/-- `usbtty_putc` -/
def usbtty_putc (c : Byte) (s : Term σ) : Term σ :=
  if !s.usbtty_configured_flag then s
  else
    let arrival : Arrival := ⟨s.usbtty_output.size, (expand c).length⟩
    let s := { s with putcs := s.putcs ++ [arrival] }
    let s := s.push [c]
    let s := if c = newline then s.push [carriageReturn] else s
    if s.usbtty_output.size + 2 ≥ s.usbtty_output.totalsize then usbtty_poll u s else s

/-- `__usbtty_puts`, with so many rounds at most, and whether it comes to its end. -/
def putsLoop : Nat → List Byte → Term σ → Term σ × Bool
  | _, [], s => (s, true)
  | 0, _ :: _, s => (s, false)
  | fuel + 1, c :: str, s =>
      let maxlen := s.usbtty_output.totalsize
      let s := usbtty_poll u s
      let space := maxlen - s.usbtty_output.size
      if space ≠ 0 then
        let s := (write_buffer u s).2
        let n := min space (min (c :: str).length maxlen)
        putsLoop fuel ((c :: str).drop n) (s.push ((c :: str).take n))
      else putsLoop fuel (c :: str) s

/-- `next_nl_pos` -/
def next_nl_pos (s : List Byte) : Nat := (s.takeWhile (· ≠ newline)).length

/-- What follows a call that comes to its end. -/
def Term.andThen (r : Term σ × Bool) (next : Term σ → Term σ × Bool) : Term σ × Bool :=
  if r.2 then next r.1 else r

/-- The loop of `usbtty_puts`. -/
def putsLines (fuel : Nat) (str : List Byte) (s : Term σ) : Term σ × Bool :=
  if hstr : str = [] then (s, true)
  else
    let n := next_nl_pos str
    if n < str.length then
      Term.andThen (putsLoop u fuel (str.take (n + 1)) s) fun s =>
        Term.andThen (putsLoop u fuel [carriageReturn] s) fun s =>
          putsLines fuel (str.drop (n + 1)) s
    else putsLoop u fuel (str.take n) s
termination_by str.length
decreasing_by
  have := List.length_pos_of_ne_nil hstr
  rw [List.length_drop]
  omega

/-- `usbtty_puts` -/
def usbtty_puts (fuel : Nat) (str : CString) (s : Term σ) : Term σ × Bool :=
  if !s.usbtty_configured_flag then (s, true)
  else Term.andThen (putsLines u fuel str.1 s) fun s => (usbtty_poll u s, true)

/-- `udc_unset_nak` and `udc_set_nak` of the endpoint that receives. -/
def Term.unsetNak (s : Term σ) : Term σ := { s with udc := u.udc_unset_nak s.udc }
def Term.setNak (s : Term σ) : Term σ := { s with udc := u.udc_set_nak s.udc }

/-- The loop of `usbtty_getc`. -/
def getcLoop : Nat → Term σ → Term σ × Bool
  | 0, s => (s, 0 < s.usbtty_input.size)
  | fuel + 1, s =>
      if 0 < s.usbtty_input.size then (s, true) else getcLoop fuel (usbtty_poll u (s.unsetNak u))

/-- `buf_pop (&usbtty_input, &c, 1)` -/
def Term.popInput (s : Term σ) : Term σ :=
  let (_, dest, input) := buf_pop s.usbtty_input 1
  { s with usbtty_input := input, returned := s.returned ++ dest }

/-- `usbtty_getc` -/
def usbtty_getc (fuel : Nat) (s : Term σ) : Term σ × Bool :=
  Term.andThen (getcLoop u fuel s) fun s => (s.popInput.setNak u, true)

/-- `usbtty_tstc` -/
def usbtty_tstc (s : Term σ) : Bool × Term σ :=
  let s := if s.usbtty_input.size = 0 then s.unsetNak u else s
  let s := usbtty_poll u s
  (0 < s.usbtty_input.size, s)

inductive Call
  | putc (c : Byte)
  | puts (str : CString)
  | getc
  | tstc

/-- A call, with so many rounds to wait at most. -/
def Term.call (fuel : Nat) (s : Term σ) : Call → Term σ × Bool
  | .putc c => (usbtty_putc u c s, true)
  | .puts str => usbtty_puts u fuel str s
  | .getc => usbtty_getc u fuel s
  | .tstc => ((usbtty_tstc u s).2, true)

/-- Some calls in order, up to one that does not come to its end. -/
def run : List (Call × Nat) → Term σ → Term σ × Bool
  | [], s => (s, true)
  | (c, fuel) :: rest, s => Term.andThen (s.call u fuel c) (run rest)

/-- Before the first call: empty buffers, an empty urb, and any endpoint. -/
def start (input output : Nat → Byte) (endpoint : Endpoint) (udc : σ) : Term σ where
  usbtty_configured_flag := true
  usbtty_input := buf_init input USBTTY_BUFFER_SIZE
  usbtty_output := buf_init output USBTTY_BUFFER_SIZE
  rcv_buffer := []
  rcv_length := 0
  endpoint := endpoint
  udc := udc
  written := []
  handed := []
  received := []
  returned := []
  putcs := []
  packets := []

/-! ## What should hold -/

/-- The characters that a call puts out. -/
def Call.output : Call → List Byte
  | .putc c => expand c
  | .puts str => str.1.flatMap expand
  | .getc => []
  | .tstc => []

def output (calls : List (Call × Nat)) : List Byte := calls.flatMap fun c => c.1.output

/-- Nothing is lost: what was put out is in urbs or else in the output buffer, in this order, and
what was received was returned or else is in the input buffer or the urb. What was put out is what
the calls put out, so far. -/
structure Right (calls : List (Call × Nat)) (r : Term σ × Bool) : Prop where
  sent : r.1.handed ++ r.1.usbtty_output.contents = r.1.written
  got : r.1.returned ++ r.1.usbtty_input.contents ++ r.1.rcv_buffer = r.1.received
  written : r.1.written <+: output calls ∧ (r.2 = true → r.1.written = output calls)

/-- There is room for bytes that are added. -/
def Roomy (size : Nat) (arrivals : List Arrival) : Prop :=
  ∀ a ∈ arrivals, a.held + a.added ≤ size

/-! ## Accounts -/

/-- With room for all, what is kept is everything. Without, it is less. -/
def Accounts (room : Prop) (kept all : List Byte) : Prop :=
  (room → kept = all) ∧ (¬room → kept.length < all.length)

section Accounts

variable {room : Prop} {kept all : List Byte}

theorem Accounts.length_le (h : Accounts room kept all) : kept.length ≤ all.length := by
  by_cases hroom : room
  · rw [h.1 hroom]
  · exact (h.2 hroom).le

theorem Accounts.eq_iff (h : Accounts room kept all) : kept = all ↔ room := by
  refine ⟨fun heq => ?_, h.1⟩
  by_contra hroom
  exact absurd (congrArg List.length heq) (h.2 hroom).ne

/-- Bytes that are kept. -/
theorem Accounts.append (h : Accounts room kept all) (src : List Byte) :
    Accounts room (kept ++ src) (all ++ src) := by
  refine ⟨fun hroom => by rw [h.1 hroom], fun hroom => ?_⟩
  rw [List.length_append, List.length_append]
  exact Nat.add_lt_add_right (h.2 hroom) _

/-- Bytes of which some are lost. -/
theorem Accounts.lose (h : Accounts room kept all) {kept' src : List Byte} {room' : Prop}
    (hroom : ¬room') (hlost : kept'.length < kept.length + src.length) :
    Accounts room' kept' (all ++ src) := by
  refine ⟨fun hroom' => absurd hroom' hroom, fun _ => ?_⟩
  rw [List.length_append]
  exact hlost.trans_le (Nat.add_le_add_right h.length_le _)

end Accounts

theorem roomy_append {size : Nat} {arrivals : List Arrival} {a : Arrival} :
    Roomy size (arrivals ++ [a]) ↔ Roomy size arrivals ∧ a.held + a.added ≤ size := by
  simp only [Roomy, List.forall_mem_append, List.forall_mem_singleton]

/-! ## The invariant -/

/-- The buffers are in order, and so are the accounts of what was sent and what was received. -/
structure Inv (w : List Byte) (s : Term σ) : Prop where
  configured : s.usbtty_configured_flag = true
  output : s.usbtty_output.Ok USBTTY_BUFFER_SIZE
  input : s.usbtty_input.Ok USBTTY_BUFFER_SIZE
  rcv : s.rcv_buffer.length = min s.rcv_length URB_BUFFER_SIZE
  rcv_le : Roomy URB_BUFFER_SIZE s.packets → s.rcv_length ≤ URB_BUFFER_SIZE
  written : s.written = w
  sent : Accounts (Roomy USBTTY_BUFFER_SIZE s.putcs) (s.handed ++ s.usbtty_output.contents)
    s.written
  got : Accounts (Roomy URB_BUFFER_SIZE s.packets)
    (s.returned ++ s.usbtty_input.contents ++ s.rcv_buffer) s.received

section Invariant

variable {u} {w : List Byte} {s : Term σ}

theorem length_contents (buf : Circbuf) : buf.contents.length = buf.size := length_ring _ _ _ _

/-- The controller and the endpoint are in no account. -/
theorem Inv.device (h : Inv w s) (endpoint : Endpoint) (udc : σ) :
    Inv w { s with endpoint := endpoint, udc := udc } :=
  ⟨h.configured, h.output, h.input, h.rcv, h.rcv_le, h.written, h.sent, h.got⟩

theorem Inv.endpointWrite (h : Inv w s) : Inv w (s.endpointWrite u).2 := h.device _ _

theorem Inv.receive (h : Inv w s) (packet : List Byte) : Inv w (s.receive packet) where
  configured := h.configured
  output := h.output
  input := h.input
  rcv := by
    simp only [Term.receive, List.length_take, List.length_append, h.rcv]
    omega
  rcv_le hroomy := (roomy_append.mp hroomy).2
  written := h.written
  sent := h.sent
  got := by
    simp only [Term.receive]
    have hrcv := h.rcv
    by_cases hroom : s.rcv_length + packet.length ≤ URB_BUFFER_SIZE
    · have hfits : (s.rcv_buffer ++ packet).length ≤ URB_BUFFER_SIZE := by
        rw [List.length_append, hrcv]
        omega
      rw [List.take_of_length_le hfits, ← List.append_assoc]
      have happend := h.got.append packet
      refine ⟨fun hroomy => happend.1 (roomy_append.mp hroomy).1, fun hroomy => happend.2 ?_⟩
      exact fun hold => hroomy (roomy_append.mpr ⟨hold, hroom⟩)
    · have hnot : ¬Roomy URB_BUFFER_SIZE (s.packets ++ [⟨s.rcv_length, packet.length⟩]) :=
        fun hroomy => hroom (roomy_append.mp hroomy).2
      by_cases hlong : s.rcv_length ≤ URB_BUFFER_SIZE
      · refine h.got.lose hnot ?_
        rw [Nat.min_eq_left hlong] at hrcv
        simp only [List.length_append, List.length_take]
        omega
      · -- the urb was too short before, so that something has been lost already
        have hold := h.got.2 fun hroomy => hlong (h.rcv_le hroomy)
        refine ⟨fun hroomy => absurd hroomy hnot, fun _ => ?_⟩
        simp only [List.length_append, List.length_take] at hold ⊢
        omega

theorem Inv.receiveAll (packets : List (List Byte)) (h : Inv w s) :
    Inv w (packets.foldl Term.receive s) := by
  induction packets generalizing s with
  | nil => exact h
  | cons packet packets ih => exact ih (h.receive packet)

theorem Inv.irq (h : Inv w s) : Inv w (s.irq u) := (h.device _ _).receiveAll _

/-- Bytes go from the output to an urb. -/
theorem Inv.popTo (h : Inv w s) (current_urb popnum : Nat) :
    Inv w (s.popTo current_urb popnum) ∧
      (s.popTo current_urb popnum).usbtty_output.size ≤ s.usbtty_output.size := by
  obtain ⟨-, hdest, hok, hcontents⟩ := buf_pop_eq h.output popnum
  constructor
  · refine ⟨h.configured, hok, h.input, h.rcv, h.rcv_le, h.written, ?_, h.got⟩
    simp only [Term.popTo, hdest, hcontents, List.append_assoc, List.take_append_drop]
    exact h.sent
  · rw [← length_contents, ← length_contents]
    simp only [Term.popTo, hcontents, List.length_drop]
    exact Nat.sub_le _ _

theorem Inv.writeLoop (current_urb fuel : Nat) (h : Inv w s) (total : Int) :
    Inv w (writeLoop u current_urb fuel total s).2 ∧
      (Usbtty.writeLoop u current_urb fuel total s).2.usbtty_output.size ≤
        s.usbtty_output.size := by
  induction fuel generalizing s total with
  | zero => exact ⟨h, le_rfl⟩
  | succ fuel ih =>
      rw [Usbtty.writeLoop]
      split
      · exact ⟨h, le_rfl⟩
      dsimp only
      split
      · exact ⟨h, le_rfl⟩
      obtain ⟨hpop, hle⟩ := h.popTo current_urb
        (min (s.endpoint.urbs current_urb).space s.usbtty_output.size)
      split
      · split
        · exact ⟨hpop.endpointWrite, hle⟩
        · obtain ⟨hrest, hrest_le⟩ := ih hpop.endpointWrite _
          exact ⟨hrest, hrest_le.trans hle⟩
      · obtain ⟨hrest, hrest_le⟩ := ih hpop _
        exact ⟨hrest, hrest_le.trans hle⟩

theorem Inv.write_buffer (h : Inv w s) : Inv w (write_buffer u s).2 ∧
    (Usbtty.write_buffer u s).2.usbtty_output.size ≤ s.usbtty_output.size := by
  have hnext : Inv w { s with endpoint := (next_urb s.endpoint).2 } := h.device _ s.udc
  rw [Usbtty.write_buffer, if_neg (by rw [h.configured]; decide)]
  dsimp only
  split
  · split
    · exact ⟨hnext.endpointWrite, le_rfl⟩
    · exact hnext.endpointWrite.writeLoop _ _ _
  · exact hnext.writeLoop _ _ _

/-- What was received goes to the input if it has room for all of it. -/
theorem Inv.fill_buffer (h : Inv w s) : Inv w (fill_buffer s).2 := by
  rw [Usbtty.fill_buffer]
  split
  · exact h
  dsimp only
  split
  · next hroom =>
      rw [h.input.totalsize] at hroom
      obtain ⟨hok, hcontents⟩ := buf_push_eq h.input s.rcv_buffer
      have hrcv := h.rcv
      have hfits : (s.usbtty_input.contents ++ s.rcv_buffer).length ≤ USBTTY_BUFFER_SIZE := by
        rw [List.length_append, length_contents, hrcv]
        have := h.input.size
        omega
      rw [rtake_of_length_le hfits] at hcontents
      refine ⟨h.configured, h.output, hok, rfl, fun _ => Nat.zero_le _, h.written, h.sent, ?_⟩
      simp only [hcontents, List.append_nil]
      rw [← List.append_assoc]
      exact h.got
  · exact h

theorem Inv.poll (h : Inv w s) : Inv w (usbtty_poll u s) := by
  have hwrite := h.irq (u := u).write_buffer (u := u) |>.1
  have hfill := hwrite.irq (u := u).fill_buffer
  rw [usbtty_poll]
  rw [if_pos h.irq.configured, if_pos hwrite.irq.configured]
  exact hfill.irq

/-! ## Calls keep it -/

/-- Bytes for which the output has room. -/
theorem Inv.push (h : Inv w s) {src : List Byte}
    (hroom : s.usbtty_output.size + src.length ≤ USBTTY_BUFFER_SIZE) :
    Inv (w ++ src) (s.push src) := by
  obtain ⟨hok, hcontents⟩ := buf_push_eq h.output src
  rw [rtake_of_length_le (by rwa [List.length_append, length_contents])] at hcontents
  refine ⟨h.configured, hok, h.input, h.rcv, h.rcv_le, congrArg (· ++ src) h.written, ?_, h.got⟩
  simp only [Term.push, hcontents]
  rw [← List.append_assoc]
  exact h.sent.append src

/-- Bytes that are pushed whether there is room for them or not. -/
theorem Inv.arrive (h : Inv w s) (src : List Byte) {output : Circbuf}
    (hok : output.Ok USBTTY_BUFFER_SIZE)
    (hcontents : output.contents = (s.usbtty_output.contents ++ src).rtake USBTTY_BUFFER_SIZE) :
    Inv (w ++ src) { s with
      usbtty_output := output
      written := s.written ++ src
      putcs := s.putcs ++ [⟨s.usbtty_output.size, src.length⟩] } := by
  refine ⟨h.configured, hok, h.input, h.rcv, h.rcv_le, congrArg (· ++ src) h.written, ?_, h.got⟩
  dsimp only
  have hlen : (s.usbtty_output.contents ++ src).length = s.usbtty_output.size + src.length := by
    rw [List.length_append, length_contents]
  by_cases hroom : s.usbtty_output.size + src.length ≤ USBTTY_BUFFER_SIZE
  · rw [hcontents, rtake_of_length_le (by rwa [hlen]), ← List.append_assoc]
    have happend := h.sent.append src
    refine ⟨fun hroomy => happend.1 (roomy_append.mp hroomy).1, fun hroomy => happend.2 ?_⟩
    exact fun hold => hroomy (roomy_append.mpr ⟨hold, hroom⟩)
  · refine h.sent.lose (fun hroomy => hroom (roomy_append.mp hroomy).2) ?_
    have hkept := length_contents output
    have hle := hok.size
    simp only [List.length_append, length_contents]
    omega

/-- Both bytes that may be pushed are pushed behind the others. -/
theorem Inv.putc (h : Inv w s) (c : Byte) : Inv (w ++ expand c) (usbtty_putc u c s) := by
  obtain ⟨hok, hcontents⟩ := buf_push_eq h.output [c]
  rw [usbtty_putc, if_neg (by rw [h.configured]; decide)]
  dsimp only
  by_cases hc : c = newline
  · obtain ⟨hok', hcontents'⟩ := buf_push_eq hok [carriageReturn]
    rw [hcontents, rtake_append_rtake, List.append_assoc] at hcontents'
    have harrive := h.arrive ([c] ++ [carriageReturn]) hok' hcontents'
    rw [← List.append_assoc s.written] at harrive
    have hexpand : expand c = [c] ++ [carriageReturn] := if_pos hc
    rw [hexpand, if_pos hc]
    split
    · exact harrive.poll
    · exact harrive
  · have harrive := h.arrive [c] hok hcontents
    have hexpand : expand c = [c] := if_neg hc
    rw [hexpand, if_neg hc]
    split
    · exact harrive.poll
    · exact harrive

/-- Of these bytes some have been put out, and all if the call has come to its end. -/
structure Puts (w all : List Byte) (r : Term σ × Bool) : Prop where
  inv : ∃ p rest, all = p ++ rest ∧ Inv (w ++ p) r.1 ∧ (r.2 = true → rest = [])

theorem Inv.puts (h : Inv w s) (finished : Bool) : Puts w [] (s, finished) :=
  ⟨[], [], rfl, by rwa [List.append_nil], fun _ => rfl⟩

theorem Puts.andThen {first second : List Byte} {r : Term σ × Bool}
    (next : Term σ → Term σ × Bool) (h : Puts w first r)
    (hnext : ∀ s, Inv (w ++ first) s → Puts (w ++ first) second (next s)) :
    Puts w (first ++ second) (Term.andThen r next) := by
  obtain ⟨p, rest, hfirst, hinv, hend⟩ := h.inv
  rw [Term.andThen]
  split
  · next hfinished =>
      rw [hend hfinished, List.append_nil] at hfirst
      subst hfirst
      obtain ⟨q, rest', hsecond, hinv', hend'⟩ := (hnext r.1 hinv).inv
      refine ⟨first ++ q, rest', ?_, ?_, hend'⟩
      · rw [hsecond, List.append_assoc]
      · rwa [← List.append_assoc]
  · next hfinished =>
      refine ⟨p, rest ++ second, ?_, hinv, fun h => absurd h hfinished⟩
      rw [hfirst, List.append_assoc]

/-- A string is pushed in pieces for which there is room. -/
theorem Inv.putsLoop (fuel : Nat) (str : List Byte) (h : Inv w s) :
    Puts w str (putsLoop u fuel str s) := by
  induction fuel generalizing str w s with
  | zero =>
      cases str with
      | nil => exact h.puts true
      | cons c str =>
          refine ⟨[], c :: str, rfl, by rwa [List.append_nil], fun hend => ?_⟩
          cases hend
  | succ fuel ih =>
      cases str with
      | nil => exact h.puts true
      | cons c str =>
          rw [Usbtty.putsLoop]
          dsimp only
          have hpoll := h.poll (u := u)
          rw [h.output.totalsize]
          split
          · obtain ⟨hwrite, hle⟩ := hpoll.write_buffer (u := u)
            -- the space was counted before some bytes went to urbs
            have hroom : (Usbtty.write_buffer u (usbtty_poll u s)).2.usbtty_output.size +
                ((c :: str).take (min (USBTTY_BUFFER_SIZE - (usbtty_poll u s).usbtty_output.size)
                  (min (c :: str).length USBTTY_BUFFER_SIZE))).length ≤ USBTTY_BUFFER_SIZE := by
              have := hpoll.output.size
              rw [List.length_take]
              omega
            obtain ⟨p, rest, hp, hinv, hend⟩ := (ih _ (hwrite.push hroom)).inv
            refine ⟨_ ++ p, rest, ?_, by rwa [← List.append_assoc], hend⟩
            rw [List.append_assoc, ← hp, List.take_append_drop]
          · exact ih _ hpoll

/-- A line without a newline is put out as it is. -/
theorem flatMap_expand {line : List Byte} (h : newline ∉ line) : line.flatMap expand = line := by
  induction line with
  | nil => rfl
  | cons c line ih =>
      rw [List.mem_cons, not_or] at h
      rw [List.flatMap_cons, ih h.2, expand, if_neg (Ne.symm h.1)]
      rfl

/-- There is no newline, or the first one is found. -/
theorem next_nl_pos_cases (str : List Byte) :
    (newline ∉ str ∧ next_nl_pos str = str.length) ∨
      ∃ line rest, str = line ++ newline :: rest ∧ newline ∉ line ∧
        next_nl_pos str = line.length := by
  induction str with
  | nil => exact .inl ⟨List.not_mem_nil, rfl⟩
  | cons c str ih =>
      by_cases hc : c = newline
      · exact .inr ⟨[], str, by rw [hc]; rfl, List.not_mem_nil, by simp [next_nl_pos, hc]⟩
      · have hpos : next_nl_pos (c :: str) = next_nl_pos str + 1 := by simp [next_nl_pos, hc]
        rw [hpos]
        rcases ih with ⟨hnone, hlen⟩ | ⟨line, rest, hstr, hline, hlen⟩
        · exact .inl ⟨List.not_mem_cons_of_ne_of_not_mem (Ne.symm hc) hnone, by rw [hlen]; rfl⟩
        · refine .inr ⟨c :: line, rest, by rw [hstr]; rfl, ?_, by rw [hlen]; rfl⟩
          exact List.not_mem_cons_of_ne_of_not_mem (Ne.symm hc) hline

/-- A string is put out line by line. -/
theorem Inv.putsLines (fuel : Nat) (str : List Byte) (h : Inv w s) :
    Puts w (str.flatMap expand) (putsLines u fuel str s) := by
  induction hn : str.length using Nat.strong_induction_on generalizing str w s with
  | _ n ih =>
      rw [Usbtty.putsLines]
      split
      · next hnil =>
          rw [hnil]
          exact h.puts true
      dsimp only
      rcases next_nl_pos_cases str with ⟨hnone, hlen⟩ | ⟨line, rest, rfl, hline, hlen⟩
      · rw [if_neg (by omega), hlen, List.take_length, flatMap_expand hnone]
        exact h.putsLoop fuel str
      · have hlong : (line ++ newline :: rest).length = line.length + 1 + rest.length := by
          rw [List.length_append, List.length_cons]
          omega
        have hfirst : (line ++ newline :: rest).take (line.length + 1) = line ++ [newline] := by
          rw [List.take_length_add_append]
          rfl
        have hrest : (line ++ newline :: rest).drop (line.length + 1) = rest := by
          rw [List.drop_length_add_append]
          rfl
        have hexpand : (line ++ newline :: rest).flatMap expand =
            (line ++ [newline]) ++ ([carriageReturn] ++ rest.flatMap expand) := by
          rw [List.flatMap_append, List.flatMap_cons, flatMap_expand hline, expand, if_pos rfl]
          simp
        rw [hlen, if_pos (by omega), hfirst, hrest, hexpand]
        refine (h.putsLoop fuel _).andThen _ fun s₁ h₁ => ?_
        refine (h₁.putsLoop fuel _).andThen _ fun s₂ h₂ => ?_
        exact ih rest.length (by omega) rest h₂ rfl

/-! ## Runs -/

theorem Inv.popInput (h : Inv w s) : Inv w s.popInput := by
  obtain ⟨-, hdest, hok, hcontents⟩ := buf_pop_eq h.input 1
  refine ⟨h.configured, h.output, hok, h.rcv, h.rcv_le, h.written, h.sent, ?_⟩
  simp only [Term.popInput, hdest, hcontents]
  rw [List.append_assoc s.returned, List.take_append_drop]
  exact h.got

theorem Inv.getcLoop (fuel : Nat) (h : Inv w s) : Inv w (getcLoop u fuel s).1 := by
  induction fuel generalizing s with
  | zero => exact h
  | succ fuel ih =>
      rw [Usbtty.getcLoop]
      split
      · exact h
      · exact ih (h.device s.endpoint _).poll

/-- What a call puts out. -/
theorem Inv.call (fuel : Nat) (c : Call) (h : Inv w s) : Puts w c.output (s.call u fuel c) := by
  cases c with
  | putc c => exact ⟨expand c, [], (List.append_nil _).symm, h.putc c, fun _ => rfl⟩
  | puts str =>
      have hlines := (h.putsLines (u := u) fuel str.1).andThen
        (fun s => (usbtty_poll u s, true)) fun s hs => hs.poll.puts true
      rw [List.append_nil] at hlines
      rw [Term.call, usbtty_puts, if_neg (by rw [h.configured]; decide)]
      exact hlines
  | getc =>
      refine ⟨[], [], rfl, ?_, fun _ => rfl⟩
      rw [List.append_nil, Term.call, usbtty_getc, Term.andThen]
      have hloop := h.getcLoop (u := u) fuel
      split
      · exact hloop.popInput.device _ _
      · exact hloop
  | tstc =>
      refine ⟨[], [], rfl, ?_, fun _ => rfl⟩
      rw [List.append_nil, Term.call, usbtty_tstc]
      dsimp only
      split
      · exact (h.device s.endpoint _).poll
      · exact h.poll

theorem Inv.run (calls : List (Call × Nat)) (h : Inv w s) :
    Puts w (Usbtty.output calls) (run u calls s) := by
  induction calls generalizing w s with
  | nil => exact h.puts true
  | cons call rest ih => exact (h.call call.2 call.1).andThen _ fun s hs => ih hs

end Invariant

theorem start_inv (input output : Nat → Byte) (endpoint : Endpoint) (udc : σ) :
    Inv [] (start input output endpoint udc) where
  configured := rfl
  output := buf_init_ok (by decide) output
  input := buf_init_ok (by decide) input
  rcv := rfl
  rcv_le _ := Nat.zero_le _
  written := rfl
  sent := ⟨fun _ => rfl, fun hroomy => absurd (fun _ ha => nomatch ha) hroomy⟩
  got := ⟨fun _ => rfl, fun hroomy => absurd (fun _ ha => nomatch ha) hroomy⟩

/-- A controller that is never ready to transmit. -/
def never : Udc Unit where
  udc_irq udc endpoint := ([], endpoint, udc)
  udc_endpoint_write udc endpoint := (true, endpoint, udc)
  udc_set_nak udc := udc
  udc_unset_nak udc := udc

/-- An endpoint with a byte that has not been sent. -/
def waiting : Endpoint where
  urbs _ := ⟨[0#8], URB_BUFFER_SIZE, by decide⟩
  allocated := 1
  tx_urb := 0
  tx := []
  done := []
  tx_queue := 0
  sent := 0
  last := 0

/-- So many characters are put out one by one. -/
def putcs (n : Nat) : List (Call × Nat) := List.replicate n (.putc 97#8, 0)

/-- What they leave when the controller takes none of them. -/
def stuck (n : Nat) : Term Unit × Bool :=
  run never (putcs n) (start (fun _ => 0#8) (fun _ => 0#8) waiting ())

end UBoot.Usbtty
