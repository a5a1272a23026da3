/-
# Receiving a file with Kermit

A sender transmits its packets one after the other, each until it is acknowledged. What
arrives may be damaged, and may have noise in front. In each state the receiver would go
back to the boundary in front of the packet being sent, and what is stored below it is
right.
-/

import UBoot.CmdLoad.KermitPacket
import UBoot.Lib.Run

namespace UBoot.CmdLoad

open UBoot.Lib

/-! ## Sender and receiver -/

/-- Packets up to the one that ends the transmission. -/
structure Conforming (packets : List Packet) : Prop where
  ok : ∀ p ∈ packets, p.Ok
  last : ∀ i p, packets[i]? = some p → (p.type = BREAK_TYPE ↔ i + 1 = packets.length)

/-- The data of the first packets. -/
def fileUpTo (packets : List Packet) (i : Nat) : List Byte :=
  (packets.take i).flatMap Packet.decoded

/-- The sender at a packet, which the receiver has acknowledged or not, and the receiver.
With it stand the characters received so far, and the rounds they took. -/
structure Transfer where
  index : Nat
  acked : Bool
  done : Bool
  rx : Kermit
  received : List Byte
  rounds : Nat

/-- The sender transmits, and something arrives for which the receiver makes one round; or
it gets the acknowledgement, and goes on to the next packet. -/
inductive SendEvent
  | transmit (arrives : List Byte)
  | advance

namespace Transfer

/-- One step. -/
def step (w : Transfer) : SendEvent → Option Transfer
  | .transmit arrives =>
      if w.done then none
      else
        match round w.rx arrives with
        | .nack k [] =>
            some { w with
              acked := false
              rx := k
              received := w.received ++ arrives
              rounds := w.rounds + 1 }
        | .ack k_state k [] =>
            some { w with
              acked := true
              done := k_state = BREAK_TYPE
              rx := k
              received := w.received ++ arrives
              rounds := w.rounds + 1 }
        | _ => none
  | .advance =>
      if w.acked ∧ ¬ w.done then some { w with index := w.index + 1, acked := false } else none

/-- Before the first packet. -/
def initial (memory : Nat → Byte) : Transfer := ⟨0, false, false, k_start memory, [], 0⟩

end Transfer

/-- The sequence number of a packet, by its first two characters. -/
def numberRead : List Byte → Option Nat
  | len :: seq :: _ =>
      if len &&& 0xe0#8 = 0#8 ∨ seq &&& 0xe0#8 = 0#8 then none else some (untochar seq)
  | _ => none

/-- The sequence number that is read. -/
def sequenceRead (stream : List Byte) : Option Nat :=
  match waitStart stream with
  | some (true, rest) => numberRead rest
  | _ => none

/-- The checkpoint an error goes back to. -/
def restores (k : Kermit) (stream : List Byte) : Checkpoint :=
  match sequenceRead stream with
  | none => k.saved
  | some n => (k.checkpoint n).saved

/-- Characters of one round that are found to be damaged, whatever came before. -/
def Damaged (stream : List Byte) : Prop :=
  ∃ k, round (k_start fun _ => 0#8) stream = .nack k []

/-- The packet as it is sent, behind noise. -/
def Carries (p : Packet) (i : Nat) (stream : List Byte) : Prop :=
  ∃ noise, Noise noise ∧ stream = noise ++ p.encode i

/-- What can arrive: the packet that is sent, or something that is found to be damaged. -/
def Arrives (packets : List Packet) (w : Transfer) : SendEvent → Prop
  | .transmit stream =>
      ∃ p ∈ packets[w.index]?, Carries p w.index stream ∨ Damaged stream
  | .advance => True

/-- The condition on it: when damage is found, the error goes back to the boundary in front
of the packet that is sent. -/
def SafeStep (packets : List Packet) (w : Transfer) : SendEvent → Prop
  | .transmit stream =>
      ∃ p ∈ packets[w.index]?, Carries p w.index stream ∨ Damaged stream ∧
        restores w.rx stream = ⟨(fileUpTo packets w.index).length, false⟩
  | .advance => True

section Decidability

instance instDecidableNoise (noise : List Byte) : Decidable (Noise noise) :=
  inferInstanceAs (Decidable (∀ c ∈ noise, c ≠ START_CHAR ∧ c ≠ ETX_CHAR))

/-- The noise is what is left of the packet. -/
theorem carries_iff (p : Packet) (i : Nat) (stream : List Byte) :
    Carries p i stream ↔
      Noise (stream.take (stream.length - (p.encode i).length)) ∧
        stream = stream.take (stream.length - (p.encode i).length) ++ p.encode i := by
  constructor
  · rintro ⟨noise, quiet, rfl⟩
    simp [quiet]
  · rintro ⟨quiet, eq⟩
    exact ⟨_, quiet, eq⟩

instance instDecidableCarries (p : Packet) (i : Nat) (stream : List Byte) :
    Decidable (Carries p i stream) := decidable_of_iff _ (carries_iff p i stream).symm

instance instDecidableDamaged (stream : List Byte) : Decidable (Damaged stream) :=
  match h : round (k_start fun _ => 0#8) stream with
  | .nack k [] => isTrue ⟨k, h⟩
  | .nack _ (_ :: _) => isFalse fun ⟨_, h'⟩ => by simp [h] at h'
  | .wait => isFalse fun ⟨_, h'⟩ => by simp [h] at h'
  | .abort => isFalse fun ⟨_, h'⟩ => by simp [h] at h'
  | .ack _ _ _ => isFalse fun ⟨_, h'⟩ => by simp [h] at h'

instance instDecidableArrives (packets : List Packet) (w : Transfer) (e : SendEvent) :
    Decidable (Arrives packets w e) :=
  match e with
  | .transmit stream => inferInstanceAs (Decidable (∃ p ∈ packets[w.index]?,
      Carries p w.index stream ∨ Damaged stream))
  | .advance => isTrue trivial

instance instDecidableSafeStep (packets : List Packet) (w : Transfer) (e : SendEvent) :
    Decidable (SafeStep packets w e) :=
  match e with
  | .transmit stream => inferInstanceAs (Decidable (∃ p ∈ packets[w.index]?,
      Carries p w.index stream ∨ Damaged stream ∧
        restores w.rx stream = ⟨(fileUpTo packets w.index).length, false⟩))
  | .advance => isTrue trivial

end Decidability

/-! ## The programs of a packet -/

section Programs

variable {R : Kermit → Kermit → Prop}

theorem getField_local : Serial.Local getField :=
  .bind .getc fun _ => .ite .fail (.pure _)

theorem getField_keeps (refl : ∀ k, R k k) (trans : ∀ k l m, R k l → R l m → R k m) :
    Serial.Keeps R getField :=
  .bind trans (.getc refl) fun _ => .ite (.failing refl) (.pure refl _)

theorem getField_oblivious : Serial.Oblivious getField :=
  .bind .getc fun _ => .ite .fail (.pure _)

theorem packetHeader_local : Serial.Local packetHeader :=
  .bind getField_local fun _ => .bind getField_local fun _ => .pure _

theorem packetHeader_oblivious : Serial.Oblivious packetHeader :=
  .bind getField_oblivious fun _ => .bind getField_oblivious fun _ => .pure _

theorem extendedLength_local (sum : Nat) : Serial.Local (extendedLength sum) :=
  .bind getField_local fun _ => .bind getField_local fun _ => .bind getField_local fun _ =>
    .ite .fail (.pure _)

theorem extendedLength_keeps (refl : ∀ k, R k k) (trans : ∀ k l m, R k l → R l m → R k m)
    (sum : Nat) : Serial.Keeps R (extendedLength sum) :=
  have field := getField_keeps refl trans
  .bind trans field fun _ => .bind trans field fun _ => .bind trans field fun _ =>
    .ite (.failing refl) (.pure refl _)

theorem extendedLength_oblivious (sum : Nat) : Serial.Oblivious (extendedLength sum) :=
  .bind getField_oblivious fun _ => .bind getField_oblivious fun _ =>
    .bind getField_oblivious fun _ => .ite .fail (.pure _)

theorem packetData_local (k_state : Byte) (length sum : Nat) :
    Serial.Local (packetData k_state length sum) := by
  induction length generalizing sum with
  | zero => exact .pure _
  | succ length ih => exact .bind getField_local fun _ => .bind (.modify _) fun _ => ih _

theorem packetData_keeps (refl : ∀ k, R k k) (trans : ∀ k l m, R k l → R l m → R k m)
    (char : ∀ k_state k c, R k (k.dataChar k_state c)) (k_state : Byte) (length sum : Nat) :
    Serial.Keeps R (packetData k_state length sum) := by
  induction length generalizing sum with
  | zero => exact .pure refl _
  | succ length ih =>
      exact .bind trans (getField_keeps refl trans) fun c =>
        .bind trans (.modify fun k => char k_state k c) fun _ => ih _

theorem packetData_oblivious (k_state : Byte) (length sum : Nat) :
    Serial.Oblivious (packetData k_state length sum) := by
  induction length generalizing sum with
  | zero => exact .pure _
  | succ length ih => exact .bind getField_oblivious fun _ => .bind (.modify _) fun _ => ih _

theorem packetRest_local (k_state : Byte) (length : Int) (sum : Nat) :
    Serial.Local (packetRest k_state length sum) :=
  .bind (packetData_local _ _ _) fun _ => .bind getField_local fun _ =>
    .ite .fail (.bind .getc fun _ => .ite .fail (.pure _))

theorem packetRest_keeps (refl : ∀ k, R k k) (trans : ∀ k l m, R k l → R l m → R k m)
    (char : ∀ k_state k c, R k (k.dataChar k_state c)) (k_state : Byte) (length : Int)
    (sum : Nat) : Serial.Keeps R (packetRest k_state length sum) :=
  .bind trans (packetData_keeps refl trans char _ _ _) fun _ =>
    .bind trans (getField_keeps refl trans) fun _ => .ite (.failing refl)
      (.bind trans (.getc refl) fun _ => .ite (.failing refl) (.pure refl _))

theorem packetRest_oblivious (k_state : Byte) (length : Int) (sum : Nat) :
    Serial.Oblivious (packetRest k_state length sum) :=
  .bind (packetData_oblivious _ _ _) fun _ => .bind getField_oblivious fun _ =>
    .ite .fail (.bind .getc fun _ => .ite .fail (.pure _))

theorem packetBody_local (length : Int) (sum : Nat) : Serial.Local (packetBody length sum) :=
  .bind getField_local fun _ =>
    .ite (.bind (extendedLength_local _) fun _ => packetRest_local _ _ _) (packetRest_local _ _ _)

theorem packetBody_keeps (refl : ∀ k, R k k) (trans : ∀ k l m, R k l → R l m → R k m)
    (char : ∀ k_state k c, R k (k.dataChar k_state c)) (length : Int) (sum : Nat) :
    Serial.Keeps R (packetBody length sum) :=
  have rest := packetRest_keeps refl trans char
  .bind trans (getField_keeps refl trans) fun _ =>
    .ite (.bind trans (extendedLength_keeps refl trans _) fun _ => rest _ _ _) (rest _ _ _)

theorem packetBody_oblivious (length : Int) (sum : Nat) :
    Serial.Oblivious (packetBody length sum) :=
  .bind getField_oblivious fun _ =>
    .ite (.bind (extendedLength_oblivious _) fun _ => packetRest_oblivious _ _ _)
      (packetRest_oblivious _ _ _)

theorem packet_local : Serial.Local packet := by
  refine .bind packetHeader_local ?_
  rintro ⟨_, _, _⟩
  exact .bind (.modify _) fun _ => packetBody_local _ _

theorem packet_oblivious : Serial.Oblivious packet := by
  refine .bind packetHeader_oblivious ?_
  rintro ⟨_, _, _⟩
  exact .bind (.modify _) fun _ => packetBody_oblivious _ _

end Programs

/-! ## Rounds -/

/-- The same with more behind. -/
def Round.extend (r : Round) (extra : List Byte) : Round :=
  match r with
  | .wait => .wait
  | .abort => .abort
  | .nack k rest => .nack k (rest ++ extra)
  | .ack k_state k rest => .ack k_state k (rest ++ extra)

theorem waitStart_append {stream : List Byte} {start : Bool} {rest : List Byte}
    (h : waitStart stream = some (start, rest)) (extra : List Byte) :
    waitStart (stream ++ extra) = some (start, rest ++ extra) := by
  induction stream with
  | nil => simp [waitStart] at h
  | cons c stream ih =>
      rw [waitStart] at h
      rw [List.cons_append, waitStart]
      split at h
      · next hc =>
          obtain ⟨rfl, rfl⟩ : true = start ∧ stream = rest := by simpa using h
          rw [if_pos hc]
      · next hc =>
          rw [if_neg hc]
          split at h
          · next hc =>
              obtain ⟨rfl, rfl⟩ : false = start ∧ stream = rest := by simpa using h
              rw [if_pos hc]
          · next hc =>
              rw [if_neg hc]
              exact ih h

/-- What comes later does not change a round. -/
theorem round_append {k : Kermit} {stream : List Byte} (h : round k stream ≠ .wait)
    (extra : List Byte) : round k (stream ++ extra) = (round k stream).extend extra := by
  rw [round] at h
  rw [round, round]
  cases hw : waitStart stream with
  | none => rw [hw] at h; exact absurd rfl h
  | some found =>
      obtain ⟨start, rest⟩ := found
      rw [hw] at h
      rw [waitStart_append hw]
      cases start with
      | false => rfl
      | true =>
          have later := packet_local { k with send_parms := [] } rest extra
          simp only [] at h ⊢
          cases hp : packet { k with send_parms := [] } rest with
          | wait => rw [hp] at h; exact absurd rfl h
          | fail k' rest' =>
              rw [later (by rw [hp]; simp), hp]
              rfl
          | ok k_state k' rest' =>
              rw [later (by rw [hp]; simp), hp]
              rfl

/-- A round takes a character at least. -/
theorem round_nil (k : Kermit) : round k [] = .wait := rfl

/-! ## Rounds that end in an error -/

/-- The receiver later: the checkpoint and what is below the address are unchanged. -/
structure Below (k k' : Kermit) : Prop where
  saved : k'.saved = k.saved
  last_n : k'.last_n = k.last_n
  quote : k'.his_quote = k.his_quote
  addr : k.cur.addr ≤ k'.cur.addr
  memory : ∀ i, i < k.cur.addr → k'.memory i = k.memory i

namespace Below

theorem refl (k : Kermit) : Below k k := ⟨rfl, rfl, rfl, le_rfl, fun _ _ => rfl⟩

theorem trans (k l m : Kermit) (first : Below k l) (second : Below l m) : Below k m where
  saved := second.saved.trans first.saved
  last_n := second.last_n.trans first.last_n
  quote := second.quote.trans first.quote
  addr := first.addr.trans second.addr
  memory i h := (second.memory i (h.trans_le first.addr)).trans (first.memory i h)

theorem put_char (k : Kermit) (c : Byte) :
    Below k { k with
      memory := fun i => if i = k.cur.addr then c else k.memory i
      cur := ⟨k.cur.addr + 1, false⟩ } where
  saved := rfl
  last_n := rfl
  quote := rfl
  addr := Nat.le_succ _
  memory _ h := if_neg (Nat.ne_of_lt h)

theorem dataChar (k_state : Byte) (k : Kermit) (c : Byte) : Below k (k.dataChar k_state c) := by
  rw [Kermit.dataChar]
  split
  · rw [Kermit.k_data_char]
    split
    · exact put_char k _
    · split
      · exact ⟨rfl, rfl, rfl, le_rfl, fun _ _ => rfl⟩
      · exact put_char k _
  · split
    · split
      · exact ⟨rfl, rfl, rfl, le_rfl, fun _ _ => rfl⟩
      · exact refl k
    · exact refl k

end Below

section Errors

variable {k k' : Kermit} {stream rest : List Byte}

theorem getField_control {c : Byte} (h : c &&& 0xe0#8 = 0#8) :
    getField k (c :: rest) = .fail k rest := by
  rw [getField, Serial.bind_of_ok (Serial.getc_run c)]
  simp [h]

theorem packet_header_fail (header : packetHeader k stream = .fail k rest) :
    packet k stream = .fail k rest := Serial.bind_of_fail header

/-- A packet that fails has its number read, and then stores only behind what the
checkpoint stands for; or nothing happens. -/
theorem packet_fail (h : packet k stream = .fail k' rest) :
    (numberRead stream = none ∧ k' = k) ∨
      ∃ n, numberRead stream = some n ∧ Below (k.checkpoint n) k' := by
  rcases stream with _ | ⟨len, stream⟩
  · have wait : packetHeader k [] = .wait := rfl
    rw [packet, Serial.bind_of_wait wait] at h
    simp at h
  by_cases hlen : len &&& 0xe0#8 = 0#8
  · refine .inl ⟨?_, ?_⟩
    · cases stream <;> simp [numberRead, hlen]
    · rw [packet_header_fail (Serial.bind_of_fail (getField_control hlen))] at h
      exact (Read.fail.inj h).1.symm
  rcases stream with _ | ⟨seq, stream⟩
  · have wait : packetHeader k [len] = .wait := by
      rw [packetHeader, Serial.bind_of_ok (getField_run hlen), Serial.bind_of_wait rfl]
    rw [packet, Serial.bind_of_wait wait] at h
    simp at h
  by_cases hseq : seq &&& 0xe0#8 = 0#8
  · refine .inl ⟨by simp [numberRead, hseq], ?_⟩
    have header : packetHeader k (len :: seq :: stream) = .fail k stream := by
      rw [packetHeader, Serial.bind_of_ok (getField_run hlen),
        Serial.bind_of_fail (getField_control hseq)]
    rw [packet_header_fail header] at h
    exact (Read.fail.inj h).1.symm
  · refine .inr ⟨untochar seq, by simp [numberRead, hlen, hseq], ?_⟩
    have header : packetHeader k (len :: seq :: stream) =
        .ok ((untochar len : Int) - 1, len.toNat + seq.toNat, untochar seq) k stream := by
      rw [packetHeader, Serial.bind_of_ok (getField_run hlen),
        Serial.bind_of_ok (getField_run hseq), Serial.pure_run]
    rw [packet, Serial.bind_of_ok header] at h
    simp only [] at h
    rw [Serial.bind_of_ok (Serial.modify_run _)] at h
    exact (packetBody_keeps Below.refl Below.trans Below.dataChar _ _).fail _ _ _ _ h

/-- At a sequence number, where to go back to and where to store is the same. -/
theorem checkpoint_saved (k : Kermit) (n : Nat) : (k.checkpoint n).saved = (k.checkpoint n).cur := by
  rw [Kermit.checkpoint]
  split <;> rfl

/-- An error goes back to the checkpoint `c`, and below it nothing changes. -/
structure WentBack (k : Kermit) (c : Checkpoint) (k' : Kermit) : Prop where
  cur : k'.cur = c
  saved : k'.saved = c
  quote : k'.his_quote = k.his_quote
  memory : ∀ i, i < c.addr → k'.memory i = k.memory i

/-- A round ends with an error exactly if its packet has one. -/
theorem round_eq_nack_iff : round k stream = .nack k' rest ↔ ∃ body mid,
    waitStart stream = some (true, body) ∧
      packet { k with send_parms := [] } body = .fail mid rest ∧ mid.packet_error = k' := by
  rw [round]
  cases hw : waitStart stream with
  | none => simp
  | some found =>
      obtain ⟨start, body⟩ := found
      cases start with
      | false => simp
      | true =>
          cases hp : packet { k with send_parms := [] } body with
          | wait => simp [hp]
          | ok k_state mid rest' => simp [hp]
          | fail mid rest' => simp [hp, and_comm]

theorem round_nack (h : round k stream = .nack k' rest) : WentBack k (restores k stream) k' := by
  obtain ⟨body, mid, hw, hp, rfl⟩ := round_eq_nack_iff.1 h
  have sequence : sequenceRead stream = numberRead body := by rw [sequenceRead, hw]
  rw [restores, sequence]
  rcases packet_fail hp with ⟨number, rfl⟩ | ⟨n, number, below⟩
  · rw [number]
    exact ⟨rfl, rfl, rfl, fun _ _ => rfl⟩
  · have same : Kermit.checkpoint { k with send_parms := [] } n =
        { k.checkpoint n with send_parms := [] } := by
      simp only [Kermit.checkpoint]
      split <;> rfl
    have quote : (k.checkpoint n).his_quote = k.his_quote := by
      rw [Kermit.checkpoint]
      split <;> rfl
    have memory : (k.checkpoint n).memory = k.memory := by
      rw [Kermit.checkpoint]
      split <;> rfl
    rw [same] at below
    rw [number]
    refine ⟨below.saved, below.saved, below.quote.trans quote, fun i hi => ?_⟩
    rw [← memory]
    exact below.memory i (checkpoint_saved k n ▸ hi)

/-- Damage is found whatever came before. -/
theorem Damaged.nack (h : Damaged stream) (k : Kermit) : ∃ k', round k stream = .nack k' [] := by
  obtain ⟨fresh, h⟩ := h
  obtain ⟨body, mid, hw, hp, -⟩ := round_eq_nack_iff.1 h
  have same := packet_oblivious { (k_start fun _ => 0#8) with send_parms := [] }
    { k with send_parms := [] } body
  rw [hp] at same
  cases hk : packet { k with send_parms := [] } body with
  | wait => simp [hk, Read.outcome] at same
  | ok k_state mid' rest' => simp [hk, Read.outcome] at same
  | fail mid' rest' =>
      obtain rfl : [] = rest' := by simpa [hk, Read.outcome] using same
      exact ⟨_, round_eq_nack_iff.2 ⟨body, mid', hw, hk, rfl⟩⟩

end Errors

/-! ## The invariant -/

/-- The boundary in front of a packet. -/
def boundary (packets : List Packet) (i : Nat) : Checkpoint :=
  ⟨(fileUpTo packets i).length, false⟩

/-- The data of the first packets is in memory. -/
def Holds (packets : List Packet) (i : Nat) (m : Nat → Byte) : Prop :=
  ∀ j y, (fileUpTo packets i)[j]? = some y → m j = y

theorem fileUpTo_succ {packets : List Packet} {i : Nat} {p : Packet} (h : packets[i]? = some p) :
    fileUpTo packets (i + 1) = fileUpTo packets i ++ p.decoded := by
  rw [fileUpTo, fileUpTo, List.take_add_one, h]
  simp

theorem boundary_succ {packets : List Packet} {i : Nat} {p : Packet} (h : packets[i]? = some p) :
    boundary packets (i + 1) = ⟨(boundary packets i).addr + p.decoded.length, false⟩ := by
  simp [boundary, fileUpTo_succ h]

theorem Holds.succ {packets : List Packet} {i : Nat} {m : Nat → Byte} (h : Holds packets i m)
    {p : Packet} (at' : packets[i]? = some p) :
    Holds packets (i + 1) (store m (boundary packets i).addr p.decoded) := by
  intro j y hj
  rw [fileUpTo_succ at'] at hj
  by_cases old : j < (fileUpTo packets i).length
  · rw [List.getElem?_append_left old] at hj
    have below : j < (boundary packets i).addr := old
    rw [store_outside (.inl below)]
    exact h j y hj
  · have behind : (fileUpTo packets i).length ≤ j := by omega
    rw [List.getElem?_append_right behind] at hj
    have stored := @store_add _ m (fileUpTo packets i).length _ _ _ hj
    rwa [Nat.add_sub_of_le behind] at stored

/-- In front of a packet, the checkpoint at its number would be its boundary. Once the
packet is acknowledged, its data is there as well. -/
structure Invariant (packets : List Packet) (w : Transfer) : Prop where
  quote : w.rx.his_quote = K_ESCAPE
  front : (w.rx.checkpoint (w.index % 64)).cur = boundary packets w.index
  holds : Holds packets w.index w.rx.memory
  acked : w.acked → w.rx.cur = boundary packets (w.index + 1) ∧
    w.rx.last_n = some (w.index % 64) ∧ Holds packets (w.index + 1) w.rx.memory
  done : w.done → w.acked ∧ w.index + 1 = packets.length

namespace Invariant

variable {packets : List Packet} {w : Transfer}

theorem initial (memory : Nat → Byte) : Invariant packets (Transfer.initial memory) where
  quote := rfl
  front := rfl
  holds := by
    intro j y h
    simp [Transfer.initial, fileUpTo] at h
  acked := by simp [Transfer.initial]
  done := by simp [Transfer.initial]

/-- With a checkpoint that was restored, any number leads back to it. -/
theorem checkpoint_restored {k : Kermit} {c : Checkpoint} (cur : k.cur = c) (saved : k.saved = c)
    (n : Nat) : (k.checkpoint n).cur = c := by
  rw [Kermit.checkpoint]
  split
  · exact saved
  · exact cur

/-- An error. -/
theorem nack (inv : Invariant packets w) {k : Kermit} (back : WentBack w.rx (boundary packets w.index) k)
    (received : List Byte) (rounds : Nat) :
    Invariant packets ⟨w.index, false, false, k, received, rounds⟩ where
  quote := back.quote.trans inv.quote
  front := checkpoint_restored back.cur back.saved _
  holds := by
    intro j y h
    have below : j < (boundary packets w.index).addr := (List.getElem?_eq_some_iff.mp h).1
    rw [show k.memory j = w.rx.memory j from back.memory j below]
    exact inv.holds j y h
  acked := by simp
  done := by simp

/-- The packet that is sent. -/
theorem ack (inv : Invariant packets w) (conf : Conforming packets) {p : Packet}
    (at' : packets[w.index]? = some p) {k : Kermit}
    (taken : Taken (w.rx.checkpoint (w.index % 64)) p.decoded k) (received : List Byte)
    (rounds : Nat) :
    Invariant packets ⟨w.index, true, p.type = BREAK_TYPE, k, received, rounds⟩ := by
  have memory : (w.rx.checkpoint (w.index % 64)).memory = w.rx.memory := by
    rw [Kermit.checkpoint]
    split <;> rfl
  have last_n : (w.rx.checkpoint (w.index % 64)).last_n = some (w.index % 64) := by
    rw [Kermit.checkpoint]
    split
    · next h => exact h
    · rfl
  have stored : k.memory = store w.rx.memory (boundary packets w.index).addr p.decoded := by
    rw [taken.memory, memory, inv.front]
  have saved : k.saved = boundary packets w.index := by
    rw [taken.saved, checkpoint_saved, inv.front]
  have again : k.last_n = some (w.index % 64) := taken.last_n.trans last_n
  have holds : Holds packets (w.index + 1) k.memory := stored ▸ inv.holds.succ at'
  refine ⟨taken.quote, ?_, ?_, fun _ => ⟨?_, again, holds⟩, ?_⟩
  · show (k.checkpoint (w.index % 64)).cur = _
    rw [Kermit.checkpoint, if_pos again]
    exact saved
  · intro j y h
    refine holds j y ?_
    rw [fileUpTo_succ at', List.getElem?_append_left (List.getElem?_eq_some_iff.mp h).1]
    exact h
  · rw [boundary_succ at', ← inv.front]
    exact taken.cur
  · intro last
    exact ⟨rfl, (conf.last _ _ at').mp (of_decide_eq_true last)⟩

/-- On to the next packet: its number differs from the one before. -/
theorem advance (inv : Invariant packets w) (acked : w.acked) (running : ¬ w.done) :
    Invariant packets { w with index := w.index + 1, acked := false } := by
  obtain ⟨cur, last_n, holds⟩ := inv.acked acked
  refine ⟨inv.quote, ?_, holds, by simp, fun done => absurd done running⟩
  have new : w.rx.last_n ≠ some ((w.index + 1) % 64) := by
    rw [last_n]
    simp only [ne_eq, Option.some.injEq]
    omega
  show (w.rx.checkpoint ((w.index + 1) % 64)).cur = _
  rw [Kermit.checkpoint, if_neg new]
  exact cur

/-- One step. -/
theorem step (conf : Conforming packets) (inv : Invariant packets w) {e : SendEvent}
    (safe : SafeStep packets w e) {w' : Transfer} (h : w.step e = some w') :
    Invariant packets w' := by
  cases e with
  | advance =>
      rw [Transfer.step] at h
      split at h
      · next both =>
          obtain rfl := Option.some.inj h
          exact inv.advance both.1 both.2
      · simp at h
  | transmit arrives =>
      obtain ⟨p, at', safe⟩ := safe
      rw [Transfer.step] at h
      split at h
      · simp at h
      · next running =>
          rcases safe with ⟨noise, quiet, rfl⟩ | ⟨damaged, restores⟩
          · have ok := conf.ok p (List.mem_of_getElem? at')
            obtain ⟨k, run, taken⟩ := round_encode (k := w.rx) ok quiet w.index
              (by rw [inv.front]; rfl) inv.quote []
            rw [List.append_nil] at run
            rw [run] at h
            obtain rfl := Option.some.inj h
            exact inv.ack conf at' taken _ _
          · obtain ⟨k, run⟩ := damaged.nack w.rx
            rw [run] at h
            obtain rfl := Option.some.inj h
            have back := round_nack run
            rw [restores] at back
            have stopped : w.done = false := by simpa using running
            have kept := inv.nack back (w.received ++ arrives) (w.rounds + 1)
            rw [← stopped] at kept
            exact stopped ▸ kept

end Invariant

/-! ## The whole transmission -/

/-- `k_recv` on what has been received is where the receiver is. -/
structure Linked (memory : Nat → Byte) (w : Transfer) : Prop where
  rounds : w.rounds ≤ w.received.length
  running : ¬ w.done → ∀ n rest,
    recvLoop (w.rounds + n) (k_start memory) (w.received ++ rest) = recvLoop n w.rx rest
  done : w.done → ∀ n rest,
    recvLoop (w.rounds + n) (k_start memory) (w.received ++ rest) =
      some (w.rx.cur.addr, w.rx.memory)

namespace Linked

variable {memory : Nat → Byte} {w : Transfer}

theorem initial (memory : Nat → Byte) : Linked memory (Transfer.initial memory) where
  rounds := le_rfl
  running _ n rest := by simp [Transfer.initial]
  done := by simp [Transfer.initial]

/-- One more round. -/
theorem more (linked : Linked memory w) (running : ¬ w.done) {arrives : List Byte}
    (h : round w.rx arrives ≠ .wait) :
    w.rounds + 1 ≤ (w.received ++ arrives).length ∧
      ∀ n rest, recvLoop (w.rounds + 1 + n) (k_start memory) (w.received ++ arrives ++ rest) =
        recvLoop (n + 1) w.rx (arrives ++ rest) := by
  have rounds := linked.rounds
  constructor
  · cases arrives with
    | nil => exact absurd (round_nil _) h
    | cons c arrives =>
        simp only [List.length_append, List.length_cons]
        omega
  · intro n rest
    rw [List.append_assoc, Nat.add_assoc, linked.running running, Nat.add_comm 1 n]

/-- One step, whatever arrives. -/
theorem step (linked : Linked memory w) {e : SendEvent} {w' : Transfer} (h : w.step e = some w') :
    Linked memory w' := by
  cases e with
  | advance =>
      rw [Transfer.step] at h
      split at h
      · obtain rfl := Option.some.inj h
        exact ⟨linked.rounds, linked.running, linked.done⟩
      · simp at h
  | transmit arrives =>
      rw [Transfer.step] at h
      split at h
      · simp at h
      · next running =>
          split at h
          · next k hround =>
              obtain rfl := Option.some.inj h
              obtain ⟨rounds, loop⟩ := linked.more running (by rw [hround]; simp)
              refine ⟨rounds, fun _ n rest => ?_, fun done => absurd done running⟩
              rw [loop, recvLoop, round_append (by rw [hround]; simp), hround]
              rfl
          · next k_state k hround =>
              obtain rfl := Option.some.inj h
              obtain ⟨rounds, loop⟩ := linked.more running (by rw [hround]; simp)
              refine ⟨rounds, fun more n rest => ?_, fun last n rest => ?_⟩
              · have more : ¬ k_state = BREAK_TYPE := by simpa using more
                rw [loop, recvLoop, round_append (by rw [hround]; simp), hround]
                simp [Round.extend, more]
              · have last : k_state = BREAK_TYPE := by simpa using last
                rw [loop, recvLoop, round_append (by rw [hround]; simp), hround]
                simp [Round.extend, last]
          · simp at h

end Linked

/-- When all that arrives is the packet that is sent, or is found to be damaged and leads
back to the boundary in front of it, then the file is received, once and in order. -/
theorem k_recv_receives {packets : List Packet} (conf : Conforming packets) {memory : Nat → Byte}
    {w : Transfer} {events : List SendEvent}
    (run : Run (fun w e w' => SafeStep packets w e ∧ w.step e = some w')
      (Transfer.initial memory) events w)
    (done : w.done) :
    ∃ m, k_recv memory w.received = some ((fileUpTo packets packets.length).length, m) ∧
      ∀ j y, (fileUpTo packets packets.length)[j]? = some y → m j = y := by
  obtain ⟨inv, linked⟩ : Invariant packets w ∧ Linked memory w :=
    run.invariant (I := fun w => Invariant packets w ∧ Linked memory w)
      (fun _ _ _ both taken => ⟨both.1.step conf taken.1 taken.2, both.2.step taken.2⟩)
      ⟨.initial memory, .initial memory⟩
  obtain ⟨acked, last⟩ := inv.done done
  obtain ⟨cur, -, holds⟩ := inv.acked acked
  rw [last] at cur holds
  refine ⟨w.rx.memory, ?_, holds⟩
  obtain ⟨more, enough⟩ := Nat.exists_eq_add_of_le linked.rounds
  have returned := linked.done done more []
  rw [List.append_nil, ← enough, cur] at returned
  exact returned

/-! ## Two transmissions -/

/-- A file in two data packets. -/
def twoDataPackets : List Packet :=
  [⟨SEND_TYPE, [], false⟩, ⟨0x46#8, [0x66#8], false⟩, ⟨DATA_TYPE, [0x41#8, 0x42#8], false⟩,
    ⟨DATA_TYPE, [0x43#8], true⟩, ⟨0x5a#8, [], false⟩, ⟨BREAK_TYPE, [], false⟩]

theorem twoDataPackets_conforming : Conforming twoDataPackets where
  ok p h := by
    simp only [twoDataPackets, List.mem_cons, List.not_mem_nil, or_false] at h
    rcases h with rfl | rfl | rfl | rfl | rfl | rfl <;>
      exact ⟨by decide, by decide, by decide, by decide, by decide⟩
  last i p h := by
    rcases i with _ | _ | _ | _ | _ | _ | i <;> simp [twoDataPackets] at h <;> subst h <;> decide

/-- The packets of the file, each behind what arrives in front of it. -/
def transmissions (before : Nat → List (List Byte)) : List SendEvent :=
  twoDataPackets.zipIdx.flatMap fun (p, i) =>
    (if i = 0 then [] else [.advance]) ++ (before i).map .transmit ++ [.transmit (p.encode i)]

/-- Steps that meet a condition. -/
def Transfer.checked (ok : Transfer → SendEvent → Bool) (w : Transfer) (e : SendEvent) :
    Option Transfer := if ok w e then w.step e else none

theorem run_of_checked (ok : Transfer → SendEvent → Prop) [∀ w e, Decidable (ok w e)]
    (events : List SendEvent) (s : Transfer) (P : Transfer → Bool)
    (h : (events.foldlM (Transfer.checked fun w e => ok w e) s).any P) :
    ∃ w, Run (fun w e w' => ok w e ∧ w.step e = some w') s events w ∧ P w := by
  cases found : events.foldlM (Transfer.checked fun w e => ok w e) s with
  | none => rw [found] at h; simp at h
  | some w =>
      rw [found] at h
      refine ⟨w, (Run.of_foldlM found).mono ?_, h⟩
      intro s e t taken
      rw [Transfer.checked] at taken
      split at taken
      · next met => exact ⟨of_decide_eq_true met, taken⟩
      · simp at taken

/-- The second data packet has a wrong checksum when it is sent first. -/
def wrongChecksum (i : Nat) : List (List Byte) :=
  if i = 3 then [[START_CHAR, tochar 4, tochar 3, DATA_TYPE, 0x43#8, SPACE]] else []

theorem k_recv_receives_two : ∃ (w : Transfer) (m : Nat → Byte), w.done ∧
    k_recv (fun _ => 0#8) w.received =
      some ((fileUpTo twoDataPackets twoDataPackets.length).length, m) := by
  obtain ⟨w, run, done⟩ := run_of_checked (SafeStep twoDataPackets)
    (transmissions wrongChecksum) (.initial fun _ => 0#8) Transfer.done (by decide +kernel)
  obtain ⟨m, returned, -⟩ := k_recv_receives twoDataPackets_conforming run done
  exact ⟨w, m, done, returned⟩

/-- In front of the second data packet there is a start character, and a control character
instead of a length. -/
def wrongStart (i : Nat) : List (List Byte) := if i = 3 then [[START_CHAR, END_CHAR]] else []

/-- The error goes back to the boundary in front of the first data packet, which is lost. -/
theorem k_recv_loses_a_packet :
    ¬ ∀ (packets : List Packet) (memory : Nat → Byte) (w : Transfer) (events : List SendEvent),
      Conforming packets →
      Run (fun w e w' => Arrives packets w e ∧ w.step e = some w')
        (Transfer.initial memory) events w →
      w.done →
      ∃ m, k_recv memory w.received = some ((fileUpTo packets packets.length).length, m) ∧
        ∀ j y, (fileUpTo packets packets.length)[j]? = some y → m j = y := by
  intro claim
  obtain ⟨w, run, short⟩ := run_of_checked (Arrives twoDataPackets)
    (transmissions wrongStart) (.initial fun _ => 0#8)
    (fun w => w.done && (k_recv (fun _ => 0#8) w.received).all fun result => result.1 = 1)
    (by decide +kernel)
  rw [Bool.and_eq_true] at short
  obtain ⟨m, returned, -⟩ := claim _ _ w _ twoDataPackets_conforming run short.1
  have length : (fileUpTo twoDataPackets twoDataPackets.length).length = 3 := by decide
  rw [length] at returned
  have short := short.2
  rw [returned] at short
  simp at short

end UBoot.CmdLoad
