/-
# A packet of a Kermit sender

What a sender transmits for a packet, and what `k_recv` makes of it when it arrives as it
was sent, with noise in front. The packet is acknowledged, its data is stored behind what
the checkpoint stands for, and the escape state is what it was.
-/

import UBoot.CmdLoad.Kermit
import UBoot.Lib.Memory

namespace UBoot.CmdLoad

open UBoot.Lib

/-! ## The sender -/

/-- `tochar` -/
def tochar (x : Nat) : Byte := BitVec.ofNat 8 x + SPACE

/-- A packet of the sender, with its data as it is sent. -/
structure Packet where
  type : Byte
  data : List Byte
  long : Bool

/-- The sum of characters. -/
def sumOf (chars : List Byte) : Nat := (chars.map BitVec.toNat).sum

/-- The data that quoted characters stand for. -/
def unquote : List Byte → Option (List Byte)
  | [] => some []
  | [c] => if c = K_ESCAPE then none else some [c]
  | c :: c' :: chars =>
      if c = K_ESCAPE then (unquote chars).map (ktrans c' :: ·)
      else (unquote (c' :: chars)).map (c :: ·)

namespace Packet

/-- The characters of a long header that the check of the header is about. -/
def longFields (i : Nat) (p : Packet) : List Byte :=
  [tochar 0, tochar (i % 64), p.type, tochar ((p.data.length + 1) / 95),
    tochar ((p.data.length + 1) % 95)]

/-- The characters in front of the data. -/
def header (i : Nat) (p : Packet) : List Byte :=
  if p.long then p.longFields i ++ [checkChar (sumOf (p.longFields i))]
  else [tochar (p.data.length + 3), tochar (i % 64), p.type]

/-- What is sent for the packet with a number. -/
def encode (i : Nat) (p : Packet) : List Byte :=
  START_CHAR :: (p.header i ++ (p.data ++
    [checkChar (sumOf (p.header i ++ p.data)), END_CHAR]))

/-- The data of a packet, which only a data packet has. -/
def decoded (p : Packet) : List Byte :=
  if p.type = DATA_TYPE then (unquote p.data).getD [] else []

/-- A packet that a sender may send: no control characters, a length that fits, complete
quotes, and the quote character that is meant. -/
structure Ok (p : Packet) : Prop where
  type : p.type &&& 0xe0#8 ≠ 0#8
  data : ∀ c ∈ p.data, c &&& 0xe0#8 ≠ 0#8
  length : if p.long then p.data.length + 1 < 95 * 95 else p.data.length + 3 < 95
  quotes : p.type = DATA_TYPE → (unquote p.data).isSome
  quote : p.type = SEND_TYPE → p.data.length < 6 ∨ p.data.getD 5 0#8 = K_ESCAPE

end Packet

/-! ## Characters -/

@[simp]
theorem sumOf_nil : sumOf [] = 0 := rfl

@[simp]
theorem sumOf_cons (c : Byte) (chars : List Byte) : sumOf (c :: chars) = c.toNat + sumOf chars :=
  rfl

theorem untochar_tochar {x : Nat} (h : x < 256) : untochar (tochar x) = x := by
  simp [untochar, tochar, SPACE, Nat.mod_eq_of_lt h]

private theorem printable_add (x : Fin 95) :
    (BitVec.ofNat 8 x.val + SPACE) &&& 0xe0#8 ≠ 0#8 := by
  revert x
  decide

theorem tochar_printable {x : Nat} (h : x < 95) : tochar x &&& 0xe0#8 ≠ 0#8 :=
  printable_add ⟨x, h⟩

theorem checkChar_printable (sum : Nat) : checkChar sum &&& 0xe0#8 ≠ 0#8 :=
  tochar_printable (x := (sum + sum / 64 % 4) % 64) (by omega)

/-! ## The receiver -/

section Reading

variable {k : Kermit} {rest : List Byte}

theorem getField_run {c : Byte} (h : c &&& 0xe0#8 ≠ 0#8) :
    getField k (c :: rest) = .ok c k rest := by
  rw [getField, Serial.bind_of_ok (Serial.getc_run c)]
  simp [h]

/-- The data of a packet is brought in character by character. -/
theorem packetData_run (k_state : Byte) {data : List Byte} (h : ∀ c ∈ data, c &&& 0xe0#8 ≠ 0#8)
    (sum : Nat) :
    packetData k_state data.length sum k (data ++ rest) =
      .ok (sum + sumOf data) (data.foldl (Kermit.dataChar k_state) k) rest := by
  induction data generalizing k sum with
  | nil => rfl
  | cons c data ih =>
      obtain ⟨hc, h⟩ := List.forall_mem_cons.mp h
      rw [List.length_cons, packetData, List.cons_append, Serial.bind_of_ok (getField_run hc),
        Serial.bind_of_ok (Serial.modify_run _), ih h]
      simp [Nat.add_assoc]

theorem extendedLength_run {l sum : Nat} (h : l < 95 * 95) :
    extendedLength sum k (tochar (l / 95) :: tochar (l % 95) ::
        checkChar (sum + (tochar (l / 95)).toNat + (tochar (l % 95)).toNat) :: rest) =
      .ok ((l : Int), sum + (tochar (l / 95)).toNat + (tochar (l % 95)).toNat +
        (checkChar (sum + (tochar (l / 95)).toNat + (tochar (l % 95)).toNat)).toNat) k rest := by
  have hi : l / 95 < 95 := by omega
  have lo : l % 95 < 95 := by omega
  have value : ((l / 95 : Nat) : Int) * 95 + (l % 95 : Nat) = l := by omega
  rw [extendedLength, Serial.bind_of_ok (getField_run (tochar_printable hi)),
    Serial.bind_of_ok (getField_run (tochar_printable lo)),
    Serial.bind_of_ok (getField_run (checkChar_printable _)), if_neg (by simp), Serial.pure_run,
    untochar_tochar (by omega), untochar_tochar (by omega), value]

theorem packetHeader_run {x n : Nat} (hx : x < 95) (hn : n < 95) :
    packetHeader k (tochar x :: tochar n :: rest) =
      .ok ((x : Int) - 1, (tochar x).toNat + (tochar n).toNat, n) k rest := by
  rw [packetHeader, Serial.bind_of_ok (getField_run (tochar_printable hx)),
    Serial.bind_of_ok (getField_run (tochar_printable hn)), Serial.pure_run,
    untochar_tochar (by omega), untochar_tochar (by omega)]

/-- The data of a packet up to its end. -/
theorem packetRest_run {p : Packet} (ok : p.Ok) {length : Int}
    (fits : length = p.data.length + 1) (sum : Nat) :
    packetRest p.type length sum k
        (p.data ++ checkChar (sum + sumOf p.data) :: END_CHAR :: rest) =
      .ok p.type (p.data.foldl (Kermit.dataChar p.type) k) rest := by
  have remaining : (length - 1).toNat = p.data.length := by omega
  rw [packetRest, remaining, Serial.bind_of_ok (packetData_run p.type ok.data _),
    Serial.bind_of_ok (getField_run (checkChar_printable _)), if_neg (by simp),
    Serial.bind_of_ok (Serial.getc_run _)]
  simp

/-- The body of a packet with a normal length. -/
theorem packetBody_short {p : Packet} (ok : p.Ok) (sum : Nat) :
    packetBody ((p.data.length + 3 : Nat) - 1) sum k
        (p.type :: (p.data ++
          checkChar (sum + p.type.toNat + sumOf p.data) :: END_CHAR :: rest)) =
      .ok p.type (p.data.foldl (Kermit.dataChar p.type) k) rest := by
  rw [packetBody, Serial.bind_of_ok (getField_run ok.type), if_neg (by omega),
    packetRest_run ok (by omega)]

/-- The body of a packet with an extended length. -/
theorem packetBody_long {p : Packet} (ok : p.Ok) (fits : p.data.length + 1 < 95 * 95) (sum : Nat) :
    let hi := tochar ((p.data.length + 1) / 95)
    let lo := tochar ((p.data.length + 1) % 95)
    let headerSum := sum + p.type.toNat + hi.toNat + lo.toNat
    packetBody (-1) sum k (p.type :: hi :: lo :: checkChar headerSum :: (p.data ++
        checkChar (headerSum + (checkChar headerSum).toNat + sumOf p.data) :: END_CHAR :: rest)) =
      .ok p.type (p.data.foldl (Kermit.dataChar p.type) k) rest := by
  intro hi lo headerSum
  rw [packetBody, Serial.bind_of_ok (getField_run ok.type), if_pos (by decide),
    Serial.bind_of_ok (extendedLength_run fits)]
  exact packetRest_run ok (by omega) _

/-- A packet as it is sent is taken in. -/
theorem packet_run {p : Packet} (ok : p.Ok) (i : Nat) :
    packet k (p.header i ++ (p.data ++
        [checkChar (sumOf (p.header i ++ p.data)), END_CHAR]) ++ rest) =
      .ok p.type (p.data.foldl (Kermit.dataChar p.type) (k.checkpoint (i % 64))) rest := by
  have seq : i % 64 < 95 := by omega
  have length := ok.length
  rw [Packet.header]
  split at length
  · next long =>
      rw [if_pos long, packet]
      simp only [Packet.longFields, List.cons_append, List.nil_append, List.append_assoc]
      rw [Serial.bind_of_ok (packetHeader_run (by omega) seq)]
      simp only []
      rw [Serial.bind_of_ok (Serial.modify_run _)]
      have body := @packetBody_long (k.checkpoint (i % 64)) rest p ok length
        ((tochar 0).toNat + (tochar (i % 64)).toNat)
      simpa [Nat.add_assoc] using body
  · next short =>
      rw [if_neg short, packet]
      simp only [List.cons_append, List.nil_append, List.append_assoc]
      rw [Serial.bind_of_ok (packetHeader_run length seq)]
      simp only []
      rw [Serial.bind_of_ok (Serial.modify_run _)]
      have body := @packetBody_short (k.checkpoint (i % 64)) rest p ok
        ((tochar (p.data.length + 3)).toNat + (tochar (i % 64)).toNat)
      simpa [Nat.add_assoc] using body

end Reading

/-! ## The data of a packet -/

/-- Data behind a boundary. -/
def Kermit.put (k : Kermit) (data : List Byte) : Kermit :=
  { k with
    memory := store k.memory k.cur.addr data
    cur := ⟨k.cur.addr + data.length, false⟩ }

section Data

variable {k : Kermit}

theorem set_eq_store (m : Nat → Byte) (at' : Nat) (c : Byte) :
    (fun i => if i = at' then c else m i) = store m at' [c] := by
  funext i
  rw [store]
  split
  · next h => simp [h]
  · split
    · next hne hle =>
        rw [List.getElem?_eq_none (by simp only [List.length_singleton]; omega)]
        rfl
    · rfl

theorem Kermit.put_put (k : Kermit) (first second : List Byte) :
    (k.put first).put second = k.put (first ++ second) := by
  simp [Kermit.put, store_append, Nat.add_assoc]

theorem Kermit.put_nil (boundary : k.cur.escape = false) : k.put [] = k := by
  rw [Kermit.put, store_nil, List.length_nil, Nat.add_zero, ← boundary]

theorem k_data_char_plain (boundary : k.cur.escape = false) {c : Byte} (h : c ≠ k.his_quote) :
    k.k_data_char c = k.put [c] := by
  rw [Kermit.k_data_char, boundary, if_neg (by simp), if_neg h, set_eq_store]
  rfl

/-- The quote character, and the character that is quoted. -/
theorem k_data_char_quoted (boundary : k.cur.escape = false) (c : Byte) :
    (k.k_data_char k.his_quote).k_data_char c = k.put [ktrans c] := by
  simp only [Kermit.k_data_char, boundary, if_true, Bool.false_eq_true, if_false, set_eq_store]
  rfl

theorem k_data_foldl (boundary : k.cur.escape = false) (quote : k.his_quote = K_ESCAPE)
    {chars data : List Byte} (h : unquote chars = some data) :
    chars.foldl Kermit.k_data_char k = k.put data := by
  induction chars using unquote.induct generalizing k data with
  | case1 =>
      obtain rfl : [] = data := by simpa [unquote] using h
      rw [Kermit.put_nil boundary]
      rfl
  | case2 => simp [unquote] at h
  | case3 c plain =>
      obtain rfl : [c] = data := by simpa [unquote, plain] using h
      exact k_data_char_plain boundary (quote ▸ plain)
  | case4 c' chars ih =>
      rw [unquote, if_pos rfl, Option.map_eq_some_iff] at h
      obtain ⟨data, h, rfl⟩ := h
      rw [List.foldl_cons, List.foldl_cons, ← quote, k_data_char_quoted boundary,
        ih (k := k.put [ktrans c']) rfl quote h, Kermit.put_put]
      rfl
  | case5 c c' chars plain ih =>
      rw [unquote, if_neg plain, Option.map_eq_some_iff] at h
      obtain ⟨data, h, rfl⟩ := h
      rw [List.foldl_cons, k_data_char_plain boundary (quote ▸ plain),
        ih (k := k.put [c]) rfl quote h, Kermit.put_put]
      rfl

theorem send_parms_foldl {chars : List Byte} (room : k.send_parms.length ≤ 19) :
    chars.foldl (Kermit.dataChar SEND_TYPE) k =
      { k with send_parms := (k.send_parms ++ chars).take 19 } := by
  induction chars generalizing k with
  | nil => simp [List.take_of_length_le room]
  | cons c chars ih =>
      rw [List.foldl_cons, Kermit.dataChar, if_neg (by decide), if_pos rfl]
      split
      · next h =>
          rw [ih (by simp only [List.length_append, List.length_singleton]; omega)]
          simp
      · next h =>
          have full : k.send_parms.length = 19 := by omega
          rw [ih room, List.take_append_of_le_length (by omega),
            List.take_append_of_le_length (by omega)]

theorem other_foldl {k_state : Byte} (data : k_state ≠ DATA_TYPE) (send : k_state ≠ SEND_TYPE)
    (chars : List Byte) : chars.foldl (Kermit.dataChar k_state) k = k := by
  induction chars with
  | nil => rfl
  | cons c chars ih => rw [List.foldl_cons, Kermit.dataChar, if_neg data, if_neg send, ih]

/-- The parameters of the sender leave the quote character what it is meant to be. -/
theorem handle_send_packet_quote {p : Packet} (ok : p.Ok) (send : p.type = SEND_TYPE)
    (parms : k.send_parms = p.data.take 19) : k.handle_send_packet.his_quote = K_ESCAPE := by
  have six : ∀ bytes, bytes ≤ p.data.length →
      (if 6 ≤ bytes then k.send_parms.getD 5 0#8 else K_ESCAPE) = K_ESCAPE := by
    intro bytes le
    split
    · next six =>
        rcases ok.quote send with short | quote
        · omega
        · rw [parms, List.getD_eq_getElem?_getD, List.getElem?_take_of_lt (by omega),
            ← List.getD_eq_getElem?_getD]
          exact quote
    · rfl
  refine six _ ?_
  have length := congrArg List.length parms
  rw [List.length_take] at length
  split <;> omega

end Data

/-! ## A round with the packet that was sent -/

/-- Noise without the beginning of a packet, and without ^C. -/
def Noise (noise : List Byte) : Prop := ∀ c ∈ noise, c ≠ START_CHAR ∧ c ≠ ETX_CHAR

/-- The receiver behind a packet, from the receiver that has looked at its number. -/
structure Taken (k : Kermit) (data : List Byte) (k' : Kermit) : Prop where
  memory : k'.memory = store k.memory k.cur.addr data
  cur : k'.cur = ⟨k.cur.addr + data.length, false⟩
  saved : k'.saved = k.saved
  last_n : k'.last_n = k.last_n
  quote : k'.his_quote = K_ESCAPE

theorem waitStart_noise {noise : List Byte} (h : Noise noise) (rest : List Byte) :
    waitStart (noise ++ START_CHAR :: rest) = some (true, rest) := by
  induction noise with
  | nil => rfl
  | cons c noise ih =>
      obtain ⟨⟨start, etx⟩, h⟩ := List.forall_mem_cons.mp h
      rw [List.cons_append, waitStart, if_neg start, if_neg etx, ih h]

/-- What the characters of a packet do to the receiver. -/
theorem taken_foldl {k : Kermit} (boundary : k.cur.escape = false)
    (quote : k.his_quote = K_ESCAPE) (parms : k.send_parms = []) {p : Packet} (ok : p.Ok) :
    let k' := p.data.foldl (Kermit.dataChar p.type) k
    Taken k p.decoded (if p.type = SEND_TYPE then k'.handle_send_packet else k') := by
  intro k'
  by_cases data : p.type = DATA_TYPE
  · obtain ⟨plain, h⟩ := Option.isSome_iff_exists.mp (ok.quotes data)
    have stored : k' = k.put plain := by
      rw [← k_data_foldl boundary quote h]
      simp only [k', data]
      rfl
    rw [if_neg (by rw [data]; decide), Packet.decoded, if_pos data, h, stored]
    exact ⟨rfl, rfl, rfl, rfl, quote⟩
  · have nothing : p.decoded = [] := by rw [Packet.decoded, if_neg data]
    rw [nothing]
    by_cases send : p.type = SEND_TYPE
    · have gathered : k' = { k with send_parms := p.data.take 19 } := by
        simp only [k', send]
        rw [send_parms_foldl (by simp [parms]), parms, List.nil_append]
      rw [if_pos send]
      refine ⟨?_, ?_, ?_, ?_, handle_send_packet_quote ok send (by rw [gathered])⟩
      · rw [gathered, store_nil]
        rfl
      · rw [gathered]
        simp [Kermit.handle_send_packet, ← boundary]
      · rw [gathered]
        rfl
      · rw [gathered]
        rfl
    · have same : k' = k := other_foldl data send _
      rw [if_neg send, same]
      exact ⟨(store_nil _ _).symm, by simp [← boundary], rfl, rfl, quote⟩

/-- The packet that is sent, behind noise, is acknowledged and its data stored. -/
theorem round_encode {k : Kermit} {p : Packet} (ok : p.Ok) {noise : List Byte} (h : Noise noise)
    (i : Nat) (boundary : (k.checkpoint (i % 64)).cur.escape = false)
    (quote : k.his_quote = K_ESCAPE) (rest : List Byte) :
    ∃ k', round k (noise ++ p.encode i ++ rest) = .ack p.type k' rest ∧
      Taken (k.checkpoint (i % 64)) p.decoded k' := by
  set start : Kermit := { k with send_parms := [] } with hstart
  have same : start.checkpoint (i % 64) = { k.checkpoint (i % 64) with send_parms := [] } := by
    simp only [hstart, Kermit.checkpoint]
    split <;> rfl
  have kept : (k.checkpoint (i % 64)).his_quote = K_ESCAPE := by
    rw [Kermit.checkpoint]
    split <;> exact quote
  have taken := taken_foldl (k := start.checkpoint (i % 64)) (by rw [same]; exact boundary)
    (by rw [same]; exact kept) (by rw [same]) ok
  refine ⟨_, ?_, ⟨?_, ?_, ?_, ?_, taken.quote⟩⟩
  · rw [round, Packet.encode, List.append_assoc, List.cons_append, waitStart_noise h]
    simp only []
    rw [← hstart, packet_run ok]
  · rw [taken.memory, same]
  · rw [taken.cur, same]
  · rw [taken.saved, same]
  · rw [taken.last_n, same]

end UBoot.CmdLoad
