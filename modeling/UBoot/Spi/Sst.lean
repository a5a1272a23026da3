/-
# SST flash chips

`sst_write` of `drivers/mtd/spi/sst.c`. Words are programmed one behind the other, in a mode of the
chip that begins with the first of them and ends when writing is disabled; a byte in front of the
words and one behind them are programmed on their own. The loop over the words compares with the
length less one, which is a large number when the length is zero.
-/

import UBoot.Spi.Commands

namespace UBoot.Spi.Sst

open UBoot.Lib

def CMD_SST_WREN : Byte := 0x06
def CMD_SST_WRDI : Byte := 0x04
def CMD_SST_BP : Byte := 0x02
def CMD_SST_AAI_WP : Byte := 0xad

/-- The cells of a chip, whether writing is enabled, and where the next word goes in the mode for
words. -/
structure Chip where
  mem : Nat → Byte
  writeEnabled : Bool
  aai : Option Nat

instance : HasCells Chip := ⟨Chip.mem⟩

/-- A word is programmed, which only clears bits. -/
def programWord (mem : Nat → Byte) (addr : Nat) (low high : Byte) : Nat → Byte :=
  writePage (· &&& ·) 2 mem addr [low, high]

/-- What a chip does on a command. In the mode for words it takes words, and the end of the mode. -/
def command (cmd data : List Byte) (chip : Chip) : Chip :=
  match chip.aai with
  | some addr =>
      match cmd with
      | op :: rest =>
          if op = CMD_SST_WRDI then ⟨chip.mem, false, none⟩
          else if op = CMD_SST_AAI_WP then
            match rest ++ data with
            | low :: high :: _ =>
                { chip with
                  mem := programWord chip.mem addr low high
                  aai := some ((addr + 2) % 2 ^ 24) }
            | _ => chip
          else chip
      | [] => chip
  | none =>
      match cmd with
      | [op] =>
          if op = CMD_SST_WREN then { chip with writeEnabled := true }
          else if op = CMD_SST_WRDI then { chip with writeEnabled := false }
          else chip
      | [op, a, b, c] =>
          if chip.writeEnabled then
            if op = CMD_SST_BP then
              match data with
              | d :: _ => ⟨blend (· &&& ·) chip.mem (address a b c) [d], false, none⟩
              | [] => chip
            else if op = CMD_SST_AAI_WP then
              match data with
              | low :: high :: _ =>
                  { chip with
                    mem := programWord chip.mem (address a b c) low high
                    aai := some ((address a b c + 2) % 2 ^ 24) }
              | _ => chip
            else chip
          else chip
      | _ => chip

/-- Whether all commands have succeeded, and the chip then; `none` when a byte behind the buffer is
read. -/
abbrev Result := Option (Bool × Run Chip)

section Source

variable (bus : Bus Chip)

/-- A command is sent, and what comes next is done if it succeeds. -/
def sendThen (effect : Chip → Chip) (r : Run Chip) (next : Run Chip → Result) : Result :=
  let (ok, r) := bus.send effect r
  if ok then next r else some (false, r)

def sst_enable_writing : Run Chip → (Run Chip → Result) → Result :=
  sendThen bus (command [CMD_SST_WREN] [])

def sst_disable_writing : Run Chip → (Run Chip → Result) → Result :=
  sendThen bus (command [CMD_SST_WRDI] [])

/-- `sst_wait_ready`: the status is read -/
def sst_wait_ready : Run Chip → (Run Chip → Result) → Result := sendThen bus id

/-- The three address bytes of a command. -/
def addressBytes (offset : Nat) : List Byte :=
  [byteOf (offset / 65536), byteOf (offset / 256), byteOf offset]

def sst_byte_write (offset : Nat) (b : Option Byte) (r : Run Chip) (next : Run Chip → Result) :
    Result :=
  sst_enable_writing bus r fun r =>
    match b with
    | none => none
    | some b =>
        sendThen bus (command (CMD_SST_BP :: addressBytes offset) [b]) r fun r =>
          sst_wait_ready bus r next

/-- `len - 1` of a `size_t` -/
def lessOne (len : Nat) : Nat := if len = 0 then 2 ^ 32 - 1 else len - 1

/-- The loop over the words and what is behind it. Only the first word comes with an address. -/
def wordLoop (buf : List Byte) (addr : List Byte) (offset actual : Nat) (r : Run Chip) : Result :=
  if actual < lessOne buf.length then
    if h : actual + 1 < buf.length then
      sendThen bus (command (CMD_SST_AAI_WP :: addr) [buf[actual], buf[actual + 1]]) r fun r =>
        sst_wait_ready bus r fun r => wordLoop buf [] (offset + 2) (actual + 2) r
    else none
  else
    sst_disable_writing bus r fun r =>
      if actual ≠ buf.length then
        sst_byte_write bus offset buf[actual]? r fun r => some (true, r)
      else some (true, r)
termination_by buf.length - actual
decreasing_by omega

/-- `sst_write`, with the address bytes in a buffer of `len` bytes -/
def sst_write (offset : Nat) (buf : List Byte) (r : Run Chip) : Result :=
  let actual := offset % 2
  let words := fun r => sst_enable_writing bus r fun r =>
    wordLoop bus buf (addressBytes (offset + actual)) (offset + actual) actual r
  if actual ≠ 0 then sst_byte_write bus offset buf[0]? r words else words r

end Source

/-! ## What is expected -/

/-- The result is there, and tells whether a command has failed; cells that are to be kept are kept,
and without a failure the chip is as it should be. -/
def Ends (bus : Bus Chip) (keep : Nat → Prop) (mem : Nat → Byte) (n : Nat) (post : Chip → Prop)
    (x : Result) : Prop :=
  ∃ ok r, x = some (ok, r) ∧ n ≤ r.count ∧
    (ok = true ↔ ∀ i, n ≤ i → i < r.count → bus.answers i = true) ∧
    (ok = true → post r.chip) ∧ ∀ a, keep a → r.chip.mem a = mem a

/-- The bytes are programmed, and writing is disabled. -/
def Written (mem : Nat → Byte) (offset : Nat) (buf : List Byte) (chip : Chip) : Prop :=
  chip.mem = blend (· &&& ·) mem offset buf ∧ chip.writeEnabled = false ∧ chip.aai = none

/-- A range of a chip that is not in the mode for words is written as it should be. -/
def Right (offset len : Nat) : Prop :=
  ∀ (bus : Bus Chip) (buf : List Byte), buf.length = len → ∀ mem writeEnabled n,
    Ends bus (fun a => a < offset ∨ offset + len ≤ a) mem n (Written mem offset buf)
      (sst_write bus offset buf ⟨⟨mem, writeEnabled, none⟩, n⟩)

/-! ## Commands in sequence -/

variable {bus : Bus Chip} {keep : Nat → Prop} {mem : Nat → Byte} {post : Chip → Prop}
  {r : Run Chip} {next : Run Chip → Result}

theorem ends_done {n : Nat} (hcount : n = r.count) (hpost : post r.chip)
    (hkeep : ∀ a, keep a → r.chip.mem a = mem a) : Ends bus keep mem n post (some (true, r)) :=
  ⟨true, r, rfl, hcount.le, iff_of_true rfl fun i hle hlt => by omega, fun _ => hpost, hkeep⟩

/-- A command that keeps what is to be kept, and what comes next if it succeeds. -/
theorem Ends.send {effect : Chip → Chip} (hmem : ∀ a, keep a → r.chip.mem a = mem a)
    (hafter : ∀ a, keep a → (effect r.chip).mem a = mem a)
    (hnext : Ends bus keep mem (r.count + 1) post (next ⟨effect r.chip, r.count + 1⟩)) :
    Ends bus keep mem r.count post (sendThen bus effect r next) := by
  rw [sendThen, Bus.send]
  by_cases hok : bus.answers r.count = true
  · rw [if_pos hok]
    obtain ⟨ok, r', heq, hle, hiff, hpost, hkept⟩ := hnext
    refine ⟨ok, r', heq, by omega, hiff.trans ?_, hpost, hkept⟩
    constructor
    · intro hall i hi hlt
      obtain rfl | hgt := hi.eq_or_lt
      · exact hok
      · exact hall i hgt hlt
    · exact fun hall i hi hlt => hall i (by omega) hlt
  · rw [if_neg hok]
    refine ⟨false, _, rfl, Nat.le_succ _, iff_of_false Bool.false_ne_true fun hall => ?_,
      fun h => absurd h Bool.false_ne_true, fun a ha => ?_⟩
    · exact hok (hall _ le_rfl (Nat.lt_succ_self _))
    · exact (bus.broken_eq _ _ _ a ((hafter a ha).trans (hmem a ha).symm)).trans (hmem a ha)

/-! ## Bytes and words -/

section Commands

variable {low high : Byte} {offset : Nat}

theorem address_offset (h : offset < 2 ^ 24) :
    address (byteOf (offset / 65536)) (byteOf (offset / 256)) (byteOf offset) = offset := by
  rw [address_eq, Nat.mod_eq_of_lt h]

theorem programWord_eq (heven : offset % 2 = 0) :
    programWord mem offset low high = blend (· &&& ·) mem offset [low, high] :=
  writePage_eq_blend _ _ _ (by rw [heven]; rfl)

theorem enable_eq {chip : Chip} (h : chip.aai = none) :
    command [CMD_SST_WREN] [] chip = { chip with writeEnabled := true } := by
  rw [command, h]
  rfl

theorem disable_eq (chip : Chip) : command [CMD_SST_WRDI] [] chip = ⟨chip.mem, false, none⟩ := by
  obtain ⟨m, enabled, aai⟩ := chip
  cases aai with
  | none => rfl
  | some addr => rfl

theorem byte_eq (low : Byte) {chip : Chip} (haai : chip.aai = none) (henabled : chip.writeEnabled = true)
    (h : offset < 2 ^ 24) : command (CMD_SST_BP :: addressBytes offset) [low] chip =
      ⟨blend (· &&& ·) chip.mem offset [low], false, none⟩ := by
  obtain ⟨m, enabled, aai⟩ := chip
  subst haai henabled
  have hbyte : command (CMD_SST_BP :: addressBytes offset) [low] ⟨m, true, none⟩ =
      ⟨blend (· &&& ·) m (address (byteOf (offset / 65536)) (byteOf (offset / 256))
        (byteOf offset)) [low], false, none⟩ := rfl
  rw [hbyte, address_offset h]

/-- The chip takes a word that is sent with these address bytes as the one at the offset. -/
def Takes (addr : List Byte) (offset : Nat) (chip : Chip) : Prop :=
  (addr = addressBytes offset ∧ chip.aai = none ∧ chip.writeEnabled = true) ∨
    (addr = [] ∧ chip.aai = some (offset % 2 ^ 24))

theorem word_eq (low high : Byte) {chip : Chip} {addr : List Byte} (htakes : Takes addr offset chip)
    (heven : offset % 2 = 0) (h : offset + 2 ≤ 2 ^ 24) :
    (command (CMD_SST_AAI_WP :: addr) [low, high] chip).mem =
        blend (· &&& ·) chip.mem offset [low, high] ∧
      (command (CMD_SST_AAI_WP :: addr) [low, high] chip).aai = some ((offset + 2) % 2 ^ 24) := by
  rw [← programWord_eq heven]
  obtain ⟨m, enabled, aai⟩ := chip
  obtain ⟨rfl, rfl, rfl⟩ | ⟨rfl, rfl⟩ := htakes
  · have hword : command (CMD_SST_AAI_WP :: addressBytes offset) [low, high] ⟨m, true, none⟩ =
        ⟨programWord m (address (byteOf (offset / 65536)) (byteOf (offset / 256)) (byteOf offset))
          low high, true, some ((address (byteOf (offset / 65536)) (byteOf (offset / 256))
            (byteOf offset) + 2) % 2 ^ 24)⟩ := rfl
    rw [hword, address_offset (by omega)]
    exact ⟨rfl, rfl⟩
  · have hword : command [CMD_SST_AAI_WP] [low, high] ⟨m, enabled, some (offset % 2 ^ 24)⟩ =
        ⟨programWord m (offset % 2 ^ 24) low high, enabled,
          some ((offset % 2 ^ 24 + 2) % 2 ^ 24)⟩ := rfl
    rw [hword, Nat.mod_eq_of_lt (by omega : offset < 2 ^ 24)]
    exact ⟨rfl, rfl⟩

end Commands

/-! ## The loop -/

variable {buf : List Byte}

theorem lessOne_eq (h : buf ≠ []) : lessOne buf.length = buf.length - 1 := by
  rw [lessOne, if_neg (mt List.eq_nil_of_length_eq_zero h)]

/-- A byte on its own. -/
theorem byte_write_ends {offset : Nat} {b : Byte} (hmem : ∀ a, keep a → r.chip.mem a = mem a)
    (haai : r.chip.aai = none) (hlt : offset < 2 ^ 24) (hnot : ¬keep offset)
    (hnext : Ends bus keep mem (r.count + 3) post
      (next ⟨⟨blend (· &&& ·) r.chip.mem offset [b], false, none⟩, r.count + 3⟩)) :
    Ends bus keep mem r.count post (sst_byte_write bus offset (some b) r next) := by
  have henable := enable_eq haai
  have hbyte := byte_eq b (rfl : (⟨r.chip.mem, true, none⟩ : Chip).aai = none) rfl hlt
  have hblend : ∀ a, keep a → blend (· &&& ·) r.chip.mem offset [b] a = mem a := by
    intro a ha
    have hne : a ≠ offset := by
      rintro rfl
      exact hnot ha
    rw [blend_outside (by rw [List.length_singleton]; omega)]
    exact hmem a ha
  rw [haai] at henable
  rw [sst_byte_write, sst_enable_writing]
  refine Ends.send hmem (by rw [henable]; exact hmem) ?_
  rw [henable]
  refine Ends.send (r := ⟨⟨r.chip.mem, true, none⟩, r.count + 1⟩) hmem
    (by rw [hbyte]; exact hblend) ?_
  rw [hbyte, sst_wait_ready]
  exact Ends.send (r := ⟨⟨_, false, none⟩, r.count + 2⟩) hblend hblend hnext

/-- What holds in front of the loop and is kept by each word holds where the loop ends. -/
theorem wordLoop_rule (inv : List Byte → Nat → Nat → Chip → Prop) (hbuf : buf ≠ [])
    (hmem : ∀ addr offset actual chip, inv addr offset actual chip →
      ∀ a, keep a → chip.mem a = mem a)
    (hword : ∀ addr offset actual chip (h : actual + 1 < buf.length), inv addr offset actual chip →
      inv [] (offset + 2) (actual + 2)
        (command (CMD_SST_AAI_WP :: addr) [buf[actual], buf[actual + 1]] chip))
    (hend : ∀ addr offset actual r, inv addr offset actual r.chip → buf.length ≤ actual + 1 →
      actual ≤ buf.length → Ends bus keep mem r.count post
        (sst_disable_writing bus r fun r =>
          if actual ≠ buf.length then
            sst_byte_write bus offset buf[actual]? r fun r => some (true, r)
          else some (true, r)))
    {addr : List Byte} {offset actual : Nat} {r : Run Chip} (h : inv addr offset actual r.chip)
    (hle : actual ≤ buf.length) :
    Ends bus keep mem r.count post (wordLoop bus buf addr offset actual r) := by
  induction hn : buf.length - actual using Nat.strong_induction_on
    generalizing addr offset actual r with
  | _ n ih =>
      rw [wordLoop, lessOne_eq hbuf]
      split
      · next hmore =>
          have hlt : actual + 1 < buf.length := by omega
          have hnext := hword _ _ _ _ hlt h
          rw [dif_pos hlt]
          refine Ends.send (hmem _ _ _ _ h) (hmem _ _ _ _ hnext) ?_
          refine Ends.send (hmem _ _ _ _ hnext) (hmem _ _ _ _ hnext) ?_
          exact ih _ (by omega) hnext (by omega) rfl
      · exact hend _ _ _ _ h (by omega) hle

/-! ## Ranges of the chip -/

/-- The bytes so far are programmed. -/
structure SoFar (mem : Nat → Byte) (start : Nat) (buf addr : List Byte) (offset actual : Nat)
    (chip : Chip) : Prop where
  offset_eq : offset = start + actual
  even : offset % 2 = 0
  takes : Takes addr offset chip
  le : actual ≤ buf.length
  mem : chip.mem = blend (· &&& ·) mem start (buf.take actual)

theorem SoFar.kept {start offset actual : Nat} {addr : List Byte} {chip : Chip}
    (h : SoFar mem start buf addr offset actual chip) (a : Nat)
    (ha : a < start ∨ start + buf.length ≤ a) : chip.mem a = mem a := by
  have hlength := List.length_take_le' actual buf
  rw [h.mem, blend_outside (by omega)]

theorem SoFar.word {start offset actual : Nat} {addr : List Byte} {chip : Chip}
    (h : SoFar mem start buf addr offset actual chip) (hend : start + buf.length ≤ 2 ^ 24)
    (hlt : actual + 1 < buf.length) :
    SoFar mem start buf [] (offset + 2) (actual + 2)
      (command (CMD_SST_AAI_WP :: addr) [buf[actual], buf[actual + 1]] chip) := by
  obtain ⟨rfl, heven, htakes, hle, hmem⟩ := h
  obtain ⟨hword, haai⟩ := word_eq buf[actual] buf[actual + 1] htakes heven
    (by omega)
  have htake : buf.take (actual + 2) = buf.take actual ++ [buf[actual], buf[actual + 1]] := by
    rw [List.take_succ_eq_append_getElem hlt, List.take_succ_eq_append_getElem (by omega),
      List.append_assoc]
    rfl
  have hlength : (buf.take actual).length = actual := List.length_take_of_le hle
  refine ⟨by omega, by omega, .inr ⟨rfl, haai⟩, hlt, ?_⟩
  rw [hword, hmem, htake, ← blend_append, hlength]

/-- Behind the loop. -/
theorem SoFar.end {start offset actual : Nat} {addr : List Byte} {r : Run Chip}
    (h : SoFar mem start buf addr offset actual r.chip) (hend : start + buf.length ≤ 2 ^ 24)
    (hlast : buf.length ≤ actual + 1) :
    Ends bus (fun a => a < start ∨ start + buf.length ≤ a) mem r.count (Written mem start buf)
      (sst_disable_writing bus r fun r =>
        if actual ≠ buf.length then
          sst_byte_write bus offset buf[actual]? r fun r => some (true, r)
        else some (true, r)) := by
  have hkept := h.kept
  obtain ⟨rfl, -, -, hle, hmem⟩ := h
  have hdisable := disable_eq r.chip
  rw [sst_disable_writing]
  refine Ends.send hkept (by rw [hdisable]; exact hkept) ?_
  rw [hdisable]
  split
  · next hne =>
      have hlt : actual < buf.length := by omega
      have hlength : (buf.take actual).length = actual := List.length_take_of_le hle
      have hall : blend (· &&& ·) r.chip.mem (start + actual) [buf[actual]] =
          blend (· &&& ·) mem start buf := by
        have happend := blend_append (· &&& ·) mem start (buf.take actual) [buf[actual]]
        rw [hlength] at happend
        rw [hmem, happend, ← List.take_succ_eq_append_getElem hlt,
          List.take_of_length_le (by omega)]
      rw [List.getElem?_eq_getElem hlt]
      refine byte_write_ends hkept rfl (by omega) (by omega) ?_
      dsimp only
      rw [hall]
      exact ends_done rfl ⟨rfl, rfl, rfl⟩ fun a ha =>
        blend_outside (f := fun x y => x &&& y) ha
  · next heq =>
      rw [not_not] at heq
      refine ends_done rfl ⟨?_, rfl, rfl⟩ hkept
      rw [hmem, heq, List.take_length]

theorem right_of_reached {offset len : Nat} (hlen : 0 < len) (hend : offset + len ≤ 2 ^ 24) :
    Right offset len := by
  rintro bus buf rfl mem writeEnabled n
  have hbuf : buf ≠ [] := List.length_pos_iff.mp hlen
  have hwords (actual : Nat) (r : Run Chip) (haai : r.chip.aai = none) (hle : actual ≤ buf.length)
      (heven : (offset + actual) % 2 = 0)
      (hmem : r.chip.mem = blend (· &&& ·) mem offset (buf.take actual)) :
      Ends bus (fun a => a < offset ∨ offset + buf.length ≤ a) mem r.count
        (Written mem offset buf) (sst_enable_writing bus r fun r =>
          wordLoop bus buf (addressBytes (offset + actual)) (offset + actual) actual r) := by
    have hready : SoFar mem offset buf (addressBytes (offset + actual)) (offset + actual) actual
        { r.chip with writeEnabled := true } := ⟨rfl, heven, .inl ⟨rfl, haai, rfl⟩, hle, hmem⟩
    have henable := enable_eq haai
    rw [sst_enable_writing]
    refine Ends.send hready.kept (by rw [henable]; exact hready.kept) ?_
    rw [henable]
    exact wordLoop_rule (SoFar mem offset buf) hbuf (fun _ _ _ _ h => h.kept)
      (fun _ _ _ _ hlt h => h.word hend hlt) (fun _ _ _ _ h hlast _ => h.end hend hlast) hready hle
  rw [sst_write]
  dsimp only
  split
  · next hodd =>
      have hone : offset % 2 = 1 := by omega
      have hfirst : buf.take 1 = [buf[0]] := by
        rw [List.take_succ_eq_append_getElem hlen]
        rfl
      rw [hone, List.getElem?_eq_getElem hlen]
      refine byte_write_ends (fun _ _ => rfl) rfl (by omega) (by omega) ?_
      exact hwords 1 ⟨⟨_, false, none⟩, n + 3⟩ rfl hlen (by omega) (by rw [hfirst])
  · next heven =>
      rw [not_not] at heven
      rw [heven]
      exact hwords 0 ⟨⟨mem, writeEnabled, none⟩, n⟩ rfl (Nat.zero_le _) heven
        (by rw [List.take_zero, blend_nil])

/-! ## Other ranges -/

/-- The address counter is one of 24 bits, and what is behind them is as it was. -/
structure Bounded (mem : Nat → Byte) (chip : Chip) : Prop where
  lt : ∀ addr, chip.aai = some addr → addr < 2 ^ 24
  kept : ∀ a, 2 ^ 24 ≤ a → chip.mem a = mem a

theorem programWord_behind {addr a : Nat} {low high : Byte} (h : addr < 2 ^ 24)
    (ha : 2 ^ 24 ≤ a) : programWord mem addr low high a = mem a :=
  writePage_outside _ _ _ Nat.two_pos (by omega)

theorem address_lt (a b c : Byte) : address a b c < 2 ^ 24 := by
  have ha := a.isLt
  have hb := b.isLt
  have hc := c.isLt
  rw [address]
  omega

theorem Bounded.command {chip : Chip} (h : Bounded mem chip) (cmd data : List Byte) :
    Bounded mem (command cmd data chip) := by
  obtain ⟨hlt, hkept⟩ := h
  have hnext (x : Nat) : ∀ addr, some (x % 2 ^ 24) = some addr → addr < 2 ^ 24 := by
    rintro _ ⟨⟩
    exact Nat.mod_lt _ (by decide)
  unfold Sst.command
  split
  · next addr haai =>
      split
      · split
        · exact ⟨nofun, hkept⟩
        · split
          · split
            · refine ⟨hnext _, fun a ha => ?_⟩
              exact (programWord_behind (hlt _ haai) ha).trans (hkept a ha)
            · exact ⟨hlt, hkept⟩
          · exact ⟨hlt, hkept⟩
      · exact ⟨hlt, hkept⟩
  · next haai =>
      split
      · split
        · exact ⟨hlt, hkept⟩
        · split
          · exact ⟨hlt, hkept⟩
          · exact ⟨hlt, hkept⟩
      · next op x y z =>
          have haddr := address_lt x y z
          split
          · split
            · split
              · next d _ =>
                  refine ⟨nofun, fun a ha => Eq.trans ?_ (hkept a ha)⟩
                  refine blend_outside (f := fun x y => x &&& y) (.inr ?_)
                  rw [List.length_singleton]
                  omega
              · exact ⟨hlt, hkept⟩
            · split
              · split
                · refine ⟨hnext _, fun a ha => ?_⟩
                  exact (programWord_behind haddr ha).trans (hkept a ha)
                · exact ⟨hlt, hkept⟩
              · exact ⟨hlt, hkept⟩
          · exact ⟨hlt, hkept⟩
      · exact ⟨hlt, hkept⟩

/-- What is behind the addresses of 24 bits stays as it is. -/
abbrev EndsBounded (bus : Bus Chip) (mem : Nat → Byte) (n : Nat) (x : Result) : Prop :=
  Ends bus (2 ^ 24 ≤ ·) mem n (fun _ => True) x

theorem Bounded.send {effect : Chip → Chip} (h : Bounded mem r.chip)
    (heffect : Bounded mem (effect r.chip))
    (hnext : ∀ r' : Run Chip, Bounded mem r'.chip → EndsBounded bus mem r'.count (next r')) :
    EndsBounded bus mem r.count (sendThen bus effect r next) :=
  Ends.send h.kept heffect.kept (hnext ⟨_, _⟩ heffect)

theorem Bounded.byte_write (h : Bounded mem r.chip) (offset : Nat) (b : Byte)
    (hnext : ∀ r' : Run Chip, Bounded mem r'.chip → EndsBounded bus mem r'.count (next r')) :
    EndsBounded bus mem r.count (sst_byte_write bus offset (some b) r next) := by
  rw [sst_byte_write, sst_enable_writing]
  refine h.send (h.command _ _) fun r h => ?_
  refine h.send (h.command _ _) fun r h => ?_
  rw [sst_wait_ready]
  exact h.send h hnext

theorem Bounded.write (bus : Bus Chip) (r : Run Chip) (h : Bounded mem r.chip) (offset : Nat)
    (hbuf : buf ≠ []) :
    EndsBounded bus mem r.count (sst_write bus offset buf r) := by
  have hpos := List.length_pos_iff.mpr hbuf
  have hdone {r : Run Chip} (h : Bounded mem r.chip) :
      EndsBounded bus mem r.count (some (true, r)) := ends_done rfl trivial h.kept
  have hwords (addr : List Byte) (offset actual : Nat) (hle : actual ≤ buf.length)
      (r : Run Chip) (h : Bounded mem r.chip) : EndsBounded bus mem r.count
        (sst_enable_writing bus r fun r => wordLoop bus buf addr offset actual r) := by
    rw [sst_enable_writing]
    refine h.send (h.command _ _) fun r h => ?_
    refine wordLoop_rule (fun _ _ _ chip => Bounded mem chip) hbuf (fun _ _ _ _ h => h.kept)
      (fun _ _ _ _ _ h => h.command _ _) ?_ h hle
    intro _ offset actual r h _ hle
    rw [sst_disable_writing]
    refine h.send (h.command _ _) fun r h => ?_
    split
    · next hne =>
        rw [List.getElem?_eq_getElem (by omega)]
        exact h.byte_write _ _ fun r h => hdone h
    · exact hdone h
  rw [sst_write]
  dsimp only
  split
  · rw [List.getElem?_eq_getElem hpos]
    exact h.byte_write _ _ (hwords _ _ _ (by omega))
  · exact hwords _ _ _ (by omega) r h

/-- A bus on which all commands succeed. -/
def soundBus : Bus Chip := ⟨fun _ => true, fun _ before _ => before, fun _ _ _ _ _ => rfl⟩

theorem sendThen_soundBus (effect : Chip → Chip) (r : Run Chip) (next : Run Chip → Result) :
    sendThen soundBus effect r next = next ⟨effect r.chip, r.count + 1⟩ := rfl

/-- Without bytes, the first one is read nevertheless. -/
theorem write_nothing (offset : Nat) (r : Run Chip) : sst_write soundBus offset [] r = none := by
  rw [sst_write]
  dsimp only
  split
  · rw [sst_byte_write, sst_enable_writing, sendThen_soundBus]
    rfl
  · next heven =>
      rw [not_not] at heven
      rw [sst_enable_writing, sendThen_soundBus, wordLoop, heven, if_pos (by decide),
        dif_neg (by decide)]

theorem not_right_zero (offset : Nat) : ¬Right offset 0 := by
  intro h
  obtain ⟨_, _, hwrite, -⟩ := h soundBus [] rfl (fun _ => 0) false 0
  rw [write_nothing] at hwrite
  exact nomatch hwrite

/-- A zero behind the addresses of 24 bits is not written. -/
theorem not_right_behind {offset len : Nat} (hlen : 0 < len) (hend : 2 ^ 24 < offset + len) :
    ¬Right offset len := by
  intro h
  have hlength : (List.replicate len (0 : Byte)).length = len := List.length_replicate
  have hbuf : List.replicate len (0 : Byte) ≠ [] :=
    List.ne_nil_of_length_pos (hlength.symm ▸ hlen)
  have hstart : Bounded (fun _ => 0xff) ⟨fun _ => 0xff, false, none⟩ := ⟨nofun, fun _ _ => rfl⟩
  obtain ⟨ok, r, heq, -, hok, hpost, -⟩ := h soundBus _ hlength (fun _ => 0xff) false 0
  obtain ⟨ok', r', heq', -, -, -, hkept⟩ :=
    Bounded.write soundBus ⟨_, 0⟩ hstart offset hbuf
  obtain ⟨rfl, rfl⟩ := Prod.mk.inj (Option.some.inj (heq.symm.trans heq'))
  have hlast := hkept (offset + (len - 1)) (by omega)
  have hzero : (List.replicate len (0 : Byte))[len - 1]? = some 0 := by
    rw [List.getElem?_replicate_of_lt (by omega)]
  rw [(hpost (hok.mpr fun _ _ _ => rfl)).1, blend_inside hzero] at hlast
  exact absurd hlast (by simp)

/-- A range is written as it should be if there is a byte in it, and the addresses of 24 bits reach
all of it. -/
theorem sst_right_iff (offset len : Nat) : Right offset len ↔ 0 < len ∧ offset + len ≤ 2 ^ 24 := by
  constructor
  · intro h
    have hlen : 0 < len := by
      rw [Nat.pos_iff_ne_zero]
      rintro rfl
      exact not_right_zero offset h
    exact ⟨hlen, not_lt.mp fun hend => not_right_behind hlen hend h⟩
  · rintro ⟨hlen, hend⟩
    exact right_of_reached hlen hend

theorem not_sst_right : ¬∀ offset len, Right offset len :=
  fun h => not_right_zero 0 (h 0 0)

end UBoot.Spi.Sst
