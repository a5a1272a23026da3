/-
# What a record announces

`srec_decode` of `common/s_record.c` with each of its reads: the line is given with its NUL,
and a read behind the NUL has no result. What the call has stored in `data` is kept on every
exit. A record is consistent when it announces the pairs that it has; the length that a record
announces is not compared with the size of its own address and checksum.
-/

import UBoot.CmdLoad.SRecord

namespace UBoot.CmdLoad

open UBoot.Lib

def SREC_MAXBINLEN : Nat := 255

namespace Reads

/-- `hex2_bin`. The second character is read only behind a digit. -/
def hex2_bin (s : List Byte) : Option Int := do
  let i := hex1_bin (← s[0]?)
  if i < 0 then return -1
  let j := hex1_bin (← s[1]?)
  if j < 0 then return -1
  return i * 16 + j

/-- The pairs that are read one after the other up to the first that is none: their bytes, and
when all of them were read the rest of the line and the checksum. -/
def readPairs : Nat → List Byte → Byte → Option (List Byte × Option (List Byte × Byte))
  | 0, input, chksum => some ([], some (input, chksum))
  | n + 1, input, chksum => do
      let v ← hex2_bin input
      if v < 0 then return ([], none)
      let b := BitVec.ofInt 8 v
      let (bytes, next) ← readPairs n (input.drop 2) (chksum + b)
      return (b :: bytes, next)

/-- `for (; *input; ++input) if (*input == 'S') { ++input; break; }` -/
def skipToS : List Byte → Option (List Byte)
  | [] => none
  | c :: rest =>
      if c = 0#8 then some (c :: rest) else if c = 0x53#8 then some rest else skipToS rest

/-- The return value of `srec_decode`, with what it leaves in `*count`, `*addr` and, from the
begin on, in `data`. -/
structure Decoded where
  type : Int
  count : Int
  addr : ULong
  data : List Byte
deriving DecidableEq

/-- `srec_decode` -/
def srec_decode (input : List Byte) (count : Int) (addr : ULong) : Option Decoded := do
  let input ← skipToS input
  let v ← input[0]?
  if v = 0#8 then return ⟨SREC_EMPTY, count, addr, []⟩
  let input := input.drop 1
  let count ← hex2_bin input
  if count < 0 then return ⟨SREC_E_NOSREC, count, addr, []⟩
  match recordType v with
  | .error type => return ⟨type, count, addr, []⟩
  | .ok (type, other, size) =>
      let chksum := BitVec.ofInt 8 count
      let count := if v = 0x35#8 then 0 else count - other
      let (address, next) ← readPairs size (input.drop 2) chksum
      let addr := addrOf address
      match next with
      | none => return ⟨SREC_E_NOSREC, count, addr, []⟩
      | some (input, chksum) =>
          let (data, next) ← readPairs count.toNat input chksum
          match next with
          | none => return ⟨SREC_E_NOSREC, count, addr, data⟩
          | some (input, chksum) =>
              let v ← hex2_bin input
              if v < 0 then return ⟨SREC_E_NOSREC, count, addr, data⟩
              if BitVec.ofInt 8 v ≠ ~~~chksum then return ⟨SREC_E_BADCHKS, count, addr, data⟩
              return ⟨type, count, addr, data⟩

end Reads

/-! ## The format -/

/-- Two digits and the byte they stand for. -/
def IsPair (hi lo b : Byte) : Prop :=
  0 ≤ hex1_bin hi ∧ 0 ≤ hex1_bin lo ∧ (b.toNat : Int) = hex1_bin hi * 16 + hex1_bin lo

/-- Pairs of digits and the bytes they stand for. -/
inductive Pairs : List Byte → List Byte → Prop
  | nil : Pairs [] []
  | cons {hi lo b : Byte} {chars bytes : List Byte} :
      IsPair hi lo b → Pairs chars bytes → Pairs (hi :: lo :: chars) (b :: bytes)

/-- The records that have data, or end the download. -/
def IsDataOrEnd (type : Int) : Prop :=
  type ∈ [SREC_DATA2, SREC_DATA3, SREC_DATA4, SREC_END2, SREC_END3, SREC_END4]

instance (type : Int) : Decidable (IsDataOrEnd type) :=
  inferInstanceAs (Decidable (type ∈ [_, _, _, _, _, _]))

/-- `S<type><length><address><data....><checksum>` at the first `S` of a line, with a checksum
that is the one's complement of the sum of the bytes in front of it. -/
def HasRecord (line : List Byte) (v length : Byte) (address data : List Byte) : Prop :=
  ∃ chars rest, (line.dropWhile (· ≠ 0x53#8)).tail = v :: (chars ++ rest) ∧
    Pairs chars (length :: (address ++ data ++ [~~~(length + (address ++ data).sum)]))

/-- The outcome of decoding a line stores no more than there is room for. When it is a record of
data, or the end, the count is the number of bytes stored, and these are the data of a record
that has as many pairs as it announces. -/
structure Consistent (line : List Byte) (r : Reads.Decoded) : Prop where
  room : r.data.length ≤ SREC_MAXBINLEN
  count : IsDataOrEnd r.type → 0 ≤ r.count ∧ r.count = r.data.length
  record : IsDataOrEnd r.type → ∃ (v length : Byte) (address : List Byte),
    HasRecord line v length address r.data ∧ r.addr = addrOf address ∧
      length.toNat = (address ++ r.data).length + 1

/-- A line with a record of data, or an end, that is checked as it should be, and announces less
than its address and its checksum take. -/
def AnnouncesTooFew (line : List Byte) : Prop :=
  ∃ (v length : Byte) (address : List Byte) (type other : Int),
    recordType v = .ok (type, other, address.length) ∧ IsDataOrEnd type ∧
      HasRecord line v length address [] ∧ (length.toNat : Int) < other

/-! ## Pairs -/

theorem hex1_bin_range (c : Byte) : -1 ≤ hex1_bin c ∧ hex1_bin c ≤ 15 := by
  simp only [hex1_bin, BitVec.le_def]
  split
  · have := c.isLt
    simp only [BitVec.toNat_ofNat] at *
    omega
  · split
    · simp only [BitVec.toNat_ofNat] at *
      omega
    · split
      · simp only [BitVec.toNat_ofNat] at *
        omega
      · omega

/-- A pair is read as its byte. -/
theorem hex2_bin_pair {hi lo b : Byte} (h : IsPair hi lo b) (rest : List Byte) :
    Reads.hex2_bin (hi :: lo :: rest) = some (b.toNat : Int) := by
  have hhi : ¬ hex1_bin hi < 0 := by
    have := h.1
    omega
  have hlo : ¬ hex1_bin lo < 0 := by
    have := h.2.1
    omega
  simp [Reads.hex2_bin, hhi, hlo, h.2.2]

/-- Characters in front of the NUL: they begin with a pair, or none is read. -/
theorem hex2_bin_line (l : List Byte) :
    Reads.hex2_bin (l ++ [0#8]) = some (hex2_bin l) ∧
      (hex2_bin l < 0 ∨ ∃ hi lo b rest, l = hi :: lo :: rest ∧ IsPair hi lo b ∧
        hex2_bin l = (b.toNat : Int)) := by
  have hzero : hex1_bin 0#8 = -1 := by decide
  match l with
  | [] => simp [Reads.hex2_bin, hex2_bin, hzero]
  | [c] => by_cases hc : hex1_bin c < 0 <;> simp [Reads.hex2_bin, hex2_bin, hzero, hc]
  | hi :: lo :: rest =>
      by_cases hhi : hex1_bin hi < 0
      · simp [Reads.hex2_bin, hex2_bin, hhi]
      · by_cases hlo : hex1_bin lo < 0
        · simp [Reads.hex2_bin, hex2_bin, hhi, hlo]
        · apply And.intro (by simp [Reads.hex2_bin, hex2_bin, hhi, hlo])
          right
          have hrangeHi := hex1_bin_range hi
          have hrangeLo := hex1_bin_range lo
          have hvalue : ((BitVec.ofInt 8 (hex1_bin hi * 16 + hex1_bin lo)).toNat : Int) =
              hex1_bin hi * 16 + hex1_bin lo := by
            rw [BitVec.toNat_ofInt]
            omega
          exact ⟨hi, lo, BitVec.ofInt 8 (hex1_bin hi * 16 + hex1_bin lo), rest, rfl,
            ⟨by omega, by omega, hvalue⟩, by rw [hvalue]; simp [hex2_bin, hhi, hlo]⟩

theorem Pairs.append {chars chars' bytes bytes' : List Byte} (h : Pairs chars bytes)
    (h' : Pairs chars' bytes') : Pairs (chars ++ chars') (bytes ++ bytes') := by
  induction h with
  | nil => exact h'
  | cons pair _ ih => exact ih.cons pair

theorem Pairs.of_append {chars bytes bytes' : List Byte} (h : Pairs chars (bytes ++ bytes')) :
    ∃ first second, chars = first ++ second ∧ Pairs first bytes ∧ Pairs second bytes' := by
  induction bytes generalizing chars with
  | nil => exact ⟨[], chars, rfl, .nil, h⟩
  | cons b bytes ih =>
      rw [List.cons_append] at h
      cases h with
      | cons pair rest =>
          obtain ⟨first, second, rfl, hfirst, hsecond⟩ := ih rest
          exact ⟨_ :: _ :: first, second, rfl, hfirst.cons pair, hsecond⟩

theorem Pairs.singleton {chars : List Byte} {b : Byte} (h : Pairs chars [b]) :
    ∃ hi lo, chars = [hi, lo] ∧ IsPair hi lo b := by
  cases h with
  | cons pair rest =>
      cases rest
      exact ⟨_, _, rfl, pair⟩

/-- All pairs are read, whatever stands behind them. -/
theorem readPairs_pairs {chars bytes : List Byte} (h : Pairs chars bytes) (rest : List Byte)
    (chksum : Byte) :
    Reads.readPairs bytes.length (chars ++ rest) chksum =
      some (bytes, some (rest, chksum + bytes.sum)) := by
  induction h generalizing chksum with
  | nil => simp [Reads.readPairs]
  | @cons hi lo b chars bytes pair _ ih =>
      have hpos : ¬ ((b.toNat : Int) < 0) := by omega
      simp [Reads.readPairs, hex2_bin_pair pair, hpos, ih, BitVec.add_assoc]

/-- In a line some pairs are read, all of them or those up to one that is none. -/
theorem readPairs_line (n : Nat) (l : List Byte) (chksum : Byte) :
    ∃ bytes, bytes.length ≤ n ∧
      ((Reads.readPairs n (l ++ [0#8]) chksum = some (bytes, none) ∧
          readBytes n l chksum = .error SREC_E_NOSREC) ∨
        ∃ chars rest, l = chars ++ rest ∧ Pairs chars bytes ∧ bytes.length = n ∧
          Reads.readPairs n (l ++ [0#8]) chksum =
            some (bytes, some (rest ++ [0#8], chksum + bytes.sum)) ∧
          readBytes n l chksum = .ok (bytes, rest, chksum + bytes.sum)) := by
  induction n generalizing l chksum with
  | zero => exact ⟨[], le_refl 0, .inr ⟨[], l, rfl, .nil, rfl, by simp [Reads.readPairs],
      by simp [readBytes]⟩⟩
  | succ n ih =>
      obtain ⟨hread, hnone | ⟨hi, lo, b, rest, rfl, pair, hvalue⟩⟩ := hex2_bin_line l
      · exact ⟨[], Nat.zero_le _, .inl ⟨by simp [Reads.readPairs, hread, hnone],
          by simp [readBytes, hnone]⟩⟩
      · have hpos : ¬ ((b.toNat : Int) < 0) := by omega
        obtain ⟨bytes, hlength, htail⟩ := ih rest (chksum + b)
        apply Exists.intro (b :: bytes)
        apply And.intro (Nat.succ_le_succ hlength)
        rcases htail with ⟨hpairs, hbytes⟩ | ⟨chars, rest, rfl, hpairs, hall, hread', hbytes⟩
        · left
          rw [hvalue] at hread
          constructor
          · rw [Reads.readPairs, hread]
            simp [hpos, hpairs]
          · rw [readBytes, hvalue]
            simp [hpos, hbytes, bind, Except.bind]
        · right
          rw [hvalue] at hread
          refine ⟨hi :: lo :: chars, rest, rfl, hpairs.cons pair, by simp [hall], ?_, ?_⟩
          · rw [List.append_assoc] at hread'
            rw [Reads.readPairs, hread]
            simp [hpos, hread', BitVec.add_assoc]
          · rw [readBytes, hvalue]
            simp [hpos, hbytes, bind, Except.bind, pure, Except.pure, BitVec.add_assoc]

/-! ## Records -/

/-- The search for an `S` finds it, or the NUL. -/
theorem skipToS_line {line : List Byte} (hnul : 0#8 ∉ line) :
    Reads.skipToS (line ++ [0#8]) = some ((line.dropWhile (· ≠ 0x53#8)).tail ++ [0#8]) := by
  induction line with
  | nil => rfl
  | cons c line ih =>
      have hc : c ≠ 0#8 := fun h => hnul (h ▸ List.mem_cons_self)
      have hrest : 0#8 ∉ line := fun h => hnul (List.mem_cons_of_mem c h)
      rw [List.cons_append, Reads.skipToS, if_neg hc]
      by_cases hS : c = 0x53#8
      · simp [hS]
      · simp only [if_neg hS, ih hrest, List.dropWhile_cons, decide_not]
        simp [hS]

theorem nul_notMem_tail {line : List Byte} (hnul : 0#8 ∉ line) :
    0#8 ∉ (line.dropWhile (· ≠ 0x53#8)).tail := fun hmem =>
  hnul ((List.dropWhile_sublist _).mem (List.mem_of_mem_tail hmem))

/-- What is not data takes the address and the checksum, and no type without data has a record. -/
theorem recordType_ok {v : Byte} {type other : Int} {size : Nat}
    (h : recordType v = .ok (type, other, size)) :
    0 ≤ other ∧ type ≠ SREC_EMPTY ∧ 0 ≤ type ∧
      (IsDataOrEnd type → v ≠ 0x35#8 ∧ other = (size : Int) + 1) := by
  simp only [recordType] at h
  split_ifs at h <;>
    simp only [Except.ok.injEq, Prod.mk.injEq] at h <;>
    obtain ⟨rfl, rfl, rfl⟩ := h <;> subst_vars <;> decide

theorem recordType_error {v : Byte} {e : Int} (h : recordType v = .error e) :
    e = SREC_E_BADTYPE := by
  simp only [recordType] at h
  split_ifs at h
  simpa using h.symm

theorem not_isDataOrEnd_error :
    ¬ IsDataOrEnd SREC_EMPTY ∧ ¬ IsDataOrEnd SREC_E_NOSREC ∧ ¬ IsDataOrEnd SREC_E_BADTYPE ∧
      ¬ IsDataOrEnd SREC_E_BADCHKS := by decide

/-- What `srec_decode` makes of a line: it never reads behind the NUL, and agrees with the
decoder that reads a list. -/
structure Outcome (line : List Byte) (r : Reads.Decoded) : Prop where
  room : r.data.length ≤ SREC_MAXBINLEN
  ok : ∀ s, srec_decode line = .ok s → r = ⟨s.type, s.count, s.addr, s.data⟩
  error : ∀ e, srec_decode line = .error e → r.type = e
  record : IsDataOrEnd r.type → ∃ (v length : Byte) (address : List Byte) (other : Int),
    recordType v = .ok (r.type, other, address.length) ∧ HasRecord line v length address r.data ∧
      r.addr = addrOf address ∧ r.count = (length.toNat : Int) - other ∧
      r.data.length = r.count.toNat

theorem Outcome.of_error {line : List Byte} {r : Reads.Decoded}
    (room : r.data.length ≤ SREC_MAXBINLEN) (h : srec_decode line = .error r.type)
    (hno : ¬ IsDataOrEnd r.type) : Outcome line r where
  room := room
  ok s hs := by
    rw [h] at hs
    cases hs
  error e he := by
    rw [h] at he
    exact Except.error.inj he
  record htype := absurd htype hno

theorem srec_decode_outcome {line : List Byte} (hnul : 0#8 ∉ line) (count : Int) (addr : ULong) :
    ∃ r, Reads.srec_decode (line ++ [0#8]) count addr = some r ∧ Outcome line r := by
  obtain ⟨notEmpty, notNosrec, notBadtype, notBadchks⟩ := not_isDataOrEnd_error
  have hskip := skipToS_line hnul
  have htail := nul_notMem_tail hnul
  cases hfound : (line.dropWhile (· ≠ 0x53#8)).tail with
  | nil =>
      rw [hfound] at hskip
      apply Exists.intro ⟨SREC_EMPTY, count, addr, []⟩
      apply And.intro (by simp [Reads.srec_decode, hskip])
      apply Outcome.of_error (Nat.zero_le _) _ notEmpty
      rw [srec_decode, hfound]
  | cons v l =>
      rw [hfound] at hskip htail
      have hv : v ≠ 0#8 := fun h => htail (h ▸ List.mem_cons_self)
      obtain ⟨hread, hpair⟩ := hex2_bin_line l
      by_cases hneg : hex2_bin l < 0
      · apply Exists.intro ⟨SREC_E_NOSREC, hex2_bin l, addr, []⟩
        apply And.intro (by simp [Reads.srec_decode, hskip, hv, hread, hneg])
        apply Outcome.of_error (Nat.zero_le _) _ notNosrec
        rw [srec_decode, hfound]
        simp [hneg]
      · obtain ⟨hi, lo, length, rest, rfl, pair, hvalue⟩ := hpair.resolve_left hneg
        rw [hvalue] at hread hneg
        simp only [List.cons_append] at hread hskip
        cases htype : recordType v with
        | error e =>
            apply Exists.intro ⟨e, (length.toNat : Int), addr, []⟩
            apply And.intro (by simp [Reads.srec_decode, hskip, hv, hread, hneg, htype])
            apply Outcome.of_error (Nat.zero_le _) _ (recordType_error htype ▸ notBadtype)
            rw [srec_decode, hfound]
            simp [hvalue, hneg, htype, bind, Except.bind]
        | ok record =>
            obtain ⟨type, other, size⟩ := record
            obtain ⟨hother, -, -, hdata⟩ := recordType_ok htype
            -- the bytes of the data, which the type decides on and which may be none
            obtain ⟨n, hn⟩ : ∃ n, (if v = 0x35#8 then 0 else (length.toNat : Int) - other) = n :=
              ⟨_, rfl⟩
            have hroom : n.toNat ≤ SREC_MAXBINLEN := by
              have hlt := length.isLt
              simp only [← hn, SREC_MAXBINLEN]
              split <;> omega
            obtain ⟨address, -, hnone | ⟨chars, rest, rfl, hpairs, hsize, hread', hbytes⟩⟩ :=
              readPairs_line size rest length
            · apply Exists.intro ⟨SREC_E_NOSREC, n, addrOf address, []⟩
              apply And.intro (by
                simp [Reads.srec_decode, hskip, hv, hread, hneg, htype, hn, hnone.1])
              apply Outcome.of_error (Nat.zero_le _) _ notNosrec
              rw [srec_decode, hfound]
              simp [hvalue, hneg, htype, hnone.2, bind, Except.bind]
            · rw [List.append_assoc] at hread hskip hread'
              obtain ⟨data, hlength, hnone | ⟨chars', rest, rfl, hpairs', hall, hread'', hbytes'⟩⟩ :=
                readPairs_line n.toNat rest (length + address.sum)
              · apply Exists.intro ⟨SREC_E_NOSREC, n, addrOf address, data⟩
                apply And.intro (by
                  simp [Reads.srec_decode, hskip, hv, hread, hneg, htype, hn, hread', hnone.1])
                apply Outcome.of_error (hlength.trans hroom) _ notNosrec
                rw [srec_decode, hfound]
                simp [hvalue, hneg, htype, hn, hbytes, hnone.2, bind, Except.bind]
              · rw [List.append_assoc] at hread hskip hread' hread''
                obtain ⟨hlast, hpair'⟩ := hex2_bin_line rest
                by_cases hneg' : hex2_bin rest < 0
                · apply Exists.intro ⟨SREC_E_NOSREC, n, addrOf address, data⟩
                  apply And.intro (by
                    simp [Reads.srec_decode, hskip, hv, hread, hneg, htype, hn, hread', hread'',
                      hlast, hneg'])
                  apply Outcome.of_error (hlength.trans hroom) _ notNosrec
                  rw [srec_decode, hfound]
                  simp [hvalue, hneg, htype, hn, hbytes, hbytes', hneg', bind, Except.bind]
                · obtain ⟨hi', lo', chk, rest, rfl, pair', hvalue'⟩ := hpair'.resolve_left hneg'
                  rw [hvalue'] at hlast hneg'
                  simp only [List.cons_append] at hlast hread hskip hread' hread''
                  by_cases hchk : ~~~(length + address.sum + data.sum) = chk
                  · apply Exists.intro ⟨type, n, addrOf address, data⟩
                    apply And.intro (by
                      simp [Reads.srec_decode, hskip, hv, hread, hneg, htype, hn, hread', hread'',
                        hlast, hneg', hchk])
                    have hlist : srec_decode line = .ok ⟨type, n, addrOf address, data⟩ := by
                      rw [srec_decode, hfound]
                      simp [hvalue, hneg, htype, hn, hbytes, hbytes', hvalue', hchk, bind,
                        Except.bind, pure, Except.pure]
                    constructor
                    · exact hlength.trans hroom
                    · intro s hs
                      rw [hlist] at hs
                      cases hs
                      rfl
                    · intro e he
                      rw [hlist] at he
                      cases he
                    · intro h
                      have hpairs'' := ((hpairs.append hpairs').append (.cons pair' .nil)).cons pair
                      refine ⟨v, length, address, other, hsize ▸ htype,
                        ⟨hi :: lo :: (chars ++ chars' ++ [hi', lo']), rest, ?_, ?_⟩, rfl, ?_, hall⟩
                      · rw [hfound]
                        simp
                      · rwa [List.sum_append, ← BitVec.add_assoc, hchk]
                      · rw [← hn, if_neg (hdata h).1]
                  · apply Exists.intro ⟨SREC_E_BADCHKS, n, addrOf address, data⟩
                    apply And.intro (by
                      simp [Reads.srec_decode, hskip, hv, hread, hneg, htype, hn, hread', hread'',
                        hlast, hneg', Ne.symm hchk])
                    apply Outcome.of_error (hlength.trans hroom) _ notBadchks
                    rw [srec_decode, hfound]
                    simp [hvalue, hneg, htype, hn, hbytes, hbytes', hvalue', Ne.symm hchk, bind, Except.bind]

/-- A record that leaves out part of itself is accepted, with a count below zero. -/
theorem srec_decode_tooFew {line : List Byte} (hnul : 0#8 ∉ line) (count : Int) (addr : ULong)
    (h : AnnouncesTooFew line) :
    ∃ r, Reads.srec_decode (line ++ [0#8]) count addr = some r ∧ IsDataOrEnd r.type ∧
      r.count < 0 := by
  obtain ⟨v, length, address, type, other, htype, hdata, ⟨chars, rest, hfound, hpairs⟩, hfew⟩ := h
  obtain ⟨-, -, -, hother⟩ := recordType_ok htype
  have hskip := skipToS_line hnul
  have htail := nul_notMem_tail hnul
  rw [hfound] at hskip htail
  have hv : v ≠ 0#8 := fun h => htail (h ▸ List.mem_cons_self)
  rw [List.append_nil] at hpairs
  generalize hchk : ~~~(length + address.sum) = chk at hpairs
  cases hpairs with
  | @cons hi lo _ chars _ pair hpairs =>
      obtain ⟨first, second, rfl, hfirst, hsecond⟩ := hpairs.of_append
      obtain ⟨hi', lo', rfl, pair'⟩ := hsecond.singleton
      have hneg : ¬ ((length.toNat : Int) < 0) := by omega
      have hneg' : ¬ ((chk.toNat : Int) < 0) := by omega
      have hnone : ((length.toNat : Int) - other).toNat = 0 := by omega
      have hread := readPairs_pairs hfirst (hi' :: lo' :: (rest ++ [0#8])) length
      apply Exists.intro ⟨type, (length.toNat : Int) - other, addrOf address, []⟩
      constructor
      · simp [Reads.srec_decode, hskip, hv, hex2_bin_pair pair, htype, (hother hdata).1, hread,
          hnone, Reads.readPairs, hex2_bin_pair pair', hneg, hneg', hchk]
      · exact ⟨hdata, by show (length.toNat : Int) - other < 0; omega⟩

theorem not_tooFew {line : List Byte} (hnul : 0#8 ∉ line) {count : Int} {addr : ULong}
    {r : Reads.Decoded} (hr : Reads.srec_decode (line ++ [0#8]) count addr = some r)
    (hcount : IsDataOrEnd r.type → 0 ≤ r.count) : ¬ AnnouncesTooFew line := by
  intro hfew
  obtain ⟨r', hr', htype, hneg⟩ := srec_decode_tooFew hnul count addr hfew
  rw [hr'] at hr
  cases hr
  have := hcount htype
  omega

/-- A record that leaves out no part of itself is decoded to what it announces. -/
theorem Outcome.consistent {line : List Byte} {r : Reads.Decoded} (h : Outcome line r)
    (hfew : ¬ AnnouncesTooFew line) : Consistent line r := by
  constructor
  · exact h.room
  · intro htype
    obtain ⟨v, length, address, other, hrec, hline, -, hcount, hdata⟩ := h.record htype
    by_cases hlt : (length.toNat : Int) < other
    · have hnil : r.data = [] := List.eq_nil_of_length_eq_zero (by omega)
      rw [hnil] at hline
      exact absurd ⟨v, length, address, r.type, other, hrec, htype, hline, hlt⟩ hfew
    · omega
  · intro htype
    obtain ⟨v, length, address, other, hrec, hline, haddr, hcount, hdata⟩ := h.record htype
    have hother := ((recordType_ok hrec).2.2.2 htype).2
    by_cases hlt : (length.toNat : Int) < other
    · have hnil : r.data = [] := List.eq_nil_of_length_eq_zero (by omega)
      rw [hnil] at hline
      exact absurd ⟨v, length, address, r.type, other, hrec, htype, hline, hlt⟩ hfew
    · exact ⟨v, length, address, hline, haddr, by rw [List.length_append]; omega⟩

/-! ## Loading -/

/-- A copy of `load_serial` or its write to flash: the line it comes from, where it goes, how
many bytes it is told to copy and the bytes that are there. -/
structure Copy where
  line : List Byte
  store_addr : ULong
  binlen : Int
  binbuf : List Byte

/-- The copies that the loop of `load_serial` makes. A copy of a negative number of bytes into
memory is the last. -/
def copies (flash : FlashDriver) (offset : ULong) (console : List Byte) (memory : Nat → Byte) :
    List Copy :=
  match h : read_record console (SREC_MAXRECLEN + 1) with
  | none => []
  | some (none, _) => []
  | some (some record, rest) =>
      have : rest.length < console.length := readRecord_length h
      match srec_decode record with
      | .error type => if type < 0 then [] else copies flash offset rest memory
      | .ok srec =>
          if srec.type = SREC_DATA2 ∨ srec.type = SREC_DATA3 ∨ srec.type = SREC_DATA4 then
            let store_addr := srec.addr + offset
            ⟨record, store_addr, srec.count, srec.data⟩ ::
              if flash.addr2info store_addr then
                let written := flash.flash_write memory srec.data store_addr
                if written.1 ≠ 0 then [] else copies flash offset rest written.2
              else if srec.count < 0 then []
              else copies flash offset rest (store memory store_addr.toNat srec.data)
          else if srec.type = SREC_END2 ∨ srec.type = SREC_END3 ∨ srec.type = SREC_END4 then []
          else copies flash offset rest memory
termination_by console.length

/-- A line that is read has no NUL. -/
theorem readRecord_nul {room : Nat} {buf console record rest : List Byte} (hbuf : 0#8 ∉ buf)
    (h : readRecord room buf console = some (some record, rest)) : 0#8 ∉ record := by
  induction room generalizing buf console with
  | zero =>
      simp only [readRecord, Option.some.injEq, Prod.mk.injEq] at h
      exact h.1 ▸ hbuf
  | succ room ih =>
      cases console with
      | nil => exact absurd h (by simp [readRecord])
      | cons c console =>
          rw [readRecord] at h
          split at h
          · simp only [Option.some.injEq, Prod.mk.injEq] at h
            exact h.1 ▸ hbuf
          · split at h
            · simp at h
            · next hc =>
                apply ih _ h
                intro hmem
                rcases List.mem_append.mp hmem with hmem | hmem
                · exact hbuf hmem
                · exact hc (.inl (List.mem_singleton.mp hmem).symm)

/-- What a copy does to memory. -/
def Copy.apply (flash : FlashDriver) (memory : Nat → Byte) (c : Copy) : Nat → Byte :=
  if flash.addr2info c.store_addr then (flash.flash_write memory c.binbuf c.store_addr).2
  else store memory c.store_addr.toNat c.binbuf

/-- The loop of `load_serial` once it has a line. -/
theorem loadRecords_read {flash : FlashDriver} {offset : ULong} {console record rest : List Byte}
    {memory : Nat → Byte} {start_addr end_addr : ULong}
    (hread : read_record console (SREC_MAXRECLEN + 1) = some (some record, rest)) :
    loadRecords flash offset console memory start_addr end_addr =
      match srec_decode record with
      | .error type =>
          if type < 0 then some ⟨~~~0#32, memory, none⟩
          else loadRecords flash offset rest memory start_addr end_addr
      | .ok srec =>
          if srec.type = SREC_DATA2 ∨ srec.type = SREC_DATA3 ∨ srec.type = SREC_DATA4 then
            let store_addr := srec.addr + offset
            let last := store_addr + BitVec.ofInt 32 srec.count - 1#32
            let start_addr := if store_addr < start_addr then store_addr else start_addr
            let end_addr := if last > end_addr then last else end_addr
            if flash.addr2info store_addr then
              let written := flash.flash_write memory srec.data store_addr
              if written.1 ≠ 0 then some ⟨~~~0#32, written.2, none⟩
              else loadRecords flash offset rest written.2 start_addr end_addr
            else if srec.count < 0 then none
            else
              loadRecords flash offset rest (store memory store_addr.toNat srec.data) start_addr
                end_addr
          else if srec.type = SREC_END2 ∨ srec.type = SREC_END3 ∨ srec.type = SREC_END4 then
            some ⟨srec.addr, memory, some (end_addr - start_addr + 1#32)⟩
          else loadRecords flash offset rest memory start_addr end_addr := by
  rw [loadRecords]
  split
  · next h => simp [hread] at h
  · next h => simp [hread] at h
  · next record' rest' h =>
      rw [hread] at h
      cases h
      rfl

/-- The memory that `load_serial` leaves is made by its copies, one after the other. -/
theorem loadRecords_memory {flash : FlashDriver} {offset : ULong} {console : List Byte}
    {memory : Nat → Byte} {start_addr end_addr : ULong} {loaded : Loaded}
    (h : loadRecords flash offset console memory start_addr end_addr = some loaded) :
    loaded.memory = (copies flash offset console memory).foldl (Copy.apply flash) memory := by
  fun_induction copies flash offset console memory generalizing start_addr end_addr with
  | case1 =>
      rw [loadRecords] at h
      split at h <;> simp_all
  | case2 =>
      rw [loadRecords] at h
      split at h
      · cases h
      · cases h
        rfl
      · simp_all
  | case3 _ _ _ _ hread _ type hdecode hneg =>
      rw [loadRecords_read hread, hdecode] at h
      dsimp only at h
      rw [if_pos hneg] at h
      cases h
      rfl
  | case4 _ _ _ _ hread _ type hdecode hneg ih =>
      rw [loadRecords_read hread, hdecode] at h
      dsimp only at h
      rw [if_neg hneg] at h
      exact ih h
  | case5 _ memory record _ hread _ srec hdecode htype store_addr ihflash =>
      rename_i ihmem
      rw [loadRecords_read hread, hdecode] at h
      dsimp only at h
      rw [if_pos htype] at h
      rw [List.foldl_cons, Copy.apply]
      dsimp only
      by_cases hflash : flash.addr2info store_addr = true
      · rw [if_pos hflash] at h
        rw [if_pos hflash, if_pos hflash]
        by_cases hrc : (flash.flash_write memory srec.data store_addr).1 ≠ 0
        · rw [if_pos hrc] at h
          rw [if_pos hrc]
          cases h
          rfl
        · rw [if_neg hrc] at h
          rw [if_neg hrc]
          exact ihflash h
      · rw [if_neg hflash] at h
        rw [if_neg hflash, if_neg hflash]
        by_cases hneg : srec.count < 0
        · rw [if_pos hneg] at h
          cases h
        · rw [if_neg hneg] at h
          rw [if_neg hneg]
          exact ihmem h
  | case6 _ _ _ _ hread _ srec hdecode hdata hend =>
      rw [loadRecords_read hread, hdecode] at h
      dsimp only at h
      rw [if_neg hdata, if_pos hend] at h
      cases h
      rfl
  | case7 _ _ _ _ hread _ srec hdecode hdata hend ih =>
      rw [loadRecords_read hread, hdecode] at h
      dsimp only at h
      rw [if_neg hdata, if_neg hend] at h
      exact ih h

/-- Each copy is one of a record of data, decoded from its line. -/
theorem copies_decoded {flash : FlashDriver} {offset : ULong} {console : List Byte}
    {memory : Nat → Byte} {c : Copy} (hc : c ∈ copies flash offset console memory) :
    0#8 ∉ c.line ∧ ∃ s, srec_decode c.line = .ok s ∧ IsDataOrEnd s.type ∧ s.count = c.binlen ∧
      s.data = c.binbuf := by
  fun_induction copies flash offset console memory with
  | case1 => cases hc
  | case2 => cases hc
  | case3 => cases hc
  | case4 _ _ _ _ _ _ _ _ _ ih => exact ih hc
  | case5 _ _ record _ hread _ srec hdecode htype _ ihflash ihmem =>
      rcases List.mem_cons.mp hc with rfl | hc
      · have hdata : IsDataOrEnd srec.type := by
          rcases htype with htype | htype | htype <;> rw [htype] <;> decide
        exact ⟨readRecord_nul List.not_mem_nil hread, srec, hdecode, hdata, rfl, rfl⟩
      · split at hc
        · dsimp only at hc
          split at hc
          · cases hc
          · exact ihflash hc
        · split at hc
          · cases hc
          · exact ihmem hc
  | case6 => cases hc
  | case7 _ _ _ _ _ _ _ _ _ _ ih => exact ih hc

/-- `srec_decode` reads up to the NUL of a line at most, and its outcome is consistent exactly
when the line is not a record that announces less than its address and its checksum take. The
copies of `load_serial` are of as many bytes as were decoded, exactly when none of them comes
from such a record. -/
theorem srec_decode_consistent (line : CString) (count : Int) (addr : ULong) (flash : FlashDriver)
    (offset : ULong) (console : List Byte) (memory : Nat → Byte) :
    ((∃ r, Reads.srec_decode (line.1 ++ [0#8]) count addr = some r ∧ Consistent line.1 r) ↔
      ¬ AnnouncesTooFew line.1) ∧
    ((∀ c ∈ copies flash offset console memory, 0 ≤ c.binlen ∧ c.binlen = c.binbuf.length) ↔
      ∀ c ∈ copies flash offset console memory, ¬ AnnouncesTooFew c.line) := by
  constructor
  · obtain ⟨r, hr, houtcome⟩ := srec_decode_outcome line.2 count addr
    constructor
    · rintro ⟨r', hr', hconsistent⟩
      exact not_tooFew line.2 hr' fun htype => (hconsistent.count htype).1
    · intro hfew
      exact ⟨r, hr, houtcome.consistent hfew⟩
  · apply forall₂_congr
    intro c hc
    obtain ⟨hnul, s, hs, htype, hcount, hdata⟩ := copies_decoded hc
    obtain ⟨r, hr, houtcome⟩ := srec_decode_outcome hnul 0 0#32
    have hr' := houtcome.ok s hs
    subst hr'
    rw [← hcount, ← hdata]
    constructor
    · rintro ⟨hpos, -⟩
      exact not_tooFew hnul hr fun _ => hpos
    · intro hfew
      exact (houtcome.consistent hfew).count htype

/-- Not every line is decoded to as many bytes as are reported: the record `S1020000FD` has an
address and a checksum, announces two bytes, and is decoded to minus one byte of data. -/
theorem not_srec_decode_consistent :
    ¬ ((∀ (line : CString) (count : Int) (addr : ULong),
        ∃ r, Reads.srec_decode (line.1 ++ [0#8]) count addr = some r ∧ Consistent line.1 r) ∧
      ∀ (flash : FlashDriver) (offset : ULong) (console : List Byte) (memory : Nat → Byte),
        ∀ c ∈ copies flash offset console memory, 0 ≤ c.binlen ∧ c.binlen = c.binbuf.length) := by
  rintro ⟨h, -⟩
  obtain ⟨r, hr, hconsistent⟩ := h ⟨ascii "S1020000FD", by decide⟩ 0 0#32
  have hdecoded : Reads.srec_decode (ascii "S1020000FD" ++ [0#8]) 0 0#32 =
      some ⟨SREC_DATA2, -1, 0#32, []⟩ := by decide
  rw [hdecoded] at hr
  cases hr
  exact absurd (hconsistent.count (by decide)).1 (by decide)

end UBoot.CmdLoad
