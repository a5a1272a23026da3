/-
# Answers of DNS responses

Well-formed responses to the query that `DnsSend` sends, and the address that `DnsHandler` takes from
them. A name is labels, and the root or a pointer behind them. The handler gets over a name without
a zero in its labels when the root or a pointer to a multiple of 256 ends it, and over a pointer
into the first 256 bytes alone. At any other name it takes the type from the wrong place, stops and
sets nothing.
-/

import UBoot.Net.Checksum
import UBoot.Net.DnsBounds

namespace UBoot.Dns

open UBoot.PacketBytes

/-! ## Responses -/

/-- A label of a name: 1 to 63 bytes. -/
abbrev Label := { l : List Byte // 1 ≤ l.length ∧ l.length ≤ 63 }

def labelBytes (labels : List Label) : List Byte :=
  labels.flatMap fun l => BitVec.ofNat 8 l.1.length :: l.1

/-- Two bytes that refer to an offset in the response. -/
def pointerBytes (offset : BitVec 14) : List Byte :=
  [BitVec.ofNat 8 (0xc0 + offset.toNat / 256), BitVec.ofNat 8 offset.toNat]

/-- A name, which the root ends if no pointer does. -/
structure Name where
  labels : List Label
  pointer : Option (BitVec 14)

namespace Name

def bytes (n : Name) : List Byte :=
  labelBytes n.labels ++ match n.pointer with
    | none => [0#8]
    | some offset => pointerBytes offset

/-- No label has a zero in it. -/
def Text (n : Name) : Prop := ∀ l ∈ n.labels, 0#8 ∉ l.1

/-- The names that the handler gets over. -/
def Skipped (n : Name) : Prop :=
  match n.pointer with
  | none => n.Text
  | some offset =>
      (n.labels = [] ∧ offset.toNat < 256) ∨ (n.Text ∧ offset.toNat % 256 = 0)

end Name

/-- A resource record. -/
structure Record where
  owner : Name
  type : BitVec 16
  cls : BitVec 16
  ttl : BitVec 32
  rdata : List Byte
  type_pos : 0 < type.toNat
  type_lt : type.toNat < 256
  rdata_lt : rdata.length < 2 ^ 16
  /-- An address. -/
  rdata_a : type = DNS_A_RECORD → rdata.length = 4
  /-- A name. -/
  rdata_cname : type = DNS_CNAME_RECORD → rdata ≠ []

/-- What is in front of the data of a record and behind its owner. -/
def Record.fields (r : Record) : List Byte :=
  htons r.type ++ (htons r.cls ++ (htons (r.ttl.extractLsb' 16 16) ++
    (htons (r.ttl.extractLsb' 0 16) ++ htons (BitVec.ofNat 16 r.rdata.length))))

def Record.bytes (r : Record) : List Byte := r.owner.bytes ++ (r.fields ++ r.rdata)

def recordBytes (records : List Record) : List Byte := records.flatMap Record.bytes

/-- A response to a query for the address of a host: aliases, and addresses behind them. -/
structure Response where
  tid : BitVec 16
  flags : BitVec 16
  host : List Label
  cnames : List Record
  addresses : List Record
  authority : List Record
  additional : List Record
  /-- The query was made from a string. -/
  host_text : ∀ l ∈ host, 0#8 ∉ l.1
  cnames_type : ∀ r ∈ cnames, r.type = DNS_CNAME_RECORD
  addresses_type : ∀ r ∈ addresses, r.type = DNS_A_RECORD
  answers_lt : (cnames ++ addresses).length < 2 ^ 16

namespace Response

variable (r : Response)

def header : List Byte :=
  htons r.tid ++ (htons r.flags ++ (htons 1#16 ++
    (htons (BitVec.ofNat 16 (r.cnames ++ r.addresses).length) ++
      (htons (BitVec.ofNat 16 r.authority.length) ++
        htons (BitVec.ofNat 16 r.additional.length)))))

def question : List Byte := labelBytes r.host ++ 0#8 :: (htons DNS_A_RECORD ++ htons 1#16)

/-- All records, in their order. -/
def records : List Record := r.cnames ++ r.addresses ++ r.authority ++ r.additional

def bytes : List Byte := r.header ++ (r.question ++ recordBytes r.records)

end Response

/-- The call of `setenv` that is made in the end, if there is one. -/
def Outcome.setenv : Outcome → Option (String × String)
  | .success (some s) => some (s.NetDNSenvvar, s.IPStr)
  | _ => none

/-- The variable is set to the first address of the answers, and not at all without one. -/
def SetsFirst (r : Response) (DnsOurPort : Nat) (NetDNSenvvar : String) : Prop :=
  ∃ out, DnsHandler r.bytes DnsOurPort (some NetDNSenvvar) DnsOurPort = some out ∧
    out.setenv = r.addresses.head?.map fun a => (NetDNSenvvar, ip_to_string a.rdata)

/-- The handler gets from alias to alias to an address. -/
inductive Reaches (a : Record) : List Record → Prop where
  | here {rs : List Record} (skipped : a.owner.Skipped) (type : a.type = DNS_A_RECORD) :
      Reaches a (a :: rs)
  | next {r : Record} {rs : List Record} (skipped : r.owner.Skipped)
      (type : r.type = DNS_CNAME_RECORD) (rest : Reaches a rs) : Reaches a (r :: rs)

/-! ## Fields -/

theorem field16_two (pre post : List Byte) (b c : Byte) :
    field16 (pre ++ b :: c :: post) pre.length = ntohs b c := by
  rw [field16, List.getD_append_right _ _ _ _ le_rfl,
    List.getD_append_right _ _ _ _ (Nat.le_add_right _ 1), Nat.sub_self, Nat.add_sub_cancel_left]
  rfl

theorem field16_htons (pre post : List Byte) (x : BitVec 16) :
    field16 (pre ++ (htons x ++ post)) pre.length = x :=
  (field16_two pre post _ _).trans (ntohs_htons x)

variable {pre post : List Byte} {r : Record}

theorem length_fields (r : Record) : r.fields.length = 10 := rfl

theorem length_bytes (r : Record) :
    r.bytes.length = r.owner.bytes.length + 10 + r.rdata.length := by
  rw [Record.bytes, List.length_append, List.length_append, length_fields, Nat.add_assoc]

theorem field16_type :
    field16 (pre ++ (r.bytes ++ post)) (pre.length + r.owner.bytes.length) = r.type := by
  rw [← List.length_append, Record.bytes, Record.fields]
  simp only [List.append_assoc]
  rw [← List.append_assoc pre]
  exact field16_htons _ _ _

theorem field16_length :
    (field16 (pre ++ (r.bytes ++ post)) (pre.length + r.owner.bytes.length + 8)).toNat =
      r.rdata.length := by
  have hfield := field16_htons (pre ++ (r.owner.bytes ++ (htons r.type ++ (htons r.cls ++
    (htons (r.ttl.extractLsb' 16 16) ++ htons (r.ttl.extractLsb' 0 16)))))) (r.rdata ++ post)
    (BitVec.ofNat 16 r.rdata.length)
  have hlen : (pre ++ (r.owner.bytes ++ (htons r.type ++ (htons r.cls ++
      (htons (r.ttl.extractLsb' 16 16) ++ htons (r.ttl.extractLsb' 0 16)))))).length =
      pre.length + r.owner.bytes.length + 8 := by
    rw [List.length_append, List.length_append, Nat.add_assoc]
    rfl
  rw [hlen] at hfield
  rw [Record.bytes, Record.fields]
  simp only [List.append_assoc] at hfield ⊢
  rw [hfield, BitVec.toNat_ofNat, Nat.mod_eq_of_lt r.rdata_lt]

/-! ## Names -/

theorem zeroFrom_append (pre rest : List Byte) :
    zeroFrom (pre ++ rest) pre.length = pre.length + (rest.takeWhile (· ≠ 0#8)).length := by
  rw [zeroFrom, List.drop_left' rfl]

/-- Bytes without a zero, and a zero behind them. -/
theorem zeroFrom_bytes {s : List Byte} (h : 0#8 ∉ s) (pre rest : List Byte) :
    zeroFrom (pre ++ (s ++ 0#8 :: rest)) pre.length = pre.length + s.length := by
  rw [zeroFrom_append, List.takeWhile_append_of_pos, List.takeWhile_cons_of_neg (by simp),
    List.append_nil]
  intro b hb
  rw [decide_eq_true_eq]
  rintro rfl
  exact h hb

theorem labelBytes_text {labels : List Label} (h : ∀ l ∈ labels, 0#8 ∉ l.1) :
    0#8 ∉ labelBytes labels := by
  rw [labelBytes, List.mem_flatMap]
  rintro ⟨l, hl, hmem⟩
  rw [List.mem_cons] at hmem
  rcases hmem with hlen | hbyte
  · have hnat := congrArg BitVec.toNat hlen
    have := l.2
    rw [BitVec.toNat_ofNat, BitVec.toNat_ofNat] at hnat
    omega
  · exact h l hl hbyte

theorem pointer_high_ne (offset : BitVec 14) : BitVec.ofNat 8 (0xc0 + offset.toNat / 256) ≠ 0#8 := by
  intro h
  have hnat := congrArg BitVec.toNat h
  have := offset.isLt
  rw [BitVec.toNat_ofNat, BitVec.toNat_ofNat] at hnat
  omega

namespace Name

variable {n : Name}

theorem length_bytes_pos (n : Name) : 0 < n.bytes.length := by
  rw [bytes, List.length_append]
  cases n.pointer with
  | none => exact Nat.lt_add_left _ Nat.one_pos
  | some offset => exact Nat.lt_add_left _ Nat.two_pos

theorem bytes_pointer (labels : List Label) (offset : BitVec 14) :
    Name.bytes ⟨labels, some offset⟩ = labelBytes labels ++
      [BitVec.ofNat 8 (0xc0 + offset.toNat / 256), BitVec.ofNat 8 offset.toNat] := rfl

theorem first_byte (n : Name) (pre post : List Byte) :
    (pre ++ (n.bytes ++ post))[pre.length]? = n.bytes.head? := by
  rw [List.getElem?_append_right le_rfl, Nat.sub_self,
    List.getElem?_append_left (length_bytes_pos n), List.head?_eq_getElem?]

/-- The first byte is that of a pointer into the first 256 bytes only in such a pointer. -/
theorem head_eq (h : n.bytes.head? = some 0xc0#8) :
    n.labels = [] ∧ ∃ offset, n.pointer = some offset ∧ offset.toNat < 256 := by
  obtain ⟨labels, pointer⟩ := n
  cases labels with
  | nil =>
      cases pointer with
      | none => exact absurd (Option.some.inj h) (by decide)
      | some offset =>
          refine ⟨rfl, offset, rfl, ?_⟩
          have hnat := congrArg BitVec.toNat (Option.some.inj h)
          have := offset.isLt
          rw [BitVec.toNat_ofNat, BitVec.toNat_ofNat] at hnat
          omega
  | cons l labels =>
      have hnat := congrArg BitVec.toNat (Option.some.inj h)
      have := l.2
      rw [BitVec.toNat_ofNat, BitVec.toNat_ofNat] at hnat
      omega

/-- A name without a zero in its labels ends with its only zero, unless a pointer ends it whose low
byte is another. -/
theorem text_cases (h : n.Text) :
    ((∀ offset, n.pointer = some offset → offset.toNat % 256 = 0) ∧
      ∃ s, n.bytes = s ++ [0#8] ∧ 0#8 ∉ s) ∨
    (0#8 ∉ n.bytes ∧ ∃ offset, n.pointer = some offset ∧ offset.toNat % 256 ≠ 0) := by
  obtain ⟨labels, pointer⟩ := n
  have hlabels := labelBytes_text h
  cases pointer with
  | none => exact .inl ⟨nofun, _, rfl, hlabels⟩
  | some offset =>
      have hhigh := (pointer_high_ne offset).symm
      by_cases hlow : offset.toNat % 256 = 0
      · left
        refine ⟨fun o ho => Option.some.inj ho ▸ hlow,
          labelBytes labels ++ [BitVec.ofNat 8 (0xc0 + offset.toNat / 256)], ?_, ?_⟩
        · have hzero : BitVec.ofNat 8 offset.toNat = 0#8 :=
            BitVec.eq_of_toNat_eq (by rw [BitVec.toNat_ofNat]; exact hlow)
          rw [List.append_assoc, bytes_pointer, hzero]
          rfl
        · rw [List.mem_append, List.mem_singleton, not_or]
          exact ⟨hlabels, hhigh⟩
      · right
        refine ⟨?_, offset, rfl, hlow⟩
        rw [bytes_pointer, List.mem_append, List.mem_pair, not_or, not_or]
        refine ⟨hlabels, hhigh, fun hzero => hlow ?_⟩
        have hnat := congrArg BitVec.toNat hzero
        rw [BitVec.toNat_ofNat, BitVec.toNat_ofNat] at hnat
        exact hnat.symm

theorem skipped_cases (h : n.Skipped) :
    (n.bytes.head? = some 0xc0#8 ∧ n.bytes.length = 2) ∨
    (n.bytes.head? ≠ some 0xc0#8 ∧ ∃ s, n.bytes = s ++ [0#8] ∧ 0#8 ∉ s) := by
  by_cases hhead : n.bytes.head? = some 0xc0#8
  · obtain ⟨hnil, offset, hpointer, -⟩ := head_eq hhead
    left
    refine ⟨hhead, ?_⟩
    rw [bytes, hnil, hpointer]
    rfl
  · right
    refine ⟨hhead, ?_⟩
    obtain ⟨labels, pointer⟩ := n
    cases pointer with
    | none => exact ⟨_, rfl, labelBytes_text h⟩
    | some offset =>
        rcases h with ⟨hnil, hlt⟩ | ⟨htext, hlow⟩
        · change labels = [] at hnil
          subst hnil
          refine absurd ?_ hhead
          rw [bytes_pointer, Nat.div_eq_of_lt hlt]
          rfl
        · rcases text_cases htext with ⟨-, hends⟩ | ⟨-, o, ho, hne⟩
          · exact hends
          · cases ho
            exact absurd hlow hne

/-- What the handler does not get over, of names without a zero in their labels. -/
theorem not_skipped (htext : n.Text) (h : ¬ n.Skipped) :
    n.bytes.head? ≠ some 0xc0#8 ∧ 0#8 ∉ n.bytes ∧ 2 ≤ n.bytes.length := by
  obtain ⟨labels, pointer⟩ := n
  cases pointer with
  | none => exact absurd htext h
  | some offset =>
      refine ⟨fun hhead => h ?_, ?_, ?_⟩
      · obtain ⟨hnil, o, ho, hlt⟩ := head_eq hhead
        cases ho
        exact .inl ⟨hnil, hlt⟩
      · rcases text_cases htext with ⟨hlow, -⟩ | ⟨hzero, -⟩
        · exact absurd (.inr ⟨htext, hlow offset rfl⟩) h
        · exact hzero
      · rw [bytes_pointer, List.length_append]
        exact Nat.le_add_left 2 _

end Name

/-! ## One record -/

/-- The loop over the answers from `p` on, and what follows it. -/
def readAnswers (pkt : List Byte) (NetDNSenvvar : Option String) (p : Nat) : Option Outcome :=
  answerLoop pkt p >>= fun (p, found) => copyAnswer pkt NetDNSenvvar p found

section

variable {pkt : List Byte} {NetDNSenvvar : Option String} {p : Nat}

theorem copyAnswer_none : copyAnswer pkt NetDNSenvvar p false = some (.success none) :=
  if_neg fun hfound => Bool.false_ne_true hfound.1

theorem readAnswers_end (h : pkt.length ≤ p + 12) :
    readAnswers pkt NetDNSenvvar p = some (.success none) := by
  rw [readAnswers, answerLoop, if_neg (Nat.not_lt_of_le h)]
  show copyAnswer pkt NetDNSenvvar p false = _
  exact copyAnswer_none

theorem readAnswers_stop (hp : 0 < p)
    (hcname : field16 pkt (ownerAt pkt p + 2) ≠ DNS_CNAME_RECORD)
    (ha : field16 pkt (ownerAt pkt p + 2) ≠ DNS_A_RECORD) :
    readAnswers pkt NetDNSenvvar p = some (.success none) := by
  by_cases h : p + 12 < pkt.length
  · rw [readAnswers, answerLoop_turn hp h, if_neg hcname, decide_eq_false ha]
    show copyAnswer pkt NetDNSenvvar (ownerAt pkt p) false = _
    exact copyAnswer_none
  · exact readAnswers_end (Nat.not_lt.mp h)

theorem readAnswers_cname (hp : 0 < p) (h : p + 12 < pkt.length)
    (hcname : field16 pkt (ownerAt pkt p + 2) = DNS_CNAME_RECORD) :
    readAnswers pkt NetDNSenvvar p = readAnswers pkt NetDNSenvvar
      (ownerAt pkt p + (12 + (field16 pkt (ownerAt pkt p + 10)).toNat)) := by
  rw [readAnswers, answerLoop_turn hp h, if_pos hcname, readAnswers]

theorem readAnswers_address (hp : 0 < p) (h : p + 12 < pkt.length)
    (ha : field16 pkt (ownerAt pkt p + 2) = DNS_A_RECORD) :
    readAnswers pkt NetDNSenvvar p = copyAnswer pkt NetDNSenvvar (ownerAt pkt p) true := by
  have hne : field16 pkt (ownerAt pkt p + 2) ≠ DNS_CNAME_RECORD := by
    rw [ha]
    decide
  rw [readAnswers, answerLoop_turn hp h, if_neg hne, decide_eq_true ha]
  rfl

theorem copyAnswer_stored (hfits : p + 16 ≤ pkt.length)
    (hdlen : (field16 pkt (p + 10)).toNat = 4) :
    copyAnswer pkt NetDNSenvvar p true =
      some (.success (NetDNSenvvar.map fun var => ⟨var, 4, (pkt.drop (p + 12)).take 4⟩)) := by
  rw [copyAnswer, if_pos ⟨rfl, by omega⟩, (needs_short pkt _).eq_some (by omega),
    (UBoot.Lib.needs_cells pkt (p + 12) 4).eq_some hfits]
  show (if p + 12 + (field16 pkt (p + 10)).toNat ≤ pkt.length then _ else _) = _
  rw [hdlen, if_pos hfits]
  rfl

end

theorem length_record : (pre ++ (r.bytes ++ post)).length =
    pre.length + r.owner.bytes.length + 10 + r.rdata.length + post.length := by
  rw [List.length_append, List.length_append, length_bytes]
  omega

theorem record_append (pre post : List Byte) (r : Record) : pre ++ (r.bytes ++ post) =
    pre ++ (r.owner.bytes ++ (r.fields ++ (r.rdata ++ post))) := by
  rw [Record.bytes]
  simp only [List.append_assoc]

/-- The owner is got over when there is something behind the fields of the record. -/
theorem ownerAt_skipped (hpre : 0 < pre.length) (h : r.owner.Skipped)
    (hbehind : 0 < r.rdata.length + post.length) :
    ownerAt (pre ++ (r.bytes ++ post)) pre.length + 2 =
      pre.length + r.owner.bytes.length := by
  have hlen := @length_record pre post r
  rw [ownerAt, hlen, record_append, Name.first_byte]
  rcases Name.skipped_cases h with ⟨hhead, htwo⟩ | ⟨hhead, s, hs, hzero⟩
  · rw [if_pos hhead, htwo]
  · rw [if_neg hhead, hs, List.append_assoc, List.singleton_append, zeroFrom_bytes hzero,
      List.length_append, List.length_singleton]
    omega

variable {NetDNSenvvar : Option String}

theorem rdata_pos (h : r.type = DNS_CNAME_RECORD ∨ r.type = DNS_A_RECORD) :
    0 < r.rdata.length := by
  rcases h with hcname | ha
  · exact List.length_pos_iff.mpr (r.rdata_cname hcname)
  · rw [r.rdata_a ha]
    exact Nat.succ_pos 3

/-- The handler goes on behind an alias. -/
theorem readAnswers_alias (hpre : 0 < pre.length) (h : r.owner.Skipped)
    (type : r.type = DNS_CNAME_RECORD) :
    readAnswers (pre ++ (r.bytes ++ post)) NetDNSenvvar pre.length =
      readAnswers (pre ++ (r.bytes ++ post)) NetDNSenvvar (pre ++ r.bytes).length := by
  have hlen := @length_record pre post r
  have hnext : (pre ++ r.bytes).length =
      pre.length + r.owner.bytes.length + 10 + r.rdata.length := by
    rw [List.length_append, length_bytes]
    omega
  by_cases hinside : pre.length + 12 < (pre ++ (r.bytes ++ post)).length
  · have howner := ownerAt_skipped hpre h (Nat.add_pos_left (rdata_pos (.inl type)) post.length)
    have htype : field16 (pre ++ (r.bytes ++ post))
        (ownerAt (pre ++ (r.bytes ++ post)) pre.length + 2) = DNS_CNAME_RECORD := by
      rw [howner, field16_type, type]
    rw [readAnswers_cname hpre hinside htype]
    have hfield := @field16_length pre post r
    rw [← howner] at hfield
    rw [hfield, hnext, ← howner]
    congr 1
    omega
  · rw [readAnswers_end (Nat.not_lt.mp hinside), readAnswers_end (by omega)]

/-- An address is stored. -/
theorem readAnswers_stored (hpre : 0 < pre.length) (h : r.owner.Skipped)
    (type : r.type = DNS_A_RECORD) :
    readAnswers (pre ++ (r.bytes ++ post)) NetDNSenvvar pre.length =
      some (.success (NetDNSenvvar.map fun var => ⟨var, 4, r.rdata⟩)) := by
  have hlen := @length_record pre post r
  have hfour := r.rdata_a type
  have hpos := Name.length_bytes_pos r.owner
  have howner := ownerAt_skipped hpre h (Nat.add_pos_left (rdata_pos (.inr type)) post.length)
  have hinside : pre.length + 12 < (pre ++ (r.bytes ++ post)).length := by omega
  have htype : field16 (pre ++ (r.bytes ++ post))
      (ownerAt (pre ++ (r.bytes ++ post)) pre.length + 2) = DNS_A_RECORD := by
    rw [howner, field16_type, type]
  have hdlen : (field16 (pre ++ (r.bytes ++ post))
      (ownerAt (pre ++ (r.bytes ++ post)) pre.length + 10)).toNat = 4 := by
    have hfield := @field16_length pre post r
    rw [← howner, hfour] at hfield
    exact hfield
  have hdata : ((pre ++ (r.bytes ++ post)).drop
      (ownerAt (pre ++ (r.bytes ++ post)) pre.length + 12)).take 4 = r.rdata := by
    have hfront : ownerAt (pre ++ (r.bytes ++ post)) pre.length + 12 =
        (pre ++ (r.owner.bytes ++ r.fields)).length := by
      rw [List.length_append, List.length_append, length_fields]
      omega
    have hsplit : pre ++ (r.bytes ++ post) =
        pre ++ (r.owner.bytes ++ r.fields) ++ (r.rdata ++ post) := by
      rw [record_append]
      simp only [List.append_assoc]
    rw [hfront, hsplit, List.drop_left' rfl, ← hfour, List.take_left' rfl]
  rw [readAnswers_address hpre hinside htype, copyAnswer_stored (by omega) hdlen, hdata]

/-- The high byte of a type is zero, and the low one is not. -/
theorem fields_type (r : Record) :
    ∃ low cls rest, low ≠ 0#8 ∧ r.fields = 0#8 :: low :: cls :: rest := by
  refine ⟨r.type.setWidth 8, (r.cls >>> 8).setWidth 8, r.fields.drop 3, fun hzero => ?_, ?_⟩
  · have hnat := congrArg BitVec.toNat hzero
    rw [BitVec.toNat_setWidth, Nat.mod_eq_of_lt r.type_lt, BitVec.toNat_ofNat] at hnat
    exact r.type_pos.ne' hnat
  · have hhigh : (r.type >>> 8).setWidth 8 = 0#8 := by
      apply BitVec.eq_of_toNat_eq
      rw [BitVec.toNat_setWidth, BitVec.toNat_ushiftRight, Nat.shiftRight_eq_div_pow,
        Nat.div_eq_of_lt r.type_lt]
      rfl
    rw [← hhigh]
    rfl

/-- Two bytes of which the first is not zero are no type that is known. -/
theorem ntohs_unknown {hi : Byte} (h : hi ≠ 0#8) (lo : Byte) :
    ntohs hi lo ≠ DNS_CNAME_RECORD ∧ ntohs hi lo ≠ DNS_A_RECORD := by
  have hpos : 0 < hi.toNat := Nat.pos_of_ne_zero fun hzero => h (BitVec.eq_of_toNat_eq hzero)
  have hvalue := toNat_ntohs hi lo
  constructor
  · intro heq
    rw [heq] at hvalue
    have hfive : DNS_CNAME_RECORD.toNat = 5 := rfl
    omega
  · intro heq
    rw [heq] at hvalue
    have hone : DNS_A_RECORD.toNat = 1 := rfl
    omega

/-- Behind a name that is got over, a record of another type ends the loop. -/
theorem readAnswers_other (hpre : 0 < pre.length) (h : r.owner.Skipped)
    (hcname : r.type ≠ DNS_CNAME_RECORD) (ha : r.type ≠ DNS_A_RECORD) :
    readAnswers (pre ++ (r.bytes ++ post)) NetDNSenvvar pre.length = some (.success none) := by
  have hlen := @length_record pre post r
  by_cases hbehind : 0 < r.rdata.length + post.length
  · have howner := ownerAt_skipped hpre h hbehind
    apply readAnswers_stop hpre
    · rwa [howner, field16_type]
    · rwa [howner, field16_type]
  · by_cases hend : (pre ++ (r.bytes ++ post)).length ≤ pre.length + 12
    · exact readAnswers_end hend
    -- The search for the zero ends a byte before it, where twelve bytes are left.
    · rcases Name.skipped_cases h with ⟨-, htwo⟩ | ⟨hhead, s, hs, hzero⟩
      · omega
      · obtain ⟨low, cls, rest, -, hfields⟩ := fields_type r
        have hn : r.owner.bytes.length = s.length + 1 := by rw [hs]; exact List.length_append
        have howner : ownerAt (pre ++ (r.bytes ++ post)) pre.length + 2 = (pre ++ s).length := by
          rw [ownerAt, hlen, record_append, Name.first_byte, if_neg hhead, hs,
            List.append_assoc, List.singleton_append, zeroFrom_bytes hzero, List.length_append,
            List.length_append, List.length_singleton]
          omega
        have htype : field16 (pre ++ (r.bytes ++ post)) (pre ++ s).length = ntohs 0#8 0#8 := by
          rw [record_append, hs, hfields]
          simp only [← List.append_assoc]
          simp only [List.append_assoc (pre ++ s), List.cons_append]
          exact field16_two _ _ _ _
        apply readAnswers_stop hpre
        · rw [howner, htype]
          decide
        · rw [howner, htype]
          decide

/-- The type is taken from a byte behind its place, from its place or from a byte in front of it, as
there are bytes enough behind the record's fields. -/
theorem ownerAt_lost (hpre : 0 < pre.length) (htext : r.owner.Text) (h : ¬ r.owner.Skipped) :
    ownerAt (pre ++ (r.bytes ++ post)) pre.length + 1 =
      pre.length + r.owner.bytes.length + min (r.rdata.length + post.length) 2 - 2 := by
  have hlen := @length_record pre post r
  obtain ⟨hhead, hzero, htwo⟩ := Name.not_skipped htext h
  obtain ⟨low, cls, rest, -, hfields⟩ := fields_type r
  rw [ownerAt, hlen, record_append, Name.first_byte, if_neg hhead, hfields, List.cons_append,
    zeroFrom_bytes hzero]
  omega

/-- A name that is not got over ends the loop. -/
theorem readAnswers_lost (hpre : 0 < pre.length) (htext : r.owner.Text)
    (h : ¬ r.owner.Skipped) :
    readAnswers (pre ++ (r.bytes ++ post)) NetDNSenvvar pre.length = some (.success none) := by
  have hlen := @length_record pre post r
  have howner := @ownerAt_lost pre post r hpre htext h
  obtain ⟨-, hzero, htwo⟩ := Name.not_skipped htext h
  obtain ⟨low, cls, rest, hlow, hfields⟩ := fields_type r
  rcases show r.rdata.length + post.length = 0 ∨ r.rdata.length + post.length = 1 ∨
    2 ≤ r.rdata.length + post.length by omega with hnone | hone | hmore
  · obtain ⟨s, last, hs⟩ :=
      (List.eq_nil_or_concat' r.owner.bytes).resolve_left (List.ne_nil_of_length_pos (by omega))
    have hlast : last ≠ 0#8 := by
      rintro rfl
      exact hzero (hs ▸ List.mem_append_right s (List.mem_singleton_self _))
    have hat : ownerAt (pre ++ (r.bytes ++ post)) pre.length + 2 = (pre ++ s).length := by
      rw [List.length_append]
      rw [hs, List.length_append, List.length_singleton] at howner
      omega
    have htype : field16 (pre ++ (r.bytes ++ post)) (pre ++ s).length = ntohs last 0#8 := by
      rw [record_append, hs, hfields]
      simp only [← List.append_assoc]
      simp only [List.append_assoc (pre ++ s), List.cons_append]
      exact field16_two _ _ _ _
    obtain ⟨hcname, ha⟩ := ntohs_unknown hlast 0#8
    exact readAnswers_stop hpre (by rwa [hat, htype]) (by rwa [hat, htype])
  · have hat : ownerAt (pre ++ (r.bytes ++ post)) pre.length + 2 =
        pre.length + r.owner.bytes.length := by omega
    have ha : r.type ≠ DNS_A_RECORD := fun ha => by
      have := r.rdata_a ha
      omega
    have htype := @field16_type pre post r
    rw [← hat] at htype
    by_cases hcname : r.type = DNS_CNAME_RECORD
    · by_cases hinside : pre.length + 12 < (pre ++ (r.bytes ++ post)).length
      · rw [readAnswers_cname hpre hinside (htype.trans hcname)]
        exact readAnswers_end (by omega)
      · exact readAnswers_end (Nat.not_lt.mp hinside)
    · exact readAnswers_stop hpre (by rwa [htype]) (by rwa [htype])
  · have hat : ownerAt (pre ++ (r.bytes ++ post)) pre.length + 2 =
        (pre ++ r.owner.bytes ++ [0#8]).length := by
      rw [List.length_append, List.length_append, List.length_singleton]
      omega
    have htype : field16 (pre ++ (r.bytes ++ post)) (pre ++ r.owner.bytes ++ [0#8]).length =
        ntohs low cls := by
      rw [record_append, hfields]
      have htwo := field16_two (pre ++ r.owner.bytes ++ [0#8]) (rest ++ (r.rdata ++ post)) low cls
      simpa only [List.append_assoc, List.cons_append, List.nil_append] using htwo
    obtain ⟨hcname, ha⟩ := ntohs_unknown hlow cls
    exact readAnswers_stop hpre (by rwa [hat, htype]) (by rwa [hat, htype])

/-! ## All records -/

theorem recordBytes_cons (r : Record) (records : List Record) :
    recordBytes (r :: records) = r.bytes ++ recordBytes records := List.flatMap_cons

theorem readAnswers_reaches {a : Record} {records : List Record} (h : Reaches a records)
    (hpre : 0 < pre.length) :
    readAnswers (pre ++ recordBytes records) NetDNSenvvar pre.length =
      some (.success (NetDNSenvvar.map fun var => ⟨var, 4, a.rdata⟩)) := by
  induction h generalizing pre with
  | here skipped type =>
      rw [recordBytes_cons]
      exact readAnswers_stored hpre skipped type
  | @next r rs skipped type rest ih =>
      rw [recordBytes_cons, readAnswers_alias hpre skipped type, ← List.append_assoc]
      exact ih (by rw [List.length_append]; omega)

theorem readAnswers_none {records : List Record} (htext : ∀ r ∈ records, r.owner.Text)
    (h : ∀ a, ¬ Reaches a records) (hpre : 0 < pre.length) :
    readAnswers (pre ++ recordBytes records) NetDNSenvvar pre.length = some (.success none) := by
  induction records generalizing pre with
  | nil => exact readAnswers_end (by rw [recordBytes, List.flatMap_nil, List.append_nil]; omega)
  | cons r rs ih =>
      rw [recordBytes_cons]
      by_cases skipped : r.owner.Skipped
      · by_cases hcname : r.type = DNS_CNAME_RECORD
        · rw [readAnswers_alias hpre skipped hcname, ← List.append_assoc]
          apply ih
          · exact fun r' hmem => htext r' (List.mem_cons_of_mem r hmem)
          · exact fun a hreaches => h a (.next skipped hcname hreaches)
          · rw [List.length_append]
            omega
        · exact readAnswers_other hpre skipped hcname fun ha => h r (.here skipped ha)
      · exact readAnswers_lost hpre (htext r List.mem_cons_self) skipped

/-- What is reached behind aliases and an address is this address. -/
theorem Reaches.first {a b : Record} {cnames rest : List Record}
    (hcnames : ∀ r ∈ cnames, r.type = DNS_CNAME_RECORD) (ha : a.type = DNS_A_RECORD)
    (h : Reaches b (cnames ++ a :: rest)) : b = a := by
  induction cnames with
  | nil =>
      cases h with
      | here => rfl
      | next _ type => exact absurd (ha.symm.trans type) (by decide)
  | cons r cnames ih =>
      cases h with
      | here _ type =>
          exact absurd ((hcnames _ List.mem_cons_self).symm.trans type) (by decide)
      | next _ _ rest => exact ih (fun r' hmem => hcnames r' (List.mem_cons_of_mem r hmem)) rest

namespace Response

variable (r : Response)

theorem length_question :
    (r.header ++ r.question).length = 12 + (labelBytes r.host).length + 5 := by
  rw [List.length_append, question, List.length_append]
  rfl

theorem bytes_question : r.bytes = r.header ++ (labelBytes r.host ++
    0#8 :: (htons DNS_A_RECORD ++ (htons 1#16 ++ recordBytes r.records))) := by
  rw [bytes, question]
  simp only [List.append_assoc, List.cons_append]

theorem zeroFrom_question : zeroFrom r.bytes 12 = 12 + (labelBytes r.host).length := by
  rw [bytes_question]
  exact zeroFrom_bytes (labelBytes_text r.host_text) r.header _

theorem field16_question :
    field16 r.bytes (12 + (labelBytes r.host).length + 1) = DNS_A_RECORD := by
  have hfield := field16_htons (r.header ++ labelBytes r.host ++ [0#8])
    (htons 1#16 ++ recordBytes r.records) DNS_A_RECORD
  rw [List.length_append, List.length_append] at hfield
  rw [bytes_question]
  simp only [List.append_assoc, List.cons_append, List.nil_append] at hfield
  exact hfield

theorem answers_eq_zero_iff :
    BitVec.ofNat 16 (r.cnames ++ r.addresses).length = 0#16 ↔ r.cnames ++ r.addresses = [] := by
  rw [← BitVec.toNat_inj, BitVec.toNat_ofNat, Nat.mod_eq_of_lt r.answers_lt]
  exact List.length_eq_zero_iff

/-- The handler comes to the answers, unless there are none. -/
theorem dnsHandler_eq (DnsOurPort : Nat) (NetDNSenvvar : Option String) :
    DnsHandler r.bytes DnsOurPort NetDNSenvvar DnsOurPort =
      if r.cnames ++ r.addresses = [] then some (.success none)
      else readAnswers r.bytes NetDNSenvvar (r.header ++ r.question).length := by
  have hlen : r.bytes.length =
      12 + (labelBytes r.host).length + 5 + (recordBytes r.records).length := by
    rw [bytes, ← List.append_assoc, List.length_append, length_question]
  have hqueries : field16 r.bytes 4 = 1#16 := ntohs_htons 1#16
  have hanswers : field16 r.bytes 6 = BitVec.ofNat 16 (r.cnames ++ r.addresses).length :=
    ntohs_htons _
  have hquestion : ¬ (r.bytes.length < 12 + (labelBytes r.host).length + 5 ∨
      field16 r.bytes (12 + (labelBytes r.host).length + 1) ≠ DNS_A_RECORD) := by
    rw [not_or, not_not]
    exact ⟨by omega, r.field16_question⟩
  rw [DnsHandler, if_neg (not_not.mpr rfl), (needs_short _ _).eq_some (by omega),
    Option.bind_eq_bind, Option.bind_some, hqueries, if_neg (not_not.mpr rfl),
    (needs_short _ _).eq_some (by omega), Option.bind_eq_bind, Option.bind_some, hanswers]
  by_cases hnone : r.cnames ++ r.addresses = []
  · rw [if_pos hnone, if_pos (r.answers_eq_zero_iff.mpr hnone)]
    rfl
  · rw [if_neg hnone, if_neg fun hzero => hnone (r.answers_eq_zero_iff.mp hzero),
      skipHostName_eq, zeroFrom_question]
    dsimp only
    rw [(needs_short _ _).eq_some (by omega), Option.bind_some, if_neg hquestion,
      length_question]
    rfl

/-- The handler gets to the first address of the answers, or there is none there and it gets to none
of the other records. -/
def Straight : Prop :=
  match r.addresses with
  | a :: _ => Reaches a r.records
  | [] => r.cnames = [] ∨ ((∀ record ∈ r.records, record.owner.Text) ∧
      ∀ a, ¬ Reaches a r.records)

end Response

theorem setsFirst_of_straight {r : Response} {DnsOurPort : Nat} {NetDNSenvvar : String}
    (h : r.Straight) : SetsFirst r DnsOurPort NetDNSenvvar := by
  have hpre : 0 < (r.header ++ r.question).length := by
    rw [r.length_question]
    omega
  rw [SetsFirst, r.dnsHandler_eq, Response.bytes, ← List.append_assoc]
  unfold Response.Straight at h
  cases haddresses : r.addresses with
  | nil =>
      rw [haddresses] at h
      rcases h with hcnames | ⟨htext, hnone⟩
      · rw [hcnames, List.append_nil, if_pos rfl]
        exact ⟨_, rfl, rfl⟩
      · split
        · exact ⟨_, rfl, rfl⟩
        · exact ⟨_, readAnswers_none htext hnone hpre, rfl⟩
  | cons a rest =>
      rw [haddresses] at h
      rw [if_neg (List.append_ne_nil_of_right_ne_nil _ (List.cons_ne_nil a rest))]
      exact ⟨_, readAnswers_reaches h hpre, rfl⟩

theorem straight_of_setsFirst {r : Response} {DnsOurPort : Nat} {NetDNSenvvar : String}
    (htext : ∀ record ∈ r.records, record.owner.Text)
    (h : SetsFirst r DnsOurPort NetDNSenvvar) : r.Straight := by
  have hpre : 0 < (r.header ++ r.question).length := by
    rw [r.length_question]
    omega
  obtain ⟨out, hout, hset⟩ := h
  rw [r.dnsHandler_eq, Response.bytes, ← List.append_assoc] at hout
  unfold Response.Straight
  cases haddresses : r.addresses with
  | nil =>
      rw [haddresses, List.append_nil] at hout
      rw [haddresses] at hset
      by_cases hcnames : r.cnames = []
      · exact .inl hcnames
      · refine .inr ⟨htext, fun a hreaches => ?_⟩
        rw [if_neg hcnames, readAnswers_reaches hreaches hpre, Option.some.injEq] at hout
        subst hout
        cases hset
  | cons a rest =>
      rw [haddresses] at hset
      rw [haddresses, if_neg (List.append_ne_nil_of_right_ne_nil _ (List.cons_ne_nil a rest))]
        at hout
      by_contra hnot
      have hnone : ∀ b, ¬ Reaches b r.records := by
        intro b hreaches
        have hrecords : r.records = r.cnames ++ a :: (rest ++ r.authority ++ r.additional) := by
          rw [Response.records, haddresses]
          simp only [List.append_assoc, List.cons_append]
        have ha := r.addresses_type a (haddresses ▸ List.mem_cons_self)
        have hfirst := (hrecords ▸ hreaches).first r.cnames_type ha
        exact hnot (hfirst ▸ hreaches)
      rw [readAnswers_none htext hnone hpre, Option.some.injEq] at hout
      subst hout
      cases hset

/-- A response to a query for `a`, with one address and this name as its owner. -/
def oneAddress (owner : Name) : Response where
  tid := 1
  flags := 0x8180
  host := [⟨[0x61#8], by decide⟩]
  cnames := []
  addresses := [{
    owner := owner
    type := DNS_A_RECORD
    cls := 1
    ttl := 60
    rdata := [10, 0, 0, 1]
    type_pos := by decide
    type_lt := by decide
    rdata_lt := by decide
    rdata_a := fun _ => rfl
    rdata_cname := fun h => absurd h (by decide) }]
  authority := []
  additional := []
  host_text := by decide
  cnames_type := nofun
  addresses_type := by simp
  answers_lt := Nat.one_lt_two_pow (by decide)

end UBoot.Dns
