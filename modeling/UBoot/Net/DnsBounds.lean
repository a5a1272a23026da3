/-
# DNS responses and their bounds

The handler comes to an end on every payload, and the loop over the answers stays within it. What is
read behind the payload is a part of the header, the type of the question, and a part of an address
that begins within it. The length of an address is not looked at.
-/

import UBoot.Net.Dns

namespace UBoot.Dns

open UBoot.Lib UBoot.PacketBytes

variable {pkt : List Byte}

/-! ## The loop that prints the packet -/

theorem dump_toNat (k : Nat) : ((· + 4#16)^[k] 0#16).toNat = 4 * k % 2 ^ 16 := by
  induction k with
  | zero => rfl
  | succ k ih =>
      rw [Function.iterate_succ_apply', BitVec.toNat_add, ih]
      simp only [BitVec.toNat_ofNat]
      omega

theorem dumpEnds_iff : DumpEnds pkt ↔ pkt.length ≤ 65532 := by
  constructor
  · rintro ⟨k, hk⟩
    rw [dump_toNat] at hk
    omega
  · intro h
    refine ⟨16383, ?_⟩
    rw [dump_toNat]
    exact h

/-! ## The loop over the answers -/

/-- Where the type of an answer at `p` is, less two bytes. -/
def ownerAt (pkt : List Byte) (p : Nat) : Nat :=
  if pkt[p]? = some 0xc0#8 then p else min (zeroFrom pkt p) (pkt.length - 12) - 1

/-- The answers from `p` on lead to that at `a`: what the type of an answer is taken from says
`CNAME` until it says `A`. -/
inductive LeadsTo (pkt : List Byte) (a : Nat) : Nat → Prop where
  | address {p : Nat} (inside : p + 12 < pkt.length)
      (type : field16 pkt (ownerAt pkt p + 2) = DNS_A_RECORD) (here : ownerAt pkt p = a) :
      LeadsTo pkt a p
  | cname {p : Nat} (inside : p + 12 < pkt.length)
      (type : field16 pkt (ownerAt pkt p + 2) = DNS_CNAME_RECORD)
      (next : LeadsTo pkt a
        (ownerAt pkt p + (12 + (field16 pkt (ownerAt pkt p + 10)).toNat))) :
      LeadsTo pkt a p

theorem le_zeroFrom (pkt : List Byte) (p : Nat) : p ≤ zeroFrom pkt p := Nat.le_add_right _ _

theorem skipName_eq {p : Nat} (h : p + 12 ≤ pkt.length) :
    skipName pkt p = some (min (zeroFrom pkt p) (pkt.length - 12)) := by
  fun_induction skipName pkt p with
  | case1 p hnone =>
      rw [List.getElem?_eq_none_iff] at hnone
      omega
  | case2 p b hcell hgo ih => rw [ih (by omega), zeroFrom_of_ne hcell hgo.1]
  | case3 p b hcell hstop =>
      have hle := le_zeroFrom pkt p
      by_cases hb : b = 0#8
      · subst hb
        rw [zeroFrom_of_eq hcell, min_eq_left (Nat.le_sub_of_add_le h)]
      · have hend : pkt.length ≤ p + 12 := Nat.not_lt.mp fun hlt => hstop ⟨hb, hlt⟩
        rw [min_eq_right (by omega), show pkt.length - 12 = p by omega]

theorem skipOwner_eq {p : Nat} (h : p + 12 < pkt.length) :
    skipOwner pkt p = some (ownerAt pkt p) := by
  have hcell := List.getElem?_eq_getElem (show p < pkt.length by omega)
  rw [skipOwner, ownerAt, hcell]
  by_cases hb : pkt[p] = 0xc0#8
  · rw [if_pos (congrArg some hb)]
    exact if_neg (not_not.mpr hb)
  · rw [if_neg fun hsome => hb (Option.some.inj hsome), skipName_eq h.le]
    exact if_pos hb

/-- The type and the length of an answer are within the payload. -/
theorem ownerAt_lt {p : Nat} (hp : 0 < p) (h : p + 12 < pkt.length) :
    ownerAt pkt p + 12 < pkt.length := by
  unfold ownerAt
  split
  · exact h
  · omega

/-- One turn of the loop. -/
theorem answerLoop_turn {p : Nat} (hp : 0 < p) (h : p + 12 < pkt.length) :
    answerLoop pkt p =
      if field16 pkt (ownerAt pkt p + 2) = DNS_CNAME_RECORD then
        answerLoop pkt (ownerAt pkt p + (12 + (field16 pkt (ownerAt pkt p + 10)).toNat))
      else some (ownerAt pkt p, field16 pkt (ownerAt pkt p + 2) = DNS_A_RECORD) := by
  have hlt := ownerAt_lt hp h
  rw [answerLoop, if_pos h]
  split
  · rename_i hnone
    rw [skipOwner_eq h] at hnone
    cases hnone
  · rename_i q hq
    rw [skipOwner_eq h, Option.some.injEq] at hq
    subst hq
    rw [(needs_short pkt _).eq_some (by omega), (needs_short pkt _).eq_some (by omega)]
    rfl

/-- The loop ends at the address that the answers lead to, and finds none if they lead to none. -/
theorem answerLoop_cases {p : Nat} (hp : 0 < p) :
    (∃ a, LeadsTo pkt a p ∧ a + 12 < pkt.length ∧ answerLoop pkt p = some (a, true)) ∨
    ((∀ a, ¬ LeadsTo pkt a p) ∧ ∃ q, answerLoop pkt p = some (q, false)) := by
  induction hn : pkt.length - p using Nat.strong_induction_on generalizing p with
  | _ n ih =>
      by_cases h : p + 12 < pkt.length
      · rw [answerLoop_turn hp h]
        by_cases hcname : field16 pkt (ownerAt pkt p + 2) = DNS_CNAME_RECORD
        · have hle := le_of_skipOwner (skipOwner_eq h)
          rw [if_pos hcname]
          let next := ownerAt pkt p + (12 + (field16 pkt (ownerAt pkt p + 10)).toNat)
          have hnext : pkt.length - next < n := by omega
          have hpos : 0 < next := by omega
          rcases ih _ hnext hpos rfl with ⟨a, hleads, hrest⟩ | ⟨hnone, hrest⟩
          · exact .inl ⟨a, .cname h hcname hleads, hrest⟩
          · refine .inr ⟨fun a hleads => ?_, hrest⟩
            cases hleads with
            | address _ type => exact absurd (hcname.symm.trans type) (by decide)
            | cname _ _ next => exact hnone a next
        · rw [if_neg hcname]
          by_cases ha : field16 pkt (ownerAt pkt p + 2) = DNS_A_RECORD
          · rw [decide_eq_true ha]
            exact .inl ⟨_, .address h ha rfl, ownerAt_lt hp h, rfl⟩
          · rw [decide_eq_false ha]
            refine .inr ⟨fun a hleads => ?_, _, rfl⟩
            cases hleads with
            | address _ type => exact ha type
            | cname _ type => exact hcname type
      · rw [answerLoop, if_neg h]
        refine .inr ⟨fun a hleads => ?_, _, rfl⟩
        cases hleads with
        | address inside => exact h inside
        | cname inside => exact h inside

theorem LeadsTo.unique {a b p : Nat} (h : LeadsTo pkt a p) (h' : LeadsTo pkt b p) : a = b := by
  induction h with
  | address _ type here =>
      cases h' with
      | address _ _ here' => exact here.symm.trans here'
      | cname _ type' => exact absurd (type.symm.trans type') (by decide)
  | cname _ type _ ih =>
      cases h' with
      | address _ type' => exact absurd (type.symm.trans type') (by decide)
      | cname _ _ next => exact ih next

/-! ## The handler -/

variable {NetDNSenvvar : Option String}

theorem endsWell_bind {α : Type} {r : Option α} {n : Nat} {v : α} {f : α → Option Outcome}
    (h : Needs pkt.length r n v) : EndsWell (r >>= f) ↔ n ≤ pkt.length ∧ EndsWell (f v) := by
  by_cases hn : n ≤ pkt.length
  · rw [h.eq_some hn, and_iff_right hn]
    rfl
  · rw [h, if_neg hn]
    refine iff_of_false ?_ fun hend => hn hend.1
    rintro ⟨out, hout, -⟩
    cases hout

theorem endsWell_ignored : EndsWell (some .ignored) := ⟨_, rfl, nofun⟩

theorem endsWell_nothing : EndsWell (some (.success none)) := ⟨_, rfl, nofun⟩

theorem endsWell_stored {s : Stored} : EndsWell (some (.success (some s))) ↔ s.dlen = 4 := by
  constructor
  · rintro ⟨out, hout, hall⟩
    exact hall s (Option.some.inj hout).symm
  · intro h
    refine ⟨_, rfl, fun t ht => ?_⟩
    injection ht with ht
    injection ht with ht
    exact ht ▸ h

/-- The address of the answer at `a` is copied from within the payload, and it is not stored with
another length than that of an address. -/
def AddressFits (pkt : List Byte) (NetDNSenvvar : Option String) (a : Nat) : Prop :=
  a + 16 ≤ pkt.length ∧ (NetDNSenvvar.isSome →
    a + 12 + (field16 pkt (a + 10)).toNat ≤ pkt.length → (field16 pkt (a + 10)).toNat = 4)

/-- The header, the question and the address that the answers lead to are within the payload as far
as they are looked at. -/
def Fits (pkt : List Byte) (NetDNSenvvar : Option String) : Prop :=
  pkt.length ≤ 65532 ∧ 6 ≤ pkt.length ∧ (field16 pkt 4 = 1#16 → 8 ≤ pkt.length ∧
    (field16 pkt 6 ≠ 0#16 → zeroFrom pkt 12 + 3 ≤ pkt.length ∧
      (zeroFrom pkt 12 + 5 ≤ pkt.length → field16 pkt (zeroFrom pkt 12 + 1) = DNS_A_RECORD →
        ∀ a, LeadsTo pkt a (zeroFrom pkt 12 + 5) → AddressFits pkt NetDNSenvvar a)))

theorem copyAnswer_iff {a : Nat} (h : a + 12 < pkt.length) :
    EndsWell (copyAnswer pkt NetDNSenvvar a true) ↔ AddressFits pkt NetDNSenvvar a := by
  rw [copyAnswer, if_pos ⟨rfl, h⟩, endsWell_bind (needs_short pkt _),
    endsWell_bind (needs_cells pkt _ _), and_iff_right (show a + 10 + 2 ≤ pkt.length by omega),
    AddressFits]
  apply and_congr_right
  intro _
  split
  · rename_i hle
    cases NetDNSenvvar with
    | none => exact iff_of_true endsWell_nothing nofun
    | some var =>
        exact endsWell_stored.trans ⟨fun hlen _ _ => hlen, fun hall => hall rfl hle⟩
  · rename_i hgt
    exact iff_of_true endsWell_nothing fun _ hle => absurd hle hgt

/-- The loop over the answers and what follows it. -/
theorem answers_iff {p : Nat} (hp : 0 < p) :
    EndsWell (answerLoop pkt p >>= fun (p, found) => copyAnswer pkt NetDNSenvvar p found) ↔
      ∀ a, LeadsTo pkt a p → AddressFits pkt NetDNSenvvar a := by
  rcases answerLoop_cases hp with ⟨a, hleads, hlt, hloop⟩ | ⟨hnone, q, hloop⟩
  · rw [hloop]
    refine (copyAnswer_iff hlt).trans ⟨fun hfits b hb => ?_, fun hall => hall a hleads⟩
    rwa [hb.unique hleads]
  · rw [hloop]
    refine iff_of_true ?_ fun a hleads => absurd hleads (hnone a)
    show EndsWell (copyAnswer pkt NetDNSenvvar q false)
    rw [copyAnswer, if_neg fun hfound => Bool.false_ne_true hfound.1]
    exact endsWell_nothing

/-- A payload is handled in bounds exactly if the parts that are looked at are within it, and no
address of another length is reached. -/
theorem dnsHandler_inBounds_iff (pkt : List Byte) (DnsOurPort : Nat)
    (NetDNSenvvar : Option String) :
    HandledInBounds pkt DnsOurPort NetDNSenvvar ↔ Fits pkt NetDNSenvvar := by
  rw [HandledInBounds, dumpEnds_iff, Fits, DnsHandler, if_neg (not_not.mpr rfl),
    endsWell_bind (needs_short pkt 4)]
  apply and_congr_right
  intro _
  apply and_congr_right
  intro _
  by_cases hqueries : field16 pkt 4 = 1#16
  · rw [if_neg (not_not.mpr hqueries), endsWell_bind (needs_short pkt 6),
      forall_prop_of_true hqueries]
    apply and_congr_right
    intro _
    by_cases hanswers : field16 pkt 6 = 0#16
    · rw [if_pos hanswers]
      exact iff_of_true endsWell_nothing fun hne => absurd hanswers hne
    · rw [if_neg hanswers, forall_prop_of_true hanswers, skipHostName_eq,
        endsWell_bind (needs_short pkt _)]
      apply and_congr_right
      intro _
      by_cases hquestion : pkt.length < zeroFrom pkt 12 + 5 ∨
          field16 pkt (zeroFrom pkt 12 + 1) ≠ DNS_A_RECORD
      · rw [if_pos hquestion]
        refine iff_of_true endsWell_nothing fun hle hA => ?_
        rcases hquestion with hlt | hne
        · exact absurd hle (Nat.not_le_of_lt hlt)
        · exact absurd hA hne
      · rw [if_neg hquestion]
        rw [not_or, Nat.not_lt, not_not] at hquestion
        rw [forall_prop_of_true hquestion.1, forall_prop_of_true hquestion.2]
        exact answers_iff (Nat.succ_pos _)
  · rw [if_pos hqueries]
    exact iff_of_true endsWell_ignored fun heq => absurd heq hqueries

/-- A response to a query for the root with one answer, whose address has no bytes. -/
theorem not_dnsHandler_inBounds : ¬ ∀ pkt DnsOurPort NetDNSenvvar,
    HandledInBounds pkt DnsOurPort NetDNSenvvar := by
  intro h
  let pkt : List Byte := [0, 1, 0x81, 0x80, 0, 1, 0, 1, 0, 0, 0, 0, 0, 0, 1, 0, 1,
    0xc0, 12, 0, 1, 0, 1, 0, 0, 0, 60, 0, 0, 10, 0, 0, 1]
  obtain ⟨-, out, hout, hall⟩ := h pkt 1024 (some "ip")
  have hstored : DnsHandler pkt 1024 (some "ip") 1024 =
      some (.success (some ⟨"ip", 0, [10, 0, 0, 1]⟩)) := by decide +kernel
  rw [hstored, Option.some.injEq] at hout
  exact absurd (hall _ hout.symm) (by decide)

end UBoot.Dns
