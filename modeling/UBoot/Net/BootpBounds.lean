/-
# BOOTP and DHCP replies and their bounds

Every walk over the options comes to an end, and what it writes has room in its buffer with a zero
behind it. It reads behind the payload unless the options that it comes to lie within the payload as
far as they are read, up to the end option or to where the walk stops by itself.
-/

import UBoot.Net.BootpBytes

namespace UBoot.BootpBytes

open UBoot.Lib UBoot.Bootp UBoot.Dhcp UBoot.PacketBytes

/-! ## Payloads that are handled in bounds -/

section

variable (cfg : Config) (pkt : List Byte)

/-- The options that `BootpVendorProcess` comes to from an index on, with these parameters. It does
not look at an option that ends behind `fin`. -/
inductive VendorFits (fin : Nat) : Nat → Params → Prop where
  | past {ext : Nat} {p : Params} (past : fin ≤ ext) : VendorFits fin ext p
  | stop {ext : Nat} {p : Params} (here : ext < fin) (inside : ext < pkt.length)
      (code : mem pkt ext = 0xff#8) : VendorFits fin ext p
  | pad {ext : Nat} {p : Params} (here : ext < fin) (inside : ext < pkt.length)
      (code : mem pkt ext = 0#8) (rest : VendorFits fin (ext + 1) p) : VendorFits fin ext p
  | field {ext : Nat} {p : Params} (here : ext < fin) (inside : ext + 1 < pkt.length)
      (code : mem pkt ext ≠ 0xff#8) (nopad : mem pkt ext ≠ 0#8)
      (le : ext + ((mem pkt (ext + 1)).toNat + 2) ≤ fin)
      (reads : ext + 2 + vendorReads cfg pkt ext p ≤ pkt.length)
      (rest : VendorFits fin (ext + ((mem pkt (ext + 1)).toNat + 2))
        (BootpVendorFieldProcess cfg (mem pkt) ext p)) : VendorFits fin ext p
  | beyond {ext : Nat} {p : Params} (here : ext < fin) (inside : ext + 1 < pkt.length)
      (code : mem pkt ext ≠ 0xff#8) (nopad : mem pkt ext ≠ 0#8)
      (gt : fin < ext + ((mem pkt (ext + 1)).toNat + 2)) : VendorFits fin ext p

/-- The options that `DhcpOptionsProcess` comes to. -/
inductive OptionsFit (fin : Nat) : Nat → Options → Prop where
  | past {popt : Nat} {o : Options} (past : fin ≤ popt) : OptionsFit fin popt o
  | stop {popt : Nat} {o : Options} (here : popt < fin) (inside : popt < pkt.length)
      (code : mem pkt popt = 0xff#8) : OptionsFit fin popt o
  | option {popt : Nat} {o : Options} (here : popt < fin) (inside : popt + 1 < pkt.length)
      (code : mem pkt popt ≠ 0xff#8)
      (reads : popt + 2 + optionReads cfg pkt popt o.file ≤ pkt.length)
      (rest : OptionsFit fin (popt + ((mem pkt (popt + 1)).toNat + 2))
        ⟨dhcpOption cfg (mem pkt) popt o.params, putFile pkt popt o.file⟩) : OptionsFit fin popt o

/-- The options that `DhcpMessageType` comes to end with a message type, or without one. -/
inductive TypeFits : Nat → Option Byte → Prop where
  | stop {popt : Nat} (inside : popt < pkt.length) (code : mem pkt popt = 0xff#8) :
      TypeFits popt none
  | type {popt : Nat} (inside : popt + 2 < pkt.length) (code : mem pkt popt = 53#8) :
      TypeFits popt (some (mem pkt (popt + 2)))
  | option {popt : Nat} {t : Option Byte} (inside : popt + 1 < pkt.length)
      (code : mem pkt popt ≠ 0xff#8) (other : mem pkt popt ≠ 53#8)
      (rest : TypeFits (popt + ((mem pkt (popt + 1)).toNat + 2)) t) : TypeFits popt t

/-- `BootpCheckPkt` accepts the payload. -/
def Accepted (dest src : Nat) (BootpID : U32) : Prop :=
  dest = PORT_BOOTPC ∧ src = PORT_BOOTPS ∧ BOOTP_HDR_SIZE - OPT_SIZE ≤ pkt.length ∧
    mem pkt 0 ∈ [OP_BOOTREQUEST, OP_BOOTREPLY, DHCP_OFFER, DHCP_ACK, DHCP_NAK] ∧
    mem pkt 1 = HWT_ETHER ∧ mem pkt 2 = HWL_ETHER ∧ wordAt pkt 4 = BootpID

instance (dest src : Nat) (BootpID : U32) : Decidable (Accepted pkt dest src BootpID) :=
  inferInstanceAs (Decidable (_ ∧ _ ∧ _ ∧ _ ∧ _ ∧ _ ∧ _))

/-- The magic is in the payload. -/
def HasMagic : Prop := wordAt pkt BP_VEND = BOOTP_VENDOR_MAGIC

/-- The name of the boot file has an end in the payload. -/
def FileEnds : Prop := 0#8 ∈ pkt.drop BP_FILE

end

/-! ## Buffers -/

/-- A string in a buffer is as it was, or it has been copied there with room for its zero. -/
def StringKept (size : Nat) (s s' : List Byte) : Prop := s' = s ∨ s'.length < size

theorem StringKept.trans {size : Nat} {s s' s'' : List Byte} (h : StringKept size s s')
    (h' : StringKept size s' s'') : StringKept size s s'' := by
  rcases h' with rfl | hlt
  · exact h
  · exact .inr hlt

/-- The strings among the parameters. -/
structure Kept (p p' : Params) : Prop where
  hostName : StringKept HOST_NAME_SIZE p.NetOurHostName p'.NetOurHostName
  rootPath : StringKept ROOT_PATH_SIZE p.NetOurRootPath p'.NetOurRootPath
  nisDomain : StringKept NIS_DOMAIN_SIZE p.NetOurNISDomain p'.NetOurNISDomain

theorem Kept.refl (p : Params) : Kept p p := ⟨.inl rfl, .inl rfl, .inl rfl⟩

theorem Kept.trans {p p' p'' : Params} (h : Kept p p') (h' : Kept p' p'') : Kept p p'' :=
  ⟨h.hostName.trans h'.hostName, h.rootPath.trans h'.rootPath, h.nisDomain.trans h'.nisDomain⟩

theorem truncate_sz_lt {maxlen : Nat} (h : 0 < maxlen) (curlen : Nat) :
    truncate_sz maxlen curlen < maxlen := by
  unfold truncate_sz
  split
  · omega
  · omega

theorem length_copyString_lt {m : Nat → Byte} {maxlen ext : Nat} (h : 0 < maxlen) :
    (copyString m maxlen ext).length < maxlen := by
  rw [copyString, length_slice]
  exact truncate_sz_lt h _

variable {cfg : Config} {pkt : List Byte}

theorem Kept.ite {c : Prop} [Decidable c] {p q q' : Params} (h : Kept p q) (h' : Kept p q') :
    Kept p (if c then q else q') := by
  split
  · exact h
  · exact h'

theorem vendorField_kept (m : Nat → Byte) (ext : Nat) (p : Params) :
    Kept p (BootpVendorFieldProcess cfg m ext p) := by
  unfold BootpVendorFieldProcess
  dsimp only
  repeat' apply Kept.ite
  all_goals
    refine ⟨?_, ?_, ?_⟩ <;>
      first
        | exact .inl rfl
        | split <;> exact .inl rfl
        | exact .inr (length_copyString_lt (by decide))

theorem dhcpOption_kept (m : Nat → Byte) (popt : Nat) (p : Params) :
    Kept p (dhcpOption cfg m popt p) := by
  unfold dhcpOption
  dsimp only
  repeat' apply Kept.ite
  all_goals
    refine ⟨?_, ?_, ?_⟩ <;>
      first
        | exact .inl rfl
        | exact .inr (length_copyString_lt (by decide))

/-- The bytes from `bp_file` on are as they were, or the buffer was empty and has got a string. -/
structure FileKept (file file' : List Byte) : Prop where
  behind : file'.drop BP_FILE_SIZE = file.drop BP_FILE_SIZE
  length : file'.length = file.length
  written : file' = file ∨ isEmpty file ∧ 0#8 ∈ file'.take BP_FILE_SIZE

theorem FileKept.refl (file : List Byte) : FileKept file file := ⟨rfl, rfl, .inl rfl⟩

theorem FileKept.trans {file file' file'' : List Byte} (h : FileKept file file')
    (h' : FileKept file' file'') : FileKept file file'' := by
  refine ⟨h'.behind.trans h.behind, h'.length.trans h.length, ?_⟩
  rcases h'.written with rfl | ⟨hempty, hzero⟩
  · exact h.written
  · rcases h.written with rfl | ⟨hempty', -⟩
    · exact .inr ⟨hempty, hzero⟩
    · exact .inr ⟨hempty', hzero⟩

variable (pkt) in
theorem putFile_kept (popt : Nat) {file : List Byte} (hlen : BP_FILE_SIZE ≤ file.length) :
    FileKept file (putFile pkt popt file) := by
  unfold putFile
  dsimp only
  split
  · rename_i hput
    have hlt : truncate_sz BP_FILE_SIZE (mem pkt (popt + 1)).toNat < BP_FILE_SIZE :=
      truncate_sz_lt (by decide) _
    generalize truncate_sz BP_FILE_SIZE (mem pkt (popt + 1)).toNat = size at hlt hput ⊢
    have hslice := length_slice (mem pkt) (popt + 2) size
    refine ⟨?_, ?_, .inr ⟨hput.2.1, ?_⟩⟩
    · rw [List.drop_append, hslice, List.drop_eq_nil_of_le (by omega), List.nil_append,
        show BP_FILE_SIZE - size = BP_FILE_SIZE - (size + 1) + 1 by omega, List.drop_succ_cons,
        List.drop_drop]
      congr 1
      omega
    · rw [List.length_append, hslice, List.length_cons, List.length_drop]
      omega
    · rw [List.take_append, hslice, List.take_of_length_le (by omega),
        show BP_FILE_SIZE - size = BP_FILE_SIZE - (size + 1) + 1 by omega, List.take_succ_cons]
      exact List.mem_append_right _ List.mem_cons_self
  · exact FileKept.refl file

/-! ## The walks -/

theorem mem_eq {i : Nat} {b : Byte} (h : pkt[i]? = some b) : mem pkt i = b := by
  rw [mem, List.getD_eq_getElem?_getD, h]
  rfl

/-- One turn of the walk without DHCP. -/
theorem vendorLoop_turn {fin ext : Nat} (h : ext < fin) (p : Params) :
    vendorLoop cfg pkt fin ext p =
      if ext < pkt.length then
        if mem pkt ext = 0xff#8 then some p
        else if mem pkt ext = 0#8 then vendorLoop cfg pkt fin (ext + 1) p
        else if ext + 1 < pkt.length then
          if ext + ((mem pkt (ext + 1)).toNat + 2) ≤ fin then
            if ext + 2 + vendorReads cfg pkt ext p ≤ pkt.length then
              vendorLoop cfg pkt fin (ext + ((mem pkt (ext + 1)).toNat + 2))
                (BootpVendorFieldProcess cfg (mem pkt) ext p)
            else none
          else some p
        else none
      else none := by
  rw [vendorLoop, if_pos h]
  split
  · rename_i hnone
    rw [if_neg (Nat.not_lt.mpr (List.getElem?_eq_none_iff.mp hnone))]
  · rename_i code hcode
    rw [if_pos (List.getElem?_eq_some_iff.mp hcode).1, mem_eq hcode]
    refine if_congr Iff.rfl rfl (if_congr Iff.rfl rfl ?_)
    by_cases hsize : ext + 1 < pkt.length
    · have hcell := List.getElem?_eq_getElem hsize
      rw [if_pos hsize, mem_eq hcell, hcell]
      by_cases hnext : ext + (pkt[ext + 1].toNat + 2) ≤ fin
      · rw [if_pos hnext]
        exact if_pos hnext
      · rw [if_neg hnext]
        refine (if_neg hnext).trans ?_
        rw [vendorLoop, if_neg (by omega)]
    · rw [if_neg hsize, List.getElem?_eq_none (Nat.not_lt.mp hsize)]
      rfl

theorem vendorLoop_past {fin ext : Nat} (h : fin ≤ ext) (p : Params) :
    vendorLoop cfg pkt fin ext p = some p := by
  rw [vendorLoop, if_neg (Nat.not_lt.mpr h)]

theorem vendorLoop_of_fits {fin ext : Nat} {p : Params} (h : VendorFits cfg pkt fin ext p) :
    ∃ p', vendorLoop cfg pkt fin ext p = some p' ∧ Kept p p' := by
  induction h with
  | past past => exact ⟨_, vendorLoop_past past _, Kept.refl _⟩
  | stop here inside code =>
      rw [vendorLoop_turn here, if_pos inside, if_pos code]
      exact ⟨_, rfl, Kept.refl _⟩
  | pad here inside code _ ih =>
      rw [vendorLoop_turn here, if_pos inside, code, if_neg (by decide), if_pos rfl]
      exact ih
  | field here inside code nopad le reads _ ih =>
      rw [vendorLoop_turn here, if_pos (Nat.lt_of_succ_lt inside), if_neg code, if_neg nopad,
        if_pos inside, if_pos le, if_pos reads]
      obtain ⟨p', hloop, hkept⟩ := ih
      exact ⟨p', hloop, (vendorField_kept _ _ _).trans hkept⟩
  | beyond here inside code nopad gt =>
      rw [vendorLoop_turn here, if_pos (Nat.lt_of_succ_lt inside), if_neg code, if_neg nopad,
        if_pos inside, if_neg (Nat.not_le.mpr gt)]
      exact ⟨_, rfl, Kept.refl _⟩

theorem fits_of_vendorLoop {fin ext : Nat} {p p' : Params}
    (h : vendorLoop cfg pkt fin ext p = some p') : VendorFits cfg pkt fin ext p := by
  induction hleft : pkt.length - ext using Nat.strong_induction_on generalizing ext p with
  | _ left ih =>
    by_cases hfin : fin ≤ ext
    · exact .past hfin
    have here := Nat.not_le.mp hfin
    rw [vendorLoop_turn here] at h
    split at h
    · rename_i inside
      split at h
      · rename_i code
        exact .stop here inside code
      · rename_i code
        split at h
        · rename_i pad
          exact .pad here inside pad (ih _ (by omega) h rfl)
        · rename_i nopad
          split at h
          · rename_i size
            split at h
            · rename_i le
              split at h
              · rename_i reads
                exact .field here size code nopad le reads (ih _ (by omega) h rfl)
              · cases h
            · rename_i gt
              exact .beyond here size code nopad (Nat.not_le.mp gt)
          · cases h
    · cases h

/-- One turn of the walk with DHCP. -/
theorem dhcpLoop_turn {fin popt : Nat} (h : popt < fin) (o : Options) :
    dhcpLoop cfg pkt fin popt o =
      if popt < pkt.length then
        if mem pkt popt = 0xff#8 then some o
        else if popt + 1 < pkt.length then
          if popt + 2 + optionReads cfg pkt popt o.file ≤ pkt.length then
            dhcpLoop cfg pkt fin (popt + ((mem pkt (popt + 1)).toNat + 2))
              ⟨dhcpOption cfg (mem pkt) popt o.params, putFile pkt popt o.file⟩
          else none
        else none
      else none := by
  rw [dhcpLoop, if_pos h]
  split
  · rename_i hnone
    rw [if_neg (Nat.not_lt.mpr (List.getElem?_eq_none_iff.mp hnone))]
  · rename_i code hcode
    rw [if_pos (List.getElem?_eq_some_iff.mp hcode).1, mem_eq hcode]
    refine if_congr Iff.rfl rfl ?_
    by_cases hsize : popt + 1 < pkt.length
    · have hcell := List.getElem?_eq_getElem hsize
      rw [if_pos hsize, mem_eq hcell, hcell]
      rfl
    · rw [if_neg hsize, List.getElem?_eq_none (Nat.not_lt.mp hsize)]
      rfl

theorem dhcpLoop_of_fits {fin popt : Nat} {o : Options} (h : OptionsFit cfg pkt fin popt o)
    (hlen : BP_FILE_SIZE ≤ o.file.length) :
    ∃ o', dhcpLoop cfg pkt fin popt o = some o' ∧ Kept o.params o'.params ∧
      FileKept o.file o'.file := by
  induction h with
  | past past =>
      rw [dhcpLoop, if_neg (Nat.not_lt.mpr past)]
      exact ⟨_, rfl, Kept.refl _, FileKept.refl _⟩
  | stop here inside code =>
      rw [dhcpLoop_turn here, if_pos inside, if_pos code]
      exact ⟨_, rfl, Kept.refl _, FileKept.refl _⟩
  | @option popt o here inside code reads _ ih =>
      rw [dhcpLoop_turn here, if_pos (Nat.lt_of_succ_lt inside), if_neg code, if_pos inside,
        if_pos reads]
      have hfile := putFile_kept pkt popt hlen
      obtain ⟨o', hloop, hparams, hrest⟩ := ih (hfile.length.symm ▸ hlen)
      exact ⟨o', hloop, (dhcpOption_kept _ _ _).trans hparams, hfile.trans hrest⟩

theorem fit_of_dhcpLoop {fin popt : Nat} {o o' : Options}
    (h : dhcpLoop cfg pkt fin popt o = some o') : OptionsFit cfg pkt fin popt o := by
  induction hleft : pkt.length - popt using Nat.strong_induction_on generalizing popt o with
  | _ left ih =>
    by_cases hfin : fin ≤ popt
    · exact .past hfin
    have here := Nat.not_le.mp hfin
    rw [dhcpLoop_turn here] at h
    split at h
    · rename_i inside
      split at h
      · rename_i code
        exact .stop here inside code
      · rename_i code
        split at h
        · rename_i size
          split at h
          · rename_i reads
            exact .option here size code reads (ih _ (by omega) h rfl)
          · cases h
        · cases h
    · cases h

/-- What `DhcpMessageType` returns. -/
def typeValue : Option Byte → Int
  | none => -1
  | some type => type.toNat

theorem typeValue_eq_ack {t : Option Byte} (h : typeValue t = DHCP_ACK.toNat) : t = some DHCP_ACK := by
  cases t with
  | none => exact absurd h (by decide)
  | some type =>
      have htype : type.toNat = DHCP_ACK.toNat := Int.ofNat_inj.mp h
      rw [BitVec.eq_of_toNat_eq htype]

/-- One turn of the search for the message type. -/
theorem messageTypeLoop_turn (popt : Nat) :
    messageTypeLoop pkt popt =
      if popt < pkt.length then
        if mem pkt popt = 0xff#8 then some (-1)
        else if mem pkt popt = 53#8 then
          if popt + 2 < pkt.length then some (typeValue (some (mem pkt (popt + 2)))) else none
        else if popt + 1 < pkt.length then
          messageTypeLoop pkt (popt + ((mem pkt (popt + 1)).toNat + 2))
        else none
      else none := by
  rw [messageTypeLoop]
  split
  · rename_i hnone
    rw [if_neg (Nat.not_lt.mpr (List.getElem?_eq_none_iff.mp hnone))]
  · rename_i code hcode
    rw [if_pos (List.getElem?_eq_some_iff.mp hcode).1, mem_eq hcode]
    refine if_congr Iff.rfl rfl (if_congr Iff.rfl ?_ ?_)
    · by_cases htype : popt + 2 < pkt.length
      · have hcell := List.getElem?_eq_getElem htype
        rw [if_pos htype, mem_eq hcell, hcell]
        rfl
      · rw [if_neg htype, List.getElem?_eq_none (Nat.not_lt.mp htype)]
        rfl
    · by_cases hsize : popt + 1 < pkt.length
      · have hcell := List.getElem?_eq_getElem hsize
        rw [if_pos hsize, mem_eq hcell, hcell]
        rfl
      · rw [if_neg hsize, List.getElem?_eq_none (Nat.not_lt.mp hsize)]
        rfl

theorem messageTypeLoop_of_fits {popt : Nat} {t : Option Byte} (h : TypeFits pkt popt t) :
    messageTypeLoop pkt popt = some (typeValue t) := by
  induction h with
  | stop inside code =>
      rw [messageTypeLoop_turn, if_pos inside, if_pos code]
      rfl
  | type inside code =>
      rw [messageTypeLoop_turn, if_pos (by omega), code, if_neg (by decide), if_pos rfl,
        if_pos inside]
  | option inside code other _ ih =>
      rw [messageTypeLoop_turn, if_pos (Nat.lt_of_succ_lt inside), if_neg code, if_neg other,
        if_pos inside]
      exact ih

theorem fits_of_messageTypeLoop {popt : Nat} {v : Int} (h : messageTypeLoop pkt popt = some v) :
    ∃ t, TypeFits pkt popt t ∧ v = typeValue t := by
  induction hleft : pkt.length - popt using Nat.strong_induction_on generalizing popt with
  | _ left ih =>
    rw [messageTypeLoop_turn] at h
    split at h
    · rename_i inside
      split at h
      · rename_i code
        exact ⟨none, .stop inside code, (Option.some.inj h).symm⟩
      · rename_i code
        split at h
        · rename_i type
          split at h
          · rename_i htype
            exact ⟨_, .type htype type, (Option.some.inj h).symm⟩
          · cases h
        · rename_i other
          split at h
          · rename_i size
            obtain ⟨t, hfits, hv⟩ := ih _ (by omega) h rfl
            exact ⟨t, .option size code other hfits, hv⟩
          · cases h
    · cases h

/-! ## The parts of the handlers -/

/-- `BootpCheckPkt` does not read behind what it has found to be there. -/
theorem bootpCheckPkt_eq (dest src : Nat) (BootpID : U32) :
    BootpCheckPkt pkt dest src BootpID = some (decide (Accepted pkt dest src BootpID)) := by
  unfold BootpCheckPkt
  by_cases hports : dest ≠ PORT_BOOTPC ∨ src ≠ PORT_BOOTPS
  · rw [if_pos hports, decide_eq_false]
    · rfl
    · rintro ⟨hdest, hsrc, -⟩
      exact hports.elim (· hdest) (· hsrc)
  rw [if_neg hports]
  rw [not_or, not_not, not_not] at hports
  by_cases hlen : pkt.length < BOOTP_HDR_SIZE - OPT_SIZE
  · rw [if_pos hlen, decide_eq_false]
    · rfl
    · rintro ⟨-, -, h, -⟩
      exact absurd h (Nat.not_le.mpr hlen)
  · rw [if_neg hlen]
    have hle : 236 ≤ pkt.length := Nat.not_lt.mp hlen
    rw [(needs_cell pkt 0 0).eq_some (by omega), (needs_cell pkt 1 0).eq_some (by omega),
      (needs_cell pkt 2 0).eq_some (by omega), (needs_word pkt 4).eq_some (by omega)]
    refine congrArg some (decide_eq_decide.mpr ?_)
    refine Iff.trans ?_ (and_iff_right hports.1).symm
    refine Iff.trans ?_ (and_iff_right hports.2).symm
    exact (and_iff_right (Nat.not_lt.mp hlen)).symm

theorem strncmp_eq (i : Nat) (s : List Byte) :
    strncmp pkt i s =
      if s <+: pkt.drop i then some true else if pkt.drop i <+: s then none else some false := by
  induction s generalizing i with
  | nil => rw [if_pos List.nil_prefix]; rfl
  | cons c s ih =>
      rw [strncmp]
      rcases Nat.lt_or_ge i pkt.length with hlt | hge
      · rw [List.drop_eq_getElem_cons hlt, List.getElem?_eq_getElem hlt]
        change (if pkt[i] = c then _ else _) = _
        by_cases hc : pkt[i] = c
        · rw [if_pos hc, ih, hc]
          simp only [List.cons_prefix_cons, true_and]
        · rw [if_neg hc, if_neg fun h => hc (List.cons_prefix_cons.mp h).1.symm,
            if_neg fun h => hc (List.cons_prefix_cons.mp h).1]
          rfl
      · rw [List.drop_eq_nil_of_le hge, List.getElem?_eq_none hge,
          if_neg fun h => List.cons_ne_nil c s (List.prefix_nil.mp h), if_pos List.nil_prefix]
        rfl

theorem FileKept.zero_mem_iff {file file' : List Byte} (h : FileKept file file')
    (hne : file ≠ []) : 0#8 ∈ file' ↔ 0#8 ∈ file := by
  rcases h.written with heq | ⟨hempty, hzero⟩
  · rw [heq]
  · refine iff_of_true (List.mem_of_mem_take hzero) ?_
    cases file with
    | nil => exact absurd rfl hne
    | cons b file =>
        have hb : b = 0#8 := of_decide_eq_true hempty
        rw [hb]
        exact List.mem_cons_self

theorem length_copy_filename_lt (s : List Byte) :
    (Env.copy_filename s BOOT_FILE_SIZE).length < BOOT_FILE_SIZE := by
  unfold Env.copy_filename
  dsimp only
  have hle (t : List Byte) (n : Nat) : (t.take n).length ≤ n := List.length_take_le n t
  split
  · exact Nat.lt_of_le_of_lt (hle _ _) (by decide)
  · exact Nat.lt_of_le_of_lt (hle _ _) (by decide)

variable (pkt) in
/-- The parameters of the network are there, and the name of the boot file ends. -/
theorem bootpCopyNetParams_eq {file : List Byte} (c : Client) (hlen : 20 ≤ pkt.length)
    (hlen' : 24 ≤ pkt.length) (hends : 0#8 ∈ file) :
    ∃ c', BootpCopyNetParams pkt file c = some c' ∧ c'.params = c.params ∧
      StringKept BOOT_FILE_SIZE c.BootFile c'.BootFile := by
  unfold BootpCopyNetParams
  rw [(needs_word pkt 16).eq_some hlen, (needs_word pkt 20).eq_some hlen', cstring, if_pos hends]
  refine ⟨_, rfl, rfl, ?_⟩
  dsimp only
  split
  · exact .inr (length_copy_filename_lt _)
  · exact .inl rfl

theorem ends_of_bootpCopyNetParams {file : List Byte} {c c' : Client}
    (h : BootpCopyNetParams pkt file c = some c') : 0#8 ∈ file := by
  obtain ⟨_, -, h⟩ := Option.bind_eq_some_iff.mp h
  obtain ⟨_, -, h⟩ := Option.bind_eq_some_iff.mp h
  obtain ⟨bp_file, hfile, -⟩ := Option.bind_eq_some_iff.mp h
  rw [cstring] at hfile
  split at hfile
  · assumption
  · cases hfile

variable (cfg : Config) (pkt : List Byte)

/-- The magic is within the payload, and the options behind it fit. -/
def OptionsRead (o : Options) : Prop :=
  OPTIONS ≤ pkt.length ∧
    (HasMagic pkt → OptionsFit cfg pkt (OPTIONS + BOOTP_HDR_SIZE) OPTIONS o)

/-- The message type is within the payload, and so is what is read of an acknowledgement. -/
def TypeRead (o : Options) : Prop :=
  OPTIONS ≤ pkt.length ∧
    (HasMagic pkt → ∃ t, TypeFits pkt OPTIONS t ∧
      (t = some DHCP_ACK →
        OptionsFit cfg pkt (OPTIONS + BOOTP_HDR_SIZE) OPTIONS o ∧ FileEnds pkt))

variable {cfg pkt}

theorem readOptions_of_read {o : Options} (h : OptionsRead cfg pkt o)
    (hlen : BP_FILE_SIZE ≤ o.file.length) :
    ∃ o', readOptions cfg pkt o = some o' ∧ Kept o.params o'.params ∧ FileKept o.file o'.file := by
  rw [readOptions, (needs_word pkt BP_VEND).eq_some h.1]
  change ∃ o', (if wordAt pkt BP_VEND = BOOTP_VENDOR_MAGIC then _ else _) = some o' ∧ _
  by_cases hmagic : wordAt pkt BP_VEND = BOOTP_VENDOR_MAGIC
  · rw [if_pos hmagic]
    exact dhcpLoop_of_fits (h.2 hmagic) hlen
  · rw [if_neg hmagic]
    exact ⟨o, rfl, Kept.refl _, FileKept.refl _⟩

theorem read_of_readOptions {o o' : Options} (h : readOptions cfg pkt o = some o') :
    OptionsRead cfg pkt o := by
  obtain ⟨magic, hword, h⟩ := Option.bind_eq_some_iff.mp h
  obtain ⟨hlen, rfl⟩ := (needs_word pkt BP_VEND).eq_some_iff.mp hword
  refine ⟨hlen, fun (hmagic : wordAt pkt BP_VEND = BOOTP_VENDOR_MAGIC) => ?_⟩
  rw [if_pos hmagic] at h
  exact fit_of_dhcpLoop h

/-! ## The handlers -/

variable (cfg : Config) (pkt : List Byte) (CONFIG_SYS_BOOTFILE_PREFIX : List Byte)
  (dest src : Nat) (c : Client)

/-- `BootpHandler` comes to an end without reading behind the payload, and every string has been
kept or has room in its buffer. -/
def BootpInBounds : Prop :=
  ∃ c', BootpHandler cfg pkt dest src c = some c' ∧ Kept c.params c'.params ∧
    StringKept BOOT_FILE_SIZE c.BootFile c'.BootFile

/-- So does `DhcpHandler`, which may put a string into the packet. -/
def DhcpInBounds : Prop :=
  ∃ h, DhcpHandler cfg pkt CONFIG_SYS_BOOTFILE_PREFIX dest src c = some h ∧
    Kept c.params h.client.params ∧ StringKept BOOT_FILE_SIZE c.BootFile h.client.BootFile ∧
    FileKept (pkt.drop BP_FILE) h.file

/-- An accepted reply whose boot file name ends, with the magic in the payload and options that
fit. -/
def BootpFits : Prop :=
  Accepted pkt dest src c.BootpID → FileEnds pkt ∧ OPTIONS ≤ pkt.length ∧
    (HasMagic pkt → VendorFits cfg pkt (OPTIONS + pkt.length) OPTIONS c.params)

/-- An accepted reply that fits in the state of the client: an offer for which the prefix can be
compared and, if it matches, the options can be read; an answer to a request. -/
def DhcpFits : Prop :=
  Accepted pkt dest src c.BootpID →
    match c.dhcp_state with
    | .SELECTING =>
        (pkt.drop BP_FILE <+: CONFIG_SYS_BOOTFILE_PREFIX →
          CONFIG_SYS_BOOTFILE_PREFIX <+: pkt.drop BP_FILE) ∧
        (CONFIG_SYS_BOOTFILE_PREFIX <+: pkt.drop BP_FILE →
          OptionsRead cfg pkt ⟨c.params, pkt.drop BP_FILE⟩)
    | .REQUESTING => TypeRead cfg pkt ⟨c.params, pkt.drop BP_FILE⟩
    | _ => True

variable {cfg pkt CONFIG_SYS_BOOTFILE_PREFIX dest src c}

theorem bootpHandler_ignored (h : ¬ Accepted pkt dest src c.BootpID) :
    BootpHandler cfg pkt dest src c = some c := by
  rw [BootpHandler, bootpCheckPkt_eq, decide_eq_false h]
  rfl

theorem bootpHandler_accepted (h : Accepted pkt dest src c.BootpID) :
    BootpHandler cfg pkt dest src c = (do
      let c ← BootpCopyNetParams pkt (pkt.drop BP_FILE) c
      let magic ← word pkt BP_VEND
      if magic = BOOTP_VENDOR_MAGIC then
        let params ← vendorLoop cfg pkt (OPTIONS + pkt.length) OPTIONS c.params
        return { c with params := params }
      else return c) := by
  rw [BootpHandler, bootpCheckPkt_eq, decide_eq_true h]
  rfl

/-- What `BootpHandler` comes to when it has a result is in bounds. -/
theorem bootpHandler_fits {c' : Client} (h : BootpHandler cfg pkt dest src c = some c') :
    BootpFits cfg pkt dest src c := by
  intro haccepted
  rw [bootpHandler_accepted haccepted] at h
  obtain ⟨c₁, hcopy, h⟩ := Option.bind_eq_some_iff.mp h
  have hends := ends_of_bootpCopyNetParams hcopy
  obtain ⟨_, hword, h⟩ := Option.bind_eq_some_iff.mp h
  obtain ⟨hle, rfl⟩ := (needs_word pkt BP_VEND).eq_some_iff.mp hword
  refine ⟨hends, hle, fun (hmagic : wordAt pkt BP_VEND = BOOTP_VENDOR_MAGIC) => ?_⟩
  rw [if_pos hmagic] at h
  obtain ⟨params, hloop, -⟩ := Option.bind_eq_some_iff.mp h
  have hle' := haccepted.2.2.1
  obtain ⟨c₂, hcopy', hparams, -⟩ := bootpCopyNetParams_eq pkt c
    (Nat.le_trans (by decide) hle') (Nat.le_trans (by decide) hle') hends
  rw [hcopy, Option.some.injEq] at hcopy'
  rw [← hparams, ← hcopy']
  exact fits_of_vendorLoop hloop

theorem bootpHandler_inBounds (h : BootpFits cfg pkt dest src c) :
    BootpInBounds cfg pkt dest src c := by
  by_cases haccepted : Accepted pkt dest src c.BootpID
  · obtain ⟨hends, hle, hoptions⟩ := h haccepted
    obtain ⟨c', hcopy, hparams, hfile⟩ := bootpCopyNetParams_eq pkt c
      (Nat.le_trans (by decide) hle) (Nat.le_trans (by decide) hle) hends
    rw [BootpInBounds, bootpHandler_accepted haccepted, hcopy,
      (needs_word pkt BP_VEND).eq_some hle]
    change ∃ c'', (if wordAt pkt BP_VEND = BOOTP_VENDOR_MAGIC then _ else _) = some c'' ∧ _
    by_cases hmagic : wordAt pkt BP_VEND = BOOTP_VENDOR_MAGIC
    · obtain ⟨params, hloop, hkept⟩ := vendorLoop_of_fits (hoptions hmagic)
      rw [if_pos hmagic, hparams, hloop]
      exact ⟨_, rfl, hkept, hfile⟩
    · rw [if_neg hmagic]
      exact ⟨c', rfl, hparams ▸ Kept.refl c'.params, hfile⟩
  · exact ⟨c, bootpHandler_ignored haccepted, Kept.refl _, .inl rfl⟩

theorem dhcpHandler_ignored (h : ¬ Accepted pkt dest src c.BootpID) :
    DhcpHandler cfg pkt CONFIG_SYS_BOOTFILE_PREFIX dest src c =
      some ⟨c, pkt.drop BP_FILE, none⟩ := by
  rw [DhcpHandler, bootpCheckPkt_eq, decide_eq_false h]
  rfl

theorem dhcpHandler_selecting (h : Accepted pkt dest src c.BootpID)
    (hstate : c.dhcp_state = .SELECTING) :
    DhcpHandler cfg pkt CONFIG_SYS_BOOTFILE_PREFIX dest src c =
      if CONFIG_SYS_BOOTFILE_PREFIX <+: pkt.drop BP_FILE then do
        let o ← readOptions cfg pkt ⟨c.params, pkt.drop BP_FILE⟩
        return ⟨{ c with dhcp_state := .REQUESTING, params := o.params }, o.file,
          some ⟨wordAt pkt 4, o.params.NetDHCPServerIP, wordAt pkt 16⟩⟩
      else if pkt.drop BP_FILE <+: CONFIG_SYS_BOOTFILE_PREFIX then none
      else some ⟨c, pkt.drop BP_FILE, none⟩ := by
  have hle := h.2.2.1
  rw [DhcpHandler, bootpCheckPkt_eq, decide_eq_true h, hstate, strncmp_eq,
    (needs_word pkt 4).eq_some (Nat.le_trans (by decide) hle),
    (needs_word pkt 16).eq_some (Nat.le_trans (by decide) hle)]
  by_cases hprefix : CONFIG_SYS_BOOTFILE_PREFIX <+: pkt.drop BP_FILE
  · rw [if_pos hprefix, if_pos hprefix]
    rfl
  · rw [if_neg hprefix, if_neg hprefix]
    by_cases hends : pkt.drop BP_FILE <+: CONFIG_SYS_BOOTFILE_PREFIX
    · rw [if_pos hends, if_pos hends]
      rfl
    · rw [if_neg hends, if_neg hends]
      rfl

theorem dhcpHandler_requesting (h : Accepted pkt dest src c.BootpID)
    (hstate : c.dhcp_state = .REQUESTING) :
    DhcpHandler cfg pkt CONFIG_SYS_BOOTFILE_PREFIX dest src c = (do
      let type ← DhcpMessageType pkt
      if type = DHCP_ACK.toNat then
        let o ← readOptions cfg pkt ⟨c.params, pkt.drop BP_FILE⟩
        let c ← BootpCopyNetParams pkt o.file { c with params := o.params }
        return ⟨{ c with dhcp_state := .BOUND }, o.file, none⟩
      else return ⟨c, pkt.drop BP_FILE, none⟩) := by
  rw [DhcpHandler, bootpCheckPkt_eq, decide_eq_true h, hstate]
  rfl

theorem dhcpHandler_otherwise (h : Accepted pkt dest src c.BootpID)
    (hselecting : c.dhcp_state ≠ .SELECTING) (hrequesting : c.dhcp_state ≠ .REQUESTING) :
    DhcpHandler cfg pkt CONFIG_SYS_BOOTFILE_PREFIX dest src c =
      some ⟨c, pkt.drop BP_FILE, none⟩ := by
  rw [DhcpHandler, bootpCheckPkt_eq, decide_eq_true h]
  cases hstate : c.dhcp_state with
  | SELECTING => exact absurd hstate hselecting
  | REQUESTING => exact absurd hstate hrequesting
  | _ => rfl

theorem dhcpMessageType_eq (h : OPTIONS ≤ pkt.length) :
    DhcpMessageType pkt =
      if wordAt pkt BP_VEND = BOOTP_VENDOR_MAGIC then messageTypeLoop pkt OPTIONS
      else some (-1) := by
  rw [DhcpMessageType, (needs_word pkt BP_VEND).eq_some h]
  change (if wordAt pkt BP_VEND ≠ BOOTP_VENDOR_MAGIC then _ else _) = _
  rw [ite_not]
  rfl

/-- What is read of an answer to a request when `DhcpHandler` has a result. -/
theorem typeRead_of_dhcpHandler {h : Handled} (haccepted : Accepted pkt dest src c.BootpID)
    (hstate : c.dhcp_state = .REQUESTING)
    (hresult : DhcpHandler cfg pkt CONFIG_SYS_BOOTFILE_PREFIX dest src c = some h) :
    TypeRead cfg pkt ⟨c.params, pkt.drop BP_FILE⟩ := by
  rw [dhcpHandler_requesting haccepted hstate] at hresult
  obtain ⟨type, htype, hresult⟩ := Option.bind_eq_some_iff.mp hresult
  have hle : OPTIONS ≤ pkt.length := by
    obtain ⟨_, hword, -⟩ := Option.bind_eq_some_iff.mp htype
    exact ((needs_word pkt BP_VEND).eq_some_iff.mp hword).1
  refine ⟨hle, fun (hmagic : wordAt pkt BP_VEND = BOOTP_VENDOR_MAGIC) => ?_⟩
  rw [dhcpMessageType_eq hle, if_pos hmagic] at htype
  obtain ⟨t, hfits, htype⟩ := fits_of_messageTypeLoop htype
  refine ⟨t, hfits, fun hack => ?_⟩
  rw [if_pos (by rw [htype, hack]; rfl)] at hresult
  obtain ⟨o, hoptions, hresult⟩ := Option.bind_eq_some_iff.mp hresult
  obtain ⟨c', hcopy, -⟩ := Option.bind_eq_some_iff.mp hresult
  have hread := read_of_readOptions hoptions
  have hlen : BP_FILE_SIZE ≤ (pkt.drop BP_FILE).length := by
    rw [List.length_drop]
    exact Nat.le_sub_of_add_le (Nat.le_trans (by decide) hle)
  obtain ⟨o', hoptions', -, hfile⟩ := readOptions_of_read hread hlen
  rw [hoptions, Option.some.injEq] at hoptions'
  rw [← hoptions'] at hfile
  exact ⟨hread.2 hmagic, (hfile.zero_mem_iff (List.ne_nil_of_length_pos
    (Nat.lt_of_lt_of_le (by decide) hlen))).mp (ends_of_bootpCopyNetParams hcopy)⟩

/-- What `DhcpHandler` comes to when it has a result is in bounds. -/
theorem dhcpHandler_fits {h : Handled}
    (hresult : DhcpHandler cfg pkt CONFIG_SYS_BOOTFILE_PREFIX dest src c = some h) :
    DhcpFits cfg pkt CONFIG_SYS_BOOTFILE_PREFIX dest src c := by
  intro haccepted
  split
  · rename_i hstate
    rw [dhcpHandler_selecting haccepted hstate] at hresult
    split at hresult
    · rename_i hprefix
      obtain ⟨o, hoptions, -⟩ := Option.bind_eq_some_iff.mp hresult
      exact ⟨fun _ => hprefix, fun _ => read_of_readOptions hoptions⟩
    · rename_i hprefix
      split at hresult
      · cases hresult
      · rename_i hends
        exact ⟨fun h => absurd h hends, fun h => absurd h hprefix⟩
  · rename_i hstate
    exact typeRead_of_dhcpHandler haccepted hstate hresult
  · trivial

theorem dhcpHandler_inBounds (h : DhcpFits cfg pkt CONFIG_SYS_BOOTFILE_PREFIX dest src c) :
    DhcpInBounds cfg pkt CONFIG_SYS_BOOTFILE_PREFIX dest src c := by
  have hnothing : Kept c.params c.params ∧ StringKept BOOT_FILE_SIZE c.BootFile c.BootFile ∧
      FileKept (pkt.drop BP_FILE) (pkt.drop BP_FILE) := ⟨Kept.refl _, .inl rfl, FileKept.refl _⟩
  by_cases haccepted : Accepted pkt dest src c.BootpID
  case neg => exact ⟨_, dhcpHandler_ignored haccepted, hnothing⟩
  replace h := h haccepted
  have hlen : BP_FILE_SIZE ≤ (pkt.drop BP_FILE).length := by
    rw [List.length_drop]
    exact Nat.le_sub_of_add_le (Nat.le_trans (by decide) haccepted.2.2.1)
  split at h
  · rename_i hstate
    rw [DhcpInBounds, dhcpHandler_selecting haccepted hstate]
    by_cases hprefix : CONFIG_SYS_BOOTFILE_PREFIX <+: pkt.drop BP_FILE
    · obtain ⟨o, hoptions, hparams, hfile⟩ := readOptions_of_read (h.2 hprefix) hlen
      rw [if_pos hprefix, hoptions]
      exact ⟨_, rfl, hparams, .inl rfl, hfile⟩
    · rw [if_neg hprefix, if_neg fun hends => hprefix (h.1 hends)]
      exact ⟨_, rfl, hnothing⟩
  · rename_i hstate
    rw [DhcpInBounds, dhcpHandler_requesting haccepted hstate, dhcpMessageType_eq h.1]
    by_cases hmagic : wordAt pkt BP_VEND = BOOTP_VENDOR_MAGIC
    · obtain ⟨t, hfits, hack⟩ := h.2 hmagic
      rw [if_pos hmagic, messageTypeLoop_of_fits hfits]
      change ∃ h, (if typeValue t = DHCP_ACK.toNat then _ else _) = some h ∧ _
      by_cases ht : t = some DHCP_ACK
      · obtain ⟨hoptions, hends⟩ := hack ht
        obtain ⟨o, hread, hparams, hfile⟩ := readOptions_of_read ⟨h.1, fun _ => hoptions⟩ hlen
        have hends' : 0#8 ∈ o.file := (hfile.zero_mem_iff (List.ne_nil_of_length_pos
          (Nat.lt_of_lt_of_le (by decide) hlen))).mpr hends
        obtain ⟨c', hcopy, hsame, hboot⟩ := bootpCopyNetParams_eq pkt
          { c with params := o.params } (Nat.le_trans (by decide) h.1)
          (Nat.le_trans (by decide) h.1) hends'
        rw [if_pos (by rw [ht]; rfl), hread]
        change ∃ h, (BootpCopyNetParams pkt o.file { c with params := o.params } >>= _) = some h ∧ _
        rw [hcopy]
        exact ⟨_, rfl, hsame.symm ▸ hparams, hboot, hfile⟩
      · rw [if_neg fun heq => ht (typeValue_eq_ack heq)]
        exact ⟨_, rfl, hnothing⟩
    · rw [if_neg hmagic]
      exact ⟨_, rfl, hnothing⟩
  · rename_i hselecting hrequesting
    exact ⟨_, dhcpHandler_otherwise haccepted hselecting hrequesting, hnothing⟩

/-- Both handlers stay in bounds exactly for what fits. -/
theorem bootp_inBounds_iff (cfg : Config) (pkt CONFIG_SYS_BOOTFILE_PREFIX : List Byte)
    (dest src : Nat) (c : Client) :
    (BootpInBounds cfg pkt dest src c ↔ BootpFits cfg pkt dest src c) ∧
      (DhcpInBounds cfg pkt CONFIG_SYS_BOOTFILE_PREFIX dest src c ↔
        DhcpFits cfg pkt CONFIG_SYS_BOOTFILE_PREFIX dest src c) := by
  refine ⟨⟨?_, bootpHandler_inBounds⟩, ⟨?_, dhcpHandler_inBounds⟩⟩
  · rintro ⟨c', hc', -⟩
    exact bootpHandler_fits hc'
  · rintro ⟨h, hh, -⟩
    exact dhcpHandler_fits hh

/-- A reply with the magic and no options behind it. -/
theorem not_bootp_inBounds : ¬ ∀ cfg pkt CONFIG_SYS_BOOTFILE_PREFIX dest src c,
    BootpInBounds cfg pkt dest src c ∧
      DhcpInBounds cfg pkt CONFIG_SYS_BOOTFILE_PREFIX dest src c := by
  intro h
  let cfg : Config := ⟨false, false, false⟩
  let params : Params := ⟨0, 0, 0, 0, 0, 0, 0, 0, 0, [], [], [], []⟩
  let c : Client := ⟨.INIT, 0, params, 0, 0, []⟩
  let pkt : List Byte := [2, 1, 6, 0] ++ List.replicate 232 0 ++ [99, 130, 83, 99]
  obtain ⟨⟨c', hc', -⟩, -⟩ := h cfg pkt [] 68 67 c
  have hnone : (BootpHandler cfg pkt 68 67 c).isNone = true := by decide +kernel
  rw [hc'] at hnone
  exact Bool.false_ne_true hnone

end UBoot.BootpBytes
