/-
# Options in any order

An option field is a sequence of pads and options, and an end. The walk without DHCP sets every
parameter from its option, in whatever order they come, except for the size of the boot file.
The walks with DHCP do so when there are no pads.
-/

import UBoot.Net.BootpOptions

namespace UBoot.Bootp

open UBoot.Lib

variable {cfg : Config} {mem : Nat → Byte}

/-! ## Option fields -/

/-- What an option field is made of. -/
inductive Item
  | pad
  | option (code : Byte) (data : List Byte)
  deriving DecidableEq

/-- The bytes of an item. -/
def Item.encode : Item → List Byte
  | .pad => [0#8]
  | .option code data => code :: BitVec.ofNat 8 data.length :: data

/-- The bytes of an option field. -/
def encode : List Item → List Byte
  | [] => [0xff#8]
  | item :: items => item.encode ++ encode items

/-- The options of a field. -/
def options : List Item → List (Byte × List Byte)
  | [] => []
  | .pad :: items => options items
  | .option code data :: items => (code, data) :: options items

/-- The data of an option. -/
def find (opts : List (Byte × List Byte)) (code : Byte) : Option (List Byte) := opts.lookup code

/-- Options have codes of their own and lengths of one byte. -/
structure WellFormed (opts : List (Byte × List Byte)) : Prop where
  code : ∀ o ∈ opts, o.1 ≠ 0#8 ∧ o.1 ≠ 0xff#8
  length : ∀ o ∈ opts, o.2.length < 256
  distinct : (opts.map Prod.fst).Nodup

theorem WellFormed.tail {o : Byte × List Byte} {opts : List (Byte × List Byte)}
    (h : WellFormed (o :: opts)) : WellFormed opts :=
  ⟨fun p hp => h.code p (List.mem_cons_of_mem _ hp),
    fun p hp => h.length p (List.mem_cons_of_mem _ hp), (List.nodup_cons.1 h.distinct).2⟩

/-- These bytes are in memory. -/
def Holds (mem : Nat → Byte) (i : Nat) (bytes : List Byte) : Prop :=
  ∀ k b, bytes[k]? = some b → mem (i + k) = b

theorem Holds.left {i : Nat} {a b : List Byte} (h : Holds mem i (a ++ b)) : Holds mem i a :=
  fun k c hc => h k c (by
    rw [List.getElem?_append_left (List.getElem?_eq_some_iff.1 hc).1]
    exact hc)

theorem Holds.right {i : Nat} {a b : List Byte} (h : Holds mem i (a ++ b)) :
    Holds mem (i + a.length) b := fun k c hc => by
  rw [Nat.add_assoc]
  refine h _ c ?_
  rw [List.getElem?_append_right (Nat.le_add_right _ _), Nat.add_sub_cancel_left]
  exact hc

/-- An option in memory: its code, its length and its data. -/
theorem Holds.head {i : Nat} {code : Byte} {data : List Byte}
    (h : Holds mem i (Item.option code data).encode) (hlen : data.length < 256) :
    mem i = code ∧ (mem (i + 1)).toNat = data.length ∧ Holds mem (i + 2) data := by
  refine ⟨h 0 code rfl, ?_, fun k b hb => ?_⟩
  · rw [h 1 (BitVec.ofNat 8 data.length) rfl, BitVec.toNat_ofNat, Nat.mod_eq_of_lt hlen]
  · rw [Nat.add_assoc, Nat.add_comm 2]
    exact h (k + 2) b hb

theorem length_option (code : Byte) (data : List Byte) :
    (Item.option code data).encode.length = data.length + 2 := rfl

/-! ## Data -/

/-- The number in two bytes, and in four. -/
def shortOf (data : List Byte) : BitVec 16 := data.getD 0 0 ++ data.getD 1 0
def longOf (data : List Byte) : BitVec 32 :=
  data.getD 0 0 ++ data.getD 1 0 ++ data.getD 2 0 ++ data.getD 3 0

theorem Holds.getD {i : Nat} {data : List Byte} (h : Holds mem i data) {k : Nat}
    (hk : k < data.length) : mem (i + k) = data.getD k 0 := by
  rw [h k (data[k]) (List.getElem?_eq_getElem hk), List.getD_eq_getElem?_getD,
    List.getElem?_eq_getElem hk]
  rfl

theorem Holds.short {i : Nat} {data : List Byte} (h : Holds mem i data)
    (hlen : 2 ≤ data.length) : readShort mem i = shortOf data := by
  rw [readShort, shortOf, ← h.getD (by omega), ← h.getD (by omega)]
  rfl

theorem Holds.long {i : Nat} {data : List Byte} (h : Holds mem i data)
    (hlen : 4 ≤ data.length) : readLong mem i = longOf data := by
  rw [readLong, longOf, ← h.getD (by omega), ← h.getD (by omega), ← h.getD (by omega),
    ← h.getD (by omega)]
  rfl

/-- A second address behind the first. -/
theorem Holds.long_drop {i : Nat} {data : List Byte} (h : Holds mem i data)
    (hlen : 8 ≤ data.length) : readLong mem (i + 4) = longOf (data.drop 4) := by
  refine Holds.long (fun k b hb => ?_) (by rw [List.length_drop]; omega)
  rw [List.getElem?_drop] at hb
  rw [Nat.add_assoc]
  exact h _ b hb

/-- A string is the data, cut to the size of its buffer less one. -/
theorem Holds.string {ext maxlen : Nat} {data : List Byte} (h : Holds mem (ext + 2) data)
    (hlen : (mem (ext + 1)).toNat = data.length) (hmax : 0 < maxlen) :
    copyString mem maxlen ext = data.take (maxlen - 1) := by
  refine List.ext_getElem? fun k => ?_
  rw [copyString, hlen, truncate_sz, List.getElem?_take]
  have hk : k < (if maxlen ≤ data.length then maxlen - 1 else data.length) ↔
      k < maxlen - 1 ∧ k < data.length := by split <;> omega
  by_cases hin : k < (if maxlen ≤ data.length then maxlen - 1 else data.length)
  · obtain ⟨hmax', hdata⟩ := hk.1 hin
    rw [getElem?_slice mem hin, if_pos hmax', List.getElem?_eq_getElem hdata,
      h k _ (List.getElem?_eq_getElem hdata)]
  · rw [List.getElem?_eq_none (by simpa using hin)]
    split
    · next hmax' =>
        rw [List.getElem?_eq_none]
        by_contra hdata
        exact hin (hk.2 ⟨hmax', by omega⟩)
    · rfl

/-- The options that are addresses or other numbers are as long as what is read of them. -/
def LongEnough (cfg : Config) (o : Byte × List Byte) : Prop :=
  (o.1 ∈ [1#8, 2#8, 3#8, 6#8, 42#8, 51#8, 54#8] → 4 ≤ o.2.length) ∧
  (o.1 = 6#8 → cfg.CONFIG_BOOTP_DNS2 → o.2.length ≤ 4 ∨ 8 ≤ o.2.length) ∧
  (o.1 = 53#8 → o.2 ≠ []) ∧
  (o.1 = 13#8 → o.2.length = 2 ∨ o.2.length = 4 ∧ (longOf o.2).toNat < 2 ^ 16)

/-! ## What an option means -/

/-- What an option does in `DhcpOptionsProcess`. -/
def dhcpMeaning (cfg : Config) (p : Params) (o : Byte × List Byte) : Params :=
  if o.1 = 1#8 then { p with NetOurSubnetMask := longOf o.2 }
  else if o.1 = 2#8 then
    if cfg.CONFIG_BOOTP_TIMEOFFSET then { p with NetTimeOffset := longOf o.2 } else p
  else if o.1 = 3#8 then { p with NetOurGatewayIP := longOf o.2 }
  else if o.1 = 6#8 then
    let p := { p with NetOurDNSIP := longOf o.2 }
    if cfg.CONFIG_BOOTP_DNS2 ∧ 4 < o.2.length then { p with NetOurDNS2IP := longOf (o.2.drop 4) }
    else p
  else if o.1 = 12#8 then { p with NetOurHostName := o.2.take (HOST_NAME_SIZE - 1) }
  else if o.1 = 17#8 then { p with NetOurRootPath := o.2.take (ROOT_PATH_SIZE - 1) }
  else if o.1 = 42#8 then
    if cfg.CONFIG_BOOTP_NTPSERVER then { p with NetNtpServerIP := longOf o.2 } else p
  else if o.1 = 51#8 then { p with dhcp_leasetime := longOf o.2 }
  else if o.1 = 54#8 then { p with NetDHCPServerIP := longOf o.2 }
  else if o.1 = 67#8 then
    if isEmpty p.bp_file ∧ 0 < o.2.length then { p with bp_file := o.2.take (BP_FILE_SIZE - 1) }
    else p
  else p

/-- The option that the walk is at does what it means. -/
theorem dhcpOption_eq {i : Nat} {o : Byte × List Byte} (p : Params)
    (h : Holds mem i (Item.option o.1 o.2).encode) (hlen : o.2.length < 256)
    (hlong : LongEnough cfg o) : dhcpOption cfg mem i p = dhcpMeaning cfg p o := by
  obtain ⟨hcode, hsize, hdata⟩ := h.head hlen
  have hfour : o.1 ∈ [1#8, 2#8, 3#8, 6#8, 42#8, 51#8, 54#8] → readLong mem (i + 2) = longOf o.2 :=
    fun hin => hdata.long (hlong.1 hin)
  have hstring : ∀ {maxlen}, 0 < maxlen → copyString mem maxlen i = o.2.take (maxlen - 1) :=
    fun hmax => hdata.string hsize hmax
  rw [dhcpOption, dhcpMeaning]
  simp only [hcode, hsize]
  refine ite_congr rfl (fun h => by rw [hfour (by simp [h])]) fun _ => ?_
  refine ite_congr rfl (fun h => by rw [hfour (by simp [h])]) fun _ => ?_
  refine ite_congr rfl (fun h => by rw [hfour (by simp [h])]) fun _ => ?_
  refine ite_congr rfl (fun h => ?_) fun _ => ?_
  · rw [hfour (by simp [h])]
    refine ite_congr rfl (fun h2 => ?_) fun _ => rfl
    rw [hdata.long_drop ((hlong.2.1 h h2.1).resolve_left (by omega))]
  refine ite_congr rfl (fun _ => by rw [hstring (by decide)]) fun _ => ?_
  refine ite_congr rfl (fun _ => by rw [hstring (by decide)]) fun _ => ?_
  refine ite_congr rfl (fun h => by rw [hfour (by simp [h])]) fun _ => ?_
  refine ite_congr rfl (fun h => by rw [hfour (by simp [h])]) fun _ => ?_
  refine ite_congr rfl (fun h => by rw [hfour (by simp [h])]) fun _ => ?_
  refine ite_congr rfl (fun _ => ?_) fun _ => rfl
  rw [hstring (by decide)]
  have hpos : 0 < truncate_sz BP_FILE_SIZE o.2.length ↔ 0 < o.2.length := by
    rw [truncate_sz, BP_FILE_SIZE]
    split <;> omega
  simp only [hpos]

/-- What an option does in `BootpVendorProcess`. -/
def vendorMeaning (cfg : Config) (p : Params) (o : Byte × List Byte) : Params :=
  let p := { p with NetBootFileSize := 0#16 }
  if o.1 = 1#8 then
    if p.NetOurSubnetMask = 0#32 then { p with NetOurSubnetMask := longOf o.2 } else p
  else if o.1 = 3#8 then
    if p.NetOurGatewayIP = 0#32 then { p with NetOurGatewayIP := longOf o.2 } else p
  else if o.1 = 6#8 then
    let p := if p.NetOurDNSIP = 0#32 then { p with NetOurDNSIP := longOf o.2 } else p
    if cfg.CONFIG_BOOTP_DNS2 ∧ p.NetOurDNS2IP = 0#32 ∧ 4 < o.2.length then
      { p with NetOurDNS2IP := longOf (o.2.drop 4) }
    else p
  else if o.1 = 12#8 then
    if isEmpty p.NetOurHostName then { p with NetOurHostName := o.2.take (HOST_NAME_SIZE - 1) }
    else p
  else if o.1 = 13#8 then
    if o.2.length = 2 then { p with NetBootFileSize := shortOf o.2 }
    else if o.2.length = 4 then { p with NetBootFileSize := (longOf o.2).setWidth 16 }
    else p
  else if o.1 = 17#8 then
    if isEmpty p.NetOurRootPath then { p with NetOurRootPath := o.2.take (ROOT_PATH_SIZE - 1) }
    else p
  else if o.1 = 40#8 then
    if isEmpty p.NetOurNISDomain then { p with NetOurNISDomain := o.2.take (NIS_DOMAIN_SIZE - 1) }
    else p
  else p

/-- The option that the walk is at does what it means. -/
theorem vendorField_eq {i : Nat} {o : Byte × List Byte} (p : Params)
    (h : Holds mem i (Item.option o.1 o.2).encode) (hlen : o.2.length < 256)
    (hlong : LongEnough cfg o) : BootpVendorFieldProcess cfg mem i p = vendorMeaning cfg p o := by
  obtain ⟨hcode, hsize, hdata⟩ := h.head hlen
  have hfour : o.1 ∈ [1#8, 2#8, 3#8, 6#8, 42#8, 51#8, 54#8] → readLong mem (i + 2) = longOf o.2 :=
    fun hin => hdata.long (hlong.1 hin)
  have hstring : ∀ {maxlen}, 0 < maxlen → copyString mem maxlen i = o.2.take (maxlen - 1) :=
    fun hmax => hdata.string hsize hmax
  rw [BootpVendorFieldProcess, vendorMeaning]
  simp only [hcode, hsize]
  refine ite_congr rfl (fun h => by rw [hfour (by simp [h])]) fun _ => ?_
  refine ite_congr rfl (fun h => by rw [hfour (by simp [h])]) fun _ => ?_
  refine ite_congr rfl (fun h => ?_) fun _ => ?_
  · rw [hfour (by simp [h])]
    refine ite_congr rfl (fun h2 => ?_) fun _ => rfl
    rw [hdata.long_drop ((hlong.2.1 h h2.1).resolve_left (by omega))]
  refine ite_congr rfl (fun _ => by rw [hstring (by decide)]) fun _ => ?_
  refine ite_congr rfl (fun _ => ?_) fun _ => ?_
  · refine ite_congr rfl (fun h2 => by rw [hdata.short (by omega)]) fun _ => ?_
    exact ite_congr rfl (fun h4 => by rw [hdata.long (by omega)]) fun _ => rfl
  refine ite_congr rfl (fun _ => by rw [hstring (by decide)]) fun _ => ?_
  exact ite_congr rfl (fun _ => by rw [hstring (by decide)]) fun _ => rfl

/-! ## The walks -/

/-- The items after the first of a field in memory. -/
theorem Holds.tail {i : Nat} {item : Item} {items : List Item}
    (h : Holds mem i (encode (item :: items))) :
    Holds mem i item.encode ∧ Holds mem (i + item.encode.length) (encode items) :=
  ⟨Holds.left h, Holds.right h⟩

theorem Holds.fin {i : Nat} (h : Holds mem i (encode [])) : mem i = 0xff#8 := h 0 _ rfl

theorem length_encode_cons (item : Item) (items : List Item) :
    (encode (item :: items)).length = item.encode.length + (encode items).length :=
  List.length_append

theorem length_encode_pos (items : List Item) : 0 < (encode items).length := by
  cases items with
  | nil => exact Nat.one_pos
  | cons item items =>
      rw [length_encode_cons]
      cases item <;> simp [Item.encode]

/-- The option at the beginning of a field: its code, its length and its data, and the items behind
it. -/
theorem Holds.option {i : Nat} {code : Byte} {data : List Byte} {items : List Item}
    (h : Holds mem i (encode (.option code data :: items)))
    (hwf : WellFormed (options (.option code data :: items))) :
    mem i = code ∧ (mem (i + 1)).toNat = data.length ∧ Holds mem (i + 2) data ∧
      Holds mem i (Item.option code data).encode ∧
      Holds mem (i + (data.length + 2)) (encode items) := by
  obtain ⟨hhere, hrest⟩ := h.tail
  obtain ⟨hcode, hsize, hdata⟩ := hhere.head (hwf.length _ List.mem_cons_self)
  exact ⟨hcode, hsize, hdata, hhere, hrest⟩

/-- The walk with DHCP does what the options mean, one after the other. -/
theorem dhcpLoop_eq {fin fuel i : Nat} {items : List Item} (p : Params)
    (h : Holds mem i (encode items)) (hpads : Item.pad ∉ items) (hwf : WellFormed (options items))
    (hlong : ∀ o ∈ options items, LongEnough cfg o) (hfin : i + (encode items).length ≤ fin)
    (hfuel : (encode items).length ≤ fuel) :
    dhcpLoop cfg mem fin fuel i p = (options items).foldl (dhcpMeaning cfg) p := by
  induction items generalizing i fuel p with
  | nil =>
      obtain ⟨fuel, rfl⟩ := Nat.exists_eq_add_of_le' ((length_encode_pos []).trans_le hfuel)
      rw [dhcpLoop, if_neg fun hgo => hgo.2 h.fin]
      rfl
  | cons item items ih =>
      obtain ⟨fuel, rfl⟩ := Nat.exists_eq_add_of_le' ((length_encode_pos _).trans_le hfuel)
      rw [length_encode_cons] at hfin hfuel
      cases item with
      | pad => exact absurd List.mem_cons_self hpads
      | option code data =>
          obtain ⟨hcode, hsize, -, hhere, hrest⟩ := h.option hwf
          have hmem : (code, data) ∈ options (.option code data :: items) := List.mem_cons_self
          rw [length_option] at hfin hfuel
          rw [dhcpLoop, if_pos ⟨by omega, by rw [hcode]; exact (hwf.code _ hmem).2⟩, hsize,
            @dhcpOption_eq cfg mem i (code, data) p hhere (hwf.length _ hmem) (hlong _ hmem)]
          exact ih _ hrest (fun hpad => hpads (List.mem_cons_of_mem _ hpad)) hwf.tail
            (fun o ho => hlong o (List.mem_cons_of_mem _ ho)) (by omega) (by omega)

/-- The walk without DHCP does so too, and passes over pads. -/
theorem vendorLoop_eq {fin fuel i : Nat} {items : List Item} (p : Params)
    (h : Holds mem i (encode items)) (hwf : WellFormed (options items))
    (hlong : ∀ o ∈ options items, LongEnough cfg o) (hfin : i + (encode items).length ≤ fin)
    (hfuel : (encode items).length ≤ fuel) :
    vendorLoop cfg mem fin fuel i p = (options items).foldl (vendorMeaning cfg) p := by
  induction items generalizing i fuel p with
  | nil =>
      obtain ⟨fuel, rfl⟩ := Nat.exists_eq_add_of_le' ((length_encode_pos []).trans_le hfuel)
      rw [vendorLoop, if_neg fun hgo => hgo.2 h.fin]
      rfl
  | cons item items ih =>
      obtain ⟨fuel, rfl⟩ := Nat.exists_eq_add_of_le' ((length_encode_pos _).trans_le hfuel)
      rw [length_encode_cons] at hfin hfuel
      cases item with
      | pad =>
          obtain ⟨hhere, hrest⟩ := h.tail
          have hzero : mem i = 0#8 := hhere 0 _ rfl
          rw [show Item.pad.encode.length = 1 from rfl] at hrest hfin hfuel
          rw [vendorLoop, if_pos ⟨by omega, by rw [hzero]; decide⟩, if_pos hzero]
          exact ih p hrest hwf hlong (by omega) (by omega)
      | option code data =>
          obtain ⟨hcode, hsize, -, hhere, hrest⟩ := h.option hwf
          have hmem : (code, data) ∈ options (.option code data :: items) := List.mem_cons_self
          rw [length_option] at hfin hfuel
          rw [vendorLoop, if_pos ⟨by omega, by rw [hcode]; exact (hwf.code _ hmem).2⟩,
            if_neg (by rw [hcode]; exact (hwf.code _ hmem).1), hsize]
          simp only
          rw [if_pos (by omega),
            @vendorField_eq cfg mem i (code, data) p hhere (hwf.length _ hmem) (hlong _ hmem)]
          exact ih _ hrest hwf.tail
            (fun o ho => hlong o (List.mem_cons_of_mem _ ho)) (by omega) (by omega)

/-- The message type that the options say. -/
def messageType (opts : List (Byte × List Byte)) : Int :=
  match find opts 53#8 with
  | some (type :: _) => type.toNat
  | _ => -1

theorem find_cons (o : Byte × List Byte) (opts : List (Byte × List Byte)) (code : Byte) :
    find (o :: opts) code = if o.1 = code then some o.2 else find opts code := by
  rw [find, List.lookup_cons]
  by_cases h : o.1 = code
  · simp [h]
  · rw [if_neg h, show (code == o.1) = false by simpa using Ne.symm h]
    rfl

/-- The walk that looks for the message type. -/
theorem messageTypeLoop_eq {fuel i : Nat} {items : List Item}
    (h : Holds mem i (encode items)) (hpads : Item.pad ∉ items) (hwf : WellFormed (options items))
    (hlong : ∀ o ∈ options items, LongEnough cfg o) (hfuel : (encode items).length ≤ fuel) :
    messageTypeLoop mem fuel i = some (messageType (options items)) := by
  induction items generalizing i fuel with
  | nil =>
      obtain ⟨fuel, rfl⟩ := Nat.exists_eq_add_of_le' ((length_encode_pos []).trans_le hfuel)
      rw [messageTypeLoop, if_pos h.fin]
      rfl
  | cons item items ih =>
      obtain ⟨fuel, rfl⟩ := Nat.exists_eq_add_of_le' ((length_encode_pos _).trans_le hfuel)
      rw [length_encode_cons] at hfuel
      cases item with
      | pad => exact absurd List.mem_cons_self hpads
      | option code data =>
          obtain ⟨hcode, hsize, hdata, -, hrest⟩ := h.option hwf
          have hmem : (code, data) ∈ options (.option code data :: items) := List.mem_cons_self
          rw [length_option] at hfuel
          rw [messageTypeLoop, if_neg (by rw [hcode]; exact (hwf.code _ hmem).2), hcode, hsize,
            messageType, options, find_cons]
          by_cases htype : code = 53#8
          · rw [if_pos htype, if_pos htype]
            cases data with
            | nil => exact absurd rfl ((hlong _ hmem).2.2.1 htype)
            | cons type rest => rw [hdata 0 type rfl]
          · rw [if_neg htype, if_neg htype]
            exact ih hrest (fun hpad => hpads (List.mem_cons_of_mem _ hpad))
              hwf.tail
              (fun o ho => hlong o (List.mem_cons_of_mem _ ho)) (by omega)

/-! ## What the options say -/

/-- No option has the code of one before it. -/
theorem WellFormed.find_none {o : Byte × List Byte} {opts : List (Byte × List Byte)}
    (h : WellFormed (o :: opts)) : find opts o.1 = none := by
  rw [find, List.lookup_eq_none_iff]
  intro p hp
  have hnot := (List.nodup_cons.1 h.distinct).1
  simp only [bne_iff_ne, ne_eq]
  rintro heq
  exact hnot (heq ▸ List.mem_map_of_mem hp)

/-- What is found does not depend on the order of the options. -/
theorem find_perm {opts opts' : List (Byte × List Byte)} (hwf : WellFormed opts)
    (hperm : opts.Perm opts') (code : Byte) : find opts' code = find opts code := by
  induction hperm with
  | nil => rfl
  | cons o _ ih => rw [find_cons, find_cons, ih hwf.tail]
  | swap a b l =>
      have hne : b.1 ≠ a.1 := fun heq =>
        (List.nodup_cons.1 hwf.distinct).1 (heq ▸ List.mem_cons_self)
      rw [find_cons, find_cons, find_cons, find_cons]
      split_ifs with ha hb
      · exact absurd (hb.trans ha.symm) hne
      · rfl
      · rfl
      · rfl
  | trans h₁ _ ih₁ ih₂ =>
      have hwf₂ := WellFormed.mk (fun o ho => hwf.code o (h₁.mem_iff.2 ho))
        (fun o ho => hwf.length o (h₁.mem_iff.2 ho)) ((h₁.map Prod.fst).nodup hwf.distinct)
      exact (ih₂ hwf₂).trans (ih₁ hwf)

/-- Every parameter that there is an option for is set to its data, and the others are as they
were. -/
def dhcpDescribed (cfg : Config) (found : Byte → Option (List Byte)) (p : Params) : Params :=
  { p with
    NetOurSubnetMask := ((found 1#8).map longOf).getD p.NetOurSubnetMask
    NetTimeOffset := if cfg.CONFIG_BOOTP_TIMEOFFSET then
      ((found 2#8).map longOf).getD p.NetTimeOffset else p.NetTimeOffset
    NetOurGatewayIP := ((found 3#8).map longOf).getD p.NetOurGatewayIP
    NetOurDNSIP := ((found 6#8).map longOf).getD p.NetOurDNSIP
    NetOurDNS2IP := if cfg.CONFIG_BOOTP_DNS2 then
      (((found 6#8).filter (4 < ·.length)).map (longOf <| ·.drop 4)).getD p.NetOurDNS2IP
      else p.NetOurDNS2IP
    NetOurHostName := ((found 12#8).map (·.take (HOST_NAME_SIZE - 1))).getD p.NetOurHostName
    NetOurRootPath := ((found 17#8).map (·.take (ROOT_PATH_SIZE - 1))).getD p.NetOurRootPath
    NetNtpServerIP := if cfg.CONFIG_BOOTP_NTPSERVER then
      ((found 42#8).map longOf).getD p.NetNtpServerIP else p.NetNtpServerIP
    dhcp_leasetime := ((found 51#8).map longOf).getD p.dhcp_leasetime
    NetDHCPServerIP := ((found 54#8).map longOf).getD p.NetDHCPServerIP
    bp_file := if isEmpty p.bp_file then
      (((found 67#8).filter (0 < ·.length)).map (·.take (BP_FILE_SIZE - 1))).getD p.bp_file
      else p.bp_file }

/-- An option more. -/
def foundMore (o : Byte × List Byte) (found : Byte → Option (List Byte)) (code : Byte) :
    Option (List Byte) :=
  if o.1 = code then some o.2 else found code

/-- An option that means something, and what the options behind it say. -/
theorem dhcpDescribed_meaning {found : Byte → Option (List Byte)} {o : Byte × List Byte}
    (hnone : found o.1 = none) (p : Params) :
    dhcpDescribed cfg found (dhcpMeaning cfg p o) = dhcpDescribed cfg (foundMore o found) p := by
  obtain ⟨code, data⟩ := o
  by_cases h1 : code = 1#8
  · subst h1
    simp [dhcpMeaning, dhcpDescribed, foundMore, hnone]
  by_cases h2 : code = 2#8
  · subst h2
    cases htime : cfg.CONFIG_BOOTP_TIMEOFFSET <;>
      simp [dhcpMeaning, dhcpDescribed, foundMore, hnone, htime]
  by_cases h3 : code = 3#8
  · subst h3
    simp [dhcpMeaning, dhcpDescribed, foundMore, hnone]
  by_cases h6 : code = 6#8
  · subst h6
    by_cases hlen : 4 < data.length <;> cases hdns : cfg.CONFIG_BOOTP_DNS2 <;>
      simp [dhcpMeaning, dhcpDescribed, foundMore, hnone, hdns, hlen, Option.filter]
  by_cases h12 : code = 12#8
  · subst h12
    simp [dhcpMeaning, dhcpDescribed, foundMore, hnone]
  by_cases h17 : code = 17#8
  · subst h17
    simp [dhcpMeaning, dhcpDescribed, foundMore, hnone]
  by_cases h42 : code = 42#8
  · subst h42
    cases hntp : cfg.CONFIG_BOOTP_NTPSERVER <;>
      simp [dhcpMeaning, dhcpDescribed, foundMore, hnone, hntp]
  by_cases h51 : code = 51#8
  · subst h51
    simp [dhcpMeaning, dhcpDescribed, foundMore, hnone]
  by_cases h54 : code = 54#8
  · subst h54
    simp [dhcpMeaning, dhcpDescribed, foundMore, hnone]
  by_cases h67 : code = 67#8
  · subst h67
    by_cases hlen : 0 < data.length <;> cases hfile : isEmpty p.bp_file <;>
      simp [dhcpMeaning, dhcpDescribed, foundMore, hnone, hfile, hlen, Option.filter]
  · simp [dhcpMeaning, dhcpDescribed, foundMore, h1, h2, h3, h6, h12, h17, h42, h51, h54, h67]

/-- Options that mean something one after the other set what they say. -/
theorem foldl_dhcpMeaning {opts : List (Byte × List Byte)} (hwf : WellFormed opts) (p : Params) :
    opts.foldl (dhcpMeaning cfg) p = dhcpDescribed cfg (find opts) p := by
  induction opts generalizing p with
  | nil =>
      have hnone : ∀ code, find [] code = none := fun _ => rfl
      simp [dhcpDescribed, hnone]
  | cons o opts ih =>
      rw [List.foldl_cons, ih hwf.tail, dhcpDescribed_meaning hwf.find_none]
      exact congrArg (dhcpDescribed cfg · p) (funext fun code => (find_cons o opts code).symm)

/-- A parameter that there is an option for is still unset. -/
structure Unset (cfg : Config) (found : Byte → Option (List Byte)) (p : Params) : Prop where
  mask : found 1#8 ≠ none → p.NetOurSubnetMask = 0#32
  gateway : found 3#8 ≠ none → p.NetOurGatewayIP = 0#32
  dns : found 6#8 ≠ none → p.NetOurDNSIP = 0#32 ∧ (cfg.CONFIG_BOOTP_DNS2 → p.NetOurDNS2IP = 0#32)
  host : found 12#8 ≠ none → isEmpty p.NetOurHostName
  root : found 17#8 ≠ none → isEmpty p.NetOurRootPath
  nis : found 40#8 ≠ none → isEmpty p.NetOurNISDomain

/-- The size that the option for it says. -/
def fileSize (data : List Byte) : BitVec 16 :=
  if data.length = 2 then shortOf data else if data.length = 4 then (longOf data).setWidth 16 else 0

/-- Every parameter that there is an option for is set to its data, and the others are as they
were. -/
def vendorDescribed (cfg : Config) (found : Byte → Option (List Byte)) (p : Params) : Params :=
  { p with
    NetOurSubnetMask := ((found 1#8).map longOf).getD p.NetOurSubnetMask
    NetOurGatewayIP := ((found 3#8).map longOf).getD p.NetOurGatewayIP
    NetOurDNSIP := ((found 6#8).map longOf).getD p.NetOurDNSIP
    NetOurDNS2IP := if cfg.CONFIG_BOOTP_DNS2 then
      (((found 6#8).filter (4 < ·.length)).map (longOf <| ·.drop 4)).getD p.NetOurDNS2IP
      else p.NetOurDNS2IP
    NetOurHostName := ((found 12#8).map (·.take (HOST_NAME_SIZE - 1))).getD p.NetOurHostName
    NetBootFileSize := ((found 13#8).map fileSize).getD p.NetBootFileSize
    NetOurRootPath := ((found 17#8).map (·.take (ROOT_PATH_SIZE - 1))).getD p.NetOurRootPath
    NetOurNISDomain := ((found 40#8).map (·.take (NIS_DOMAIN_SIZE - 1))).getD p.NetOurNISDomain }

/-- An option leaves the parameters alone that it is not for. -/
theorem vendorMeaning_other (p : Params) (o : Byte × List Byte) :
    (o.1 ≠ 1#8 → (vendorMeaning cfg p o).NetOurSubnetMask = p.NetOurSubnetMask) ∧
    (o.1 ≠ 3#8 → (vendorMeaning cfg p o).NetOurGatewayIP = p.NetOurGatewayIP) ∧
    (o.1 ≠ 6#8 → (vendorMeaning cfg p o).NetOurDNSIP = p.NetOurDNSIP ∧
      (vendorMeaning cfg p o).NetOurDNS2IP = p.NetOurDNS2IP) ∧
    (o.1 ≠ 12#8 → (vendorMeaning cfg p o).NetOurHostName = p.NetOurHostName) ∧
    (o.1 ≠ 17#8 → (vendorMeaning cfg p o).NetOurRootPath = p.NetOurRootPath) ∧
    (o.1 ≠ 40#8 → (vendorMeaning cfg p o).NetOurNISDomain = p.NetOurNISDomain) ∧
    (o.1 ≠ 13#8 → (vendorMeaning cfg p o).NetBootFileSize = 0#16) := by
  refine ⟨fun h => ?_, fun h => ?_, fun h => ⟨?_, ?_⟩, fun h => ?_, fun h => ?_, fun h => ?_,
    fun h => ?_⟩
  · simp only [vendorMeaning, apply_ite Params.NetOurSubnetMask, ite_self, if_neg h]
  · simp only [vendorMeaning, apply_ite Params.NetOurGatewayIP, ite_self, if_neg h]
  · simp only [vendorMeaning, apply_ite Params.NetOurDNSIP, ite_self, if_neg h]
  · simp only [vendorMeaning, apply_ite Params.NetOurDNS2IP, ite_self, if_neg h]
  · simp only [vendorMeaning, apply_ite Params.NetOurHostName, ite_self, if_neg h]
  · simp only [vendorMeaning, apply_ite Params.NetOurRootPath, ite_self, if_neg h]
  · simp only [vendorMeaning, apply_ite Params.NetOurNISDomain, ite_self, if_neg h]
  · simp only [vendorMeaning, apply_ite Params.NetBootFileSize, ite_self, if_neg h]

/-- The parameters that options behind another are for are unset after it. -/
theorem Unset.tail {found : Byte → Option (List Byte)} {o : Byte × List Byte} {p : Params}
    (hnone : found o.1 = none) (h : Unset cfg (foundMore o found) p) :
    Unset cfg found (vendorMeaning cfg p o) := by
  have hmore : ∀ {code}, found code ≠ none → o.1 ≠ code ∧ foundMore o found code ≠ none := by
    intro code hsome
    have hne : o.1 ≠ code := fun heq => hsome (by rw [← heq, hnone])
    exact ⟨hne, by rwa [foundMore, if_neg hne]⟩
  obtain ⟨hmask, hgateway, hdns, hhost, hroot, hnis, -⟩ := @vendorMeaning_other cfg p o
  exact
    { mask := fun hsome => (hmask (hmore hsome).1).trans (h.mask (hmore hsome).2)
      gateway := fun hsome => (hgateway (hmore hsome).1).trans (h.gateway (hmore hsome).2)
      dns := fun hsome => ⟨(hdns (hmore hsome).1).1.trans (h.dns (hmore hsome).2).1,
        fun hdns2 => (hdns (hmore hsome).1).2.trans ((h.dns (hmore hsome).2).2 hdns2)⟩
      host := fun hsome => by
        rw [hhost (hmore hsome).1]
        exact h.host (hmore hsome).2
      root := fun hsome => by
        rw [hroot (hmore hsome).1]
        exact h.root (hmore hsome).2
      nis := fun hsome => by
        rw [hnis (hmore hsome).1]
        exact h.nis (hmore hsome).2 }

/-- An option that means something, and what the options behind it say. -/
theorem vendorDescribed_meaning {found : Byte → Option (List Byte)} {o : Byte × List Byte}
    {p : Params} (hnone : found o.1 = none) (hunset : Unset cfg (foundMore o found) p)
    (hsize : o.1 = 13#8 ∨ found 13#8 ≠ none ∨ p.NetBootFileSize = 0#16) :
    vendorDescribed cfg found (vendorMeaning cfg p o) =
      vendorDescribed cfg (foundMore o found) p := by
  have hkeep : o.1 ≠ 13#8 → ((found 13#8).map fileSize).getD 0#16 =
      ((found 13#8).map fileSize).getD p.NetBootFileSize := fun hne => by
    rcases hsize with h | h | h
    · exact absurd h hne
    · obtain ⟨data, hdata⟩ := Option.ne_none_iff_exists'.1 h
      rw [hdata]
      rfl
    · rw [h]
  obtain ⟨code, data⟩ := o
  by_cases h1 : code = 1#8
  · subst h1
    have hmask := hunset.mask (by simp [foundMore])
    simp [vendorMeaning, vendorDescribed, foundMore, hnone, hmask, hkeep]
  by_cases h3 : code = 3#8
  · subst h3
    have hgateway := hunset.gateway (by simp [foundMore])
    simp [vendorMeaning, vendorDescribed, foundMore, hnone, hgateway, hkeep]
  by_cases h6 : code = 6#8
  · subst h6
    have hdns := hunset.dns (by simp [foundMore])
    by_cases hlen : 4 < data.length <;> cases hcfg : cfg.CONFIG_BOOTP_DNS2 <;>
      simp [vendorMeaning, vendorDescribed, foundMore, hnone, hdns, hkeep, hlen, hcfg, Option.filter]
  by_cases h12 : code = 12#8
  · subst h12
    have hhost := hunset.host (by simp [foundMore])
    simp [vendorMeaning, vendorDescribed, foundMore, hnone, hhost, hkeep]
  by_cases h13 : code = 13#8
  · subst h13
    by_cases h2 : data.length = 2 <;> by_cases h4 : data.length = 4 <;>
      simp [vendorMeaning, vendorDescribed, foundMore, hnone, fileSize, h2, h4]
  by_cases h17 : code = 17#8
  · subst h17
    have hroot := hunset.root (by simp [foundMore])
    simp [vendorMeaning, vendorDescribed, foundMore, hnone, hroot, hkeep]
  by_cases h40 : code = 40#8
  · subst h40
    have hnis := hunset.nis (by simp [foundMore])
    simp [vendorMeaning, vendorDescribed, foundMore, hnone, hnis, hkeep]
  · simp [vendorMeaning, vendorDescribed, foundMore, h1, h3, h6, h12, h13, h17, h40, hkeep]

/-- The option for the size of the boot file is the last, or there is none. -/
def SizeLast (opts : List (Byte × List Byte)) (p : Params) : Prop :=
  (find opts 13#8 ≠ none → opts.getLast?.map Prod.fst = some 13#8) ∧
    (find opts 13#8 = none → opts = [] ∨ p.NetBootFileSize = 0#16)

/-- Options that mean something one after the other set what they say. -/
theorem foldl_vendorMeaning {opts : List (Byte × List Byte)} (hwf : WellFormed opts) {p : Params}
    (hunset : Unset cfg (find opts) p) (hsize : SizeLast opts p) :
    opts.foldl (vendorMeaning cfg) p = vendorDescribed cfg (find opts) p := by
  induction opts generalizing p with
  | nil =>
      have hnone : ∀ code, find [] code = none := fun _ => rfl
      simp [vendorDescribed, hnone]
  | cons o opts ih =>
      have hfind : find (o :: opts) = foundMore o (find opts) := funext (find_cons o opts)
      rw [hfind] at hunset ⊢
      have hnone := hwf.find_none
      have hbefore : opts ≠ [] → o.1 ≠ 13#8 := fun hmore heq => by
        have hlast := hsize.1 (by rw [hfind, foundMore, if_pos heq]; simp)
        rw [List.getLast?_cons_of_ne_nil hmore, ← heq, Option.map_eq_some_iff] at hlast
        obtain ⟨q, hq, hcode⟩ := hlast
        exact (List.nodup_cons.1 hwf.distinct).1
          (hcode ▸ List.mem_map_of_mem (List.mem_of_getLast? hq))
      have hafter : SizeLast opts (vendorMeaning cfg p o) := by
        refine ⟨fun hsome => ?_, fun _ => ?_⟩
        · have hmore : opts ≠ [] := fun hnil => hsome (by rw [hnil]; rfl)
          have hlast := hsize.1 (by rwa [hfind, foundMore, if_neg (hbefore hmore)])
          rwa [List.getLast?_cons_of_ne_nil hmore] at hlast
        · by_cases hmore : opts = []
          · exact Or.inl hmore
          · exact Or.inr ((@vendorMeaning_other cfg p o).2.2.2.2.2.2 (hbefore hmore))
      rw [List.foldl_cons, ih hwf.tail (hunset.tail hnone) hafter]
      refine vendorDescribed_meaning hnone hunset ?_
      by_cases hhere : o.1 = 13#8
      · exact Or.inl hhere
      · by_cases hlater : find opts 13#8 = none
        · refine Or.inr (Or.inr ?_)
          have := hsize.2 (by rw [hfind, foundMore, if_neg hhere, hlater])
          exact this.resolve_left (List.cons_ne_nil o opts)
        · exact Or.inr (Or.inl hlater)

/-- Options whose data is long enough. Without pads, the walks with DHCP set every parameter from
its option, and return the message type. Pads or not, the walk without DHCP sets every parameter
that is unset, as long as no option is behind the one for the size of the boot file. What is set
depends on what is found for a code, which is the same in any order. -/
theorem options_any_order {vend : Nat} {items : List Item} (h : Holds mem (vend + 4) (encode items))
    (hwf : WellFormed (options items)) (hlong : ∀ o ∈ options items, LongEnough cfg o) :
    (Item.pad ∉ items → (encode items).length ≤ BOOTP_HDR_SIZE → ∀ p,
      DhcpOptionsProcess cfg mem (vend + 4) p = dhcpDescribed cfg (find (options items)) p) ∧
    (Item.pad ∉ items → readLong mem vend = BOOTP_VENDOR_MAGIC → ∃ N, ∀ fuel, N ≤ fuel →
      DhcpMessageType mem fuel vend = some (messageType (options items))) ∧
    (∀ p size, (encode items).length ≤ size → Unset cfg (find (options items)) p →
      SizeLast (options items) p → BootpVendorProcess cfg mem (vend + 4) size p =
        vendorDescribed cfg (find (options items)) p) ∧
    ∀ items', (options items).Perm (options items') →
      find (options items') = find (options items) := by
  refine ⟨fun hpads hfits p => ?_, fun hpads hmagic => ⟨(encode items).length, fun fuel hfuel => ?_⟩,
    fun p size hfits hunset hsize => ?_, fun items' hperm => funext (find_perm hwf hperm)⟩
  · rw [DhcpOptionsProcess, dhcpLoop_eq p h hpads hwf hlong (by omega) hfits, foldl_dhcpMeaning hwf]
  · rw [DhcpMessageType, if_neg (not_not.2 hmagic), messageTypeLoop_eq h hpads hwf hlong hfuel]
  · rw [BootpVendorProcess, vendorLoop_eq p h hwf hlong (by omega) hfits,
      foldl_vendorMeaning hwf hunset hsize]

/-- A packet that begins with its vendor area. -/
def packetOf (items : List Item) : Nat → Byte := fun i =>
  ([0x63#8, 0x82#8, 0x53#8, 0x63#8] ++ encode items).getD i 0#8

theorem holds_packetOf (items : List Item) : Holds (packetOf items) (0 + 4) (encode items) := by
  intro k b hb
  have hbehind : ([0x63#8, 0x82#8, 0x53#8, 0x63#8] ++ encode items)[4 + k]? = some b := by
    rw [List.getElem?_append_right (Nat.le_add_right 4 k),
      show 4 + k - [0x63#8, 0x82#8, 0x53#8, 0x63#8].length = k from Nat.add_sub_cancel_left 4 k, hb]
  rw [packetOf, List.getD_eq_getElem?_getD, Nat.zero_add, hbehind]
  rfl

theorem readLong_packetOf (items : List Item) :
    readLong (packetOf items) 0 = BOOTP_VENDOR_MAGIC := by
  change (0x63#8 ++ 0x82#8 ++ 0x53#8 ++ 0x63#8 : BitVec 32) = BOOTP_VENDOR_MAGIC
  decide

/-- No options compiled in, and nothing set. -/
def plainConfig : Config := ⟨false, false, false⟩
def unset : Params := ⟨0, 0, 0, 0, 0, 0, 0, 0, 0, [], [], [], []⟩

/-- A subnet mask, a message type and a size. -/
def mask : Item := .option 1 [255, 255, 255, 0]
def type : Item := .option 53 [5]
def size : Item := .option 13 [0, 9]

theorem options_any_order_mask : ∃ N, ∀ fuel, N ≤ fuel →
    DhcpMessageType (packetOf [mask, type]) fuel 0 = some 5 :=
  (@options_any_order plainConfig (packetOf [mask, type]) 0 [mask, type] (holds_packetOf _)
    ⟨by decide, by decide, by decide⟩ (by unfold LongEnough; decide)).2.1 (by decide) (by decide)

/-- A pad before the options: no mask is set, and no message type found. The size of the boot
file, and an option behind it: no size is set. -/
theorem options_lost :
    (DhcpOptionsProcess plainConfig (packetOf [mask, type]) 4 unset).NetOurSubnetMask = 0xffffff00#32 ∧
    (DhcpOptionsProcess plainConfig (packetOf [.pad, mask, type]) 4 unset).NetOurSubnetMask = 0#32 ∧
    DhcpMessageType (packetOf [mask, type]) 64 0 = some 5 ∧
    DhcpMessageType (packetOf [.pad, mask, type]) 64 0 = some (-1) ∧
    (BootpVendorProcess plainConfig (packetOf [mask, size]) 4 64 unset).NetBootFileSize = 9#16 ∧
    (BootpVendorProcess plainConfig (packetOf [size, mask]) 4 64 unset).NetBootFileSize = 0#16 := by
  decide

end UBoot.Bootp
