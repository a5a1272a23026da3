/-
# Saving and loading S-records

What `save_serial` writes, `load_serial` reads: each record is decoded to the bytes it was
made of, and record by record these are copied back to where they came from.
-/

import UBoot.CmdLoad.SRecord
import UBoot.Lib.Masks

namespace UBoot.CmdLoad

open UBoot.Lib

/-! ## Hexadecimal digits -/

/-- The digits of bytes. -/
def hexBytes (bytes : List Byte) : List Byte := bytes.flatMap fun b => hexDigits 2 b.toNat

@[simp]
theorem hexBytes_nil : hexBytes [] = [] := rfl

theorem hexBytes_cons (b : Byte) (bytes : List Byte) :
    hexBytes (b :: bytes) = hexDigits 2 b.toNat ++ hexBytes bytes := rfl

theorem hexBytes_append (first second : List Byte) :
    hexBytes (first ++ second) = hexBytes first ++ hexBytes second :=
  List.flatMap_append

theorem hex1_bin_hexDigit : ∀ d < 16, hex1_bin (hexDigit d) = d := by decide

theorem hexDigits_two (v : Nat) : hexDigits 2 v = [hexDigit (v / 16 % 16), hexDigit (v % 16)] := rfl

/-- Two digits are decoded to the byte they stand for. -/
theorem hex2_bin_hexDigits (b : Byte) (rest : List Byte) :
    hex2_bin (hexDigits 2 b.toNat ++ rest) = b.toNat := by
  have hlt := b.isLt
  have hhigh := hex1_bin_hexDigit (b.toNat / 16 % 16) (Nat.mod_lt _ (by decide))
  have hlow := hex1_bin_hexDigit (b.toNat % 16) (Nat.mod_lt _ (by decide))
  simp only [hexDigits_two, hex2_bin, List.cons_append, List.headD_cons, List.tail_cons, hhigh, hlow]
  rw [if_neg (by omega), if_neg (by omega)]
  omega

theorem ofInt_toNat (b : Byte) : BitVec.ofInt 8 (b.toNat : Int) = b := by simp

/-- The digits of bytes are read back. -/
theorem readBytes_hexBytes (bytes rest : List Byte) (chksum : Byte) :
    readBytes bytes.length (hexBytes bytes ++ rest) chksum =
      .ok (bytes, rest, chksum + bytes.sum) := by
  induction bytes generalizing chksum with
  | nil => simp [readBytes, hexBytes]
  | cons b bytes ih =>
      have hdrop : (hexDigits 2 b.toNat ++ (hexBytes bytes ++ rest)).drop 2 = hexBytes bytes ++ rest := by
        simp [hexDigits_two]
      rw [List.length_cons, readBytes, hexBytes_cons, List.append_assoc, hex2_bin_hexDigits,
        if_neg (by omega), hdrop, ofInt_toNat]
      simp [ih, bind, Except.bind, pure, Except.pure, BitVec.add_assoc]

/-- The bytes of an address, the highest first. -/
def addrBytes (address : ULong) : List Byte :=
  [(address >>> 24).setWidth 8, (address >>> 16).setWidth 8, (address >>> 8).setWidth 8,
    address.setWidth 8]

theorem addrOf_addrBytes (address : ULong) : addrOf (addrBytes address) = address := by
  simp only [addrOf, addrBytes, List.foldl_cons, List.foldl_nil]
  apply BitVec.eq_of_toNat_eq
  simp
  omega

theorem hexDigits_eight (address : ULong) :
    hexDigits 8 address.toNat = hexBytes (addrBytes address) := by
  simp only [hexDigits, hexBytes, addrBytes, List.nil_append, List.cons_append,
    List.flatMap_cons, List.flatMap_nil, List.append_nil, BitVec.toNat_setWidth,
    BitVec.toNat_ushiftRight, Nat.shiftRight_eq_div_pow, Nat.div_div_eq_div_mul]
  simp only [List.cons.injEq, and_true]
  refine ⟨?_, ?_, ?_, ?_, ?_, ?_, ?_, ?_⟩ <;> exact congrArg hexDigit (by omega)

theorem formatX_of_lt {n v : Nat} (hn : 0 < n) (h : v < 16 ^ n) : formatX n v = hexDigits n v := by
  have hlog : Nat.log 16 v < n := Nat.log_lt_of_lt_pow' (by omega) h
  rw [formatX, Nat.max_eq_left hlog]

/-! ## One record -/

/-- The bytes of a record, without its checksum. -/
def recordBytes (address : ULong) (data : List Byte) : List Byte :=
  BitVec.ofNat 8 (4 + data.length + 1) :: (addrBytes address ++ data)

/-- A record without the end of line. -/
def recordLine (address : ULong) (data : List Byte) : List Byte :=
  0x53#8 :: 0x33#8 :: hexBytes (recordBytes address data ++ [~~~(recordBytes address data).sum])

theorem and_mask (x : BitVec 32) : x &&& 0xff#32 = (x.setWidth 8).setWidth 32 := by
  apply BitVec.eq_of_toNat_eq
  rw [and_low_toNat (k := 8) rfl, BitVec.toNat_setWidth, BitVec.toNat_setWidth,
    Nat.mod_eq_of_lt (b := 2 ^ 32) (by omega)]

/-- The checksum of the data, the length and the address. -/
theorem recordChecksum_eq (address : ULong) (data : List Byte) (checksum : BitVec 32)
    (hlength : data.length ≤ 16) (hsum : checksum.setWidth 8 = data.sum) :
    recordChecksum (4 + data.length + 1) address checksum =
      (~~~(recordBytes address data).sum).setWidth 32 := by
  have hlow : (BitVec.ofNat 32 (4 + data.length + 1) >>> 8).setWidth 8 = 0#8 := by
    apply BitVec.eq_of_toNat_eq
    simp [Nat.shiftRight_eq_div_pow]
    omega
  have hlow' : (BitVec.ofNat 32 (4 + data.length + 1)).setWidth 8 =
      BitVec.ofNat 8 (4 + data.length + 1) := by simp
  rw [recordChecksum, and_mask, BitVec.setWidth_not (by decide)]
  congr 2
  simp only [List.range_succ, List.range_zero, List.nil_append, List.cons_append, List.foldl_cons,
    List.foldl_nil, and_mask, BitVec.setWidth_add _ _ (show 8 ≤ 32 by decide), hsum]
  simp [recordBytes, addrBytes, hlow, hlow']
  ring

/-- The record that is written. -/
theorem formatRecord_eq (address : ULong) (data : List Byte) (checksum : BitVec 32)
    (hlength : data.length ≤ 16) (hsum : checksum.setWidth 8 = data.sum) :
    formatRecord (4 + data.length + 1) address (hexBytes data)
        (recordChecksum (4 + data.length + 1) address checksum) =
      recordLine address data ++ [0x0a#8] := by
  have hlen : (BitVec.ofNat 8 (4 + data.length + 1)).toNat = 4 + data.length + 1 := by
    rw [BitVec.toNat_ofNat]
    exact Nat.mod_eq_of_lt (by omega)
  set chksum := ~~~(recordBytes address data).sum
  have hchksum : (chksum.setWidth 32).toNat = chksum.toNat := by
    rw [BitVec.toNat_setWidth]
    exact Nat.mod_eq_of_lt (chksum.isLt.trans (by decide))
  rw [recordChecksum_eq address data checksum hlength hsum, formatRecord, hchksum,
    formatX_of_lt (by decide) (by omega), formatX_of_lt (by decide) address.isLt,
    formatX_of_lt (by decide) chksum.isLt, hexDigits_eight, recordLine, recordBytes]
  simp only [List.cons_append, hexBytes_cons, hexBytes_append, hlen, List.append_assoc]
  rfl

/-- It is decoded to its address and data. -/
theorem srec_decode_recordLine (address : ULong) (data : List Byte) (hlength : data.length ≤ 16) :
    srec_decode (recordLine address data) = .ok ⟨SREC_DATA4, data.length, address, data⟩ := by
  have hlen : (BitVec.ofNat 8 (4 + data.length + 1)).toNat = 4 + data.length + 1 := by
    rw [BitVec.toNat_ofNat]
    exact Nat.mod_eq_of_lt (by omega)
  set chksum := ~~~(recordBytes address data).sum with hchksum
  have hskip : ((recordLine address data).dropWhile (· ≠ 0x53#8)).tail =
      0x33#8 :: (hexDigits 2 (BitVec.ofNat 8 (4 + data.length + 1)).toNat ++
        (hexBytes (addrBytes address) ++ (hexBytes data ++ (hexDigits 2 chksum.toNat ++ [])))) := by
    rw [recordLine, ← hchksum, recordBytes]
    simp [hexBytes_cons, hexBytes_append, hexBytes_nil]
  have hdrop : ∀ (b : Byte) (rest : List Byte), (hexDigits 2 b.toNat ++ rest).drop 2 = rest := by
    simp [hexDigits_two]
  have hcount : ((BitVec.ofNat 8 (4 + data.length + 1)).toNat : Int) - 5 = data.length := by
    rw [hlen]
    omega
  have haddress : ∀ c, readBytes 4 _ c = _ := readBytes_hexBytes (addrBytes address)
    (hexBytes data ++ (hexDigits 2 chksum.toNat ++ []))
  have hdata := readBytes_hexBytes data (hexDigits 2 chksum.toNat ++ [])
  have htype : recordType 0x33#8 = .ok (SREC_DATA4, 5, 4) := rfl
  have hsum : BitVec.ofNat 8 (4 + data.length + 1) + (addrBytes address).sum + data.sum =
      (recordBytes address data).sum := by
    simp [recordBytes, BitVec.add_assoc]
  rw [srec_decode, hskip]
  simp only [hex2_bin_hexDigits, hdrop, htype, bind, Except.bind, haddress,
    if_neg (show ¬ (0x33#8 = 0x35#8) by decide), hcount, Int.toNat_natCast, hdata, ofInt_toNat, hsum]
  rw [if_neg (by omega), if_neg (by omega), if_neg (not_not_intro hchksum), addrOf_addrBytes]
  rfl

/-! ## The console -/

theorem hexDigit_plain : ∀ d < 16, hexDigit d ∉ [0x0d#8, 0x0a#8, 0#8, 3#8] := by decide

/-- The characters of a record are none that end it. -/
theorem plain_of_mem_hexBytes {bytes : List Byte} {c : Byte} (hc : c ∈ hexBytes bytes) :
    c ∉ [0x0d#8, 0x0a#8, 0#8, 3#8] := by
  obtain ⟨b, -, hmem⟩ := List.mem_flatMap.mp hc
  rw [hexDigits_two, List.mem_cons, List.mem_singleton] at hmem
  rcases hmem with rfl | rfl <;> exact hexDigit_plain _ (Nat.mod_lt _ (by decide))

/-- A line is read up to its end. -/
theorem readRecord_line {room : Nat} (buf line rest : List Byte)
    (hplain : ∀ c ∈ line, c ∉ [0x0d#8, 0x0a#8, 0#8, 3#8]) (hroom : line.length < room) :
    readRecord room buf (line ++ 0x0a#8 :: rest) = some (some (buf ++ line), rest) := by
  induction line generalizing room buf with
  | nil =>
      obtain ⟨room, rfl⟩ : ∃ n, room = n + 1 := ⟨room - 1, by simp at hroom; omega⟩
      simp [readRecord]
  | cons c line ih =>
      obtain ⟨room, rfl⟩ : ∃ n, room = n + 1 := ⟨room - 1, by simp at hroom; omega⟩
      have hc := hplain c List.mem_cons_self
      simp only [List.mem_cons, List.not_mem_nil, or_false, not_or] at hc
      rw [List.cons_append, readRecord, if_neg (by tauto), if_neg (by tauto),
        ih _ (fun c hc => hplain c (List.mem_cons_of_mem _ hc)) (by simpa using hroom)]
      simp

theorem length_hexBytes (bytes : List Byte) : (hexBytes bytes).length = 2 * bytes.length := by
  induction bytes with
  | nil => rfl
  | cons b bytes ih =>
      rw [hexBytes_cons, List.length_append, ih, hexDigits_two]
      simp
      omega

theorem read_record_recordLine (address : ULong) (data rest : List Byte)
    (hlength : data.length ≤ 16) :
    read_record (recordLine address data ++ 0x0a#8 :: rest) (SREC_MAXRECLEN + 1) =
      some (some (recordLine address data), rest) := by
  refine readRecord_line [] _ rest (fun c hc => ?_) ?_
  · rcases List.mem_cons.mp hc with rfl | hc
    · decide
    · rcases List.mem_cons.mp hc with rfl | hc
      · decide
      · exact plain_of_mem_hexBytes hc
  · simp [recordLine, recordBytes, length_hexBytes, addrBytes, SREC_MAXRECLEN]
    omega

/-! ## Saving -/

/-- `count` bytes of memory. -/
def bytesAt (memory : Nat → Byte) (address : ULong) (count : Nat) : List Byte :=
  (List.range count).map fun i => memory (address + BitVec.ofNat 32 i).toNat

@[simp]
theorem length_bytesAt (memory : Nat → Byte) (address : ULong) (count : Nat) :
    (bytesAt memory address count).length = count :=
  (List.length_map _).trans List.length_range

theorem bytesAt_succ (memory : Nat → Byte) (address : ULong) (count : Nat) :
    bytesAt memory address (count + 1) =
      bytesAt memory address count ++ [memory (address + BitVec.ofNat 32 count).toNat] := by
  simp [bytesAt, List.range_succ]

theorem bytesAt_add (memory : Nat → Byte) (address : ULong) (m n : Nat) :
    bytesAt memory address (m + n) =
      bytesAt memory address m ++ bytesAt memory (address + BitVec.ofNat 32 m) n := by
  simp only [bytesAt, List.range_add, List.map_append, List.map_map]
  congr 1
  refine List.map_congr_left fun i _ => ?_
  simp [BitVec.add_assoc]

/-- The loop collects the bytes of a record, until there are 16 of them or no more. -/
theorem saveBytes_collect (memory : Nat → Byte) (address : ULong) (count reclen n : Nat)
    (checksum : BitVec 32) (hn : reclen + n ≤ SREC_BYTES_PER_RECORD) (hpos : 0 < n)
    (hfull : reclen + n = SREC_BYTES_PER_RECORD ∨ count = 0)
    (hsum : checksum.setWidth 8 = (bytesAt memory address reclen).sum) :
    saveBytes memory (n + count) address reclen checksum (hexBytes (bytesAt memory address reclen)) =
      recordLine address (bytesAt memory address (reclen + n)) ++ 0x0a#8 ::
        saveBytes memory count (address + BitVec.ofNat 32 (reclen + n)) 0 0#32 [] := by
  induction n generalizing reclen checksum with
  | zero => omega
  | succ n ih =>
      have hmore : SREC_BYTES_PER_RECORD = 16 := rfl
      have hbyte := bytesAt_succ memory address reclen
      set c := memory (address + BitVec.ofNat 32 reclen).toNat
      have hhex : hexBytes (bytesAt memory address reclen) ++
          [hexDigit (c.toNat / 16), hexDigit (c.toNat % 16)] =
          hexBytes (bytesAt memory address (reclen + 1)) := by
        rw [hbyte, hexBytes_append, hexBytes_cons, hexBytes_nil, hexDigits_two,
          Nat.mod_eq_of_lt (show c.toNat / 16 < 16 by have := c.isLt; omega)]
        rfl
      have hsum' : (checksum + c.setWidth 32).setWidth 8 =
          (bytesAt memory address (reclen + 1)).sum := by
        rw [BitVec.setWidth_add _ _ (by decide), hsum, hbyte, List.sum_append]
        simp
      rw [show n + 1 + count = (n + count) + 1 by omega, saveBytes]
      by_cases hlast : n = 0
      · subst hlast
        have hlength : (bytesAt memory address (reclen + 1)).length ≤ 16 := by
          rw [length_bytesAt]
          omega
        have hrecord := formatRecord_eq address _ _ hlength hsum'
        rw [length_bytesAt] at hrecord
        rw [Nat.zero_add] at hfull ⊢
        simp only [Nat.zero_add]
        rw [if_pos hfull, hhex, hrecord, List.append_assoc]
        rfl
      · rw [if_neg (by omega), hhex, ih (reclen + 1) _ (by omega) (by omega) (by omega) hsum',
          show reclen + 1 + n = reclen + (n + 1) by omega]

/-! ## Loading -/

section Load

variable {flash : FlashDriver} {memory : Nat → Byte} {start_addr end_addr : ULong}

/-- An address is not in flash, or writes to it succeed. -/
def FlashDriver.Writes (flash : FlashDriver) (address : ULong) : Prop :=
  flash.addr2info address = true → ∀ memory data,
    flash.flash_write memory data address = (0, store memory address.toNat data)

/-- A data record. -/
theorem loadRecords_recordLine (address : ULong) (data rest : List Byte) (hlength : data.length ≤ 16)
    (writes : flash.Writes address) :
    loadRecords flash 0#32 (recordLine address data ++ 0x0a#8 :: rest) memory start_addr end_addr =
      loadRecords flash 0#32 rest (store memory address.toNat data)
        (if address < start_addr then address else start_addr)
        (if address + BitVec.ofNat 32 data.length - 1#32 > end_addr then
          address + BitVec.ofNat 32 data.length - 1#32 else end_addr) := by
  have hread := read_record_recordLine address data rest hlength
  have hdecode := srec_decode_recordLine address data hlength
  rw [loadRecords]
  split
  · next h => simp [hread] at h
  · next h => simp [hread] at h
  · next record rest' h =>
      simp only [hread, Option.some.injEq, Prod.mk.injEq] at h
      obtain ⟨rfl, rfl⟩ := h
      rw [hdecode]
      dsimp only
      rw [if_pos (.inr (.inr rfl)), BitVec.add_zero, BitVec.ofInt_natCast]
      by_cases hflash : flash.addr2info address = true
      · rw [if_pos hflash, writes hflash, if_neg (not_not_intro rfl)]
      · rw [if_neg hflash, if_neg (Int.not_lt.mpr (Int.natCast_nonneg _))]

/-- The record that begins a download. -/
theorem loadRecords_start (rest : List Byte) :
    loadRecords flash 0#32 (SREC3_START ++ rest) memory start_addr end_addr =
      loadRecords flash 0#32 rest memory start_addr end_addr := by
  have hread : read_record (SREC3_START ++ rest) (SREC_MAXRECLEN + 1) =
      some (some (ascii "S0030000FC"), rest) :=
    readRecord_line [] (ascii "S0030000FC") rest (by decide) (by decide)
  have hdecode : srec_decode (ascii "S0030000FC") = .ok ⟨SREC_START, 0, 0#32, []⟩ := by rfl
  rw [loadRecords]
  split
  · next h => simp [hread] at h
  · next h => simp [hread] at h
  · next record rest' h =>
      simp only [hread, Option.some.injEq, Prod.mk.injEq] at h
      obtain ⟨rfl, rfl⟩ := h
      rw [hdecode]
      dsimp only
      rw [if_neg (by decide), if_neg (by decide)]

/-- The record that ends it. -/
theorem loadRecords_end :
    loadRecords flash 0#32 SREC3_END memory start_addr end_addr =
      some ⟨0#32, memory, some (end_addr - start_addr + 1#32)⟩ := by
  have hread : read_record SREC3_END (SREC_MAXRECLEN + 1) =
      some (some (ascii "S70500000000FA"), []) :=
    readRecord_line [] (ascii "S70500000000FA") [] (by decide) (by decide)
  have hdecode : srec_decode (ascii "S70500000000FA") = .ok ⟨SREC_END4, 0, 0#32, []⟩ := by rfl
  rw [loadRecords]
  split
  · next h => simp [hread] at h
  · next h => simp [hread] at h
  · next record rest' h =>
      simp only [hread, Option.some.injEq, Prod.mk.injEq] at h
      obtain ⟨rfl, rfl⟩ := h
      rw [hdecode]
      dsimp only
      rw [if_neg (by decide), if_pos (by decide)]

/-- `start_addr` after so many bytes. -/
def startAfter (address : ULong) (loaded : Nat) : ULong := if loaded = 0 then ~~~0#32 else address

/-- `end_addr` after so many bytes. -/
def endAfter (address : ULong) (loaded : Nat) : ULong :=
  if loaded = 0 then 0#32 else address + BitVec.ofNat 32 loaded - 1#32

theorem startAfter_add (address : ULong) {loaded n : Nat} (hn : 0 < n)
    (hrange : address.toNat + (loaded + n) ≤ 2 ^ 32) :
    (if address + BitVec.ofNat 32 loaded < startAfter address loaded then
      address + BitVec.ofNat 32 loaded else startAfter address loaded) =
      startAfter address (loaded + n) := by
  rw [startAfter, startAfter, if_neg (show loaded + n ≠ 0 by omega)]
  rcases Nat.eq_zero_or_pos loaded with rfl | hpos
  · rw [if_pos rfl, BitVec.add_zero]
    split
    · rfl
    · bv_omega
  · rw [if_neg (show loaded ≠ 0 by omega), if_neg]
    bv_omega

theorem endAfter_add (address : ULong) {loaded n : Nat} (hn : 0 < n)
    (hrange : address.toNat + (loaded + n) ≤ 2 ^ 32) (hcount : loaded + n < 2 ^ 32) :
    (if address + BitVec.ofNat 32 loaded + BitVec.ofNat 32 n - 1#32 > endAfter address loaded then
      address + BitVec.ofNat 32 loaded + BitVec.ofNat 32 n - 1#32 else endAfter address loaded) =
      endAfter address (loaded + n) := by
  rw [endAfter, endAfter, if_neg (show loaded + n ≠ 0 by omega)]
  rcases Nat.eq_zero_or_pos loaded with rfl | hpos
  · rw [if_pos rfl]
    split <;> bv_omega
  · rw [if_neg (show loaded ≠ 0 by omega), if_pos]
    all_goals bv_omega

variable {source : Nat → Byte} {address : ULong}

/-- The rest of the records. -/
theorem loadRecords_saveBytes (count loaded : Nat) (hpos : 0 < loaded + count)
    (hrange : address.toNat + (loaded + count) ≤ 2 ^ 32) (hcount : loaded + count < 2 ^ 32)
    (writes : ∀ i < loaded + count, flash.Writes (address + BitVec.ofNat 32 i)) :
    loadRecords flash 0#32
        (saveBytes source count (address + BitVec.ofNat 32 loaded) 0 0#32 [] ++ SREC3_END)
        (store memory address.toNat (bytesAt source address loaded))
        (startAfter address loaded) (endAfter address loaded) =
      some ⟨0#32, store memory address.toNat (bytesAt source address (loaded + count)),
        some (BitVec.ofNat 32 (loaded + count))⟩ := by
  induction count using Nat.strong_induction_on generalizing loaded with
  | _ count ih =>
      rcases Nat.eq_zero_or_pos count with rfl | hmore
      · rw [saveBytes, List.nil_append, loadRecords_end]
        congr 2
        rw [startAfter, if_neg (by omega), endAfter, if_neg (by omega)]
        simp only [Nat.add_zero, Option.some.injEq]
        bv_omega
      · -- the next record
        obtain ⟨n, rest, rfl, hn, hn', hfull⟩ : ∃ n rest, count = n + rest ∧ 0 < n ∧ n ≤ 16 ∧
            (n = 16 ∨ rest = 0) := by
          rcases Nat.lt_or_ge count 16 with hlt | hge
          · exact ⟨count, 0, rfl, hmore, hlt.le, .inr rfl⟩
          · exact ⟨16, count - 16, by omega, by decide, le_rfl, .inl rfl⟩
        have hcollect := saveBytes_collect source (address + BitVec.ofNat 32 loaded) rest 0 n 0#32
          (by rw [Nat.zero_add]; exact hn') hn (by rw [Nat.zero_add]; exact hfull) rfl
        rw [show hexBytes (bytesAt source _ 0) = [] from rfl, Nat.zero_add, BitVec.add_assoc,
          ← BitVec.ofNat_add] at hcollect
        have hdst : (address + BitVec.ofNat 32 loaded).toNat = address.toNat + loaded := by bv_omega
        have hstore := store_append memory address.toNat (bytesAt source address loaded)
          (bytesAt source (address + BitVec.ofNat 32 loaded) n)
        rw [length_bytesAt, ← bytesAt_add] at hstore
        rw [hcollect, List.append_assoc, List.cons_append, loadRecords_recordLine _ _ _
          (by rwa [length_bytesAt]) (writes loaded (by omega)), length_bytesAt, hdst, hstore,
          startAfter_add address hn (by omega), endAfter_add address hn (by omega) (by omega),
          ih rest (by omega) (loaded + n) (by omega) (by omega) (by omega)
            (fun i hi => writes i (by omega)), Nat.add_assoc]

end Load

end UBoot.CmdLoad
