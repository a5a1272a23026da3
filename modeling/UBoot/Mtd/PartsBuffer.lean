/-
# The buffers of `mtdparts`

`generate_mtdparts` and the command `mtdparts add` of `common/cmd_mtdparts.c`, with what they
write to a buffer. The text of the devices comes piece by piece, each of which is compared with
what is left; the nine characters in front of the text are not taken off. The length of a new
description is kept in eight bits, and only a flag of two characters is counted.
-/

import UBoot.Mtd.PartsText

namespace UBoot.Mtd

/-! ## Pieces -/

/-- What has been written from `buf` on up to `p`, and `maxlen`. -/
structure Out where
  buf : List Byte
  maxlen : Nat

/-- A piece is written, `p` moves behind it and `maxlen` is what it leaves. A piece that does not
fit ends the text. -/
def Out.put (s : Out) (piece : List Byte) : Except Out Out :=
  if piece.length > s.maxlen then .error s
  else .ok ⟨s.buf ++ piece, s.maxlen - piece.length⟩

/-- One round of the loop over the partitions. -/
def putPart (num_parts : BitVec 16) (part_cnt : Nat) (prev_part : Option NamedPart)
    (part : NamedPart) (s : Out) : Except Out Out := do
  let s ← s.put (memsize_format part.size)
  let s ← if gap prev_part part then s.put (0x40#8 :: memsize_format part.offset) else pure s
  let s ← if part.auto_name then pure s else s.put (0x28#8 :: (part.name ++ [0x29#8]))
  let s ← if part.ro then s.put (ascii "ro") else pure s
  if num_parts.toNat > part_cnt then s.put [0x2c#8] else pure s

/-- The loop over the partitions of a device. -/
def putParts (num_parts : BitVec 16) : Nat → Option NamedPart → List NamedPart → Out →
    Except Out Out
  | _, _, [], s => .ok s
  | part_cnt, prev_part, part :: parts, s => do
      let s ← putPart num_parts (part_cnt + 1) prev_part part s
      putParts num_parts (part_cnt + 1) (some part) parts s

/-- The loop over the devices. -/
def putDevices : List NamedDevice → Out → Except Out Out
  | [], s => .ok s
  | dev :: devices, s => do
      let s ← s.put (dev.id.mtd_id ++ [0x3a#8])
      let s ← putParts (BitVec.ofNat 16 dev.parts.length) 0 none dev.parts s
      let s ← if devices.isEmpty then pure s else s.put [0x3b#8]
      putDevices devices s

/-- What `generate_mtdparts` returns, the text it leaves, and how many bytes of the buffer it has
written, from the begin on. -/
structure Generated where
  rc : Int
  text : List Byte
  touched : Nat

/-- `generate_mtdparts`. The NUL behind `mtdparts=` is written, and in most cases overwritten. -/
def generate (devices : List NamedDevice) (buflen : U32) : Generated :=
  if devices.isEmpty then ⟨0, [], 1⟩
  else
    match putDevices devices ⟨ascii "mtdparts=", (buflen - 1#32).toNat⟩ with
    | .ok s => ⟨0, s.buf, s.buf.length + 1⟩
    | .error s => ⟨1, s.buf, max 10 s.buf.length⟩

/-! ## A description -/

def MTD_DEV_TYPE_NOR : Byte := 1#8
def MTD_DEV_TYPE_NAND : Byte := 2#8
def MTD_DEV_TYPE_ONENAND : Byte := 4#8

/-- `isdigit(*p)` and the number at `p`. -/
def devNum (type : Byte) (p : List Byte) : Option (Byte × Byte) :=
  match p with
  | [] => none
  | c :: _ =>
      if 0x30#8 ≤ c ∧ c ≤ 0x39#8 then some (type, (simple_strtoul p 0).1.setWidth 8) else none

/-- `mtd_id_parse`: the type of a device, and its number. -/
def mtd_id_parse (id : List Byte) : Option (Byte × Byte) :=
  if id.take 4 = ascii "nand" then devNum MTD_DEV_TYPE_NAND (id.drop 4)
  else if id.take 3 = ascii "nor" then devNum MTD_DEV_TYPE_NOR (id.drop 3)
  else if id.take 7 = ascii "onenand" then devNum MTD_DEV_TYPE_ONENAND (id.drop 7)
  else none

/-- `id_find` -/
def id_find (mtdids : List NamedIds) (type num : Byte) : Option NamedIds :=
  mtdids.find? fun id => id.type = type ∧ id.num = num

def PART_ADD_DESC_MAXLEN : Nat := 64

/-- The arguments of `mtdparts add`. There is no `argv[5]` when `argc` is 5. -/
structure AddArgs where
  dev : List Byte
  size : List Byte
  name : List Byte
  flag : Option (List Byte)

/-- `u8 len` -/
def AddArgs.len (args : AddArgs) (id : NamedIds) : Byte :=
  let len := BitVec.ofNat 8 (id.mtd_id.length + 1)
  let len := len + BitVec.ofNat 8 args.size.length
  let len := len + BitVec.ofNat 8 (args.name.length + 2)
  if (args.flag.map List.length) = some 2 then len + 2#8 else len

/-- `sprintf(tmpbuf, "%s:%s(%s)%s", ..)` -/
def AddArgs.desc (args : AddArgs) (id : NamedIds) : List Byte :=
  id.mtd_id ++ ascii ":" ++ args.size ++ ascii "(" ++ args.name ++ ascii ")" ++ args.flag.getD []

/-- `mtdparts add` up to the description in `tmpbuf`, if there is one. -/
def addDesc (mtdids : List NamedIds) (args : AddArgs) : Option (List Byte) := do
  let (type, num) ← mtd_id_parse args.dev
  let id ← id_find mtdids type num
  if (args.len id).toNat ≥ PART_ADD_DESC_MAXLEN then none
  else some (args.desc id)

/-! ## Text in a buffer -/

/-- The pieces that a partition is written in. -/
def NamedPart.pieces (num_parts : BitVec 16) (part_cnt : Nat) (prev_part : Option NamedPart)
    (part : NamedPart) : List (List Byte) :=
  [memsize_format part.size] ++
    (if gap prev_part part then [0x40#8 :: memsize_format part.offset] else []) ++
    (if part.auto_name then [] else [0x28#8 :: (part.name ++ [0x29#8])]) ++
    (if part.ro then [ascii "ro"] else []) ++
    (if num_parts.toNat > part_cnt then [[0x2c#8]] else [])

/-- The pieces of the partitions of a device. -/
def partsPieces (num_parts : BitVec 16) : Nat → Option NamedPart → List NamedPart →
    List (List Byte)
  | _, _, [] => []
  | part_cnt, prev_part, part :: parts =>
      part.pieces num_parts (part_cnt + 1) prev_part ++
        partsPieces num_parts (part_cnt + 1) (some part) parts

/-- The pieces of the text of the devices. -/
def devicesPieces : List NamedDevice → List (List Byte)
  | [] => []
  | dev :: devices =>
      [dev.id.mtd_id ++ [0x3a#8]] ++ partsPieces (BitVec.ofNat 16 dev.parts.length) 0 none dev.parts ++
        (if devices.isEmpty then [] else [[0x3b#8]]) ++ devicesPieces devices

/-- The length of the first pieces. -/
def lengthOf (pieces : List (List Byte)) (n : Nat) : Nat := (pieces.take n).flatten.length

theorem putPart_eq (num_parts : BitVec 16) (part_cnt : Nat) (prev_part : Option NamedPart)
    (part : NamedPart) (s : Out) :
    putPart num_parts part_cnt prev_part part s =
      (part.pieces num_parts part_cnt prev_part).foldlM Out.put s := by
  simp only [putPart, NamedPart.pieces, List.foldlM_append, List.foldlM_cons, List.foldlM_nil]
  split_ifs <;> simp

theorem putParts_eq (num_parts : BitVec 16) (part_cnt : Nat) (prev_part : Option NamedPart)
    (parts : List NamedPart) (s : Out) :
    putParts num_parts part_cnt prev_part parts s =
      (partsPieces num_parts part_cnt prev_part parts).foldlM Out.put s := by
  induction parts generalizing part_cnt prev_part s with
  | nil => rfl
  | cons part parts ih =>
      rw [putParts, partsPieces, List.foldlM_append, putPart_eq]
      apply bind_congr
      intro s'
      exact ih _ _ _

/-- The loops write the pieces one after the other. -/
theorem putDevices_eq (devices : List NamedDevice) (s : Out) :
    putDevices devices s = (devicesPieces devices).foldlM Out.put s := by
  induction devices generalizing s with
  | nil => rfl
  | cons dev devices ih =>
      simp only [putDevices, devicesPieces, List.foldlM_append, List.foldlM_cons, List.foldlM_nil,
        bind_pure, bind_assoc, putParts_eq, ih]
      split_ifs <;> simp

theorem lengthOf_mono (pieces : List (List Byte)) {m n : Nat} (h : m ≤ n) :
    lengthOf pieces m ≤ lengthOf pieces n := by
  apply List.Sublist.length_le
  apply List.Sublist.flatten
  exact (List.take_prefix_take_left h).sublist

theorem lengthOf_cons_succ (piece : List Byte) (pieces : List (List Byte)) (n : Nat) :
    lengthOf (piece :: pieces) (n + 1) = piece.length + lengthOf pieces n := by
  simp [lengthOf]

/-- The pieces that fit are written up to the first that does not. -/
theorem putAll_error {pieces : List (List Byte)} {s s' : Out}
    (h : pieces.foldlM Out.put s = .error s') :
    ∃ n, lengthOf pieces n ≤ s.maxlen ∧ s.maxlen < lengthOf pieces (n + 1) ∧
      s'.buf.length = s.buf.length + lengthOf pieces n := by
  induction pieces generalizing s with
  | nil => cases h
  | cons piece pieces ih =>
      rw [List.foldlM_cons, Out.put] at h
      by_cases hfit : piece.length > s.maxlen
      · rw [if_pos hfit] at h
        cases h
        apply Exists.intro 0
        rw [lengthOf_cons_succ]
        simp only [lengthOf, List.take_zero, List.flatten_nil, List.length_nil]
        omega
      · rw [if_neg hfit] at h
        obtain ⟨n, hle, hlt, hlength⟩ := ih h
        apply Exists.intro (n + 1)
        rw [lengthOf_cons_succ, lengthOf_cons_succ]
        simp only [List.length_append] at hle hlt hlength
        omega

/-- When nothing is left out, everything fits. -/
theorem putAll_ok {pieces : List (List Byte)} {s s' : Out}
    (h : pieces.foldlM Out.put s = .ok s') :
    pieces.flatten.length ≤ s.maxlen ∧ s'.buf = s.buf ++ pieces.flatten := by
  induction pieces generalizing s with
  | nil =>
      cases h
      simp
  | cons piece pieces ih =>
      rw [List.foldlM_cons, Out.put] at h
      by_cases hfit : piece.length > s.maxlen
      · rw [if_pos hfit] at h
        cases h
      · rw [if_neg hfit] at h
        obtain ⟨hle, hbuf⟩ := ih h
        dsimp only at hle
        rw [hbuf, List.flatten_cons, List.length_append, List.append_assoc]
        exact ⟨by omega, rfl⟩

theorem lengthOf_le_flatten (pieces : List (List Byte)) (n : Nat) :
    lengthOf pieces n ≤ pieces.flatten.length := by
  have h := lengthOf_mono pieces (Nat.le_max_left n pieces.length)
  rwa [lengthOf, lengthOf, List.take_of_length_le (Nat.le_max_right n pieces.length)] at h

/-- The size of the whole text with its NUL. -/
def fullSize (devices : List NamedDevice) : Nat :=
  if devices.isEmpty then 1 else 9 + (devicesPieces devices).flatten.length + 1

/-- A buffer is not left, and a text that does not fit is not written. -/
def StaysIn (buflen : U32) (devices : List NamedDevice) : Prop :=
  (generate devices buflen).touched ≤ buflen.toNat ∧
    (buflen.toNat < fullSize devices → (generate devices buflen).rc = 1)

/-- The text has room behind `mtdparts=`, where it ends or is given up: no first pieces of it
reach into the last nine bytes, nor does all of it with its NUL. -/
def RoomBehindPrefix (buflen : U32) (devices : List NamedDevice) : Prop :=
  if devices.isEmpty then 1 ≤ buflen.toNat
  else
    10 ≤ buflen.toNat ∧
      (∀ n, lengthOf (devicesPieces devices) n ∉
        Set.Ico (buflen.toNat - 8) buflen.toNat) ∧
      (devicesPieces devices).flatten.length ≠ buflen.toNat - 9

theorem staysIn_iff (buflen : U32) (devices : List NamedDevice) :
    StaysIn buflen devices ↔ RoomBehindPrefix buflen devices := by
  simp only [StaysIn, RoomBehindPrefix, generate, fullSize, putDevices_eq, Set.mem_Ico]
  by_cases hempty : devices.isEmpty
  · simp only [if_pos hempty]
    omega
  · simp only [if_neg hempty]
    by_cases hten : 10 ≤ buflen.toNat
    · have hmax : (buflen - 1#32).toNat = buflen.toNat - 1 := by
        have := buflen.isLt
        rw [BitVec.toNat_sub]
        simp only [BitVec.toNat_ofNat]
        omega
      have hprefix : (ascii "mtdparts=").length = 9 := by decide
      cases hput : (devicesPieces devices).foldlM Out.put
          ⟨ascii "mtdparts=", (buflen - 1#32).toNat⟩ with
      | ok s =>
          obtain ⟨hle, hbuf⟩ := putAll_ok hput
          have hall := lengthOf_le_flatten (devicesPieces devices)
          dsimp only at hle hbuf ⊢
          rw [hbuf, List.length_append, hprefix]
          constructor
          · rintro ⟨hlength, -⟩
            apply And.intro hten
            constructor
            · intro n
              have := hall n
              omega
            · omega
          · rintro ⟨-, hnone, hwhole⟩
            have := hnone (devicesPieces devices).length
            rw [lengthOf, List.take_length] at this
            omega
      | error s =>
          obtain ⟨n, hle, hlt, hlength⟩ := putAll_error hput
          have hall := lengthOf_le_flatten (devicesPieces devices) (n + 1)
          dsimp only at hle hlt hlength ⊢
          rw [hlength, hprefix]
          constructor
          · rintro ⟨hmax', -⟩
            apply And.intro hten
            constructor
            · intro m
              rcases Nat.lt_or_ge n m with h | h
              · have := lengthOf_mono (devicesPieces devices) (show n + 1 ≤ m from h)
                omega
              · have := lengthOf_mono (devicesPieces devices) h
                omega
            · omega
          · rintro ⟨-, hnone, -⟩
            have := hnone n
            omega
    · constructor
      · rintro ⟨htouched, -⟩
        exfalso
        split at htouched
        · next s hput =>
            obtain ⟨-, hbuf⟩ := putAll_ok hput
            dsimp only at htouched hbuf
            rw [hbuf, List.length_append, show (ascii "mtdparts=").length = 9 by decide] at htouched
            omega
        · dsimp only at htouched
          omega
      · rintro ⟨h, -⟩
        exact absurd h hten

/-! ## The text -/

theorem flatten_partsPieces (num_parts : BitVec 16) (part_cnt : Nat) (prev_part : Option NamedPart)
    (parts : List NamedPart) (hcount : num_parts.toNat = part_cnt + parts.length) :
    (partsPieces num_parts part_cnt prev_part parts).flatten = partsText prev_part parts := by
  induction parts generalizing part_cnt prev_part with
  | nil => rfl
  | cons part parts ih =>
      rw [List.length_cons] at hcount
      have htext : (part.pieces num_parts (part_cnt + 1) prev_part).flatten =
          part.text prev_part ++ if parts = [] then [] else [0x2c#8] := by
        have hcomma : num_parts.toNat > part_cnt + 1 ↔ parts ≠ [] := by
          rw [← List.length_pos_iff]
          omega
        simp only [NamedPart.pieces, NamedPart.text, hcomma]
        split_ifs <;> simp_all
      rw [partsPieces, List.flatten_append, htext, ih (part_cnt + 1) (some part) (by omega)]
      cases parts with
      | nil => simp [partsText]
      | cons next parts => simp [partsText]

theorem flatten_devicesPieces (devices : List NamedDevice)
    (hcount : ∀ dev ∈ devices, dev.parts.length < 2 ^ 16) :
    (devicesPieces devices).flatten = devicesText devices := by
  induction devices with
  | nil => rfl
  | cons dev devices ih =>
      have hparts : (BitVec.ofNat 16 dev.parts.length).toNat = 0 + dev.parts.length := by
        have := hcount dev List.mem_cons_self
        rw [BitVec.toNat_ofNat]
        omega
      have hrest := ih fun d hd => hcount d (List.mem_cons_of_mem _ hd)
      cases devices with
      | nil => simp [devicesPieces, devicesText, NamedDevice.text, flatten_partsPieces _ _ _ _ hparts]
      | cons next devices =>
          rw [devicesPieces]
          simp only [List.flatten_append, hrest, flatten_partsPieces _ _ _ _ hparts]
          simp [devicesText, NamedDevice.text]

/-- Where it succeeds, it leaves the text of the devices. -/
theorem generate_text (devices : List NamedDevice) (buflen : U32)
    (hcount : ∀ dev ∈ devices, dev.parts.length < 2 ^ 16) :
    generate_mtdparts devices buflen =
      if (generate devices buflen).rc = 0 then some (generate devices buflen).text else none := by
  rw [generate_mtdparts, generate, ← flatten_devicesPieces devices hcount, putDevices_eq]
  by_cases hempty : devices.isEmpty
  · simp only [if_pos hempty]
    rfl
  · simp only [if_neg hempty]
    cases hput : (devicesPieces devices).foldlM Out.put
        ⟨ascii "mtdparts=", (buflen - 1#32).toNat⟩ with
    | ok s =>
        obtain ⟨hle, hbuf⟩ := putAll_ok hput
        simp only [if_pos hle, hbuf]
        rfl
    | error s =>
        obtain ⟨n, -, hlt, -⟩ := putAll_error hput
        have hall := lengthOf_le_flatten (devicesPieces devices) (n + 1)
        rw [if_neg (Nat.not_le_of_lt (Nat.lt_of_lt_of_le hlt hall))]
        rfl

/-! ## A description in a buffer -/

/-- The length of a description without its flag. -/
def AddArgs.base (args : AddArgs) (id : NamedIds) : Nat :=
  id.mtd_id.length + args.size.length + args.name.length + 3

/-- The length of the flag, which may be none. -/
def AddArgs.flagLength (args : AddArgs) : Nat := (args.flag.getD []).length

/-- The flag, when it is counted. -/
def AddArgs.counted (args : AddArgs) : Nat := if args.flagLength = 2 then 2 else 0

/-- The length that is counted is long enough to be refused in eight bits too when it is, and a
flag that is not counted has room. -/
def AddArgs.Counts (args : AddArgs) (id : NamedIds) : Prop :=
  if args.base id + args.counted < PART_ADD_DESC_MAXLEN then
    args.flagLength = 2 ∨ args.base id + args.flagLength < PART_ADD_DESC_MAXLEN
  else PART_ADD_DESC_MAXLEN ≤ (args.base id + args.counted) % 256

theorem AddArgs.counted_cases (args : AddArgs) :
    args.flagLength = 2 ∧ args.counted = 2 ∨ args.flagLength ≠ 2 ∧ args.counted = 0 := by
  rw [AddArgs.counted]
  split <;> simp_all

theorem AddArgs.len_toNat (args : AddArgs) (id : NamedIds) :
    (args.len id).toNat = (args.base id + args.counted) % 256 := by
  have hflag : (args.flag.map List.length = some 2) ↔ args.flagLength = 2 := by
    rw [AddArgs.flagLength]
    cases args.flag <;> simp
  simp only [AddArgs.len, AddArgs.counted, AddArgs.base, hflag]
  split_ifs <;> simp only [BitVec.toNat_add, BitVec.toNat_ofNat] <;> omega

theorem AddArgs.length_desc (args : AddArgs) (id : NamedIds) :
    (args.desc id).length = args.base id + args.flagLength := by
  simp [AddArgs.desc, AddArgs.base, AddArgs.flagLength, ascii]
  omega

/-- The device that is added to. -/
def addDevice (mtdids : List NamedIds) (args : AddArgs) : Option NamedIds := do
  let (type, num) ← mtd_id_parse args.dev
  id_find mtdids type num

theorem addDesc_eq (mtdids : List NamedIds) (args : AddArgs) :
    addDesc mtdids args = (addDevice mtdids args).bind fun id =>
      if (args.len id).toNat ≥ PART_ADD_DESC_MAXLEN then none else some (args.desc id) := by
  rw [addDesc, addDevice]
  cases mtd_id_parse args.dev <;> rfl

theorem addDesc_fits_iff (mtdids : List NamedIds) (args : AddArgs) :
    (∀ desc, addDesc mtdids args = some desc → desc.length + 1 ≤ PART_ADD_DESC_MAXLEN) ↔
      ∀ id, addDevice mtdids args = some id → args.Counts id := by
  rw [addDesc_eq]
  cases addDevice mtdids args with
  | none => simp
  | some id =>
      simp only [Option.bind_some, Option.some.injEq, forall_eq', AddArgs.len_toNat,
        AddArgs.Counts]
      have hcounted := args.counted_cases
      by_cases hrefused : (args.base id + args.counted) % 256 ≥ PART_ADD_DESC_MAXLEN
      · simp only [if_pos hrefused, reduceCtorEq, false_implies, implies_true, true_iff]
        split <;> simp only [PART_ADD_DESC_MAXLEN] at * <;> omega
      · simp only [if_neg hrefused, Option.some.injEq, forall_eq', AddArgs.length_desc]
        split <;> simp only [PART_ADD_DESC_MAXLEN] at * <;> omega

/-- `generate_mtdparts` stays in its buffer, and gives up a text that does not fit, exactly when
the text has room behind `mtdparts=`; the description of `mtdparts add` fits, or is refused,
exactly when its length in eight bits counts it. -/
theorem mtdparts_buffers (mtdids : List NamedIds) (devices : List NamedDevice) (buflen : U32)
    (args : AddArgs) :
    (StaysIn buflen devices ↔ RoomBehindPrefix buflen devices) ∧
      ((∀ desc, addDesc mtdids args = some desc → desc.length + 1 ≤ PART_ADD_DESC_MAXLEN) ↔
        ∀ id, addDevice mtdids args = some id → args.Counts id) :=
  ⟨staysIn_iff buflen devices, addDesc_fits_iff mtdids args⟩

/-- Neither is so in general: the text `a:1g` has its last two bytes behind a buffer of 12, and a
flag of 61 characters is not counted. -/
theorem not_mtdparts_buffers :
    (¬ ∀ (buflen : U32) (devices : List NamedDevice), StaysIn buflen devices) ∧
      ¬ ∀ (mtdids : List NamedIds) (args : AddArgs) (desc : List Byte),
        addDesc mtdids args = some desc → desc.length + 1 ≤ PART_ADD_DESC_MAXLEN := by
  constructor
  · intro h
    have hroom := (h 12#32 [⟨⟨1#8, 0#8, ascii "a", ⟨0x40000000#32, none⟩⟩,
      [⟨0x40000000#32, 0#32, [], true, false⟩]⟩]).1
    exact absurd hroom (by decide)
  · intro h
    have hdesc := h [⟨1#8, 0#8, ascii "a", ⟨0x40000000#32, none⟩⟩]
      ⟨ascii "nor0", ascii "4k", ascii "b", some (List.replicate 61 0x72#8)⟩
      (ascii "a:4k(b)" ++ List.replicate 61 0x72#8) (by decide)
    exact absurd hdesc (by decide)

end UBoot.Mtd
