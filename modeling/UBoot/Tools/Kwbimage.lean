/-
# Kirkwood boot images

`tools/kwbimage.c` with the parts of `tools/mkimage.c` that call it: a header is written in front of
the data, the configuration file is parsed into the extended header, and there are three checksums.
The file that is made is a mapping, as long as its size says. What the parser stores behind its
array is stored in the mapping. The machine has its low byte first.
-/

import Mathlib.Data.BitVec
import UBoot.Lib.Records
import UBoot.LibGeneric.Strtoul

namespace UBoot.Kwbimage

open UBoot.Lib

abbrev U32 := BitVec 32

/-- A word of a line. -/
abbrev Token := List Byte

/-! ## Tables -/

def CMD_INVALID : Int := 0
def CMD_BOOT_FROM : Int := 1
def CMD_NAND_ECC_MODE : Int := 2
def CMD_NAND_PAGE_SIZE : Int := 3
def CMD_SATA_PIO_MODE : Int := 4
def CMD_DDR_INIT_DELAY : Int := 5
def CMD_DATA : Int := 6

/-- The entries of a table from its begin to one with a negative id, which none has. -/
abbrev Table := List (Int × Token)

/-- The mark at the end has the id 0. -/
def kwbimage_cmds : Table := [(CMD_BOOT_FROM, ascii "BOOT_FROM"),
  (CMD_NAND_ECC_MODE, ascii "NAND_ECC_MODE"), (CMD_NAND_PAGE_SIZE, ascii "NAND_PAGE_SIZE"),
  (CMD_SATA_PIO_MODE, ascii "SATA_PIO_MODE"), (CMD_DDR_INIT_DELAY, ascii "DDR_INIT_DELAY"),
  (CMD_DATA, ascii "DATA"), (CMD_INVALID, [])]

def kwbimage_bootops : Table := [(0x5A, ascii "spi"), (0x8B, ascii "nand"), (0x78, ascii "sata"),
  (0x9C, ascii "pex"), (0x69, ascii "uart")]

def kwbimage_eccmodes : Table := [(0x00, ascii "default"), (0x01, ascii "hamming"),
  (0x02, ascii "rs"), (0x03, ascii "disabled")]

def tolower (c : Byte) : Byte := if 0x41#8 ≤ c ∧ c ≤ 0x5A#8 then c + 0x20#8 else c

/-- `strcasecmp`: whether the strings are the same. -/
def strcasecmp (s t : Token) : Bool := s.map tolower = t.map tolower

/-- The first entry of a name. -/
def Table.find (table : Table) (name : Token) : Option Int :=
  (List.find? (fun t => strcasecmp t.2 name) table).map Prod.fst

/-- The C library, and the memory behind `kwbimage_cmds`, where a search for a name that is not in
the table goes on: no command has such an id. -/
structure Host where
  /-- `sscanf (token, "%x", &hexval)`, if something is converted -/
  sscanf : Token → Option U32
  behind : Token → Int
  behind_ne : ∀ name, behind name < CMD_BOOT_FROM ∨ CMD_DATA < behind name

variable (host : Host)

/-- `get_table_entry_id` of a table with its end, and of the commands. -/
def get_table_entry_id (table : Table) (name : Token) : Int := (table.find name).getD (-1)
def get_command_id (name : Token) : Int := (kwbimage_cmds.find name).getD (host.behind name)

/-! ## The configuration file -/

/-- `sizeof(bhr_t)`, and the extended header with the place of its array. -/
def bhr_t : Nat := 32
def extbhr_t : Nat := 480
def kwb_header : Nat := bhr_t + extbhr_t
def KWBIMAGE_MAX_CONFIG : Nat := 55
def rcfg : Nat := bhr_t + 32

/-- The mapping, and the number of entries in the array. -/
structure Header where
  ptr : Nat → Byte
  datacmd_cnt : Nat

/-- Bytes are stored in the mapping. -/
def Header.put (hdr : Header) (offset : Nat) (bytes : List Byte) : Header :=
  { hdr with ptr := store hdr.ptr offset bytes }

/-- The bytes of a half word. -/
def bytesOf16 (w : BitVec 16) : List Byte := [w.extractLsb' 0 8, w.extractLsb' 8 8]

/-- `check_get_hexval` and `kwbimage_check_cfgdata`; nothing where the program ends. -/
def kwbimage_check_cfgdata (token : Token) (cmdsw : Int) (hdr : Header) : Option Header :=
  if cmdsw = CMD_BOOT_FROM then
    let i := get_table_entry_id kwbimage_bootops token
    if i < 0 then none else some (hdr.put 0 [BitVec.ofInt 8 i])
  else if cmdsw = CMD_NAND_ECC_MODE then
    let i := get_table_entry_id kwbimage_eccmodes token
    if i < 0 then none else some (hdr.put 1 [BitVec.ofInt 8 i])
  else if cmdsw = CMD_NAND_PAGE_SIZE then
    (host.sscanf token).map fun hexval => hdr.put 2 (bytesOf16 (hexval.setWidth 16))
  else if cmdsw = CMD_SATA_PIO_MODE then
    (host.sscanf token).map fun hexval => hdr.put 24 [hexval.setWidth 8]
  else if cmdsw = CMD_DDR_INIT_DELAY then
    (host.sscanf token).map fun hexval => hdr.put 26 (bytesOf16 (hexval.setWidth 16))
  else if cmdsw = CMD_DATA then
    (host.sscanf token).map fun hexval => hdr.put (rcfg + 8 * hdr.datacmd_cnt) (bytesOf hexval)
  else none

/-- Within a line: the number of the word, and the command. -/
structure Line where
  j : Nat
  cmd : Int
  hdr : Header

/-- The second word of `DATA`. The limit is looked at behind the store. -/
def setData (token : Token) (hdr : Header) : Option Header := do
  let rdata ← host.sscanf token
  let hdr := hdr.put (rcfg + 8 * hdr.datacmd_cnt + 4) (bytesOf rdata)
  if hdr.datacmd_cnt > KWBIMAGE_MAX_CONFIG then none
  else some { hdr with datacmd_cnt := hdr.datacmd_cnt + 1 }

/-- What is done with a word. -/
def configToken (line : Line) (token : Token) : Option Line :=
  match line.j with
  | 0 =>
      let cmd := get_command_id host token
      if cmd = CMD_INVALID then none else some ⟨1, cmd, line.hdr⟩
  | 1 =>
      (kwbimage_check_cfgdata host token line.cmd line.hdr).map fun hdr => ⟨2, line.cmd, hdr⟩
  | 2 =>
      if line.cmd ≠ CMD_DATA then none
      else (setData host token line.hdr).map fun hdr => ⟨3, line.cmd, hdr⟩
  | _ => none

/-- The words that the calls of `strtok_r` return. -/
def strtok_r (delims s : List Byte) : List Token := (s.splitOnP (· ∈ delims)).filter (· ≠ [])

/-- The words of a line in front of a comment; the line ends at a NUL, or behind `\r`. -/
def lineTokens (line : List Byte) : List Token :=
  match strtok_r [0x0D#8, 0x0A#8] (line.takeWhile (· ≠ 0#8)) with
  | [] => []
  | token :: _ => (strtok_r [0x20#8, 0x09#8] token).takeWhile fun token => token.head? ≠ some 0x23#8

/-- What is done with a line. -/
def configLine (hdr : Header) (line : List Byte) : Option Header :=
  ((lineTokens line).foldlM (configToken host) ⟨0, CMD_INVALID, hdr⟩).map Line.hdr

/-- The lines that `getline` returns, without their ends. -/
def fileLines (file : List Byte) : List (List Byte) := file.splitOn 0x0A#8

/-- `kwdimage_set_ext_header` -/
def kwdimage_set_ext_header (file : List Byte) (ptr : Nat → Byte) : Option Header :=
  (fileLines file).foldlM (configLine host) ⟨store ptr bhr_t (bytesOf (BitVec.ofNat 32 rcfg)), 0⟩

/-! ## Images -/

def kwbimage_checksum8 (ptr : Nat → Byte) (start len : Nat) (csum : Byte) : Byte :=
  if len = 0 then 0 else (slice ptr start len).foldl (· + ·) csum

/-- With a length that is no multiple of a word there is a message only. -/
def kwbimage_checksum32 (ptr : Nat → Byte) (start len : Nat) (csum : U32) : U32 :=
  if len = 0 then 0
  else if len % 4 ≠ 0 then 0
  else ((List.range (len / 4)).map fun k => wordAt ptr (start + 4 * k)).foldl (· + ·) csum

/-- The file that is made. -/
structure Image where
  ptr : Nat → Byte
  st_size : Nat

/-- The options, and the file with the configuration. -/
structure Params where
  addr : U32
  ep : U32
  imagename : List Byte

variable (params : Params)

/-- `blocksize`, `srcaddr`, `destaddr`, `execaddr` and `ext` -/
def setMain (st_size : Nat) (ptr : Nat → Byte) : Nat → Byte :=
  let ptr := store ptr 4 (bytesOf (BitVec.ofNat 32 (st_size - kwb_header)))
  let ptr := store ptr 12 (bytesOf (BitVec.ofNat 32 kwb_header))
  let ptr := store ptr 16 (bytesOf params.addr)
  let ptr := store ptr 20 (bytesOf params.ep)
  store ptr 30 [0x1#8]

/-- `kwbimage_set_header` -/
def kwbimage_set_header (image : Image) : Option Image := do
  let checksum := kwbimage_checksum32 image.ptr 0 image.st_size 0
  let ptr := store image.ptr image.st_size (bytesOf checksum)
  let st_size := image.st_size + 4
  let hdr ← kwdimage_set_ext_header host params.imagename (setMain params st_size ptr)
  let ptr := store hdr.ptr 31 [kwbimage_checksum8 hdr.ptr 0 bhr_t 0]
  let ptr := store ptr 511 [kwbimage_checksum8 ptr bhr_t extbhr_t 0]
  return ⟨ptr, st_size⟩

/-- `copy_file`: what is written of the data. An empty file cannot be mapped, and the size is an
`int`: a `write` of so many bytes as a negative one stands for returns -1. -/
def copy_file (datafile : List Byte) : Option (List Byte) :=
  let size := (BitVec.ofNat 32 datafile.length).toInt
  if datafile = [] then none
  else if size = -1 then some []
  else if size < 0 then none
  else some (datafile.take size.toNat)

/-- `mkimage -T kwbimage`; nothing where it exits with an error. -/
def mkimage (datafile : List Byte) : Option Image := do
  let payload ← copy_file datafile
  kwbimage_set_header host params
    ⟨store (fun _ => 0#8) kwb_header payload, kwb_header + payload.length⟩

def FDT_ERR_BADSTRUCTURE : Int := 11

/-- `kwbimage_verify_header`: the checksum of the extended header is not looked at. -/
def kwbimage_verify_header (ptr : Nat → Byte) : Int :=
  let calc_hdrcsum := kwbimage_checksum8 ptr 0 (bhr_t - 1) 0
  if calc_hdrcsum ≠ ptr 31 then -FDT_ERR_BADSTRUCTURE
  else
    let _calc_exthdrcsum := kwbimage_checksum8 ptr bhr_t (extbhr_t - 1) 0
    if calc_hdrcsum ≠ ptr 31 then -FDT_ERR_BADSTRUCTURE else 0

/-! ## What should hold of an image -/

/-- The register and its data, of a complete `DATA` line. -/
def dataOf (line : List Byte) : Option (U32 × U32) :=
  match lineTokens line with
  | [cmd, raddr, rdata] =>
      if strcasecmp (ascii "DATA") cmd then
        (host.sscanf raddr).bind fun raddr => (host.sscanf rdata).map fun rdata => (raddr, rdata)
      else none
  | _ => none

/-- The complete `DATA` lines, in order. -/
def dataLines (file : List Byte) : List (U32 × U32) := (fileLines file).filterMap (dataOf host)

/-- The register of a `DATA` line that ends behind it. -/
def openOf (line : List Byte) : Option U32 :=
  match lineTokens line with
  | [cmd, raddr] => if strcasecmp (ascii "DATA") cmd then host.sscanf raddr else none
  | _ => none

/-- The register that is left behind the complete entries, if any. -/
def leaves (left : Option U32) (line : List Byte) : Option U32 :=
  if (dataOf host line).isSome then none else (openOf host line).or left

def leftOver (file : List Byte) : Option U32 := (fileLines file).foldl (leaves host) none

/-- An entry of the array in the extended header. -/
def Image.entry (image : Image) (k : Nat) : U32 × U32 :=
  (wordAt image.ptr (rcfg + 8 * k), wordAt image.ptr (rcfg + 8 * k + 4))

/-- The bytes between the header and the checksum. -/
def Image.payload (image : Image) : List Byte :=
  slice image.ptr kwb_header (image.st_size - kwb_header - 4)

/-- The sum of the words, the last one filled up with zeros. -/
def wordSum (payload : List Byte) : U32 :=
  ((List.range ((payload.length + 3) / 4)).map fun k => wordAt (payload.getD · 0#8) (4 * k)).sum

/-- The array holds the complete lines, in order, and nothing else. -/
structure Image.EntriesRight (image : Image) : Prop where
  length_le : (dataLines host params.imagename).length ≤ KWBIMAGE_MAX_CONFIG
  entry_eq : ∀ k < KWBIMAGE_MAX_CONFIG,
    image.entry k = (dataLines host params.imagename)[k]?.getD (0, 0)

/-- No image is accepted that differs in the byte at one of these offsets only. -/
def Image.Rejects (image : Image) (offset len : Nat) : Prop :=
  ∀ i, offset ≤ i → i < offset + len → ∀ v ≠ image.ptr i,
    kwbimage_verify_header (Function.update image.ptr i v) ≠ 0

/-- The image has the entries of the configuration and ends with its sum; it is accepted, and none
is that differs in a byte of a header. -/
structure Image.Right (image : Image) : Prop where
  entries : image.EntriesRight host params
  sum : wordAt image.ptr (image.st_size - 4) = wordSum image.payload
  verified : kwbimage_verify_header image.ptr = 0
  main : image.Rejects 0 bhr_t
  ext : image.Rejects bhr_t extbhr_t

/-- Every image that is made is right. -/
def AgreesRight (datafile : List Byte) : Prop :=
  ∀ image, mkimage host params datafile = some image → image.Right host params

/-! ## Parsing -/

/-- A longer piece of memory replaces what was stored at the same place. -/
theorem store_over (m : Nat → Byte) (dst : Nat) (common : List Byte) {first second : List Byte}
    (h : first.length ≤ second.length) :
    store (store m dst (common ++ first)) (dst + common.length) second =
      store m dst (common ++ second) := by
  rw [← store_append, ← store_append]
  funext i
  by_cases hi : dst + common.length ≤ i ∧ i < dst + common.length + second.length
  · obtain ⟨k, rfl⟩ := Nat.exists_eq_add_of_le hi.1
    have hk : k < second.length := by omega
    rw [store_add (List.getElem?_eq_getElem hk), store_add (List.getElem?_eq_getElem hk)]
  · have hfar : i < dst + common.length ∨ dst + common.length + second.length ≤ i := by omega
    rw [store_outside hfar, store_outside hfar, store_outside (by omega)]

theorem store_congr {m m' : Nat → Byte} {i dst : Nat} (src : List Byte) (h : m i = m' i) :
    store m dst src i = store m' dst src i := by
  simp only [store, h]

/-- What is in the array: complete entries, and a register behind them. -/
def layout (entries : List (U32 × U32)) (left : Option U32) : List Byte :=
  entries.flatMap (fun e => bytesOf e.1 ++ bytesOf e.2) ++ (left.map bytesOf).getD []

theorem length_entries (entries : List (U32 × U32)) :
    (entries.flatMap fun e => bytesOf e.1 ++ bytesOf e.2).length = 8 * entries.length := by
  induction entries with
  | nil => rfl
  | cons e entries ih =>
      rw [List.flatMap_cons, List.length_append, ih, List.length_cons, Nat.mul_succ, Nat.add_comm]
      rfl

theorem length_left_le (left : Option U32) : ((left.map bytesOf).getD []).length ≤ 4 := by
  cases left with
  | none => exact Nat.zero_le _
  | some raddr => exact Nat.le_refl _

/-- Behind the entries and a register, the memory is as it was before, and so is the place of the
checksum. -/
structure Parsed (base : Nat → Byte) (hdr : Header) (entries : List (U32 × U32))
    (left : Option U32) : Prop where
  datacmd_cnt_eq : hdr.datacmd_cnt = entries.length
  datacmd_cnt_le : hdr.datacmd_cnt ≤ KWBIMAGE_MAX_CONFIG + 1
  checkSum_eq : hdr.ptr 31 = base 31
  ptr_eq : ∀ i, rcfg ≤ i → hdr.ptr i = store base rcfg (layout entries left) i

section Parsing

variable {host} {base : Nat → Byte} {hdr hdr' : Header} {entries : List (U32 × U32)}
  {left : Option U32}

/-- A store to the fields of the main header. -/
theorem Parsed.put (h : Parsed base hdr entries left) {offset : Nat} {bytes : List Byte}
    (hroom : offset + bytes.length ≤ 31) : Parsed base (hdr.put offset bytes) entries left where
  datacmd_cnt_eq := h.datacmd_cnt_eq
  datacmd_cnt_le := h.datacmd_cnt_le
  checkSum_eq := (store_outside (.inr hroom)).trans h.checkSum_eq
  ptr_eq i hi := by
    rw [rcfg, bhr_t] at hi
    exact (store_outside (by omega)).trans (h.ptr_eq i hi)

/-- The first word of `DATA` stores a register behind the entries. -/
theorem Parsed.putRegister (h : Parsed base hdr entries left) (raddr : U32) :
    Parsed base (hdr.put (rcfg + 8 * hdr.datacmd_cnt) (bytesOf raddr)) entries (some raddr) where
  datacmd_cnt_eq := h.datacmd_cnt_eq
  datacmd_cnt_le := h.datacmd_cnt_le
  checkSum_eq := (store_outside (.inl (by rw [rcfg, bhr_t]; omega))).trans h.checkSum_eq
  ptr_eq i hi := by
    refine (store_congr _ (h.ptr_eq i hi)).trans ?_
    rw [h.datacmd_cnt_eq, ← length_entries, layout, store_over _ _ _ (length_left_le left)]
    rfl

/-- The second word completes the entry. -/
theorem Parsed.putData {raddr rdata : U32} (h : Parsed base hdr entries (some raddr))
    (hmax : ¬hdr.datacmd_cnt > KWBIMAGE_MAX_CONFIG) :
    Parsed base { hdr.put (rcfg + 8 * hdr.datacmd_cnt + 4) (bytesOf rdata) with
      datacmd_cnt := hdr.datacmd_cnt + 1 } (entries ++ [(raddr, rdata)]) none where
  datacmd_cnt_eq := by rw [List.length_append, h.datacmd_cnt_eq]; rfl
  datacmd_cnt_le := Nat.succ_le_succ (Nat.le_of_not_lt hmax)
  checkSum_eq := (store_outside (.inl (by rw [rcfg, bhr_t]; omega))).trans h.checkSum_eq
  ptr_eq i hi := by
    refine (store_congr _ (h.ptr_eq i hi)).trans ?_
    have hlen : (layout entries (some raddr)).length = 8 * hdr.datacmd_cnt + 4 := by
      rw [layout, List.length_append, length_entries, h.datacmd_cnt_eq]
      rfl
    rw [Nat.add_assoc, ← hlen, store_append]
    simp [layout]

/-- `DATA` is found under its name only, in upper or lower case. -/
theorem get_command_id_eq_data (name : Token) :
    get_command_id host name = CMD_DATA ↔ strcasecmp (ascii "DATA") name = true := by
  have hbehind : host.behind name ≠ 6 := fun h => by
    have := host.behind_ne name
    rw [h] at this
    exact absurd this (by decide)
  unfold get_command_id Table.find kwbimage_cmds strcasecmp
  generalize name.map tolower = lower
  by_cases hdata : (ascii "DATA").map tolower = lower
  · subst hdata
    exact iff_of_true rfl (by decide)
  · simp only [List.find?_cons, List.find?_nil, hdata, decide_false]
    repeat' split
    all_goals simp [hbehind, CMD_DATA, CMD_BOOT_FROM, CMD_NAND_ECC_MODE, CMD_NAND_PAGE_SIZE,
      CMD_SATA_PIO_MODE, CMD_DDR_INIT_DELAY, CMD_INVALID]

/-- The second word of another command is stored in the main header. -/
theorem Parsed.check_cfgdata (h : Parsed base hdr entries left) {token : Token} {cmd : Int}
    (hcmd : cmd ≠ CMD_DATA) (hcheck : kwbimage_check_cfgdata host token cmd hdr = some hdr') :
    Parsed base hdr' entries left := by
  unfold kwbimage_check_cfgdata at hcheck
  split at hcheck
  · dsimp only at hcheck
    split at hcheck
    · cases hcheck
    · cases hcheck
      exact h.put (by simp)
  split at hcheck
  · dsimp only at hcheck
    split at hcheck
    · cases hcheck
    · cases hcheck
      exact h.put (by simp)
  split at hcheck
  · obtain ⟨hexval, -, rfl⟩ := Option.map_eq_some_iff.mp hcheck
    exact h.put (by simp [bytesOf16])
  split at hcheck
  · obtain ⟨hexval, -, rfl⟩ := Option.map_eq_some_iff.mp hcheck
    exact h.put (by simp)
  split at hcheck
  · obtain ⟨hexval, -, rfl⟩ := Option.map_eq_some_iff.mp hcheck
    exact h.put (by simp [bytesOf16])
  · cases hcheck

/-- That of `DATA` is a register. -/
theorem check_cfgdata_data {token : Token}
    (hcheck : kwbimage_check_cfgdata host token CMD_DATA hdr = some hdr') :
    ∃ raddr, host.sscanf token = some raddr ∧
      hdr' = hdr.put (rcfg + 8 * hdr.datacmd_cnt) (bytesOf raddr) := by
  obtain ⟨raddr, hraddr, rfl⟩ := Option.map_eq_some_iff.mp hcheck
  exact ⟨raddr, hraddr, rfl⟩

/-- The first word of a line is a command. -/
theorem configToken_command {cmd : Token} {line : Line}
    (h : configToken host ⟨0, CMD_INVALID, hdr⟩ cmd = some line) :
    line = ⟨1, get_command_id host cmd, hdr⟩ := by
  simp only [configToken] at h
  split at h
  · cases h
  · exact (Option.some.inj h).symm

/-- The second one is its value. -/
theorem configToken_value {id : Int} {value : Token} {line : Line}
    (h : configToken host ⟨1, id, hdr⟩ value = some line) :
    ∃ hdr', kwbimage_check_cfgdata host value id hdr = some hdr' ∧ line = ⟨2, id, hdr'⟩ := by
  obtain ⟨hdr', hcheck, hline⟩ := Option.map_eq_some_iff.mp h
  exact ⟨hdr', hcheck, hline.symm⟩

/-- A third one is data. -/
theorem configToken_data {id : Int} {value : Token} {line : Line}
    (h : configToken host ⟨2, id, hdr⟩ value = some line) :
    id = CMD_DATA ∧ ¬hdr.datacmd_cnt > KWBIMAGE_MAX_CONFIG ∧
      ∃ rdata, host.sscanf value = some rdata ∧
        line = ⟨3, id, { hdr.put (rcfg + 8 * hdr.datacmd_cnt + 4) (bytesOf rdata) with
          datacmd_cnt := hdr.datacmd_cnt + 1 }⟩ := by
  simp only [configToken] at h
  split at h
  · cases h
  · next hid =>
      obtain ⟨hdr', hset, rfl⟩ := Option.map_eq_some_iff.mp h
      obtain ⟨rdata, hrdata, hset⟩ := Option.bind_eq_some_iff.mp hset
      dsimp only at hset
      split at hset
      · cases hset
      · next hmax =>
          cases hset
          exact ⟨not_not.mp hid, hmax, rdata, hrdata, rfl⟩

/-- What a line does: a complete `DATA` line is one more entry, and another one may leave a register
behind the entries. -/
theorem Parsed.line (h : Parsed base hdr entries left) {line : List Byte}
    (hline : configLine host hdr line = some hdr') :
    Parsed base hdr' (entries ++ (dataOf host line).toList) (leaves host left line) := by
  obtain ⟨last, hlast, rfl⟩ := Option.map_eq_some_iff.mp hline
  unfold leaves dataOf openOf
  generalize lineTokens line = tokens at hlast
  match tokens, hlast with
  | [], hlast =>
      cases hlast
      simpa using h
  | [cmd], hlast =>
      obtain ⟨_, hcmd, hlast⟩ := Option.bind_eq_some_iff.mp hlast
      cases hlast
      rw [configToken_command hcmd]
      simpa using h
  | [cmd, raddr], hlast =>
      obtain ⟨_, hcmd, hlast⟩ := Option.bind_eq_some_iff.mp hlast
      obtain ⟨_, hvalue, hlast⟩ := Option.bind_eq_some_iff.mp hlast
      cases hlast
      rw [configToken_command hcmd] at hvalue
      obtain ⟨hdr', hcheck, rfl⟩ := configToken_value hvalue
      by_cases hid : get_command_id host cmd = CMD_DATA
      · rw [hid] at hcheck
        obtain ⟨w, hw, rfl⟩ := check_cfgdata_data hcheck
        simpa [(get_command_id_eq_data cmd).mp hid, hw] using h.putRegister w
      · have hname := mt (get_command_id_eq_data cmd).mpr hid
        simpa [hname] using h.check_cfgdata hid hcheck
  | [cmd, raddr, rdata], hlast =>
      obtain ⟨_, hcmd, hlast⟩ := Option.bind_eq_some_iff.mp hlast
      obtain ⟨_, hvalue, hlast⟩ := Option.bind_eq_some_iff.mp hlast
      obtain ⟨_, hdata, hlast⟩ := Option.bind_eq_some_iff.mp hlast
      cases hlast
      rw [configToken_command hcmd] at hvalue
      obtain ⟨hdr', hcheck, rfl⟩ := configToken_value hvalue
      obtain ⟨hid, hmax, w', hw', rfl⟩ := configToken_data hdata
      rw [hid] at hcheck
      obtain ⟨w, hw, rfl⟩ := check_cfgdata_data hcheck
      simpa [(get_command_id_eq_data cmd).mp hid, hw, hw'] using (h.putRegister w).putData hmax
  | cmd :: raddr :: rdata :: more :: rest, hlast =>
      obtain ⟨_, hcmd, hlast⟩ := Option.bind_eq_some_iff.mp hlast
      obtain ⟨_, hvalue, hlast⟩ := Option.bind_eq_some_iff.mp hlast
      obtain ⟨_, hdata, hlast⟩ := Option.bind_eq_some_iff.mp hlast
      obtain ⟨_, hmore, -⟩ := Option.bind_eq_some_iff.mp hlast
      rw [configToken_command hcmd] at hvalue
      obtain ⟨hdr', -, rfl⟩ := configToken_value hvalue
      obtain ⟨-, -, w', -, rfl⟩ := configToken_data hdata
      cases hmore

/-- What all lines do. -/
theorem Parsed.lines (lines : List (List Byte)) (h : Parsed base hdr entries left)
    (hlines : lines.foldlM (configLine host) hdr = some hdr') :
    Parsed base hdr' (entries ++ lines.filterMap (dataOf host))
      (lines.foldl (leaves host) left) := by
  induction lines generalizing hdr entries left with
  | nil =>
      cases hlines
      simpa using h
  | cons line lines ih =>
      obtain ⟨hdr₁, hline, hlines⟩ := Option.bind_eq_some_iff.mp hlines
      have hrest := ih (h.line hline) hlines
      rw [List.append_assoc] at hrest
      rw [List.foldl_cons]
      cases hdata : dataOf host line with
      | none => simpa [List.filterMap_cons, hdata] using hrest
      | some e => simpa [List.filterMap_cons, hdata] using hrest

end Parsing

/-! ## Checksums -/

theorem checksum8_eq (ptr : Nat → Byte) {start len : Nat} (hlen : len ≠ 0) :
    kwbimage_checksum8 ptr start len 0 = (slice ptr start len).sum := by
  rw [kwbimage_checksum8, if_neg hlen]
  exact List.sum_eq_foldl.symm

/-- A header is accepted if the sum of its bytes is the last one. -/
theorem verify_header_iff (ptr : Nat → Byte) :
    kwbimage_verify_header ptr = 0 ↔ (slice ptr 0 31).sum = ptr 31 := by
  rw [kwbimage_verify_header, checksum8_eq _ (by decide), bhr_t]
  by_cases h : (slice ptr 0 31).sum = ptr 31
  · simp [h]
  · simp [h, FDT_ERR_BADSTRUCTURE]

theorem sum_slice_succ (m : Nat → Byte) (n : Nat) :
    (slice m 0 (n + 1)).sum = (slice m 0 n).sum + m n := by
  rw [slice_append, List.sum_append, Nat.zero_add]
  simp [slice]

/-- A byte that changes changes the sum. -/
theorem sum_slice_update (m : Nat → Byte) {i n : Nat} (hi : i < n) (v : Byte) :
    (slice (Function.update m i v) 0 n).sum + m i = (slice m 0 n).sum + v := by
  induction n with
  | zero => exact absurd hi (Nat.not_lt_zero i)
  | succ n ih =>
      rw [sum_slice_succ, sum_slice_succ]
      rcases Nat.eq_or_lt_of_le (Nat.le_of_lt_succ hi) with rfl | hlt
      · have hsame : slice (Function.update m i v) 0 i = slice m 0 i :=
          slice_congr fun k _ hk => Function.update_of_ne (by omega) _ _
        rw [hsame, Function.update_self, add_right_comm]
      · rw [Function.update_of_ne (Nat.ne_of_gt hlt), add_right_comm, ih hlt, add_right_comm]

/-- In an accepted header no byte can be changed alone. -/
theorem rejects_main {ptr : Nat → Byte} (hverified : kwbimage_verify_header ptr = 0) (st_size : Nat) :
    Image.Rejects ⟨ptr, st_size⟩ 0 bhr_t := by
  intro i _ hi v hv
  rw [Nat.zero_add, bhr_t] at hi
  rw [verify_header_iff] at hverified
  rw [Ne, verify_header_iff]
  intro hupdated
  rcases Nat.eq_or_lt_of_le (Nat.le_of_lt_succ hi) with rfl | hlt
  · have hsame : slice (Function.update ptr 31 v) 0 31 = slice ptr 0 31 :=
      slice_congr fun k _ hk => Function.update_of_ne (by omega) _ _
    rw [hsame, Function.update_self, hverified] at hupdated
    exact hv hupdated.symm
  · have hsum := sum_slice_update ptr hlt v
    rw [hupdated, Function.update_of_ne (Nat.ne_of_gt hlt), hverified] at hsum
    exact hv (add_left_cancel hsum).symm

/-- What is behind the main header is not looked at. -/
theorem verify_header_update (ptr : Nat → Byte) {i : Nat} (hi : bhr_t ≤ i) (v : Byte) :
    kwbimage_verify_header (Function.update ptr i v) = 0 ↔ kwbimage_verify_header ptr = 0 := by
  rw [bhr_t] at hi
  have hsame : slice (Function.update ptr i v) 0 31 = slice ptr 0 31 :=
    slice_congr fun k _ hk => Function.update_of_ne (by omega) _ _
  rw [verify_header_iff, verify_header_iff, hsame, Function.update_of_ne (by omega)]

/-! ## Images that are made -/

/-- The file when the payload has been written, and its checksum. -/
def headless (payload : List Byte) : Nat → Byte := store (fun _ => 0#8) kwb_header payload

def payloadSum (payload : List Byte) : U32 :=
  kwbimage_checksum32 (headless payload) 0 (kwb_header + payload.length) 0

/-- With that behind the payload. -/
def body (payload : List Byte) : Nat → Byte :=
  store (headless payload) (kwb_header + payload.length) (bytesOf (payloadSum payload))

/-- An image that is made is what the parser leaves, but for two checksums. -/
structure Made (payload : List Byte) (hdr : Header) (image : Image) : Prop where
  st_size_eq : image.st_size = kwb_header + payload.length + 4
  parsed : Parsed (body payload) hdr (dataLines host params.imagename)
    (leftOver host params.imagename)
  checkSum_eq : image.ptr 31 = kwbimage_checksum8 hdr.ptr 0 bhr_t 0
  ptr_eq : ∀ i, i ≠ 31 → i ≠ 511 → image.ptr i = hdr.ptr i

section Made

variable {host params} {payload : List Byte} {hdr : Header} {image : Image}

/-- The fields are in front of the place of the checksum. -/
theorem setMain_eq (params : Params) (st_size : Nat) (ptr : Nat → Byte) {i : Nat} (hi : 31 ≤ i) :
    setMain params st_size ptr i = ptr i := by
  have hword {start : Nat} {w : U32} (hstart : start + 4 ≤ 31) (m : Nat → Byte) :
      store m start (bytesOf w) i = m i :=
    store_outside (.inr (by rw [length_bytesOf]; omega))
  have hext (m : Nat → Byte) : store m 30 [0x1#8] i = m i :=
    store_outside (.inr hi)
  simp only [setMain]
  rw [hext, hword (by decide), hword (by decide), hword (by decide), hword (by decide)]

/-- Before the first line there is no entry. -/
theorem parsed_start (params : Params) (st_size : Nat) (ptr : Nat → Byte) :
    Parsed ptr ⟨store (setMain params st_size ptr) bhr_t (bytesOf (BitVec.ofNat 32 rcfg)), 0⟩ []
      none where
  datacmd_cnt_eq := rfl
  datacmd_cnt_le := Nat.zero_le _
  checkSum_eq := by
    dsimp only
    rw [store_outside (.inl (by decide)), setMain_eq params _ _ le_rfl]
  ptr_eq i hi := by
    rw [rcfg, bhr_t] at hi
    rw [layout, List.flatMap_nil, Option.map_none, Option.getD_none, List.append_nil, store_nil]
    refine (store_outside (.inr ?_)).trans (setMain_eq params _ _ (by omega))
    rw [length_bytesOf, bhr_t]
    omega

theorem made_of_mkimage {datafile : List Byte} (h : mkimage host params datafile = some image) :
    ∃ payload hdr, copy_file datafile = some payload ∧ Made host params payload hdr image := by
  obtain ⟨payload, hcopy, hset⟩ := Option.bind_eq_some_iff.mp h
  obtain ⟨hdr, hparse, himage⟩ := Option.bind_eq_some_iff.mp hset
  cases himage
  refine ⟨payload, hdr, hcopy, rfl, ?_, ?_, fun i h31 h511 => ?_⟩
  · exact (parsed_start params _ _).lines _ hparse
  · dsimp only
    rw [store_outside (.inl (by decide))]
    exact store_add (j := 0) rfl
  · have hbeside {m : Nat → Byte} {k : Nat} {b : Byte} (hk : i ≠ k) : store m k [b] i = m i :=
      store_outside (by rw [List.length_singleton]; omega)
    exact (hbeside h511).trans (hbeside h31)

/-- The header in front of the payload was empty. -/
theorem body_eq_zero {i : Nat} (hi : i < kwb_header) : body payload i = 0#8 := by
  rw [body, store_outside (.inl (by omega)), headless, store_outside (.inl hi)]

/-- An image that is made is accepted. -/
theorem Made.verified (h : Made host params payload hdr image) :
    kwbimage_verify_header image.ptr = 0 := by
  have hsame : slice image.ptr 0 31 = slice hdr.ptr 0 31 :=
    slice_congr fun k _ hk => h.ptr_eq k (by omega) (by omega)
  have hzero : hdr.ptr 31 = 0 := h.parsed.checkSum_eq.trans (body_eq_zero (by decide))
  rw [verify_header_iff, h.checkSum_eq, hsame, checksum8_eq _ (by decide), bhr_t,
    sum_slice_succ hdr.ptr 31, hzero, add_zero]

/-! ### Entries -/

/-- A word that is stored in the middle of a piece of memory. -/
theorem wordAt_store {m : Nat → Byte} {dst : Nat} (before after : List Byte) (w : U32) :
    wordAt (store m dst (before ++ bytesOf w ++ after)) (dst + before.length) = w := by
  refine wordAt_eq ?_
  rw [List.append_assoc, ← store_append, ← store_append]
  exact (slice_store_beside (.inl le_rfl)).trans (slice_store_same rfl)

theorem wordAt_congr {m m' : Nat → Byte} {a : Nat} (h : ∀ i, a ≤ i → i < a + 4 → m i = m' i) :
    wordAt m a = wordAt m' a := by
  rw [wordAt, wordAt, h a le_rfl (by omega), h (a + 1) (by omega) (by omega),
    h (a + 2) (by omega) (by omega), h (a + 3) (by omega) (by omega)]

/-- A word of the array is that of what the parser has left there. -/
theorem Made.wordAt_eq (h : Made host params payload hdr image) {a : Nat} (hlow : rcfg ≤ a)
    (hhigh : a + 4 ≤ 511) : wordAt image.ptr a = wordAt (store (body payload) rcfg
      (layout (dataLines host params.imagename) (leftOver host params.imagename))) a := by
  rw [rcfg, bhr_t] at hlow
  refine wordAt_congr fun i hi hlt => ?_
  exact (h.ptr_eq i (by omega) (by omega)).trans (h.parsed.ptr_eq i (by rw [rcfg, bhr_t]; omega))

/-- Behind what is stored the header is empty. -/
theorem wordAt_body_eq_zero {bytes : List Byte} {a : Nat} (hlow : rcfg + bytes.length ≤ a)
    (hhigh : a + 4 ≤ kwb_header) : wordAt (store (body payload) rcfg bytes) a = 0 := by
  have hzero : wordAt (store (body payload) rcfg bytes) a = wordAt (fun _ => 0#8) a :=
    wordAt_congr fun i hi hlt =>
      (store_outside (.inr (by omega))).trans (body_eq_zero (by omega))
  rw [hzero]
  exact (by decide : (0#8 ++ 0#8 ++ 0#8 ++ 0#8 : U32) = 0)

/-- An entry, and what is behind it. -/
theorem layout_append_cons (before after : List (U32 × U32)) (e : U32 × U32) (left : Option U32) :
    layout (before ++ e :: after) left = before.flatMap (fun e => bytesOf e.1 ++ bytesOf e.2) ++
      bytesOf e.1 ++ (bytesOf e.2 ++ layout after left) := by
  simp only [layout, List.flatMap_append, List.flatMap_cons, List.append_assoc]

/-- The words of an entry that is stored. -/
theorem words_layout (m : Nat → Byte) (before after : List (U32 × U32)) (e : U32 × U32)
    (left : Option U32) :
    wordAt (store m rcfg (layout (before ++ e :: after) left)) (rcfg + 8 * before.length) = e.1 ∧
      wordAt (store m rcfg (layout (before ++ e :: after) left)) (rcfg + 8 * before.length + 4) =
        e.2 := by
  rw [layout_append_cons, ← length_entries before]
  constructor
  · exact wordAt_store _ _ _
  · rw [← List.append_assoc, Nat.add_assoc, ← length_bytesOf e.1, ← List.length_append]
    exact wordAt_store _ _ _

/-- The complete entries are in the array. -/
theorem Made.entry_of_lt (h : Made host params payload hdr image) {k : Nat}
    (hk : k < KWBIMAGE_MAX_CONFIG) (hlt : k < (dataLines host params.imagename).length) :
    image.entry k = (dataLines host params.imagename)[k] := by
  rw [KWBIMAGE_MAX_CONFIG] at hk
  have hwords := words_layout (body payload) ((dataLines host params.imagename).take k)
    ((dataLines host params.imagename).drop (k + 1)) (dataLines host params.imagename)[k]
    (leftOver host params.imagename)
  rw [← List.drop_eq_getElem_cons hlt, List.take_append_drop,
    List.length_take_of_le (Nat.le_of_lt hlt)] at hwords
  rw [Image.entry, h.wordAt_eq (Nat.le_add_right _ _) (by rw [rcfg, bhr_t]; omega),
    h.wordAt_eq (by omega) (by rw [rcfg, bhr_t]; omega)]
  exact Prod.ext hwords.1 hwords.2

/-- The next one is a register that is left over. -/
theorem Made.entry_of_eq (h : Made host params payload hdr image) {k : Nat}
    (hk : k < KWBIMAGE_MAX_CONFIG) (heq : k = (dataLines host params.imagename).length) :
    image.entry k = ((leftOver host params.imagename).getD 0, 0) := by
  rw [KWBIMAGE_MAX_CONFIG] at hk
  have hlen := length_entries (dataLines host params.imagename)
  rw [← heq] at hlen
  rw [Image.entry, h.wordAt_eq (Nat.le_add_right _ _) (by rw [rcfg, bhr_t]; omega),
    h.wordAt_eq (by omega) (by rw [rcfg, bhr_t]; omega)]
  have hleft := length_left_le (leftOver host params.imagename)
  refine Prod.ext ?_ ?_
  · cases hover : leftOver host params.imagename with
    | none =>
        apply wordAt_body_eq_zero
        · rw [layout, List.length_append, hlen]
          exact le_rfl
        · rw [rcfg, kwb_header, bhr_t, extbhr_t]
          omega
    | some raddr =>
        rw [layout, ← hlen, ← List.append_nil ((Option.map bytesOf (some raddr)).getD []),
          ← List.append_assoc]
        exact wordAt_store _ _ _
  · apply wordAt_body_eq_zero
    · rw [layout, List.length_append, hlen]
      omega
    · rw [rcfg, kwb_header, bhr_t, extbhr_t]
      omega

/-- The others are empty. -/
theorem Made.entry_of_gt (h : Made host params payload hdr image) {k : Nat}
    (hk : k < KWBIMAGE_MAX_CONFIG) (hgt : (dataLines host params.imagename).length < k) :
    image.entry k = (0, 0) := by
  rw [KWBIMAGE_MAX_CONFIG] at hk
  have hlen := length_entries (dataLines host params.imagename)
  have hleft := length_left_le (leftOver host params.imagename)
  have hzero {a : Nat} (hlow : rcfg + 8 * k ≤ a) (hhigh : a + 4 ≤ 511) :
      wordAt image.ptr a = 0 := by
    rw [h.wordAt_eq (by omega) hhigh]
    apply wordAt_body_eq_zero
    · rw [layout, List.length_append, hlen]
      omega
    · rw [kwb_header, bhr_t, extbhr_t]
      omega
  rw [Image.entry, hzero le_rfl (by rw [rcfg, bhr_t]; omega),
    hzero (Nat.le_add_right _ _) (by rw [rcfg, bhr_t]; omega)]

/-- The entries are those of the configuration up to the limit, unless a register other than 0 is
left over behind them. -/
theorem Made.entriesRight_iff (h : Made host params payload hdr image) :
    image.EntriesRight host params ↔
      (dataLines host params.imagename).length ≤ KWBIMAGE_MAX_CONFIG ∧
        ((dataLines host params.imagename).length < KWBIMAGE_MAX_CONFIG →
          (leftOver host params.imagename).getD 0 = 0) := by
  constructor
  · intro hright
    refine ⟨hright.length_le, fun hlt => ?_⟩
    have hentry := hright.entry_eq _ hlt
    rw [h.entry_of_eq hlt rfl, List.getElem?_eq_none le_rfl] at hentry
    exact congrArg Prod.fst hentry
  · rintro ⟨hle, hzero⟩
    refine ⟨hle, fun k hk => ?_⟩
    rcases Nat.lt_trichotomy k (dataLines host params.imagename).length with hlt | heq | hgt
    · rw [h.entry_of_lt hk hlt, List.getElem?_eq_getElem hlt, Option.getD_some]
    · rw [h.entry_of_eq hk heq, List.getElem?_eq_none heq.ge, hzero (heq ▸ hk), Option.getD_none]
    · rw [h.entry_of_gt hk hgt, List.getElem?_eq_none hgt.le, Option.getD_none]

/-! ### Sums -/

/-- The cells behind the header are the payload, and zeros. -/
theorem headless_add (payload : List Byte) (j : Nat) :
    headless payload (kwb_header + j) = payload.getD j 0#8 := by
  rw [headless, store, if_pos (Nat.le_add_right _ _), Nat.add_sub_cancel_left,
    List.getD_eq_getElem?_getD]

/-- The header is empty when the sum is taken, so that it is that of the payload. -/
theorem payloadSum_eq (hwords : payload.length % 4 = 0) :
    payloadSum payload = wordSum payload := by
  obtain ⟨n, hn⟩ := Nat.dvd_of_mod_eq_zero hwords
  have hlen : kwb_header + payload.length = 4 * (128 + n) := by
    rw [hn, Nat.mul_add]
    rfl
  have hheader : ((List.range 128).map fun k => wordAt (headless payload) (0 + 4 * k)).sum = 0 := by
    refine List.sum_eq_zero fun w hw => ?_
    obtain ⟨k, hk, rfl⟩ := List.mem_map.mp hw
    rw [List.mem_range] at hk
    have hzero : wordAt (headless payload) (0 + 4 * k) = wordAt (fun _ => 0#8) (0 + 4 * k) :=
      wordAt_congr fun i _ hi => store_outside (.inl (by rw [kwb_header, bhr_t, extbhr_t]; omega))
    exact hzero.trans (by decide : (0#8 ++ 0#8 ++ 0#8 ++ 0#8 : U32) = 0)
  have hcell (k : Nat) : wordAt (headless payload) (0 + 4 * (128 + k)) =
      wordAt (payload.getD · 0#8) (4 * k) := by
    have haddr : 0 + 4 * (128 + k) = kwb_header + 4 * k := by
      rw [kwb_header, bhr_t, extbhr_t]
      omega
    simp only [haddr, wordAt, Nat.add_assoc, headless_add]
  rw [payloadSum, kwbimage_checksum32, hlen, if_neg (by omega), if_neg (by omega),
    Nat.mul_div_cancel_left _ (by decide), ← List.sum_eq_foldl, List.range_add, List.map_append,
    List.sum_append, hheader, zero_add, List.map_map, wordSum, hn,
    show (4 * n + 3) / 4 = n by omega]
  exact congrArg List.sum (List.map_congr_left fun k _ => hcell k)

/-- Behind the header is the payload with its sum, if no entry is stored there. -/
theorem Made.sum_eq (h : Made host params payload hdr image) (hwords : payload.length % 4 = 0)
    (hfits : (dataLines host params.imagename).length = KWBIMAGE_MAX_CONFIG + 1 →
      leftOver host params.imagename = none) :
    image.payload = payload ∧ wordAt image.ptr (image.st_size - 4) = wordSum payload := by
  have hlayout : (layout (dataLines host params.imagename) (leftOver host params.imagename)).length ≤
      448 := by
    have hle := h.parsed.datacmd_cnt_le
    rw [h.parsed.datacmd_cnt_eq] at hle
    rw [layout, List.length_append, length_entries]
    rcases Nat.eq_or_lt_of_le hle with heq | hlt
    · rw [hfits heq, heq]
      decide
    · have hleft := length_left_le (leftOver host params.imagename)
      rw [KWBIMAGE_MAX_CONFIG] at hlt
      omega
  have hbehind {i : Nat} (hi : kwb_header ≤ i) : image.ptr i = body payload i := by
    rw [kwb_header, bhr_t, extbhr_t] at hi
    rw [h.ptr_eq i (by omega) (by omega), h.parsed.ptr_eq i (by rw [rcfg, bhr_t]; omega),
      store_outside (.inr (by rw [rcfg, bhr_t]; omega))]
  have hsize : image.st_size - kwb_header - 4 = payload.length := by
    rw [h.st_size_eq]
    omega
  constructor
  · have hbody : slice image.ptr kwb_header payload.length =
        slice (headless payload) kwb_header payload.length :=
      slice_congr fun i hi hlt => (hbehind hi).trans (store_outside (.inl hlt))
    rw [Image.payload, hsize, hbody]
    exact slice_store_same rfl
  · have hword : wordAt image.ptr (kwb_header + payload.length) =
        wordAt (body payload) (kwb_header + payload.length) :=
      wordAt_congr fun i hi _ => hbehind (Nat.le_of_add_right_le hi)
    rw [h.st_size_eq, Nat.add_sub_cancel, hword, ← payloadSum_eq hwords]
    exact UBoot.Lib.wordAt_eq (slice_store_same rfl)

end Made

/-- What is right of an image: it is accepted, and no byte of its main header can be changed. The
entries are those of the configuration up to the limit and with nothing left over, and the sum is
that of a payload of whole words that no entry was stored in. -/
structure PartsRight (datafile : List Byte) : Prop where
  verified : ∀ image, mkimage host params datafile = some image →
    kwbimage_verify_header image.ptr = 0 ∧ image.Rejects 0 bhr_t
  entries : ∀ image, mkimage host params datafile = some image →
    (image.EntriesRight host params ↔
      (dataLines host params.imagename).length ≤ KWBIMAGE_MAX_CONFIG ∧
        ((dataLines host params.imagename).length < KWBIMAGE_MAX_CONFIG →
          (leftOver host params.imagename).getD 0 = 0))
  sum : ∀ image payload, mkimage host params datafile = some image →
    copy_file datafile = some payload → payload.length % 4 = 0 →
    ((dataLines host params.imagename).length = KWBIMAGE_MAX_CONFIG + 1 →
      leftOver host params.imagename = none) →
    image.payload = payload ∧ wordAt image.ptr (image.st_size - 4) = wordSum payload

theorem partsRight (datafile : List Byte) : PartsRight host params datafile where
  verified image h := by
    obtain ⟨payload, hdr, -, hmade⟩ := made_of_mkimage h
    exact ⟨hmade.verified, rejects_main hmade.verified _⟩
  entries image h := by
    obtain ⟨payload, hdr, -, hmade⟩ := made_of_mkimage h
    exact hmade.entriesRight_iff
  sum image payload h hcopy hwords hfits := by
    obtain ⟨payload', hdr, hcopy', hmade⟩ := made_of_mkimage h
    obtain rfl : payload = payload' := Option.some.inj (hcopy.symm.trans hcopy')
    exact hmade.sum_eq hwords hfits

/-- No image is right: where the extended header is changed the image is accepted. -/
theorem not_right (image : Image) : ¬image.Right host params := by
  intro hright
  have hupdated := (verify_header_update image.ptr le_rfl (image.ptr bhr_t + 1)).mpr hright.verified
  exact hright.ext bhr_t le_rfl (by decide) _ (by simp) hupdated

/-- What is made is right exactly where nothing is made. Otherwise it is right in parts. -/
theorem agreesRight_iff (datafile : List Byte) :
    (AgreesRight host params datafile ↔ mkimage host params datafile = none) ∧
      PartsRight host params datafile := by
  refine ⟨⟨fun hright => ?_, fun hnone image h => ?_⟩, partsRight host params datafile⟩
  · by_contra hne
    obtain ⟨image, h⟩ := Option.ne_none_iff_exists'.mp hne
    exact not_right host params image (hright image h)
  · rw [hnone] at h
    cases h

/-! ## An image of one word -/

/-- A C library that converts nothing. -/
def emptyHost : Host where
  sscanf _ := none
  behind _ := -1
  behind_ne _ := .inl (by decide)

/-- Four bytes, and a configuration with no line. -/
theorem not_agreesRight : ¬AgreesRight emptyHost ⟨0, 0, []⟩ [0x78#8, 0x56#8, 0x34#8, 0x12#8] := by
  intro hright
  have hmade : (mkimage emptyHost ⟨0, 0, []⟩ [0x78#8, 0x56#8, 0x34#8, 0x12#8]).isSome := rfl
  obtain ⟨image, himage⟩ := Option.isSome_iff_exists.mp hmade
  exact not_right _ _ image (hright image himage)

end UBoot.Kwbimage
