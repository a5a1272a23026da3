/-
# The tag list for the kernel

The `setup_*_tag` functions of `lib_arm/bootm.c`, as `do_bootm_linux` calls them: tags with the
memory banks, the command line and the ramdisk are written behind each other. The command line is
written first as it is; where the address of the network interface is not in it, it is put behind,
and the size of the tag is computed again.
-/

import UBoot.Lib.Records
import UBoot.Lib.CStrings
import UBoot.Lib.Substrings
import UBoot.LibGeneric.Crc32

namespace UBoot.Bootm

open UBoot.Lib

abbrev Word := BitVec 32

def ATAG_NONE : Word := 0x00000000
def ATAG_CORE : Word := 0x54410001
def ATAG_MEM : Word := 0x54410002
def ATAG_INITRD2 : Word := 0x54420005
def ATAG_SERIAL : Word := 0x54410006
def ATAG_REVISION : Word := 0x54410007
def ATAG_VIDEOLFB : Word := 0x54410008
def ATAG_CMDLINE : Word := 0x54410009
def ATAG_DMAMEM : Word := 0x5441000a

def blank : Byte := 0x20

/-- `ethaddr=` -/
def ethaddrEq : List Byte := [0x65, 0x74, 0x68, 0x61, 0x64, 0x64, 0x72, 0x3d]

/-- What is known when Linux is booted. The tags for the memory, the command line and the ramdisk
are configured, and others as far as there are values. -/
structure Boot where
  bi_boot_params : Nat
  bi_dram : List (Word × Word)
  bootargs : Option (List Byte)
  ethaddr : Option (List Byte)
  rd_start : Word
  rd_end : Word
  serialnr : Option (Word × Word)
  revision : Option Word
  videolfb : Option (Word × Word)
  dmamem : Option (Word × Word × Word)
  bootargs_nul : ∀ s ∈ bootargs, 0 ∉ s
  ethaddr_nul : ∀ s ∈ ethaddr, 0 ∉ s
  /-- Strings are in the address space, with the tag that is made of both. -/
  room : (bootargs.getD []).length + (ethaddr.getD []).length + 32 ≤ 2 ^ 32

/-! ## The functions -/

/-- `tag_size`, for a structure of so many bytes -/
def tag_size (sizeof : Nat) : Nat := (8 + sizeof) / 4

/-- A tag: its number, its size, and fields at offsets. -/
def setup_tag (tag : Word) (sizeof : Nat) (fields : List (Nat × Word)) (params : Area) : Area :=
  (params.putAll ((4, bytesOf tag) :: (0, bytesOf (BitVec.ofNat 32 (tag_size sizeof))) ::
    fields.map fun field => (8 + field.1, bytesOf field.2))).next

def setup_start_tag (mem : Nat → Byte) (b : Boot) : Area :=
  setup_tag ATAG_CORE 12 [(0, 0), (4, 0), (8, 0)] ⟨mem, b.bi_boot_params, []⟩

def setup_serial_tag (serialnr : Word × Word) : Area → Area :=
  setup_tag ATAG_SERIAL 8 [(0, serialnr.1), (4, serialnr.2)]

def setup_revision_tag (rev : Word) : Area → Area :=
  setup_tag ATAG_REVISION 4 [(0, rev)]

/-- Start and size of a bank; the size comes first in `tag_mem32`. -/
def setup_memory_tag (bank : Word × Word) : Area → Area :=
  setup_tag ATAG_MEM 8 [(4, bank.1), (0, bank.2)]

def setup_memory_tags (banks : List (Word × Word)) (params : Area) : Area :=
  banks.foldl (fun params bank => setup_memory_tag bank params) params

def strlen (m : Nat → Byte) (a : Nat) : Nat :=
  ((scanString 0 m (2 ^ 32) a).map List.length).getD 0

/-- The size of a tag with a string in words. -/
def cmdline_size (length : Nat) : Nat := (8 + length + 1 + 4) / 4

def setup_commandline_tag (commandline ethaddr : Option (List Byte)) (params : Area) : Area :=
  match commandline with
  | none => params
  | some commandline =>
      let p := commandline.dropWhile (· = blank)
      if p = [] then params
      else
        let params := params.putAll [(4, bytesOf ATAG_CMDLINE),
          (0, bytesOf (BitVec.ofNat 32 (cmdline_size p.length))), (8, p ++ [0])]
        match findSub ethaddrEq p, ethaddr with
        | none, some e =>
            let params := params.put (8 + p.length) (blank :: ethaddrEq ++ e ++ [0])
            (params.put 0 (bytesOf (BitVec.ofNat 32
              (cmdline_size (strlen params.mem (params.place + 8)))))).next
        | _, _ => params.next

def setup_initrd_tag (initrd_start initrd_end : Word) : Area → Area :=
  setup_tag ATAG_INITRD2 8 [(0, initrd_start), (4, initrd_end - initrd_start)]

def setup_videolfb_tag (videolfb : Word × Word) : Area → Area :=
  setup_tag ATAG_VIDEOLFB 24 [(8, videolfb.1), (12, videolfb.2)]

def setup_dmamem_tag (dmamem : Word × Word × Word) : Area → Area :=
  setup_tag ATAG_DMAMEM 12 [(0, dmamem.1), (4, dmamem.2.1), (8, dmamem.2.2)]

def setup_end_tag (params : Area) : Area :=
  params.putAll [(4, bytesOf ATAG_NONE), (0, bytesOf 0)]

/-- A tag for a value that is there. -/
def optional {α : Type} (setup : α → Area → Area) (value : Option α) (params : Area) : Area :=
  value.elim params fun x => setup x params

/-- The tags of `do_bootm_linux` -/
def setup_tags (b : Boot) (mem : Nat → Byte) : Area :=
  let params := setup_start_tag mem b
  let params := optional setup_serial_tag b.serialnr params
  let params := optional setup_revision_tag b.revision params
  let params := setup_memory_tags b.bi_dram params
  let params := setup_commandline_tag b.bootargs b.ethaddr params
  let params := if b.rd_start ≠ 0 ∧ b.rd_end ≠ 0 then setup_initrd_tag b.rd_start b.rd_end params
    else params
  let params := optional setup_videolfb_tag b.videolfb params
  let params := optional setup_dmamem_tag b.dmamem params
  setup_end_tag params

/-! ## The tags that are read -/

inductive Tag
  | core (flags pagesize rootdev : Word)
  | mem (start size : Word)
  | cmdline (text : List Byte)
  | initrd (start size : Word)
  | serialnr (low high : Word)
  | revision (rev : Word)
  | videolfb (base size : Word)
  | dmamem (base sz_all sz_fb : Word)
  deriving DecidableEq

def Tag.kind : Tag → Word
  | core .. => ATAG_CORE
  | mem .. => ATAG_MEM
  | cmdline .. => ATAG_CMDLINE
  | initrd .. => ATAG_INITRD2
  | serialnr .. => ATAG_SERIAL
  | revision .. => ATAG_REVISION
  | videolfb .. => ATAG_VIDEOLFB
  | dmamem .. => ATAG_DMAMEM

def Tag.bank : Tag → Option (Word × Word)
  | mem start size => some (start, size)
  | _ => none

def Tag.commandLine : Tag → Option (List Byte)
  | cmdline text => some text
  | _ => none

def Tag.ramdisk : Tag → Option (Word × Word)
  | initrd start size => some (start, size)
  | _ => none

/-- What a tag says. A string ends inside its tag. -/
def readTag (m : Nat → Byte) (h : Header) : Option Tag :=
  let field := fun offset => wordAt m (h.addr + (8 + offset))
  if h.kind = ATAG_CORE then some (.core (field 0) (field 4) (field 8))
  else if h.kind = ATAG_MEM then some (.mem (field 4) (field 0))
  else if h.kind = ATAG_CMDLINE then
    (scanString 0 m (4 * h.words - 8) (h.addr + 8)).map .cmdline
  else if h.kind = ATAG_INITRD2 then some (.initrd (field 0) (field 4))
  else if h.kind = ATAG_SERIAL then some (.serialnr (field 0) (field 4))
  else if h.kind = ATAG_REVISION then some (.revision (field 0))
  else if h.kind = ATAG_VIDEOLFB then some (.videolfb (field 8) (field 12))
  else if h.kind = ATAG_DMAMEM then some (.dmamem (field 0) (field 4) (field 8))
  else none

/-- The tags are visited one after the other up to the last one, they say this, and all that has
been written is inside the tag that it is for. -/
def ReadsBack (start : Nat) (s : Area) (tags : List Tag) : Prop :=
  ∃ headers : List Header,
    (∀ fuel, headers.length < fuel → visit ATAG_NONE s.mem fuel start = some headers) ∧
    headers.map (readTag s.mem) = tags.map some ∧
    ∀ w ∈ s.writes, ∃ h, (h ∈ headers ∨ h = ⟨s.place, ATAG_NONE, 2⟩) ∧ w.Inside h

/-- The parameter is in the string, in front of it nothing or a blank. -/
def OwnEthaddr (p : List Byte) : Prop :=
  ∃ before behind, p = before ++ ethaddrEq ++ behind ∧
    (before = [] ∨ before.getLast? = some blank)

/-- The command line without the blanks in front. -/
def Boot.line (b : Boot) : List Byte := (b.bootargs.getD []).dropWhile (· = blank)

/-- The ramdisk; one that begins or ends at zero is none. -/
def Boot.ramdisk (b : Boot) : Option (Word × Word) :=
  if b.rd_start ≠ 0 ∧ b.rd_end ≠ 0 then some (b.rd_start, b.rd_end - b.rd_start) else none

/-! ## Tags with fields -/

def fieldPieces (fields : List (Nat × Word)) : List (Nat × List Byte) :=
  fields.map fun field => (8 + field.1, bytesOf field.2)

/-- The bytes of a tag behind its header. -/
def Tag.payload : Tag → List (Nat × List Byte)
  | core flags pagesize rootdev => fieldPieces [(0, flags), (4, pagesize), (8, rootdev)]
  | mem start size => fieldPieces [(4, start), (0, size)]
  | cmdline text => [(8, text ++ [0])]
  | initrd start size => fieldPieces [(0, start), (4, size)]
  | serialnr low high => fieldPieces [(0, low), (4, high)]
  | revision rev => fieldPieces [(0, rev)]
  | videolfb base size => fieldPieces [(8, base), (12, size)]
  | dmamem base sz_all sz_fb => fieldPieces [(0, base), (4, sz_all), (8, sz_fb)]

/-- The record is this tag. -/
structure Says (r : Record) (t : Tag) : Prop where
  kind_eq : r.kind = t.kind
  payload : ∀ piece ∈ t.payload, piece ∈ r.pieces
  nul : ∀ text ∈ t.commandLine, 0 ∉ text

/-- The words of fields. -/
theorem wordAt_field {m : Nat → Byte} {r : Record} (hat : r.At m) {fields : List (Nat × Word)}
    (h : ∀ piece ∈ fieldPieces fields, piece ∈ r.pieces) {offset : Nat} {w : Word}
    (hmem : (offset, w) ∈ fields) : wordAt m (r.addr + (8 + offset)) = w :=
  wordAt_eq (hat.pieces_eq _ (h _ (List.mem_map_of_mem hmem)))

theorem readTag_eq {m : Nat → Byte} {r : Record} {t : Tag} (hat : r.At m) (h : Says r t) :
    readTag m r.toHeader = some t := by
  obtain ⟨hkind, hpayload, hnul⟩ := h
  rw [readTag, hkind]
  cases t with
  | cmdline text =>
      have hpiece := hpayload _ List.mem_cons_self
      have hcells := hat.pieces_eq _ hpiece
      have hroom := hat.room _ hpiece
      dsimp only at hcells hroom
      rw [List.length_append, List.length_singleton] at hcells hroom
      rw [slice_append] at hcells
      obtain ⟨htext, hzero⟩ := List.append_inj hcells (length_slice _ _ _)
      have hstring : IsString 0 m (r.addr + 8) text :=
        ⟨hnul text rfl, htext, (List.cons.inj hzero).1⟩
      have hscan : scanString 0 m (4 * r.words - 8) (r.addr + 8) = some text :=
        scanString_eq_some.mpr ⟨hstring, by omega⟩
      exact congrArg (Option.map Tag.cmdline) hscan
  | core flags pagesize rootdev =>
      have hflags := wordAt_field hat hpayload (.head _)
      have hpagesize := wordAt_field hat hpayload (.tail _ (.head _))
      have hrootdev := wordAt_field hat hpayload (.tail _ (.tail _ (.head _)))
      exact congrArg some (congr (congrArg₂ Tag.core hflags hpagesize) hrootdev)
  | mem start size =>
      have hstart := wordAt_field hat hpayload (.head _)
      have hsize := wordAt_field hat hpayload (.tail _ (.head _))
      exact congrArg some (congrArg₂ Tag.mem hstart hsize)
  | initrd start size =>
      have hstart := wordAt_field hat hpayload (.head _)
      have hsize := wordAt_field hat hpayload (.tail _ (.head _))
      exact congrArg some (congrArg₂ Tag.initrd hstart hsize)
  | serialnr low high =>
      have hlow := wordAt_field hat hpayload (.head _)
      have hhigh := wordAt_field hat hpayload (.tail _ (.head _))
      exact congrArg some (congrArg₂ Tag.serialnr hlow hhigh)
  | revision rev =>
      exact congrArg (some ∘ Tag.revision) (wordAt_field hat hpayload (.head _))
  | videolfb base size =>
      have hbase := wordAt_field hat hpayload (.head _)
      have hsize := wordAt_field hat hpayload (.tail _ (.head _))
      exact congrArg some (congrArg₂ Tag.videolfb hbase hsize)
  | dmamem base sz_all sz_fb =>
      have hbase := wordAt_field hat hpayload (.head _)
      have hall := wordAt_field hat hpayload (.tail _ (.head _))
      have hfb := wordAt_field hat hpayload (.tail _ (.tail _ (.head _)))
      exact congrArg some (congr (congrArg₂ Tag.dmamem hbase hall) hfb)

/-- The pieces of a tag with fields. -/
def tagPieces (tag : Word) (sizeof : Nat) (fields : List (Nat × Word)) : List (Nat × List Byte) :=
  (4, bytesOf tag) :: (0, bytesOf (BitVec.ofNat 32 (tag_size sizeof))) :: fieldPieces fields

theorem tagPieces_beside (tag : Word) (sizeof : Nat) {fields : List (Nat × Word)}
    (h : fields.Pairwise fun p q => p.1 + 4 ≤ q.1 ∨ q.1 + 4 ≤ p.1) :
    (tagPieces tag sizeof fields).Pairwise fun p q =>
      p.1 + p.2.length ≤ q.1 ∨ q.1 + q.2.length ≤ p.1 := by
  have hbehind : ∀ piece ∈ fieldPieces fields, 8 ≤ piece.1 := by
    intro piece hpiece
    obtain ⟨field, -, rfl⟩ := List.mem_map.mp hpiece
    exact Nat.le_add_right _ _
  refine .cons ?_ (.cons (fun piece hpiece => ?_) (List.pairwise_map.mpr (h.imp ?_)))
  · rw [List.forall_mem_cons]
    exact ⟨.inr le_rfl, fun piece hpiece => .inl (hbehind piece hpiece)⟩
  · exact .inl (Nat.le_trans (by decide : 0 + 4 ≤ 8) (hbehind piece hpiece))
  · intro p q hpq
    rw [length_bytesOf, length_bytesOf]
    omega

/-- The tags so far. -/
def Tagged (start : Nat) (s : Area) (tags : List Tag) : Prop :=
  ∃ records, Built start s records ∧ List.Forall₂ Says records tags

section Tags

variable {start : Nat} {s : Area} {tags : List Tag}

theorem Tagged.add {records : List Record} {s' : Area} {r : Record} {t : Tag}
    (hrecords : List.Forall₂ Says records tags) (hb : Built start s' (records ++ [r]))
    (h : Says r t) : Tagged start s' (tags ++ [t]) :=
  ⟨_, hb, List.rel_append hrecords (.cons h .nil)⟩

/-- A tag with fields beside each other. -/
theorem Tagged.setup_tag (h : Tagged start s tags) (t : Tag) (sizeof : Nat)
    {fields : List (Nat × Word)} (hpayload : t.payload = fieldPieces fields)
    (hnul : t.commandLine = none) (hsize : sizeof % 4 = 0) (hlt : sizeof < 2 ^ 32)
    (hroom : ∀ field ∈ fields, field.1 + 4 ≤ sizeof)
    (hbeside : fields.Pairwise fun p q => p.1 + 4 ≤ q.1 ∨ q.1 + 4 ≤ p.1) :
    Tagged start (Bootm.setup_tag t.kind sizeof fields s) (tags ++ [t]) := by
  obtain ⟨records, hb, hrecords⟩ := h
  have hwords : 4 * tag_size sizeof = 8 + sizeof := by
    rw [tag_size]
    omega
  have hpieces : ∀ piece ∈ tagPieces t.kind sizeof fields,
      piece.1 + piece.2.length ≤ 4 * tag_size sizeof := by
    rw [tagPieces, List.forall_mem_cons, List.forall_mem_cons, hwords]
    refine ⟨by rw [length_bytesOf]; omega, by rw [length_bytesOf]; omega, fun piece hpiece => ?_⟩
    obtain ⟨field, hfield, rfl⟩ := List.mem_map.mp hpiece
    have hle := hroom field hfield
    rw [length_bytesOf]
    omega
  have hat : Record.At ⟨⟨s.place, t.kind, tag_size sizeof⟩, tagPieces t.kind sizeof fields⟩
      (s.putAll (tagPieces t.kind sizeof fields)).mem := by
    refine ⟨?_, ?_, .tail _ (.head _), .head _, hpieces, fun piece hpiece => ?_⟩
    · dsimp only
      omega
    · dsimp only
      omega
    · exact slice_putAll (tagPieces_beside t.kind sizeof hbeside) hpiece
  refine Tagged.add hrecords (hb.close ((Open.refl s _).putAll hpieces) hat) ⟨rfl, ?_, ?_⟩
  · rw [hpayload]
    exact fun piece hpiece => .tail _ (.tail _ hpiece)
  · rw [hnul]
    exact nofun

end Tags

/-! ## The command line -/

/-- The text of the tag that is written, if there is one. -/
def written (commandline ethaddr : Option (List Byte)) : Option (List Byte) :=
  commandline.bind fun commandline =>
    let p := commandline.dropWhile (· = blank)
    if p = [] then none
    else
      match findSub ethaddrEq p, ethaddr with
      | none, some e => some (p ++ (blank :: ethaddrEq ++ e))
      | _, _ => some p

theorem cmdline_room (n : Nat) : 8 + (n + 1) ≤ 4 * cmdline_size n := by
  rw [cmdline_size]
  omega

section CommandLine

variable {start : Nat} {s s₀ : Area} {tags : List Tag} {records : List Record}
  {text p q : List Byte}

/-- A tag with a text is complete. -/
theorem Tagged.close (hrecords : List.Forall₂ Says records tags) (hb : Built start s₀ records)
    (ho : Open s₀ (cmdline_size text.length) s)
    (hkind : slice s.mem (s₀.place + 4) 4 = bytesOf ATAG_CMDLINE)
    (hsize : slice s.mem s₀.place 4 = bytesOf (BitVec.ofNat 32 (cmdline_size text.length)))
    (htext : slice s.mem (s₀.place + 8) (text ++ [0]).length = text ++ [0]) (hnul : 0 ∉ text)
    (hlt : text.length < 2 ^ 32) : Tagged start s.next (tags ++ [.cmdline text]) := by
  have hroom := cmdline_room text.length
  have hat : Record.At ⟨⟨s₀.place, ATAG_CMDLINE, cmdline_size text.length⟩,
      [(4, bytesOf ATAG_CMDLINE), (0, bytesOf (BitVec.ofNat 32 (cmdline_size text.length))),
        (8, text ++ [0])]⟩ s.mem := by
    refine ⟨?_, ?_, .tail _ (.head _), .head _, ?_, ?_⟩
    · dsimp only
      omega
    · dsimp only
      rw [cmdline_size]
      omega
    · simp only [List.forall_mem_cons, length_bytesOf, List.length_append, List.length_singleton]
      exact ⟨by omega, by omega, hroom, nofun⟩
    · simp only [List.forall_mem_cons, length_bytesOf, Nat.add_zero]
      exact ⟨hkind, hsize, htext, nofun⟩
  refine Tagged.add hrecords (hb.close ho hat) ⟨rfl, ?_, ?_⟩
  · exact fun piece hpiece => .tail _ (.tail _ hpiece)
  · rintro _ ⟨⟩
    exact hnul

/-- A text is put behind another one, over its terminator. -/
theorem slice_put_text (h : slice s.mem (s.place + 8) (p ++ [0]).length = p ++ [0]) :
    slice (s.put (8 + p.length) (q ++ [0])).mem (s.place + 8) (p ++ q ++ [0]).length =
      p ++ q ++ [0] := by
  rw [List.length_append, slice_append] at h
  have hp := List.append_inj_left h (length_slice _ _ _)
  have hbeside : s.place + 8 + p.length ≤ s.place + (8 + p.length) := by omega
  have hfirst : slice (s.put (8 + p.length) (q ++ [0])).mem (s.place + 8) p.length = p :=
    (slice_store_beside (.inl hbeside)).trans hp
  have hsecond : slice (s.put (8 + p.length) (q ++ [0])).mem (s.place + (8 + p.length))
      (q ++ [0]).length = q ++ [0] := slice_store_same rfl
  rw [List.append_assoc, List.length_append, slice_append, hfirst, Nat.add_assoc, hsecond]

/-- What is written first. -/
def firstPieces (p : List Byte) : List (Nat × List Byte) :=
  [(4, bytesOf ATAG_CMDLINE), (0, bytesOf (BitVec.ofNat 32 (cmdline_size p.length))), (8, p ++ [0])]

theorem slice_first (s : Area) (p : List Byte) :
    slice (s.putAll (firstPieces p)).mem (s.place + 4) 4 = bytesOf ATAG_CMDLINE ∧
      slice (s.putAll (firstPieces p)).mem (s.place + 0) 4 =
        bytesOf (BitVec.ofNat 32 (cmdline_size p.length)) ∧
      slice (s.putAll (firstPieces p)).mem (s.place + 8) (p ++ [0]).length = p ++ [0] := by
  have hbeside : (firstPieces p).Pairwise fun p q =>
      p.1 + p.2.length ≤ q.1 ∨ q.1 + q.2.length ≤ p.1 := by
    simp [firstPieces]
  exact ⟨slice_putAll hbeside (.head _), slice_putAll hbeside (.tail _ (.head _)),
    slice_putAll hbeside (.tail _ (.tail _ (.head _)))⟩

theorem open_first (s : Area) (p : List Byte) {words : Nat} (h : cmdline_size p.length ≤ words) :
    Open s words (s.putAll (firstPieces p)) := by
  have hroom := cmdline_room p.length
  refine (Open.refl s words).putAll ?_
  simp only [firstPieces, List.forall_mem_cons, length_bytesOf, List.length_append,
    List.length_singleton]
  exact ⟨by omega, by omega, by omega, nofun⟩

theorem strlen_eq (h : slice s.mem (s.place + 8) (text ++ [0]).length = text ++ [0])
    (hnul : 0 ∉ text) (hlt : text.length < 2 ^ 32) : strlen s.mem (s.place + 8) = text.length := by
  rw [List.length_append, slice_append] at h
  obtain ⟨htext, hzero⟩ := List.append_inj h (length_slice _ _ _)
  have hstring : IsString 0 s.mem (s.place + 8) text := ⟨hnul, htext, (List.cons.inj hzero).1⟩
  rw [strlen, scanString_eq_some.mpr ⟨hstring, hlt⟩]
  rfl

/-- The text as it is. -/
theorem Tagged.plain (h : Tagged start s tags) (hnul : 0 ∉ p) (hlt : p.length < 2 ^ 32) :
    Tagged start (s.putAll (firstPieces p)).next (tags ++ [.cmdline p]) := by
  obtain ⟨records, hb, hrecords⟩ := h
  obtain ⟨hkind, hsize, htext⟩ := slice_first s p
  exact Tagged.close hrecords hb (open_first s p le_rfl) hkind hsize htext hnul hlt

/-- The text with another one behind it, and its size computed again. -/
theorem Tagged.appended (h : Tagged start s tags) (hnul : 0 ∉ p ++ q)
    (hlt : (p ++ q).length < 2 ^ 32) {s' : Area}
    (hs' : s' = (s.putAll (firstPieces p)).put (8 + p.length) (q ++ [0])) :
    Tagged start (s'.put 0 (bytesOf (BitVec.ofNat 32
      (cmdline_size (strlen s'.mem (s'.place + 8)))))).next (tags ++ [.cmdline (p ++ q)]) := by
  obtain ⟨records, hb, hrecords⟩ := h
  obtain ⟨hkind, -, htext⟩ := slice_first s p
  have hplace : (s.putAll (firstPieces p)).place = s.place := putAll_place
  have hplace' : s'.place = s.place := by rw [hs', put_place, hplace]
  have hroom := cmdline_room (p ++ q).length
  have hle : cmdline_size p.length ≤ cmdline_size (p ++ q).length := by
    rw [cmdline_size, cmdline_size, List.length_append]
    omega
  have htext' : slice s'.mem (s'.place + 8) (p ++ q ++ [0]).length = p ++ q ++ [0] := by
    subst hs'
    rw [← hplace] at htext
    rw [put_place]
    exact slice_put_text htext
  have hkind' : slice s'.mem (s'.place + 4) 4 = bytesOf ATAG_CMDLINE := by
    subst hs'
    rw [hplace', ← hkind]
    refine slice_store_beside (.inl ?_)
    rw [hplace]
    omega
  have hopen : Open s (cmdline_size (p ++ q).length) s' := by
    subst hs'
    have hlength : (p ++ q).length = p.length + q.length := List.length_append
    refine (open_first s p hle).put ?_
    rw [List.length_append, List.length_singleton]
    omega
  rw [strlen_eq htext' hnul hlt]
  refine Tagged.close hrecords hb (hopen.put (by rw [length_bytesOf]; omega)) ?_ ?_ ?_ hnul hlt
  · rw [← hkind', hplace']
    exact slice_store_beside (.inr (by rw [length_bytesOf]; omega))
  · rw [← hplace']
    exact slice_store_same rfl
  · rw [← hplace']
    exact (slice_store_beside (.inr (by rw [length_bytesOf]; omega))).trans htext'

theorem Tagged.commandline (h : Tagged start s tags) {commandline ethaddr : Option (List Byte)}
    (hnul : ∀ s ∈ commandline, 0 ∉ s) (hnul' : ∀ s ∈ ethaddr, 0 ∉ s)
    (hroom : (commandline.getD []).length + (ethaddr.getD []).length + 32 ≤ 2 ^ 32) :
    Tagged start (setup_commandline_tag commandline ethaddr s)
      (tags ++ (written commandline ethaddr).toList.map .cmdline) := by
  cases commandline with
  | none => simpa [setup_commandline_tag, written] using h
  | some c =>
      rw [setup_commandline_tag, written, Option.bind_some]
      dsimp only
      generalize hp : c.dropWhile (fun b => decide (b = blank)) = p
      have hnulp : 0 ∉ p := fun hmem => hnul c rfl ((hp ▸ List.dropWhile_sublist _).subset hmem)
      have hlen : p.length ≤ c.length := hp ▸ (List.dropWhile_sublist _).length_le
      rw [Option.getD_some] at hroom
      split
      · simpa using h
      · cases findSub ethaddrEq p with
        | some found => exact h.plain hnulp (by omega)
        | none =>
            cases ethaddr with
            | none => exact h.plain hnulp (by omega)
            | some e =>
                rw [Option.getD_some] at hroom
                refine h.appended (q := blank :: ethaddrEq ++ e) ?_ ?_ rfl
                · have hnule := hnul' e rfl
                  simp only [List.mem_append, List.mem_cons, not_or]
                  exact ⟨hnulp, ⟨by decide, by decide⟩, hnule⟩
                · simp only [List.length_append, List.length_cons, ethaddrEq, List.length_nil]
                  omega

end CommandLine

/-! ## The list -/

/-- The tags that are written. -/
def tagsOf (b : Boot) : List Tag :=
  [Tag.core 0 0 0] ++ b.serialnr.toList.map (fun x => Tag.serialnr x.1 x.2) ++
    b.revision.toList.map Tag.revision ++ b.bi_dram.map (fun bank => Tag.mem bank.1 bank.2) ++
    (written b.bootargs b.ethaddr).toList.map Tag.cmdline ++
    b.ramdisk.toList.map (fun range => Tag.initrd range.1 range.2) ++
    b.videolfb.toList.map (fun x => Tag.videolfb x.1 x.2) ++
    b.dmamem.toList.map (fun x => Tag.dmamem x.1 x.2.1 x.2.2)

section List

variable {start : Nat} {s : Area} {tags : List Tag}

theorem Tagged.memory (h : Tagged start s tags) (banks : List (Word × Word)) :
    Tagged start (setup_memory_tags banks s)
      (tags ++ banks.map fun bank => .mem bank.1 bank.2) := by
  induction banks generalizing s tags with
  | nil => simpa [setup_memory_tags] using h
  | cons bank banks ih =>
      have hbank := h.setup_tag (.mem bank.1 bank.2) 8 rfl rfl rfl (by decide)
        (by simp) (by simp)
      have hrest := ih hbank
      rwa [List.append_assoc] at hrest

theorem Tagged.optional {α : Type} (h : Tagged start s tags) (setup : α → Area → Area)
    (tag : α → Tag) (hsetup : ∀ x, Tagged start (setup x s) (tags ++ [tag x])) (value : Option α) :
    Tagged start (Bootm.optional setup value s) (tags ++ value.toList.map tag) := by
  cases value with
  | none => simpa [Bootm.optional] using h
  | some x => exact hsetup x

theorem tagged_start (b : Boot) (mem : Nat → Byte) :
    Tagged b.bi_boot_params (setup_start_tag mem b) [.core 0 0 0] := by
  have hnone : Tagged b.bi_boot_params ⟨mem, b.bi_boot_params, []⟩ [] :=
    ⟨[], ⟨rfl, nofun, nofun⟩, .nil⟩
  exact hnone.setup_tag (.core 0 0 0) _ rfl rfl rfl (by decide) (by simp) (by simp)

theorem map_readTag {m : Nat → Byte} {records : List Record} (hat : ∀ r ∈ records, r.At m)
    (h : List.Forall₂ Says records tags) :
    records.map (readTag m ∘ Record.toHeader) = tags.map some := by
  induction h with
  | nil => rfl
  | cons hrecords _ ih =>
      rw [List.forall_mem_cons] at hat
      rw [List.map_cons, List.map_cons, ih hat.2, Function.comp_apply, readTag_eq hat.1 hrecords]

/-- The list is closed. -/
theorem Tagged.end (h : Tagged start s tags) : ReadsBack start (setup_end_tag s) tags := by
  obtain ⟨records, hb, hrecords⟩ := h
  have hframe := (Open.refl s 2).putAll
    (by simp : ∀ p ∈ [(4, bytesOf ATAG_NONE), (0, bytesOf 0)], p.1 + p.2.length ≤ 4 * 2)
  have hbeside : [(4, bytesOf ATAG_NONE), (0, bytesOf 0)].Pairwise fun p q =>
      p.1 + p.2.length ≤ q.1 ∨ q.1 + q.2.length ≤ p.1 := by simp
  have hzero := wordAt_eq (slice_putAll (s := s) hbeside (.tail _ (.head _)))
  have hlast := wordAt_eq (slice_putAll (s := s) hbeside (.head _))
  have hat : ∀ r ∈ records, r.At (setup_end_tag s).mem := by
    intro r hr
    have hbound := hb.chain.bounds.2 r hr
    exact (hb.at_mem r hr).congr fun i hi => hframe.frame i (by omega)
  refine ⟨records.map Record.toHeader, fun fuel hfuel => ?_, ?_, fun w hw => ?_⟩
  · rw [List.length_map] at hfuel
    exact hb.chain.visit hat hzero hlast hfuel
  · rw [List.map_map]
    exact map_readTag hat hrecords
  · obtain hw | hw := hframe.inside w hw
    · obtain ⟨r, hr, hin⟩ := hb.inside w hw
      exact ⟨r.toHeader, .inl (List.mem_map_of_mem hr), hin⟩
    · exact ⟨_, .inr rfl, hw⟩

theorem Tagged.ramdisk (h : Tagged start s tags) (b : Boot) :
    Tagged start
      (if b.rd_start ≠ 0 ∧ b.rd_end ≠ 0 then setup_initrd_tag b.rd_start b.rd_end s else s)
      (tags ++ b.ramdisk.toList.map fun range => .initrd range.1 range.2) := by
  rw [Boot.ramdisk]
  split
  · exact h.setup_tag (.initrd b.rd_start (b.rd_end - b.rd_start)) _ rfl rfl rfl (by decide)
      (by simp) (by simp)
  · simpa using h

/-- What is read back. -/
theorem setup_tags_reads (b : Boot) (mem : Nat → Byte) :
    ReadsBack b.bi_boot_params (setup_tags b mem) (tagsOf b) := by
  refine Tagged.end ?_
  have hserial := (tagged_start b mem).optional setup_serial_tag
    (fun x => .serialnr x.1 x.2)
    (fun x => (tagged_start b mem).setup_tag (.serialnr x.1 x.2) _ rfl rfl rfl (by decide) (by simp)
      (by simp)) b.serialnr
  have hrevision := hserial.optional setup_revision_tag .revision
    (fun x => hserial.setup_tag (.revision x) _ rfl rfl rfl (by decide) (by simp) (by simp))
    b.revision
  have hmemory := hrevision.memory b.bi_dram
  have hcmdline := hmemory.commandline b.bootargs_nul b.ethaddr_nul b.room
  have hramdisk := hcmdline.ramdisk b
  have hvideolfb := hramdisk.optional setup_videolfb_tag
    (fun x => .videolfb x.1 x.2)
    (fun x => hramdisk.setup_tag (.videolfb x.1 x.2) _ rfl rfl rfl (by decide) (by simp) (by simp))
    b.videolfb
  exact hvideolfb.optional setup_dmamem_tag
    (fun x => .dmamem x.1 x.2.1 x.2.2)
    (fun x => hvideolfb.setup_tag (.dmamem x.1 x.2.1 x.2.2) _ rfl rfl rfl (by decide) (by simp)
      (by simp)) b.dmamem

end List

/-! ## What the list says -/

theorem bank_tagsOf (b : Boot) : (tagsOf b).filterMap Tag.bank = b.bi_dram := by
  simp [tagsOf, List.filterMap_cons, List.filterMap_map, Function.comp_def, Tag.bank]

theorem commandLine_tagsOf (b : Boot) :
    (tagsOf b).filterMap Tag.commandLine = (written b.bootargs b.ethaddr).toList := by
  simp [tagsOf, List.filterMap_cons, List.filterMap_map, Function.comp_def, Tag.commandLine]

theorem ramdisk_tagsOf (b : Boot) : (tagsOf b).filterMap Tag.ramdisk = b.ramdisk.toList := by
  simp [tagsOf, List.filterMap_cons, List.filterMap_map, Function.comp_def, Tag.ramdisk]

/-- What is read does not depend on the reader. -/
theorem ReadsBack.unique {start : Nat} {s : Area} {tags tags' : List Tag}
    (h : ReadsBack start s tags) (h' : ReadsBack start s tags') : tags = tags' := by
  obtain ⟨headers, hvisit, hread, -⟩ := h
  obtain ⟨headers', hvisit', hread', -⟩ := h'
  have hfirst := hvisit (headers.length + headers'.length + 1) (by omega)
  have hsecond := hvisit' (headers.length + headers'.length + 1) (by omega)
  obtain rfl : headers = headers' := Option.some.inj (hfirst.symm.trans hsecond)
  exact List.map_injective_iff.mpr (Option.some_injective _) (hread.symm.trans hread')

section Written

variable (b : Boot)

theorem written_eq : written b.bootargs b.ethaddr =
    if b.line = [] then none
    else
      match findSub ethaddrEq b.line, b.ethaddr with
      | none, some e => some (b.line ++ (blank :: ethaddrEq ++ e))
      | _, _ => some b.line := by
  rw [written, Boot.line]
  cases b.bootargs with
  | none => rfl
  | some c => rfl

theorem written_blank (h : b.line = []) : written b.bootargs b.ethaddr = none := by
  rw [written_eq, if_pos h]

theorem written_own (hline : b.line ≠ []) (h : b.ethaddr = none ∨ OwnEthaddr b.line) :
    written b.bootargs b.ethaddr = some b.line := by
  rw [written_eq, if_neg hline]
  cases hsub : findSub ethaddrEq b.line with
  | some found => rfl
  | none =>
      obtain h | ⟨before, behind, heq, -⟩ := h
      · rw [h]
      · exact absurd ⟨before, behind, heq.symm⟩ (findSub_eq_none.mp hsub)

theorem written_appended (hline : b.line ≠ []) {e : List Byte} (he : b.ethaddr = some e)
    (h : ¬ethaddrEq <:+: b.line) :
    written b.bootargs b.ethaddr = some (b.line ++ (blank :: ethaddrEq ++ e)) := by
  rw [written_eq, if_neg hline, findSub_eq_none.mpr h, he]

end Written

/-- The command line that is read is the one of the environment, with the address of the network
interface behind it exactly when it is set and not a parameter. -/
def AsInEnvironment (b : Boot) (line : List Byte) : Prop :=
  (b.ethaddr = none ∨ OwnEthaddr b.line → line = b.line) ∧
    ∀ e ∈ b.ethaddr, ¬OwnEthaddr b.line → line = b.line ++ (blank :: ethaddrEq ++ e)

/-- The tags are well formed, and have the banks, the ramdisk and the command line: none where it is
blank, with the address of the network interface behind it where that is set and not in it. -/
theorem tags_read_back (b : Boot) (mem : Nat → Byte) :
    ∃ tags, ReadsBack b.bi_boot_params (setup_tags b mem) tags ∧
      tags.head? = some (.core 0 0 0) ∧ tags.filterMap Tag.bank = b.bi_dram ∧
      tags.filterMap Tag.ramdisk = b.ramdisk.toList ∧
      (b.line = [] → tags.filterMap Tag.commandLine = []) ∧
      (b.line ≠ [] → b.ethaddr = none ∨ OwnEthaddr b.line →
        tags.filterMap Tag.commandLine = [b.line]) ∧
      ∀ e ∈ b.ethaddr, b.line ≠ [] → ¬ethaddrEq <:+: b.line →
        tags.filterMap Tag.commandLine = [b.line ++ (blank :: ethaddrEq ++ e)] := by
  refine ⟨tagsOf b, setup_tags_reads b mem, rfl, bank_tagsOf b, ramdisk_tagsOf b, ?_⟩
  rw [commandLine_tagsOf]
  refine ⟨fun hline => ?_, fun hline h => ?_, fun e he hline h => ?_⟩
  · rw [written_blank b hline]
    rfl
  · rw [written_own b hline h]
    rfl
  · rw [written_appended b hline he h]
    rfl

/-- A network address, and no command line. -/
def silentBoot : Boot where
  bi_boot_params := 0x100
  bi_dram := []
  bootargs := none
  ethaddr := some [0x30]
  rd_start := 0
  rd_end := 0
  serialnr := none
  revision := none
  videolfb := none
  dmamem := none
  bootargs_nul := nofun
  ethaddr_nul := by simp
  room := by simp

/-- Where the command line is blank, the network address is not passed. -/
theorem not_asInEnvironment : ¬∀ b mem, ∃ tags,
    ReadsBack b.bi_boot_params (setup_tags b mem) tags ∧
      AsInEnvironment b ((tags.filterMap Tag.commandLine).head?.getD []) := by
  intro h
  obtain ⟨tags, hreads, -, hline⟩ := h silentBoot fun _ => 0
  obtain rfl := hreads.unique (setup_tags_reads _ _)
  have hnot : ¬OwnEthaddr silentBoot.line := by
    rintro ⟨before, behind, heq, -⟩
    have hlength := congrArg List.length heq
    simp [silentBoot, Boot.line, ethaddrEq] at hlength
  have hread := hline [0x30] rfl hnot
  rw [commandLine_tagsOf, written_blank silentBoot rfl] at hread
  exact absurd hread (by decide)

end UBoot.Bootm
