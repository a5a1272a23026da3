/-
# Summaries of sectors

`jffs2_1pass_build_lists` of `fs/jffs2/jffs2_1pass.c` with `CONFIG_JFFS2_SUMMARY`. A marker in the
last eight bytes of a sector says where its summary begins, which lists the nodes of the sector. A
sector with a summary is not scanned. All other steps are those of the scan.
-/

import UBoot.Fs.Jffs2ScanLists

namespace UBoot.Jffs2Summary

open UBoot.Lib UBoot.Jffs2Scan

def JFFS2_SUM_MAGIC : Nat := 0x02851885
def JFFS2_NODETYPE_SUMMARY : Nat := 0x2006
def JFFS2_COMPAT_MASK : Nat := 0xc000
def JFFS2_FEATURE_INCOMPAT : Nat := 0xc000

/-- A partition with the memory that `malloc` gives for a summary of so many bytes. -/
structure SumSetup extends Setup where
  malloc : Nat → Option (Nat → Byte)

/-! ## The records -/

/-- A record of an inode or a directory entry, at a place of the summary. -/
inductive Entry
  | inode (sp : Nat)
  | dirent (sp : Nat)
  deriving DecidableEq

/-- The first pass over the records. `outside` is a read behind the summary. -/
inductive Records
  | outside
  | unsupported (nodetype : Nat)
  | listed (entries : List Entry)
  deriving DecidableEq

def Records.cons (x : Entry) : Records → Records
  | .listed entries => .listed (x :: entries)
  | other => other

/-- How the summary of a sector is processed: it is not used, there is an error, or what it lists is
inserted. -/
inductive Outcome
  | outside
  | skipped
  | failed
  | used (s : State)

section Summary

variable (big : Bool) (m : Nat → Byte) (sumsize : Nat)

def records : (left sp : Nat) → Records
  | 0, _ => .listed []
  | left + 1, sp =>
      if sumsize < sp + 2 then .outside
      else
        let nodetype := field big m sp 2
        if nodetype = JFFS2_NODETYPE_INODE then (records left (sp + 18)).cons (.inode sp)
        else if nodetype = JFFS2_NODETYPE_DIRENT then
          if sumsize < sp + 23 then .outside
          else (records left (sp + 24 + (m (sp + 22)).toNat)).cons (.dirent sp)
        else .unsupported nodetype

/-- Where the offset of a record is. -/
def Entry.place : Entry → Nat
  | .inode sp => sp + 10
  | .dirent sp => sp + 6

def Entry.offset (x : Entry) : Nat := field big m x.place 4

/-- The second pass, which inserts into the lists. -/
def insertEntries (e : Setup) : List Entry → State → Outcome
  | [], s => .used s
  | x :: entries, s =>
      if sumsize < x.place + 4 then .outside
      else if ¬room e s then .failed
      else
        let offset := add (add e.part.offset (e.sectorOfs s.i)) (x.offset big m)
        match x with
        | .inode _ => insertEntries e entries { s with frag := s.frag ++ [offset] }
        | .dirent _ => insertEntries e entries { s with dir := s.dir ++ [offset] }

/-- The header of a summary node with the length of this one: its first bytes are those of the
numbers as the host has them. -/
def crcnode : List Byte :=
  let magic := [(0x85 : Byte), 0x19]
  let nodetype := [(0x06 : Byte), 0x20]
  (if big then magic.reverse else magic) ++ (if big then nodetype.reverse else nodetype) ++
    slice m 4 4

/-- The checks of `jffs2_sum_scan_sumnode`. -/
def HeaderChecked : Prop :=
  field big m 8 4 = (Crc32.crc32NoComp 0 0 (crcnode big m)).toNat ∧ field big m 4 4 = sumsize

def CrcsChecked : Prop :=
  field big m 28 4 = crc m 0 24 ∧ field big m 24 4 = crc m 32 (sumsize - 32)

instance : Decidable (HeaderChecked big m sumsize) := inferInstanceAs (Decidable (_ ∧ _))
instance : Decidable (CrcsChecked big m sumsize) := inferInstanceAs (Decidable (_ ∧ _))

/-- `summary->sum_num` -/
def sum_num : Nat := field big m 12 4

/-- `jffs2_sum_process_sum_data`, with what its result means to the caller. -/
def jffs2_sum_process_sum_data (e : Setup) (s : State) : Outcome :=
  match records big m sumsize (sum_num big m) 32 with
  | .outside => .outside
  | .unsupported nodetype =>
      if nodetype &&& JFFS2_COMPAT_MASK = JFFS2_FEATURE_INCOMPAT then .failed else .skipped
  | .listed entries => insertEntries big m sumsize e entries s

def jffs2_sum_scan_sumnode (e : Setup) (s : State) : Outcome :=
  if sumsize < 12 then .outside
  else if ¬HeaderChecked big m sumsize then .skipped
  else if sumsize < 32 then .outside
  else if ¬CrcsChecked big m sumsize then .skipped
  else jffs2_sum_process_sum_data big m sumsize e s

end Summary

/-! ## The sectors -/

/-- Memory with other bytes from a place on. -/
def overwrite (m : Nat → Byte) (k : Nat) (m' : Nat → Byte) : Nat → Byte :=
  fun j => if j < k then m j else m' (j - k)

section Steps

variable (e : SumSetup)

/-- A read of bytes of which so many are left in the sector, to somewhere in memory. -/
def State.request (s : State) (left len : Nat) : State :=
  { s with requests := s.requests ++ [(sub (add e.part.offset (e.sectorEnd s.i)) left, len)] }

def readBack (i left len : Nat) (m : Nat → Byte) : Nat → Byte :=
  e.dev.get_fl_mem (sub (add e.part.offset (e.sectorEnd i)) left) len m

/-- The marker is read to the end of the buffer. -/
def readMarker (s : State) : State :=
  { State.request e s 8 8 with
    buf := overwrite s.buf (bufSize - 8) (readBack e s.i 8 8 fun k => s.buf (bufSize - 8 + k)) }

/-- What is in front of the marker, up to where the summary begins. -/
def readSummary (i sumlen : Nat) (m : Nat → Byte) : Nat → Byte :=
  if 8 < sumlen then readBack e i sumlen (sumlen - 8) m else m

/-- The summary, and the state after it is read: in the buffer if there is room. -/
def loadSummary (s : State) (sumlen : Nat) : Option ((Nat → Byte) × State) :=
  let s' := if 8 < sumlen then State.request e s sumlen (sumlen - 8) else s
  if bufSize < sumlen then
    match e.malloc sumlen with
    | none => none
    | some m =>
        some (readSummary e s.i sumlen
          (overwrite m (sumlen - 8) fun k =>
            if k < 8 then s.buf (bufSize - 8 + k) else m (sumlen - 8 + k)), s')
  else
    let summary := readSummary e s.i sumlen fun k => s.buf (bufSize - sumlen + k)
    some (summary, { s' with buf := overwrite s.buf (bufSize - sumlen) summary })

/-- What follows from the result of `jffs2_sum_scan_sumnode`. -/
def afterSummary (s : State) : Outcome → Option State
  | .outside => none
  | .skipped => some (sectorStep e.toSetup s)
  | .failed => some { s with control := .done false }
  | .used s' => some (nextSector e.toSetup s')

/-- A sector with a marker. -/
def markedSector (s : State) (sumlen : Nat) : Option State :=
  match loadSummary e s sumlen with
  | none => some { s with control := .done false }
  | some (m, s') => afterSummary e s' (jffs2_sum_scan_sumnode e.big m sumlen e.toSetup s')

/-- The start of a sector. There is no result where a read goes behind the summary. -/
def summaryStep (s : State) : Option State :=
  let s := readMarker e s
  if field e.big s.buf (bufSize - 4) 4 = JFFS2_SUM_MAGIC then
    markedSector e s (sub e.part.sector_size (field e.big s.buf (bufSize - 8) 4))
  else some (sectorStep e.toSetup s)

def sumStep (s : State) : Option State :=
  match s.control with
  | .sector => summaryStep e s
  | _ => some (step e.toSetup s)

/-- The run of the build with summaries, as far as it reads inside of them. -/
def sumRun (buf : Nat → Byte) (n : Nat) : Option State :=
  (fun o => o.bind (sumStep e))^[n] (some (start e.toSetup buf))

end Steps

end UBoot.Jffs2Summary
