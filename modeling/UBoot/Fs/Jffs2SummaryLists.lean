/-
# The lists with summaries

Where the summary of a sector is valid, it is used in place of the scan, and where it is not, the
sector is scanned. If the summaries list what the scan would have found, both builds have the same
lists.
-/

import UBoot.Fs.Jffs2Summary

namespace UBoot.Jffs2Summary

open UBoot.Lib UBoot.Jffs2Scan

/-! ## What is on the flash -/

section Flash

variable (e : SumSetup) (i : Nat)

/-- The marker of a sector. -/
def HasMarker : Prop := field e.big e.content (e.sectorEnd i - 4) 4 = JFFS2_SUM_MAGIC

/-- `sumlen` -/
def sumlen : Nat := sub e.part.sector_size (field e.big e.content (e.sectorEnd i - 8) 4)

/-- What is in the sector from where its summary begins. -/
def summary : Nat → Byte := fun k => e.content (e.sectorEnd i - sumlen e i + k)

/-- Where the summary begins there is room for the node in the sector. -/
def Placed : Prop := 32 ≤ sumlen e i ∧ sumlen e i ≤ e.part.sector_size

def Checked : Prop :=
  HeaderChecked e.big (summary e i) (sumlen e i) ∧ CrcsChecked e.big (summary e i) (sumlen e i)

structure Valid : Prop where
  marker : HasMarker e i
  placed : Placed e i
  checked : Checked e i

/-- What the summary of a sector counts. -/
def recordsOf : Records :=
  records e.big (summary e i) (sumlen e i) (sum_num e.big (summary e i)) 32

/-- The records that the summary counts are in it, as far as they are read. -/
def RecordsInside : Prop :=
  match recordsOf e i with
  | .outside => False
  | .unsupported _ => True
  | .listed entries => ∀ x ∈ entries, x.place + 4 ≤ sumlen e i

def Entry.nodetype : Entry → Nat
  | .inode _ => JFFS2_NODETYPE_INODE
  | .dirent _ => JFFS2_NODETYPE_DIRENT

def IsListed (k : Nat) : Prop := IsInode e.toSetup k ∨ IsDirent e.toSetup k

instance : DecidablePred (IsListed e) := fun _ => inferInstanceAs (Decidable (_ ∨ _))

/-- The summary of a sector lists the inodes and directory entries among some nodes, and nothing
else. -/
def Lists (nodes : List Nat) : Prop :=
  ∃ entries, recordsOf e i = .listed entries ∧
    entries.map (fun x => (x.nodetype, x.offset e.big (summary e i))) =
      (nodes.filter (IsListed e)).map fun k => (nodetype e.big e.content k, k - e.sectorOfs i)

end Flash

/-! ## Bytes of the summary -/

section Bytes

variable {big : Bool} {m m' : Nat → Byte} {n : Nat}

theorem slice_of_bytes {k k' l : Nat} (h : ∀ j < l, m (k + j) = m' (k' + j)) :
    slice m k l = slice m' k' l :=
  List.map_congr_left fun j hj => h j (List.mem_range.mp hj)

theorem field_of_bytes {k k' l : Nat} (h : ∀ j < l, m (k + j) = m' (k' + j)) :
    field big m k l = field big m' k' l := by
  rw [field, field, slice_of_bytes h]

variable (h : ∀ k < n, m k = m' k)
include h

theorem headerChecked_congr (hn : 12 ≤ n) : HeaderChecked big m n ↔ HeaderChecked big m' n := by
  have hbytes {k l : Nat} (hk : k + l ≤ n) : ∀ j < l, m (k + j) = m' (k + j) :=
    fun j hj => h _ (by omega)
  rw [HeaderChecked, HeaderChecked, crcnode, crcnode, slice_of_bytes (hbytes (by omega)),
    field_of_bytes (k := 8) (hbytes (by omega)), field_of_bytes (k := 4) (hbytes (by omega))]

theorem crcsChecked_congr (hn : 32 ≤ n) : CrcsChecked big m n ↔ CrcsChecked big m' n := by
  have hbytes {k l : Nat} (hk : k + l ≤ n) : ∀ j < l, m (k + j) = m' (k + j) :=
    fun j hj => h _ (by omega)
  rw [CrcsChecked, CrcsChecked, crc, crc, crc, crc, slice_of_bytes (k := 0) (hbytes (by omega)),
    slice_of_bytes (k := 32) (hbytes (by omega)),
    field_of_bytes (k := 28) (hbytes (by omega)), field_of_bytes (k := 24) (hbytes (by omega))]

theorem records_congr (left sp : Nat) : records big m n left sp = records big m' n left sp := by
  induction left generalizing sp with
  | zero => rfl
  | succ left ih =>
      rw [records, records]
      split
      · rfl
      · next hin =>
          have hfield : field big m sp 2 = field big m' sp 2 :=
            field_of_bytes fun j hj => h _ (by omega)
          dsimp only
          rw [hfield, ih (sp + 18)]
          split
          · rfl
          · split
            · split
              · rfl
              · rw [h (sp + 22) (by omega), ih]
            · rfl

theorem offset_congr {x : Entry} (hx : x.place + 4 ≤ n) : x.offset big m = x.offset big m' :=
  field_of_bytes fun j hj => h _ (by omega)

theorem insertEntries_congr (e : Setup) (entries : List Entry) (s : State) :
    insertEntries big m n e entries s = insertEntries big m' n e entries s := by
  induction entries generalizing s with
  | nil => rfl
  | cons x entries ih =>
      rw [insertEntries, insertEntries]
      split
      · rfl
      · next hin =>
          rw [offset_congr h (by omega)]
          split
          · rfl
          · cases x with
            | inode _ => exact ih _
            | dirent _ => exact ih _

/-- What is behind the summary does not matter. -/
theorem scan_sumnode_congr (e : Setup) (s : State) :
    jffs2_sum_scan_sumnode big m n e s = jffs2_sum_scan_sumnode big m' n e s := by
  rw [jffs2_sum_scan_sumnode, jffs2_sum_scan_sumnode]
  split
  · rfl
  · next hheader =>
      simp only [headerChecked_congr h (Nat.not_lt.mp hheader)]
      split
      · rfl
      · split
        · rfl
        · next hnode =>
            simp only [crcsChecked_congr h (Nat.not_lt.mp hnode)]
            split
            · rfl
            · have hnum : sum_num big m = sum_num big m' :=
                field_of_bytes fun j hj => h _ (by omega)
              rw [jffs2_sum_process_sum_data, jffs2_sum_process_sum_data, hnum, records_congr h]
              split
              · rfl
              · rfl
              · exact insertEntries_congr h e _ s

end Bytes

/-! ## From the flash to the summary -/

variable {e : SumSetup} {s : State} {i : Nat}

theorem request_offset {left : Nat} (hi : i < e.nr_sectors) (hpos : 0 < left)
    (hleft : left ≤ e.part.sector_size) :
    sub (add e.part.offset (e.sectorEnd i)) left = e.part.offset + (e.sectorEnd i - left) ∧
      left ≤ e.sectorEnd i := by
  have hend := sectorEnd_le hi
  have hpart := e.part.end_le
  have hstart : e.sectorEnd i = e.sectorOfs i + e.part.sector_size := rfl
  rw [sub, add]
  omega

theorem readBack_eq {left len k : Nat} (hi : i < e.nr_sectors) (hpos : 0 < left)
    (hleft : left ≤ e.part.sector_size) (hlen : len ≤ left) (m : Nat → Byte) :
    readBack e i left len m k =
      if k < len then e.content (e.sectorEnd i - left + k) else m k := by
  obtain ⟨hofs, hle⟩ := request_offset hi hpos hleft
  have hend := sectorEnd_le hi
  have hdev := e.inside
  rw [readBack, hofs, e.dev.inside _ _ _ _ (by omega), Setup.content, Nat.add_assoc]

theorem request_inside {left len : Nat} (hi : s.i < e.nr_sectors) (hpos : 0 < left)
    (hleft : left ≤ e.part.sector_size) (hlen : len ≤ left) (hreq : RequestsInside e.toSetup s) :
    RequestsInside e.toSetup (State.request e s left len) := by
  intro r hr
  rw [State.request, List.mem_append, List.mem_singleton] at hr
  obtain hold | rfl := hr
  · exact hreq r hold
  · obtain ⟨hofs, hle⟩ := request_offset hi hpos hleft
    have hend := sectorEnd_le hi
    dsimp only
    rw [hofs]
    omega

/-- The marker in the buffer is the one on the flash. -/
theorem readMarker_spec (hi : s.i < e.nr_sectors) (hsector : 8 ≤ e.part.sector_size) (k : Nat)
    (hk : k < 8) : (readMarker e s).buf (bufSize - 8 + k) = e.content (e.sectorEnd s.i - 8 + k) := by
  change overwrite s.buf (bufSize - 8) _ (bufSize - 8 + k) = _
  rw [overwrite, if_neg (Nat.not_lt.mpr (Nat.le_add_right _ _)), Nat.add_sub_cancel_left,
    readBack_eq hi (by decide) hsector le_rfl, if_pos hk]

theorem marker_iff (hi : s.i < e.nr_sectors) (hsector : 8 ≤ e.part.sector_size) :
    field e.big (readMarker e s).buf (bufSize - 4) 4 = JFFS2_SUM_MAGIC ↔ HasMarker e s.i := by
  have hle := (request_offset hi (by decide : 0 < 8) hsector).2
  have hfield : field e.big (readMarker e s).buf (bufSize - 4) 4 =
      field e.big e.content (e.sectorEnd s.i - 4) 4 := by
    refine field_of_bytes fun j hj => ?_
    have hbyte := readMarker_spec hi hsector (4 + j) (by omega)
    rw [← Nat.add_assoc, ← Nat.add_assoc] at hbyte
    rw [show e.sectorEnd s.i - 4 = e.sectorEnd s.i - 8 + 4 by omega]
    exact hbyte
  rw [hfield, HasMarker]

theorem marker_sumlen (hi : s.i < e.nr_sectors) (hsector : 8 ≤ e.part.sector_size) :
    sub e.part.sector_size (field e.big (readMarker e s).buf (bufSize - 8) 4) = sumlen e s.i := by
  have hfield : field e.big (readMarker e s).buf (bufSize - 8) 4 =
      field e.big e.content (e.sectorEnd s.i - 8) 4 :=
    field_of_bytes fun j hj => readMarker_spec hi hsector j (by omega)
  rw [hfield, sumlen]

/-- The state while the summary is read, apart from the buffer. -/
structure Loaded (e : SumSetup) (s s' : State) : Prop where
  control : s'.control = s.control
  i : s'.i = s.i
  frag : s'.frag = s.frag
  dir : s'.dir = s.dir
  max_totlen : s'.max_totlen = s.max_totlen
  requests : RequestsInside e.toSetup s'

/-- What is read in front of the marker, and the marker itself. -/
theorem readSummary_eq (hi : i < e.nr_sectors) (hplaced : Placed e i) {m : Nat → Byte}
    (hmarker : ∀ k < 8, m (sumlen e i - 8 + k) = e.content (e.sectorEnd i - 8 + k)) :
    ∀ k < sumlen e i, readSummary e i (sumlen e i) m k = summary e i k := by
  intro k hk
  obtain ⟨hlow, hhigh⟩ := hplaced
  have hle := (request_offset hi (by omega) hhigh).2
  rw [readSummary, if_pos (by omega), readBack_eq hi (by omega) hhigh (Nat.sub_le _ _), summary]
  split
  · rfl
  · have hbyte := hmarker (k - (sumlen e i - 8)) (by omega)
    rw [show sumlen e i - 8 + (k - (sumlen e i - 8)) = k by omega] at hbyte
    rw [hbyte]
    congr 1
    omega

/-- A request does not change the rest of the state. -/
theorem Loaded.request {s' : State} (h : Loaded e s s') {left len : Nat} (hi : s.i < e.nr_sectors)
    (hpos : 0 < left) (hleft : left ≤ e.part.sector_size) (hlen : len ≤ left) (buf : Nat → Byte) :
    Loaded e s { State.request e s' left len with buf := buf } := by
  have hi' : s'.i < e.nr_sectors := by rwa [h.i]
  have hreq := request_inside hi' hpos hleft hlen h.requests
  exact ⟨h.control, h.i, h.frag, h.dir, h.max_totlen, hreq⟩

theorem readMarker_loaded (hi : s.i < e.nr_sectors) (hsector : 8 ≤ e.part.sector_size)
    (hreq : RequestsInside e.toSetup s) : Loaded e s (readMarker e s) :=
  Loaded.request ⟨rfl, rfl, rfl, rfl, rfl, hreq⟩ hi (by decide) hsector le_rfl _

theorem loadSummary_spec (hi : s.i < e.nr_sectors) (hsector : 8 ≤ e.part.sector_size)
    (hplaced : Placed e s.i) (hreq : RequestsInside e.toSetup s) :
    (loadSummary e (readMarker e s) (sumlen e s.i) = none ∧ e.malloc (sumlen e s.i) = none) ∨
      ∃ m s', loadSummary e (readMarker e s) (sumlen e s.i) = some (m, s') ∧ Loaded e s s' ∧
        ∀ k < sumlen e s.i, m k = summary e s.i k := by
  have hmarker := readMarker_spec hi hsector
  have hfirst := readMarker_loaded hi hsector hreq
  have hlong : 8 < sumlen e s.i := (by decide : 8 < 32).trans_le hplaced.1
  have hloaded (buf : Nat → Byte) :=
    hfirst.request hi (Nat.zero_lt_of_lt hlong) hplaced.2 (Nat.sub_le (sumlen e s.i) 8) buf
  generalize readMarker e s = s₁ at *
  have hi₁ := hfirst.i
  rw [loadSummary, if_pos hlong]
  dsimp only
  split
  · cases hmalloc : e.malloc (sumlen e s.i) with
    | none => exact .inl ⟨rfl, rfl⟩
    | some m =>
        rw [hi₁]
        refine .inr ⟨_, _, rfl, hloaded s₁.buf, ?_⟩
        refine readSummary_eq hi hplaced fun k hk => ?_
        rw [overwrite, if_neg (by omega), Nat.add_sub_cancel_left, if_pos hk]
        exact hmarker k hk
  · next hsmall =>
      rw [hi₁]
      refine .inr ⟨_, _, rfl, hloaded _, ?_⟩
      refine readSummary_eq hi hplaced fun k hk => ?_
      have hplace : bufSize - sumlen e s.i + (sumlen e s.i - 8 + k) = bufSize - 8 + k := by omega
      rw [hplace]
      exact hmarker k hk

/-! ## What is inserted -/

/-- The offsets on the device that records of a kind stand for. -/
def added (e : SumSetup) (i kind : Nat) (entries : List Entry) : List Nat :=
  (entries.filter (·.nodetype = kind)).map fun x =>
    add (add e.part.offset (e.sectorOfs i)) (x.offset e.big (summary e i))

theorem added_cons (x : Entry) (kind : Nat) (entries : List Entry) :
    added e i kind (x :: entries) = (if x.nodetype = kind then
      [add (add e.part.offset (e.sectorOfs i)) (x.offset e.big (summary e i))] else []) ++
        added e i kind entries := by
  rw [added, added, List.filter_cons]
  by_cases h : x.nodetype = kind
  · simp [h]
  · simp [h]

/-- Records inside of the summary are inserted, if there is memory. -/
theorem insertEntries_spec {entries : List Entry} (hin : ∀ x ∈ entries, x.place + 4 ≤ sumlen e s.i) :
    (insertEntries e.big (summary e s.i) (sumlen e s.i) e.toSetup entries s = .failed ∧
        ∃ n, e.alloc n = false) ∨
      ∃ s', insertEntries e.big (summary e s.i) (sumlen e s.i) e.toSetup entries s = .used s' ∧
        s' = { s with
          frag := s.frag ++ added e s.i JFFS2_NODETYPE_INODE entries
          dir := s.dir ++ added e s.i JFFS2_NODETYPE_DIRENT entries } := by
  induction entries generalizing s with
  | nil => exact .inr ⟨s, rfl, by simp [added]⟩
  | cons x entries ih =>
      obtain ⟨hx, hrest⟩ := List.forall_mem_cons.mp hin
      rw [insertEntries, if_neg (Nat.not_lt.mpr hx)]
      split
      · next hroom => exact .inl ⟨rfl, _, Bool.eq_false_iff.mpr hroom⟩
      · rw [added_cons, added_cons]
        cases x with
        | inode sp =>
            obtain hfailed | ⟨s', hused, rfl⟩ := ih (s := { s with frag := s.frag ++
              [add (add e.part.offset (e.sectorOfs s.i))
                ((Entry.inode sp).offset e.big (summary e s.i))] }) hrest
            · exact .inl hfailed
            · refine .inr ⟨_, hused, ?_⟩
              simp [Entry.nodetype, JFFS2_NODETYPE_INODE, JFFS2_NODETYPE_DIRENT]
        | dirent sp =>
            obtain hfailed | ⟨s', hused, rfl⟩ := ih (s := { s with dir := s.dir ++
              [add (add e.part.offset (e.sectorOfs s.i))
                ((Entry.dirent sp).offset e.big (summary e s.i))] }) hrest
            · exact .inl hfailed
            · refine .inr ⟨_, hused, ?_⟩
              simp [Entry.nodetype, JFFS2_NODETYPE_INODE, JFFS2_NODETYPE_DIRENT]

/-! ## The start of a sector -/

/-- If a sector has a marker, it says where there is room for a summary; and the records of a
summary whose checks hold are in it. -/
structure SectorOk (e : SumSetup) (i : Nat) : Prop where
  placed : HasMarker e i → Placed e i
  inside : HasMarker e i → Checked e i → RecordsInside e i

/-- What happens at the start of a sector: it is scanned, there is an error, or its summary is
used. -/
inductive Starts (e : SumSetup) (s : State) : Prop
  | scanned (s' : State) (hloaded : Loaded e s s')
      (hstep : summaryStep e s = some (sectorStep e.toSetup s'))
      (hwhy : ¬Valid e s.i ∨ ∃ nodetype, recordsOf e s.i = .unsupported nodetype)
  | failed (s' : State) (hloaded : Loaded e s s')
      (hstep : summaryStep e s = some { s' with control := .done false })
      (hwhy : (∃ len ≤ e.part.sector_size, e.malloc len = none) ∨ Valid e s.i ∧
        ((∃ n, e.alloc n = false) ∨ ∃ nodetype, recordsOf e s.i = .unsupported nodetype))
  | used (s' : State) (entries : List Entry) (hloaded : Loaded e s s') (hvalid : Valid e s.i)
      (hlisted : recordsOf e s.i = .listed entries)
      (hstep : summaryStep e s = some (nextSector e.toSetup { s' with
        frag := s.frag ++ added e s.i JFFS2_NODETYPE_INODE entries
        dir := s.dir ++ added e s.i JFFS2_NODETYPE_DIRENT entries }))

/-- How the summary node is taken, if there is room for it where the marker says. -/
theorem scan_sumnode_cases (hplaced : Placed e i) (hin : Checked e i → RecordsInside e i)
    (hs : s.i = i) :
    let outcome := jffs2_sum_scan_sumnode e.big (summary e i) (sumlen e i) e.toSetup s
    (outcome = .skipped ∧
        (¬Checked e i ∨ ∃ nodetype, recordsOf e i = .unsupported nodetype)) ∨
      (outcome = .failed ∧ Checked e i ∧
        ((∃ n, e.alloc n = false) ∨ ∃ nodetype, recordsOf e i = .unsupported nodetype)) ∨
      ∃ entries, Checked e i ∧ recordsOf e i = .listed entries ∧
        outcome = .used { s with
          frag := s.frag ++ added e i JFFS2_NODETYPE_INODE entries
          dir := s.dir ++ added e i JFFS2_NODETYPE_DIRENT entries } := by
  subst hs
  have hlow := hplaced.1
  dsimp only
  rw [jffs2_sum_scan_sumnode, if_neg (by omega)]
  split
  · next hheader => exact .inl ⟨rfl, .inl fun h => hheader h.1⟩
  · next hheader =>
      rw [if_neg (by omega)]
      split
      · next hcrcs => exact .inl ⟨rfl, .inl fun h => hcrcs h.2⟩
      · next hcrcs =>
          have hchecked : Checked e s.i := ⟨not_not.mp hheader, not_not.mp hcrcs⟩
          have hinside := hin hchecked
          rw [RecordsInside] at hinside
          rw [jffs2_sum_process_sum_data, ← recordsOf]
          cases hrecords : recordsOf e s.i with
          | outside =>
              rw [hrecords] at hinside
              exact hinside.elim
          | unsupported nodetype =>
              dsimp only
              split
              · exact .inr (.inl ⟨rfl, hchecked, .inr ⟨nodetype, rfl⟩⟩)
              · exact .inl ⟨rfl, .inr ⟨nodetype, rfl⟩⟩
          | listed entries =>
              rw [hrecords] at hinside
              obtain ⟨hfailed, halloc⟩ | ⟨s', hused, rfl⟩ := insertEntries_spec hinside
              · exact .inr (.inl ⟨hfailed, hchecked, .inl halloc⟩)
              · exact .inr (.inr ⟨entries, hchecked, rfl, hused⟩)

theorem summaryStep_marker (hi : s.i < e.nr_sectors) (hsector : 8 ≤ e.part.sector_size)
    (hmarker : HasMarker e s.i) :
    summaryStep e s = markedSector e (readMarker e s) (sumlen e s.i) := by
  rw [← marker_sumlen hi hsector]
  exact if_pos ((marker_iff hi hsector).mpr hmarker)

theorem summaryStep_unmarked (hi : s.i < e.nr_sectors) (hsector : 8 ≤ e.part.sector_size)
    (hmarker : ¬HasMarker e s.i) :
    summaryStep e s = some (sectorStep e.toSetup (readMarker e s)) :=
  if_neg fun h => hmarker ((marker_iff hi hsector).mp h)

theorem summaryStep_starts (hi : s.i < e.nr_sectors) (hsector : 8 ≤ e.part.sector_size)
    (hok : SectorOk e s.i) (hreq : RequestsInside e.toSetup s) : Starts e s := by
  have hfirst := readMarker_loaded hi hsector hreq
  by_cases hmarker : HasMarker e s.i
  · have hplaced := hok.placed hmarker
    have hvalid (hchecked : Checked e s.i) : Valid e s.i := ⟨hmarker, hplaced, hchecked⟩
    have hstep := summaryStep_marker hi hsector hmarker
    obtain ⟨hnone, hmalloc⟩ | ⟨m, s', hload, hloaded, hbytes⟩ :=
      loadSummary_spec hi hsector hplaced hreq
    · rw [markedSector, hnone] at hstep
      exact .failed _ hfirst hstep (.inl ⟨_, hplaced.2, hmalloc⟩)
    · rw [markedSector, hload] at hstep
      dsimp only at hstep
      rw [scan_sumnode_congr hbytes] at hstep
      obtain ⟨hout, hwhy⟩ | ⟨hout, hchecked, hwhy⟩ | ⟨entries, hchecked, hlisted, hout⟩ :=
        scan_sumnode_cases hplaced (hok.inside hmarker) hloaded.i
      · rw [hout, afterSummary] at hstep
        exact .scanned s' hloaded hstep (hwhy.imp_left fun h hv => h hv.checked)
      · rw [hout, afterSummary] at hstep
        exact .failed s' hloaded hstep (.inr ⟨hvalid hchecked, hwhy⟩)
      · rw [hout, afterSummary, hloaded.frag, hloaded.dir] at hstep
        exact .used s' entries hloaded (hvalid hchecked) hlisted hstep
  · exact .scanned _ hfirst (summaryStep_unmarked hi hsector hmarker)
      (.inl fun hvalid => hmarker hvalid.marker)

end UBoot.Jffs2Summary
