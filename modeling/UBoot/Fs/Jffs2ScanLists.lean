/-
# The lists of the scan

Whatever a sector holds, the scan meets headers in it. What is still to be found of them goes along
with the scan: each node of a list is put there when the scan comes to it, and the others are passed
over. A sector that holds nodes and erased words, one behind the other, is one whose nodes are all
met.
-/

import UBoot.Fs.Jffs2ScanRuns

namespace UBoot.Jffs2Scan

open UBoot.Lib

variable (e : Setup)

/-! ## What is on the flash -/

/-- The length of a node with the bytes that follow it up to the next word. -/
def padded (totlen : Nat) : Nat := (totlen + 3) / 4 * 4

/-- A node at `k`, in a sector that ends at `limit`. -/
structure Node (limit k : Nat) : Prop where
  magic : magic e.big e.content k = JFFS2_MAGIC_BITMASK
  hdr_crc : hdr_crc e.big e.content k
  header : 12 ≤ totlen e.big e.content k
  fits : k + totlen e.big e.content k ≤ limit
  inode : nodetype e.big e.content k = JFFS2_NODETYPE_INODE → 68 ≤ totlen e.big e.content k
  dirent : nodetype e.big e.content k = JFFS2_NODETYPE_DIRENT →
    40 + nsize e.content k ≤ totlen e.big e.content k

/-- The nodes from `k` up to the end of the sector, with nothing but erased words between them. -/
inductive Layout (limit : Nat) : Nat → List Nat → Prop
  | done {k : Nat} (hend : limit ≤ k) : Layout limit k []
  | word {k : Nat} {nodes : List Nat} (hlt : k < limit)
      (hword : field e.big e.content k 4 = erased) (hrest : Layout limit (k + 4) nodes) :
      Layout limit k nodes
  | node {k : Nat} {nodes : List Nat} (hnode : Node e limit k)
      (hrest : Layout limit (k + padded (totlen e.big e.content k)) nodes) :
      Layout limit k (k :: nodes)

/-- A sector is empty, or its first node begins before the words end that are looked at first. -/
def Sector (i : Nat) (nodes : List Nat) : Prop :=
  Layout e (e.sectorEnd i) (e.sectorOfs i) nodes ∧
    ∀ k ∈ nodes.head?, k < e.sectorOfs i + e.emptyScanSize

/-- The nodes of the sectors from the `i`th on. -/
def nodesFrom (nodes : Nat → List Nat) (i : Nat) : List Nat :=
  (List.range' i (e.nr_sectors - i)).flatMap nodes

/-- The nodes of the two lists. -/
def IsInode (k : Nat) : Prop :=
  nodetype e.big e.content k = JFFS2_NODETYPE_INODE ∧ inode_crc e.big e.content k

def IsDirent (k : Nat) : Prop :=
  nodetype e.big e.content k = JFFS2_NODETYPE_DIRENT ∧
    dirent_crc e.big e.content k ∧ dirent_name_crc e.big e.content k

instance : DecidablePred (IsInode e) := fun _ => inferInstanceAs (Decidable (_ ∧ _))
instance : DecidablePred (IsDirent e) := fun _ => inferInstanceAs (Decidable (_ ∧ _))

/-- The offsets on the device of those nodes that belong to a list. -/
def listed (belongs : Nat → Prop) [DecidablePred belongs] (nodes : List Nat) : List Nat :=
  (nodes.filter belongs).map (e.part.offset + ·)

/-! ## What is met -/

/-- A header that the scan accepts, in a sector that ends at `limit`. -/
structure Header (limit k : Nat) : Prop where
  magic : magic e.big e.content k = JFFS2_MAGIC_BITMASK
  hdr_crc : hdr_crc e.big e.content k
  fits : add k (totlen e.big e.content k) ≤ limit

/-- The headers from `k` up to the end of the sector, as they follow each other. Words without a
header are passed over, erased or not. -/
inductive Walk (limit : Nat) : Nat → List Nat → Prop
  | done {k : Nat} (hend : limit < k + 12) : Walk limit k []
  | word {k : Nat} {nodes : List Nat} (hfits : k + 12 ≤ limit)
      (hword : field e.big e.content k 4 = erased) (hrest : Walk limit (k + 4) nodes) :
      Walk limit k nodes
  | junk {k : Nat} {nodes : List Nat} (hfits : k + 12 ≤ limit)
      (hword : field e.big e.content k 4 ≠ erased) (hnone : ¬Header e limit k)
      (hrest : Walk limit (k + 4) nodes) : Walk limit k nodes
  | node {k : Nat} {nodes : List Nat} (hfits : k + 12 ≤ limit) (hheader : Header e limit k)
      (hrest : Walk limit (k + max 4 (roundUp (totlen e.big e.content k))) nodes) :
      Walk limit k (k :: nodes)

/-- The words at the start of the sector that are looked at first are erased. -/
def Empty (i : Nat) : Prop :=
  erasedBytes e (fun k => e.content (e.sectorOfs i + k)) (e.emptyScanSize / 4) 0 = e.emptyScanSize

instance (i : Nat) : Decidable (Empty e i) := inferInstanceAs (Decidable (_ = _))

/-- The headers that are met in a sector. -/
def Met (i : Nat) (nodes : List Nat) : Prop :=
  if Empty e i then nodes = [] else Walk e (e.sectorEnd i) (e.sectorOfs i) nodes

/-- What is read of a node for its list is in the sector. -/
structure Whole (limit k : Nat) : Prop where
  inode : nodetype e.big e.content k = JFFS2_NODETYPE_INODE → k + 68 ≤ limit
  dirent : nodetype e.big e.content k = JFFS2_NODETYPE_DIRENT →
    k + (40 + nsize e.content k) ≤ limit

/-! ## Layouts -/

section Layouts

variable {e} {limit k : Nat} {nodes : List Nat}

/-- The magic number of an erased word is none. -/
theorem magic_ne_of_erased {big : Bool} {m : Nat → Byte}
    (h : field big m k 4 = erased) : magic big m k ≠ JFFS2_MAGIC_BITMASK := by
  have h₀ := (m k).isLt
  have h₁ := (m (k + 1)).isLt
  have h₂ := (m (k + 2)).isLt
  have h₃ := (m (k + 3)).isLt
  rw [field, slice, erased] at h
  rw [magic, field, slice, JFFS2_MAGIC_BITMASK]
  cases big
  · simp [value, List.range_succ] at h ⊢
    omega
  · simp [value, List.range_succ] at h ⊢
    omega

theorem le_padded (t : Nat) : t ≤ padded t := by
  rw [padded]
  omega

theorem Layout.of_word (h : Layout e limit k nodes) (hlt : k < limit)
    (hword : field e.big e.content k 4 = erased) : Layout e limit (k + 4) nodes := by
  cases h with
  | done hend => exact absurd hlt (Nat.not_lt.mpr hend)
  | word _ _ hrest => exact hrest
  | node hnode _ => exact absurd hnode.magic (magic_ne_of_erased hword)

/-- Where no header has room there is no node. -/
theorem Layout.eq_nil (h : Layout e limit k nodes) (hshort : limit < k + 12) : nodes = [] := by
  induction h with
  | done _ => rfl
  | word _ _ _ ih => exact ih (by omega)
  | node hnode _ _ =>
      have hheader := hnode.header
      have hfits := hnode.fits
      omega

theorem Layout.mem_bounds (h : Layout e limit k nodes) : ∀ n ∈ nodes, k ≤ n ∧ n < limit := by
  induction h with
  | done _ => nofun
  | word _ _ _ ih => exact fun n hn => ⟨(Nat.le_add_right _ _).trans (ih n hn).1, (ih n hn).2⟩
  | @node k nodes hnode _ ih =>
      have hheader := hnode.header
      have hfits := hnode.fits
      intro n hn
      obtain rfl | hlater := List.mem_cons.mp hn
      · exact ⟨le_rfl, by omega⟩
      · exact ⟨(Nat.le_add_right _ _).trans (ih n hlater).1, (ih n hlater).2⟩

theorem Layout.pairwise (h : Layout e limit k nodes) : nodes.Pairwise (· < ·) := by
  induction h with
  | done _ => exact List.Pairwise.nil
  | word _ _ _ ih => exact ih
  | @node k nodes hnode hrest ih =>
      refine List.pairwise_cons.mpr ⟨fun n hn => ?_, ih⟩
      have hheader := hnode.header
      have hpadded := le_padded (totlen e.big e.content k)
      have hafter := (hrest.mem_bounds n hn).1
      omega

theorem Walk.of_word (h : Walk e limit k nodes) (hword : field e.big e.content k 4 = erased) :
    Walk e limit (k + 4) nodes := by
  cases h with
  | done hend => exact .done (by omega)
  | word _ _ hrest => exact hrest
  | junk _ hne _ _ => exact absurd hword hne
  | node _ hheader _ => exact absurd hheader.magic (magic_ne_of_erased hword)

theorem Walk.of_junk (h : Walk e limit k nodes) (hnone : ¬Header e limit k) :
    Walk e limit (k + 4) nodes := by
  cases h with
  | done hend => exact .done (by omega)
  | word _ _ hrest => exact hrest
  | junk _ _ _ hrest => exact hrest
  | node _ hheader _ => exact absurd hheader hnone

theorem Walk.of_header (h : Walk e limit k nodes) (hfits : k + 12 ≤ limit)
    (hheader : Header e limit k) : ∃ rest, nodes = k :: rest ∧
      Walk e limit (k + max 4 (roundUp (totlen e.big e.content k))) rest := by
  cases h with
  | done hend => exact absurd hfits (Nat.not_le.mpr hend)
  | word _ hword _ => exact absurd hheader.magic (magic_ne_of_erased hword)
  | junk _ _ hnone _ => exact absurd hheader hnone
  | node _ _ hrest => exact ⟨_, rfl, hrest⟩

theorem Walk.eq_nil (h : Walk e limit k nodes) (hshort : limit < k + 12) : nodes = [] := by
  cases h with
  | done _ => rfl
  | word hfits _ _ => exact absurd hfits (Nat.not_le.mpr hshort)
  | junk hfits _ _ _ => exact absurd hfits (Nat.not_le.mpr hshort)
  | node hfits _ _ => exact absurd hfits (Nat.not_le.mpr hshort)

/-- Whatever there is, some headers are met. -/
theorem exists_walk (e : Setup) (limit k : Nat) : ∃ nodes, Walk e limit k nodes := by
  induction hleft : limit - k using Nat.strong_induction_on generalizing k with
  | _ left ih =>
      by_cases hfits : k + 12 ≤ limit
      · by_cases hheader : Header e limit k
        · have hmax := Nat.le_max_left 4 (roundUp (totlen e.big e.content k))
          obtain ⟨nodes, hrest⟩ :=
            ih _ (by omega) (k + max 4 (roundUp (totlen e.big e.content k))) rfl
          exact ⟨_, .node hfits hheader hrest⟩
        · obtain ⟨nodes, hrest⟩ := ih _ (by omega) (k + 4) rfl
          by_cases hword : field e.big e.content k 4 = erased
          · exact ⟨nodes, .word hfits hword hrest⟩
          · exact ⟨nodes, .junk hfits hword hheader hrest⟩
      · exact ⟨[], .done (Nat.not_le.mp hfits)⟩

/-- The nodes of a sector are met, and they are whole. -/
theorem Layout.walk (h : Layout e limit k nodes) (hlimit : limit < 2 ^ 32) (hdvd : 4 ∣ limit) :
    Walk e limit k nodes ∧ ∀ n ∈ nodes, Whole e limit n := by
  induction h with
  | done hend => exact ⟨.done (by omega), nofun⟩
  | @word k nodes hlt hword hrest ih =>
      refine ⟨?_, ih.2⟩
      by_cases hfits : k + 12 ≤ limit
      · exact .word hfits hword ih.1
      · rw [hrest.eq_nil (by omega)]
        exact .done (Nat.not_le.mp hfits)
  | @node k nodes hnode hrest ih =>
      have hheader := hnode.header
      have hfits := hnode.fits
      have hround : max 4 (roundUp (totlen e.big e.content k)) =
          padded (totlen e.big e.content k) := by
        rw [padded, roundUp, add_of_lt (by omega)]
        omega
      refine ⟨.node (by omega) ⟨hnode.magic, hnode.hdr_crc, ?_⟩ ?_, ?_⟩
      · rw [add_of_lt (by omega)]
        exact hfits
      · rw [hround]
        exact ih.1
      · refine List.forall_mem_cons.mpr ⟨⟨fun htype => ?_, fun htype => ?_⟩, ih.2⟩
        · have hlength := hnode.inode htype
          omega
        · have hlength := hnode.dirent htype
          omega

end Layouts

/-! ## Sectors one behind the other -/

variable {e} {nodes : Nat → List Nat}

theorem nodesFrom_next {i : Nat} (h : i < e.nr_sectors) :
    nodesFrom e nodes i = nodes i ++ nodesFrom e nodes (i + 1) := by
  obtain ⟨left, hleft⟩ : ∃ left, e.nr_sectors - i = left + 1 := ⟨e.nr_sectors - i - 1, by omega⟩
  have hnext : e.nr_sectors - (i + 1) = left := by omega
  rw [nodesFrom, nodesFrom, hleft, hnext, List.range'_succ, List.flatMap_cons]

theorem nodesFrom_end {i : Nat} (h : e.nr_sectors ≤ i) : nodesFrom e nodes i = [] := by
  rw [nodesFrom, Nat.sub_eq_zero_of_le h]
  rfl

/-- No node is there twice. -/
theorem nodesFrom_pairwise (hsectors : ∀ i < e.nr_sectors, Sector e i (nodes i)) :
    (nodesFrom e nodes 0).Pairwise (· < ·) := by
  rw [nodesFrom, List.pairwise_flatMap]
  constructor
  · intro i hi
    have hlt : i < e.nr_sectors := by
      have := List.mem_range'_1.mp hi
      omega
    exact (hsectors i hlt).1.pairwise
  · refine (List.pairwise_lt_range' (s := 0) (n := e.nr_sectors - 0)).imp_of_mem ?_
    intro i j hi hj hij x hx y hy
    have hj' : j < e.nr_sectors := by
      have := List.mem_range'_1.mp hj
      omega
    have hbefore := ((hsectors i (hij.trans hj')).1.mem_bounds x hx).2
    have hafter := ((hsectors j hj').1.mem_bounds y hy).1
    have hsectors : e.sectorEnd i ≤ e.sectorOfs j := by
      rw [Setup.sectorEnd, Setup.sectorOfs, ← Nat.succ_mul]
      exact Nat.mul_le_mul_right _ hij
    exact hbefore.trans_le (hsectors.trans hafter)

theorem listed_pairwise {belongs : Nat → Prop} [DecidablePred belongs] {l : List Nat}
    (h : l.Pairwise (· < ·)) : (listed e belongs l).Pairwise (· < ·) :=
  List.pairwise_map.mpr ((h.filter _).imp fun hlt => Nat.add_lt_add_left hlt _)

theorem listed_cons_of_pos {belongs : Nat → Prop} [DecidablePred belongs] {k : Nat}
    {rest : List Nat} (h : belongs k) :
    listed e belongs (k :: rest) = (e.part.offset + k) :: listed e belongs rest := by
  simp only [listed, List.filter_cons, h, decide_true, if_true, List.map_cons]

theorem listed_cons_of_neg {belongs : Nat → Prop} [DecidablePred belongs] {k : Nat}
    {rest : List Nat} (h : ¬belongs k) : listed e belongs (k :: rest) = listed e belongs rest := by
  simp only [listed, List.filter_cons, h, decide_false, Bool.false_eq_true, if_false]

/-! ## What is to be found -/

/-- With the nodes that are left, the two lists are those of all nodes. -/
structure Found (e : Setup) (all : List Nat) (s : State) (rest : List Nat) : Prop where
  frag : s.frag ++ listed e (IsInode e) rest = listed e (IsInode e) all
  dir : s.dir ++ listed e (IsDirent e) rest = listed e (IsDirent e) all

/-- What is met of a sector from `k` on, and with the later sectors still to be found. -/
structure Ahead (e : Setup) (nodes : Nat → List Nat) (s : State) (k : Nat) (rest : List Nat) :
    Prop where
  walk : Walk e (e.sectorEnd s.i) k rest
  whole : ∀ n ∈ rest, Whole e (e.sectorEnd s.i) n
  found : Found e (nodesFrom e nodes 0) s (rest ++ nodesFrom e nodes (s.i + 1))

/-- The lists so far, at each place of the scan. An offset that has been seen is passed over. -/
def Todo (e : Setup) (nodes : Nat → List Nat) (s : State) : Prop :=
  match s.control with
  | .sector => Found e (nodesFrom e nodes 0) s (nodesFrom e nodes s.i)
  | .scan => ∃ rest, Ahead e nodes s (if s.ofs = s.prevofs then s.ofs + 4 else s.ofs) rest
  | .empty _ => ∃ rest, Ahead e nodes s s.ofs rest
  | .done true => Found e (nodesFrom e nodes 0) s []
  | .done false => ∃ n, e.alloc n = false

section Found

variable {s : State} {all rest : List Nat} {k : Nat}

/-- A node of neither list. -/
theorem Found.skip (h : Found e all s (k :: rest)) (hinode : ¬IsInode e k)
    (hdirent : ¬IsDirent e k) : Found e all s rest := by
  obtain ⟨hfrag, hdir⟩ := h
  rw [listed_cons_of_neg hinode] at hfrag
  rw [listed_cons_of_neg hdirent] at hdir
  exact ⟨hfrag, hdir⟩

theorem not_isDirent_of_inode (h : nodetype e.big e.content k = JFFS2_NODETYPE_INODE) :
    ¬IsDirent e k := by
  rintro ⟨htype, -⟩
  rw [h] at htype
  exact absurd htype (by decide)

theorem not_isInode_of_dirent (h : nodetype e.big e.content k = JFFS2_NODETYPE_DIRENT) :
    ¬IsInode e k := by
  rintro ⟨htype, -⟩
  rw [h] at htype
  exact absurd htype (by decide)

theorem Found.inode (h : Found e all s (k :: rest)) (hinode : IsInode e k) (max_totlen : Nat) :
    Found e all { s with frag := s.frag ++ [e.part.offset + k], max_totlen := max_totlen }
      rest := by
  obtain ⟨hfrag, hdir⟩ := h
  rw [listed_cons_of_pos hinode] at hfrag
  rw [listed_cons_of_neg (not_isDirent_of_inode hinode.1)] at hdir
  exact ⟨by rw [List.append_assoc]; exact hfrag, hdir⟩

theorem Found.dirent (h : Found e all s (k :: rest)) (hdirent : IsDirent e k) (max_totlen : Nat) :
    Found e all { s with dir := s.dir ++ [e.part.offset + k], max_totlen := max_totlen }
      rest := by
  obtain ⟨hfrag, hdir⟩ := h
  rw [listed_cons_of_neg (not_isInode_of_dirent hdirent.1)] at hfrag
  rw [listed_cons_of_pos hdirent] at hdir
  exact ⟨hfrag, by rw [List.append_assoc]; exact hdir⟩

/-- The next sector, or the end. -/
theorem nextSector_todo (h : Found e (nodesFrom e nodes 0) s (nodesFrom e nodes (s.i + 1))) :
    Todo e nodes (nextSector e s) := by
  rw [nextSector]
  by_cases hmore : s.i + 1 < e.nr_sectors
  · rw [if_pos hmore]
    exact ⟨h.frag, h.dir⟩
  · rw [if_neg hmore]
    rw [nodesFrom_end (Nat.le_of_not_lt hmore)] at h
    exact ⟨h.frag, h.dir⟩

theorem scan_todo {k : Nat} (hcontrol : s.control = .scan)
    (hk : (if s.ofs = s.prevofs then s.ofs + 4 else s.ofs) = k) (hahead : Ahead e nodes s k rest) :
    Todo e nodes s := by
  rw [Todo, hcontrol]
  exact ⟨rest, hk ▸ hahead⟩

theorem empty_todo {scan_end : Nat} (hcontrol : s.control = .empty scan_end)
    (hahead : Ahead e nodes s s.ofs rest) : Todo e nodes s := by
  rw [Todo, hcontrol]
  exact ⟨rest, hahead⟩

/-- Words without a header in the sector, and the rest behind them. -/
theorem Ahead.word (h : Ahead e nodes s k rest) (hword : field e.big e.content k 4 = erased) :
    Ahead e nodes s (k + 4) rest := ⟨h.walk.of_word hword, h.whole, h.found⟩

theorem Ahead.junk (h : Ahead e nodes s k rest) (hnone : ¬Header e (e.sectorEnd s.i) k) :
    Ahead e nodes s (k + 4) rest := ⟨h.walk.of_junk hnone, h.whole, h.found⟩

/-- The rest of a sector without room for a header. -/
theorem Ahead.next (h : Ahead e nodes s k rest) (hshort : e.sectorEnd s.i < k + 12) :
    Found e (nodesFrom e nodes 0) s (nodesFrom e nodes (s.i + 1)) := by
  obtain rfl := h.walk.eq_nil hshort
  exact h.found

/-- There is no memory for the list node. -/
theorem fails_todo (hroom : ¬room e s = true) : Todo e nodes { s with control := .done false } :=
  ⟨_, Bool.eq_false_iff.mpr hroom⟩

end Found

/-! ## Nodes in the buffer -/

theorem slice_of_slice {m m' : Nat → Byte} {k k' n j l : Nat} (h : slice m k n = slice m' k' n)
    (hj : j + l ≤ n) : slice m (k + j) l = slice m' (k' + j) l := by
  rw [← slice_slice hj, ← slice_slice hj, h]

theorem crc_of_slice {m m' : Nat → Byte} {k k' n l : Nat} (h : slice m k n = slice m' k' n)
    (hl : l ≤ n) : crc m k l = crc m' k' l := by
  have heq := slice_of_slice (j := 0) h (by omega : 0 + l ≤ n)
  rw [Nat.add_zero, Nat.add_zero] at heq
  rw [crc, crc, heq]

theorem nsize_of_slice {m m' : Nat → Byte} {k k' n : Nat} (h : slice m k n = slice m' k' n)
    (hn : 29 ≤ n) : nsize m k = nsize m' k' := by
  have heq := slice_of_slice (j := 28) h (by omega : 28 + 1 ≤ n)
  rw [slice, slice] at heq
  simpa only [nsize, List.range_one, List.map_cons, Nat.add_zero, List.map_nil, List.cons.injEq,
    and_true] using congrArg (List.map BitVec.toNat) heq

theorem inode_crc_of_slice {m m' : Nat → Byte} {k k' : Nat}
    (h : slice m k 68 = slice m' k' 68) (big : Bool) :
    inode_crc big m k ↔ inode_crc big m' k' := by
  rw [inode_crc, inode_crc, field_of_slice h (by decide), crc_of_slice h (by decide)]

theorem dirent_crc_of_slice {m m' : Nat → Byte} {k k' n : Nat}
    (h : slice m k n = slice m' k' n) (hn : 40 ≤ n) (big : Bool) :
    dirent_crc big m k ↔ dirent_crc big m' k' := by
  rw [dirent_crc, dirent_crc, field_of_slice h (by omega), crc_of_slice h (by omega)]

theorem dirent_name_crc_of_slice {m m' : Nat → Byte} {k k' : Nat}
    (h : slice m k (40 + nsize m' k') = slice m' k' (40 + nsize m' k'))
    (hn : nsize m k = nsize m' k') (big : Bool) :
    dirent_name_crc big m k ↔ dirent_name_crc big m' k' := by
  rw [dirent_name_crc, dirent_name_crc, field_of_slice h (by omega), hn, crc, crc,
    slice_of_slice h le_rfl]

section Held

variable {s : State} (h : Held e s)
include h

/-- After the second read as much of a node is in the buffer as is needed. -/
theorem Held.body_loaded {need n : Nat} (hinside : BodyInside e need s) (hcap : n ≤ bufSize)
    (hfit : s.ofs + n ≤ e.sectorEnd s.i)
    (hn : n ≤ need ∨ s.buf_ofs + s.buf_len < s.ofs + need) :
    slice (body e need s).buf (body e need s).inbuf_ofs n = slice e.content s.ofs n := by
  obtain ⟨hheld, hofs, -⟩ := h.body_held hinside
  have hbegins := h.window.begins
  have hcovers := h.window.buffer.covers
  have hloaded : (body e need s).ofs + n ≤ (body e need s).buf_ofs + (body e need s).buf_len := by
    rw [body, h.window.buf_end]
    split
    · change s.ofs + n ≤ s.ofs + s.buf_len
      omega
    · omega
  rw [hheld.window.slice_eq hloaded, hofs]

/-- A directory entry is in the buffer, also where its length was not when it was asked for. -/
theorem Held.dirent_loaded (hinside : BodyInside e (40 + nsize s.buf s.inbuf_ofs) s)
    (hfit : s.ofs + (40 + nsize e.content s.ofs) ≤ e.sectorEnd s.i) :
    slice (body e (40 + nsize s.buf s.inbuf_ofs) s).buf
      (body e (40 + nsize s.buf s.inbuf_ofs) s).inbuf_ofs (40 + nsize e.content s.ofs) =
        slice e.content s.ofs (40 + nsize e.content s.ofs) := by
  have hlt : nsize e.content s.ofs < 256 := (e.content (s.ofs + 28)).isLt
  refine h.body_loaded hinside (by rw [bufSize]; omega) hfit ?_
  by_cases hin : s.ofs + 29 ≤ s.buf_ofs + s.buf_len
  · left
    rw [nsize_of_slice (h.window.slice_eq hin) le_rfl]
  · right
    omega

theorem Held.nodetype_body {need : Nat} (hinside : BodyInside e need s) :
    nodetype e.big (body e need s).buf (body e need s).inbuf_ofs =
      nodetype e.big e.content s.ofs := by
  obtain ⟨hheld, hofs, -⟩ := h.body_held hinside
  rw [hheld.nodetype_eq, hofs]

theorem Held.insert_offset : add e.part.offset s.ofs = e.part.offset + s.ofs := by
  have hfits := h.fits
  have hend := sectorEnd_le h.window.buffer.i_lt
  have hpart := e.part.end_le
  exact add_of_lt (by omega)

/-- What is accepted in the buffer is a header on the flash. -/
theorem Held.accepted_iff : Accepted e s ↔ Header e (e.sectorEnd s.i) s.ofs := by
  rw [Accepted, h.magic_eq, h.hdr_crc_iff, h.totlen_eq]
  exact ⟨fun ⟨hmagic, hcrc, hfits⟩ => ⟨hmagic, hcrc, hfits⟩,
    fun hheader => ⟨hheader.magic, hheader.hdr_crc, hheader.fits⟩⟩

/-- A node is behind the scan. -/
theorem Held.passOver_todo {rest : List Nat} (hcontrol : s.control = .scan) (hpassed : Passed e s)
    (hahead : Ahead e nodes s (s.ofs + max 4 (roundUp (totlen e.big e.content s.ofs))) rest) :
    Todo e nodes (passOver e s) := by
  have hofs := h.passOver_ofs hpassed
  have hseen : (passOver e s).prevofs = s.ofs := h.seen
  have hround := four_dvd_roundUp (totlen e.big e.content s.ofs)
  refine scan_todo hcontrol ?_ ⟨hahead.walk, hahead.whole, hahead.found.frag, hahead.found.dir⟩
  rw [hofs, hseen]
  split
  · omega
  · omega

/-- The first node that is left, in the buffer. -/
structure First (e : Setup) (nodes : Nat → List Nat) (s : State) (rest : List Nat) : Prop where
  control : s.control = .scan
  whole : Whole e (e.sectorEnd s.i) s.ofs
  passed : Passed e s
  walk : Walk e (e.sectorEnd s.i) (s.ofs + max 4 (roundUp (totlen e.big e.content s.ofs))) rest
  wholes : ∀ n ∈ rest, Whole e (e.sectorEnd s.i) n
  found : Found e (nodesFrom e nodes 0) s (s.ofs :: (rest ++ nodesFrom e nodes (s.i + 1)))

theorem Held.skip_todo {rest : List Nat} (hfirst : First e nodes s rest)
    (hinode : ¬IsInode e s.ofs) (hdirent : ¬IsDirent e s.ofs) : Todo e nodes (passOver e s) :=
  h.passOver_todo hfirst.control hfirst.passed
    ⟨hfirst.walk, hfirst.wholes, hfirst.found.skip hinode hdirent⟩

theorem Held.first_body {rest : List Nat} {need : Nat} (hinside : BodyInside e need s)
    (hfirst : First e nodes s rest) : First e nodes (body e need s) rest := by
  obtain ⟨-, hofs, hi, hcontrol, hfrag, hdir⟩ := h.body_held hinside
  refine ⟨hcontrol.trans hfirst.control, ?_, h.body_passed hfirst.passed hinside, ?_, ?_, ?_, ?_⟩
  · rw [hofs, hi]
    exact hfirst.whole
  · rw [hofs, hi]
    exact hfirst.walk
  · rw [hi]
    exact hfirst.wholes
  · rw [hofs, hi, hfrag]
    exact hfirst.found.frag
  · rw [hofs, hi, hdir]
    exact hfirst.found.dir

theorem Held.inodeStep_todo {rest : List Nat} (hfirst : First e nodes s rest)
    (hinside : BodyInside e 68 s)
    (htype : nodetype e.big e.content s.ofs = JFFS2_NODETYPE_INODE) :
    Todo e nodes (inodeStep e s) := by
  obtain ⟨hheld, hofs, -⟩ := h.body_held hinside
  have hfirst' := h.first_body hinside hfirst
  have hslice := h.body_loaded (n := 68) hinside (by decide) (hfirst.whole.inode htype) (.inl le_rfl)
  have hcrc := inode_crc_of_slice hslice e.big
  rw [← hofs] at hcrc htype
  rw [inodeStep]
  split
  · next hbad =>
      exact hheld.skip_todo hfirst' (fun hinode => hbad (hcrc.mpr hinode.2))
        (not_isDirent_of_inode htype)
  · next hgood =>
      rw [not_not] at hgood
      split
      · next hroom => exact fails_todo hroom
      · rw [hheld.insert_offset]
        exact (hheld.insert _ _ _).passOver_todo hfirst'.control
          ⟨hfirst'.passed.fits, hfirst'.passed.unwrapped⟩
          ⟨hfirst'.walk, hfirst'.wholes, hfirst'.found.inode ⟨htype, hcrc.mp hgood⟩ _⟩

theorem Held.direntStep_todo {rest : List Nat} (hfirst : First e nodes s rest)
    (hinside : BodyInside e (40 + nsize s.buf s.inbuf_ofs) s)
    (htype : nodetype e.big e.content s.ofs = JFFS2_NODETYPE_DIRENT) :
    Todo e nodes (direntStep e s) := by
  obtain ⟨hheld, hofs, -⟩ := h.body_held hinside
  have hfirst' := h.first_body hinside hfirst
  have hslice := h.dirent_loaded hinside (hfirst.whole.dirent htype)
  have hcrc := dirent_crc_of_slice hslice (Nat.le_add_right _ _) e.big
  have hname := dirent_name_crc_of_slice hslice (nsize_of_slice hslice (by omega)) e.big
  rw [← hofs] at hcrc hname htype
  rw [direntStep]
  split
  · next hbad =>
      refine hheld.skip_todo hfirst' (not_isInode_of_dirent htype) fun hdirent => ?_
      exact hbad.elim (fun h => h (hcrc.mpr hdirent.2.1)) fun h => h (hname.mpr hdirent.2.2)
  · next hgood =>
      rw [not_or, not_not, not_not] at hgood
      split
      · next hroom => exact fails_todo hroom
      · rw [hheld.insert_offset]
        exact (hheld.insert _ _ _).passOver_todo hfirst'.control
          ⟨hfirst'.passed.fits, hfirst'.passed.unwrapped⟩
          ⟨hfirst'.walk, hfirst'.wholes,
            hfirst'.found.dirent ⟨htype, hcrc.mp hgood.1, hname.mp hgood.2⟩ _⟩

/-- A place whose header is in the buffer: an erased word, another one without a header, or the
first node that is left. -/
theorem Held.nodeStep_todo (rest : List Nat) (hok : NodeOk e s) (hcontrol : s.control = .scan)
    (hahead : Ahead e nodes s s.ofs rest) : Todo e nodes (nodeStep e s) := by
  have hfits := h.fits
  have hend := sectorEnd_le h.window.buffer.i_lt
  have hofs : add s.ofs 4 = s.ofs + 4 := add_of_lt (by have := e.part.size_lt; omega)
  rw [nodeStep]
  split
  · next hword =>
      rw [h.word_eq] at hword
      have hnext := hahead.word hword
      rw [hofs]
      exact empty_todo rfl ⟨hnext.walk, hnext.whole, hnext.found.frag, hnext.found.dir⟩
  · next hword =>
      split
      · next hnone =>
          have hnext := hahead.junk fun hheader => hnone (h.accepted_iff.mpr hheader)
          rw [hofs]
          refine scan_todo hcontrol ?_
            ⟨hnext.walk, hnext.whole, hnext.found.frag, hnext.found.dir⟩
          have hne : s.ofs + 4 ≠ s.prevofs := by
            rw [h.seen]
            omega
          exact if_neg hne
      · next haccepted =>
          rw [not_not] at haccepted
          have hheader := h.accepted_iff.mp haccepted
          obtain ⟨hunwrapped, hinode, hdirent⟩ := hok hword haccepted
          rw [h.totlen_eq] at hunwrapped
          obtain ⟨later, rfl, hlater⟩ := hahead.walk.of_header hfits hheader
          obtain ⟨hwhole, hwholes⟩ := List.forall_mem_cons.mp hahead.whole
          have hfirst : First e nodes s later :=
            ⟨hcontrol, hwhole, ⟨hheader.fits, hunwrapped⟩, hlater, hwholes, hahead.found⟩
          split
          · next htype =>
              exact h.inodeStep_todo hfirst (hinode htype) (by rw [← h.nodetype_eq]; exact htype)
          · next hnotinode =>
              split
              · next htype =>
                  exact h.direntStep_todo hfirst (hdirent htype)
                    (by rw [← h.nodetype_eq]; exact htype)
              · next hnotdirent =>
                  rw [h.nodetype_eq] at hnotinode hnotdirent
                  exact h.skip_todo hfirst (fun hi => hnotinode hi.1) fun hd => hnotdirent hd.1

end Held

/-! ## The run -/

variable {s : State}

theorem scanStep_todo (hcontrol : s.control = .scan) (hinv : Inv e s) (hok : StepOk e s)
    (htodo : Todo e nodes s) : Todo e nodes (scanStep e s) := by
  rw [Inv, hcontrol] at hinv
  rw [Todo, hcontrol] at htodo
  obtain ⟨hreq, hwindow⟩ := hinv
  obtain ⟨rest, hahead⟩ := htodo
  have hend := sectorEnd_le hwindow.buffer.i_lt
  have hsize := e.part.size_lt
  rw [scanStep]
  split
  · next hend =>
      refine nextSector_todo (hahead.next ?_)
      split
      · omega
      · omega
  · next hlt =>
      rw [not_not] at hlt
      split
      · next hseen =>
          rw [if_pos hseen] at hahead
          have haligned := hwindow.aligned
          have hendaligned := four_dvd_sectorEnd (e := e) (i := s.i)
          have hofs : add s.ofs 4 = s.ofs + 4 := add_of_lt (by omega)
          rw [hofs]
          refine scan_todo hcontrol ?_
            ⟨hahead.walk, hahead.whole, hahead.found.frag, hahead.found.dir⟩
          have hne : s.ofs + 4 ≠ s.prevofs := by omega
          exact if_neg hne
      · next hne =>
          rw [if_neg hne] at hahead
          split
          · next hshort =>
              have hfound := hahead.next hshort
              exact nextSector_todo ⟨hfound.frag, hfound.dir⟩
          · next hfits =>
              rw [Nat.not_lt] at hfits
              have hwindow' : Window e { s with prevofs := s.ofs } :=
                ⟨hwindow.buffer, hwindow.begins, hwindow.ofs_le, hwindow.aligned⟩
              obtain ⟨hheld, hofs, hi, hscan, hfrag, hdir⟩ := header_held hwindow' hreq rfl hfits
              refine hheld.nodeStep_todo rest (hok.nodeOk hcontrol hlt hne hfits)
                (hscan.trans hcontrol) ⟨?_, ?_, ?_, ?_⟩
              · rw [hofs, hi]
                exact hahead.walk
              · rw [hi]
                exact hahead.whole
              · rw [hfrag, hi]
                exact hahead.found.frag
              · rw [hdir, hi]
                exact hahead.found.dir

theorem emptyStep_todo {scan_end : Nat} (hcontrol : s.control = .empty scan_end) (hinv : Inv e s)
    (hok : StepOk e s) (htodo : Todo e nodes s) : Todo e nodes (emptyStep e scan_end s) := by
  rw [Inv, hcontrol] at hinv
  rw [StepOk, hcontrol] at hok
  rw [Todo, hcontrol] at htodo
  obtain ⟨-, hwindow, hscan, hprev⟩ := hinv
  obtain ⟨rest, hahead⟩ := htodo
  have hinbuf := hwindow.inbuf_ofs
  have hbegins := hwindow.begins
  have hsize := e.part.size_lt
  rw [emptyStep]
  split
  · next hin =>
      split
      · exact scan_todo rfl (if_neg hprev.ne')
          ⟨hahead.walk, hahead.whole, hahead.found.frag, hahead.found.dir⟩
      · next hword =>
          have hbufofs := hwindow.buffer.ofs_aligned
          have hlen := hwindow.buffer.len_aligned
          have haligned := hwindow.aligned
          have hinside := hwindow.buffer.inside
          rw [not_not, field, hwindow.slice_eq (by omega)] at hword
          have hofs : add s.ofs 4 = s.ofs + 4 := add_of_lt (by omega)
          have hnext := hahead.word hword
          rw [hofs]
          exact empty_todo hcontrol ⟨hnext.walk, hnext.whole, hnext.found.frag, hnext.found.dir⟩
  · next hout =>
      have hle := hok.resolve_left hout
      split
      · next hnone =>
          have hleft := (ahead_spec hwindow hle).1
          rw [hnone, bufSize] at hleft
          exact nextSector_todo (hahead.next (by omega))
      · exact empty_todo rfl ⟨hahead.walk, hahead.whole, hahead.found.frag, hahead.found.dir⟩

/-- The erased words at the start of a sector. -/
theorem Layout.erasedBytes {limit start : Nat} {rest : List Nat} {m : Nat → Byte} (words ofs : Nat)
    (h : Layout e limit (start + ofs) rest) (hlimit : start + ofs + 4 * words ≤ limit)
    (hm : ∀ k < ofs + 4 * words, m k = e.content (start + k)) :
    Layout e limit (start + erasedBytes e m words ofs) rest := by
  induction words generalizing ofs with
  | zero => exact h
  | succ words ih =>
      rw [Jffs2Scan.erasedBytes]
      split
      · next hword =>
          have hslice : slice m ofs 4 = slice e.content (start + ofs) 4 := by
            rw [slice, slice]
            refine List.map_congr_left fun k hk => ?_
            rw [List.mem_range] at hk
            rw [hm _ (by omega), Nat.add_assoc]
          rw [field, hslice] at hword
          exact ih (ofs + 4) (h.of_word (by omega) hword) (by omega) fun k hk => hm k (by omega)
      · exact h

/-- In a sector that is looked at as empty there is no node. -/
theorem Sector.met {i : Nat} {found : List Nat} (hi : i < e.nr_sectors) (h : Sector e i found) :
    Met e i found ∧ ∀ k ∈ found, Whole e (e.sectorEnd i) k := by
  obtain ⟨hlayout, hfirst⟩ := h
  obtain ⟨hdvd, -, -, hle, -⟩ := emptyScanSize_spec (e := e)
  have hstart : e.sectorEnd i = e.sectorOfs i + e.part.sector_size := rfl
  obtain ⟨hwalk, hwhole⟩ := hlayout.walk ((sectorEnd_le hi).trans_lt e.part.size_lt)
    four_dvd_sectorEnd
  refine ⟨?_, hwhole⟩
  rw [Met]
  split
  · next hempty =>
      have hfrom : Layout e (e.sectorEnd i) (e.sectorOfs i + 0) found := hlayout
      have hwords := hfrom.erasedBytes (e.emptyScanSize / 4) 0 (by omega) fun k _ => rfl
      rw [hempty] at hwords
      cases hnodes : found with
      | nil => rfl
      | cons k rest =>
          have hbefore := hfirst k (by rw [hnodes]; rfl)
          have hafter := (hwords.mem_bounds k (by rw [hnodes]; exact List.mem_cons_self)).1
          omega
  · exact hwalk

/-- The erased words at the start of a sector are the same in the buffer and on the flash. -/
theorem erasedBytes_congr {m m' : Nat → Byte} (words ofs : Nat)
    (hm : ∀ k < ofs + 4 * words, m k = m' k) :
    erasedBytes e m words ofs = erasedBytes e m' words ofs := by
  induction words generalizing ofs with
  | zero => rfl
  | succ words ih =>
      have hslice : slice m ofs 4 = slice m' ofs 4 := slice_congr fun k _ hk => hm k (by omega)
      rw [erasedBytes, erasedBytes, field, field, hslice, ih (ofs + 4) fun k hk => hm k (by omega)]

theorem Walk.erasedBytes {limit start : Nat} {rest : List Nat} (words ofs : Nat)
    (h : Walk e limit (start + ofs) rest) :
    Walk e limit (start + erasedBytes e (fun k => e.content (start + k)) words ofs) rest := by
  induction words generalizing ofs with
  | zero => exact h
  | succ words ih =>
      rw [Jffs2Scan.erasedBytes]
      split
      · next hword =>
          have hslice : slice (fun k => e.content (start + k)) ofs 4 =
              slice e.content (start + ofs) 4 := by
            rw [slice, slice]
            simp only [Nat.add_assoc]
          rw [field, hslice] at hword
          exact ih (ofs + 4) (h.of_word hword)
      · exact h

theorem sectorStep_todo (hi : s.i < e.nr_sectors) (hcontrol : s.control = .sector)
    (hreq : RequestsInside e s) (hmet : Met e s.i (nodes s.i))
    (hwhole : ∀ k ∈ nodes s.i, Whole e (e.sectorEnd s.i) k) (htodo : Todo e nodes s) :
    Todo e nodes (sectorStep e s) := by
  rw [Todo, hcontrol, nodesFrom_next hi] at htodo
  obtain ⟨hdvd, hpos, hbuf, hle, hfull⟩ := emptyScanSize_spec (e := e)
  have hend := sectorEnd_le hi
  have hsize := e.part.size_lt
  have hstart : e.sectorEnd s.i = e.sectorOfs s.i + e.part.sector_size := rfl
  obtain ⟨hnew, -⟩ := fetch_buffer hi (four_dvd_sectorOfs (e := e) (i := s.i)) hdvd hpos hbuf
    (by omega) (hfull.imp_right fun h => by omega) hreq
  have hbytes := (erasedBytes_le (e := e) (fun k => e.content (e.sectorOfs s.i + k))
    (e.emptyScanSize / 4) 0 (dvd_zero 4)).2
  have hsame : erasedBytes e (s.fetch e (e.sectorOfs s.i) e.emptyScanSize).buf
      (e.emptyScanSize / 4) 0 =
        erasedBytes e (fun k => e.content (e.sectorOfs s.i + k)) (e.emptyScanSize / 4) 0 :=
    erasedBytes_congr _ 0 fun k hk => hnew.content k (by omega)
  rw [sectorStep, hsame]
  split
  · next hempty =>
      rw [Met, if_pos (show Empty e s.i from hempty)] at hmet
      rw [hmet, List.nil_append] at htodo
      exact nextSector_todo ⟨htodo.frag, htodo.dir⟩
  · next hne =>
      rw [Met, if_neg (show ¬Empty e s.i from hne)] at hmet
      have hfrom : Walk e (e.sectorEnd s.i) (e.sectorOfs s.i + 0) (nodes s.i) := hmet
      have hwords := hfrom.erasedBytes (e.emptyScanSize / 4) 0
      generalize erasedBytes e (fun k => e.content (e.sectorOfs s.i + k)) (e.emptyScanSize / 4) 0 =
        bytes at *
      have hofs : add bytes (e.sectorOfs s.i) = bytes + e.sectorOfs s.i := add_of_lt (by omega)
      rw [fetch_i, hofs]
      refine scan_todo rfl (if_neg ?_)
        ⟨by rw [Nat.add_comm]; exact hwords, hwhole, htodo.frag, htodo.dir⟩
      change bytes + e.sectorOfs s.i ≠ sub (bytes + e.sectorOfs s.i) 1
      rw [sub]
      omega

theorem step_todo (hmet : ∀ i < e.nr_sectors, Met e i (nodes i))
    (hwhole : ∀ i < e.nr_sectors, ∀ k ∈ nodes i, Whole e (e.sectorEnd i) k) (hinv : Inv e s)
    (hok : StepOk e s) (htodo : Todo e nodes s) : Todo e nodes (step e s) := by
  rw [step]
  cases hcontrol : s.control with
  | sector =>
      rw [Inv, hcontrol] at hinv
      exact sectorStep_todo hinv.2 hcontrol hinv.1 (hmet _ hinv.2) (hwhole _ hinv.2) htodo
  | scan => exact scanStep_todo hcontrol hinv hok htodo
  | empty scan_end => exact emptyStep_todo hcontrol hinv hok htodo
  | done result => exact htodo

theorem start_todo (e : Setup) (nodes : Nat → List Nat) (buf : Nat → Byte) :
    Todo e nodes (start e buf) := by
  rw [start]
  by_cases hsome : 0 < e.nr_sectors
  · rw [if_pos hsome]
    exact ⟨rfl, rfl⟩
  · rw [if_neg hsome]
    have hnone : nodesFrom e nodes 0 = [] := nodesFrom_end (Nat.le_of_not_lt hsome)
    exact ⟨by rw [hnone]; rfl, by rw [hnone]; rfl⟩

/-! ## The claim of the scan -/

/-- The scan comes to an end, asks for bytes of the partition only and, if every sector is empty or
one node behind the other, ends with the lists of those nodes, each of them once. -/
structure ScansRight (e : Setup) (buf : Nat → Byte) : Prop where
  stops : ∃ n, Stopped ((step e)^[n] (start e buf))
  requests : Along (step e) (RequestsInside e) (start e buf)
  lists : ∀ nodes, (∀ i < e.nr_sectors, Sector e i (nodes i)) →
    ∀ n, ((step e)^[n] (start e buf)).control = .done true →
      ((step e)^[n] (start e buf)).frag = listed e (IsInode e) (nodesFrom e nodes 0) ∧
      ((step e)^[n] (start e buf)).dir = listed e (IsDirent e) (nodesFrom e nodes 0) ∧
      ((step e)^[n] (start e buf)).frag.Pairwise (· < ·) ∧
      ((step e)^[n] (start e buf)).dir.Pairwise (· < ·)
  memory : ∀ nodes : Nat → List Nat, (∀ i < e.nr_sectors, Sector e i (nodes i)) →
    ∀ n, ((step e)^[n] (start e buf)).control = .done false → ∃ k, e.alloc k = false

theorem scan_todo_along {buf : Nat → Byte} (hok : Along (step e) (StepOk e) (start e buf))
    (hsectors : ∀ i < e.nr_sectors, Sector e i (nodes i)) :
    Along (step e) (fun s => Inv e s ∧ Todo e nodes s) (start e buf) :=
  hok.invariant ⟨start_inv e buf, start_todo e nodes buf⟩ fun s h hok =>
    ⟨step_inv s h.1 hok, step_todo (fun i hi => ((hsectors i hi).met hi).1)
      (fun i hi => ((hsectors i hi).met hi).2) h.1 hok h.2⟩

/-- A scan none of whose steps does one of the three things is right. -/
theorem scansRight_of_stepOk {e : Setup} {buf : Nat → Byte}
    (hok : Along (step e) (StepOk e) (start e buf)) : ScansRight e buf where
  stops := scan_stops hok
  requests := scan_requests hok
  lists nodes hsectors n hdone := by
    have htodo := (scan_todo_along hok hsectors n).2
    rw [Todo, hdone] at htodo
    obtain ⟨hfrag, hdir⟩ := htodo
    rw [show listed e (IsInode e) [] = [] from rfl, List.append_nil] at hfrag
    rw [show listed e (IsDirent e) [] = [] from rfl, List.append_nil] at hdir
    have hpairwise := nodesFrom_pairwise hsectors
    exact ⟨hfrag, hdir, hfrag ▸ listed_pairwise hpairwise, hdir ▸ listed_pairwise hpairwise⟩
  memory nodes hsectors n hdone := by
    have htodo := (scan_todo_along hok hsectors n).2
    rw [Todo, hdone] at htodo
    exact htodo

/-! ## Partitions of one sector -/

/-- A partition of one sector, which is all there is on the device. -/
def oneSector (size : Nat) (bytes : List Byte) (h : 0 < size ∧ 4 ∣ size ∧ size < 2 ^ 32) :
    Setup where
  big := false
  part := ⟨0, size, size, dvd_refl size, h.2.1, h.1, h.2.2, by omega⟩
  dev := ⟨fun k => bytes.getD k 0xff, size,
    fun off len buf k => if k < len then bytes.getD (off + k) 0xff else buf k, fun _ _ _ _ _ => rfl⟩
  alloc := fun _ => true
  inside := (Nat.zero_add size).le

instance (s : State) : Decidable (RequestsInside e s) :=
  inferInstanceAs (Decidable (∀ r ∈ s.requests, _))

instance (need : Nat) (s : State) : Decidable (BodyInside e need s) :=
  inferInstanceAs (Decidable (_ → _))

instance (s : State) : Decidable (NodeOk e s) :=
  inferInstanceAs (Decidable (_ → _ → (_ ∨ _) ∧ (_ → _) ∧ (_ → _)))

instance (s : State) : Decidable (StepOk e s) :=
  match h : s.control with
  | .sector => isTrue (by rw [StepOk, h]; trivial)
  | .scan => decidable_of_iff
      (s.ofs < e.sectorEnd s.i → s.ofs ≠ s.prevofs → s.ofs + 12 ≤ e.sectorEnd s.i →
        NodeOk e (header e { s with prevofs := s.ofs })) (by simp only [StepOk, h])
  | .empty scan_end => decidable_of_iff (s.inbuf_ofs < scan_end ∨ s.ofs ≤ e.sectorEnd s.i)
      (by simp only [StepOk, h])
  | .done _ => isTrue (by rw [StepOk, h]; trivial)

/-- A run that comes to its end is checked up to there. -/
theorem along_of_stopped {buf : Nat → Byte} (n : Nat)
    (hok : ∀ k < n, StepOk e ((step e)^[k] (start e buf)))
    (hstop : ((step e)^[n] (start e buf)).control = .done true) :
    Along (step e) (StepOk e) (start e buf) := by
  have hstay (k : Nat) : (step e)^[k + n] (start e buf) = (step e)^[n] (start e buf) := by
    induction k with
    | zero => rw [Nat.zero_add]
    | succ k ih =>
        rw [Nat.add_right_comm, Function.iterate_succ_apply', ih, step, hstop]
  intro k
  obtain hlt | ⟨l, rfl⟩ := (lt_or_ge k n).imp_right fun h => Nat.exists_eq_add_of_le' h
  · exact hok k hlt
  · rw [hstay, StepOk, hstop]
    trivial

/-- A node of 68 bytes with erased words behind it. -/
def oneInode : Setup :=
  oneSector 80 [133, 25, 2, 224, 68, 0, 0, 0, 29, 251, 247, 152, 1, 0, 0, 0, 1, 0, 0, 0, 0, 0, 0, 0,
    0, 0, 0, 0, 0, 0, 0, 0, 0, 0, 0, 0, 0, 0, 0, 0, 0, 0, 0, 0, 0, 0, 0, 0, 0, 0, 0, 0, 0, 0, 0, 0,
    0, 0, 0, 0, 0, 0, 0, 0, 190, 212, 153, 23] (by decide)

/-- The scan of a sector with one node. -/
theorem scansRight_oneInode : ScansRight oneInode fun _ => 0 :=
  scansRight_of_stepOk (along_of_stopped 9 (by decide +kernel) (by decide +kernel))

/-- A header at the end of a sector that begins with an erased word. -/
def lateHeader : Setup :=
  oneSector 16 [255, 255, 255, 255, 133, 25, 2, 224, 12, 0, 0, 0, 207, 139, 87, 198] (by decide)

/-- The rest of the node is asked for where the partition has come to its end. -/
theorem not_scansRight : ¬∀ (e : Setup) (buf : Nat → Byte), ScansRight e buf := by
  intro h
  have hrequests := (h lateHeader fun _ => 0).requests 2
  exact absurd hrequests (by decide +kernel)

end UBoot.Jffs2Scan
