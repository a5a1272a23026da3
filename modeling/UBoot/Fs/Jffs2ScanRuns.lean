/-
# Runs of the scan

The buffer holds what is on the flash from `buf_ofs` on, up to where the sector ends if it is not
full. A run keeps that, asks for bytes of the partition only and comes to an end if none of its
steps does one of three things: it does not take the sum of an offset and a length for small because
it has wrapped, does not read the rest of a node beyond the partition, and does not go on with erased
words behind the sector.
-/

import UBoot.Fs.Jffs2Scan
import UBoot.Lib.Run

namespace UBoot.Jffs2Scan

open UBoot.Lib

variable (e : Setup)

/-! ## The condition -/

/-- The rest of a node that is not in the buffer is in the partition, as far as it is read. -/
def BodyInside (need : Nat) (s : State) : Prop :=
  add s.buf_ofs s.buf_len < s.ofs + need → s.ofs + s.buf_len ≤ e.part.size

/-- A place whose header is in the buffer: the end of an accepted node is not a sum that has
wrapped, unless the length itself is rounded up to nothing, and what has to be read of it is in the
partition. -/
def NodeOk (s : State) : Prop :=
  field e.big s.buf s.inbuf_ofs 4 ≠ erased → Accepted e s →
    (s.ofs + totlen e.big s.buf s.inbuf_ofs < 2 ^ 32 ∨
      2 ^ 32 ≤ totlen e.big s.buf s.inbuf_ofs + 3) ∧
    (nodetype e.big s.buf s.inbuf_ofs = JFFS2_NODETYPE_INODE → BodyInside e 68 s) ∧
    (nodetype e.big s.buf s.inbuf_ofs = JFFS2_NODETYPE_DIRENT →
      BodyInside e (40 + nsize s.buf s.inbuf_ofs) s)

/-- The step that comes next does none of the three things. -/
def StepOk (s : State) : Prop :=
  match s.control with
  | .scan =>
      s.ofs < e.sectorEnd s.i → s.ofs ≠ s.prevofs → s.ofs + 12 ≤ e.sectorEnd s.i →
        NodeOk e (header e { s with prevofs := s.ofs })
  | .empty scan_end => s.inbuf_ofs < scan_end ∨ s.ofs ≤ e.sectorEnd s.i
  | _ => True

/-! ## Sums and sectors -/

theorem add_of_lt {a b : Nat} (h : a + b < 2 ^ 32) : add a b = a + b := Nat.mod_eq_of_lt h

theorem sub_of_le {a b : Nat} (h : b ≤ a) (ha : a < 2 ^ 32) : sub a b = a - b := by
  rw [sub]
  omega

theorem four_dvd_roundUp (t : Nat) : 4 ∣ roundUp t := Nat.dvd_mul_left 4 _

theorem le_roundUp {t : Nat} (h : t + 3 < 2 ^ 32) : t ≤ roundUp t ∧ roundUp t < t + 4 := by
  rw [roundUp, add_of_lt h]
  omega

section Sectors

variable {e} {i : Nat}

theorem sectorEnd_le (h : i < e.nr_sectors) : e.sectorEnd i ≤ e.part.size := by
  have hmul : (i + 1) * e.part.sector_size ≤ e.part.size :=
    (Nat.le_div_iff_mul_le e.part.positive).mp h
  rw [Setup.sectorEnd, Setup.sectorOfs, ← Nat.succ_mul]
  exact hmul

theorem four_dvd_sectorOfs : 4 ∣ e.sectorOfs i := Dvd.dvd.mul_left e.part.aligned i

theorem four_dvd_sectorEnd : 4 ∣ e.sectorEnd i := Nat.dvd_add four_dvd_sectorOfs e.part.aligned

theorem emptyScanSize_spec : 4 ∣ e.emptyScanSize ∧ 0 < e.emptyScanSize ∧
    e.emptyScanSize ≤ bufSize ∧ e.emptyScanSize ≤ e.part.sector_size ∧
    (e.emptyScanSize = bufSize ∨ e.emptyScanSize = e.part.sector_size) := by
  have haligned := e.part.aligned
  have hpos := e.part.positive
  rw [Setup.emptyScanSize, bufSize]
  split
  · exact ⟨haligned, hpos, by omega, le_rfl, .inr rfl⟩
  · exact ⟨by decide, by decide, le_rfl, by omega, .inl rfl⟩

end Sectors

/-! ## The buffer -/

/-- What is on the flash, from the start of the partition on. -/
def Setup.content (k : Nat) : Byte := e.dev.flash (e.part.offset + k)

/-- The buffer holds bytes of the partition, and it is full or goes to the end of the sector. -/
structure Buffer (i buf_ofs buf_len : Nat) (buf : Nat → Byte) : Prop where
  i_lt : i < e.nr_sectors
  ofs_aligned : 4 ∣ buf_ofs
  len_aligned : 4 ∣ buf_len
  len_pos : 0 < buf_len
  len_le : buf_len ≤ bufSize
  inside : buf_ofs + buf_len ≤ e.part.size
  covers : buf_len = bufSize ∨ e.sectorEnd i ≤ buf_ofs + buf_len
  content : ∀ k < buf_len, buf k = e.content (buf_ofs + k)

/-- The scan is in the buffer or behind it. -/
structure Window (s : State) : Prop where
  buffer : Buffer e s.i s.buf_ofs s.buf_len s.buf
  begins : s.buf_ofs ≤ s.ofs
  ofs_le : s.ofs ≤ e.part.size
  aligned : 4 ∣ s.ofs

/-- Every request is for bytes of the partition. -/
def RequestsInside (s : State) : Prop :=
  ∀ r ∈ s.requests, e.part.offset ≤ r.1 ∧ r.1 + r.2 ≤ e.part.offset + e.part.size

variable {e} {s : State}

theorem Window.inbuf_ofs (h : Window e s) : s.inbuf_ofs = s.ofs - s.buf_ofs :=
  sub_of_le h.begins (h.ofs_le.trans_lt e.part.size_lt)

theorem Window.buf_end (h : Window e s) : add s.buf_ofs s.buf_len = s.buf_ofs + s.buf_len :=
  add_of_lt (h.buffer.inside.trans_lt e.part.size_lt)

theorem fetch_i (ofs len : Nat) : (s.fetch e ofs len).i = s.i := rfl

/-- A read of bytes of the partition. -/
theorem fetch_buffer {ofs len : Nat} (hi : s.i < e.nr_sectors) (hofs : 4 ∣ ofs) (hlen : 4 ∣ len)
    (hpos : 0 < len) (hle : len ≤ bufSize) (hin : ofs + len ≤ e.part.size)
    (hcovers : len = bufSize ∨ e.sectorEnd s.i ≤ ofs + len) (hreq : RequestsInside e s) :
    Buffer e s.i ofs len (s.fetch e ofs len).buf ∧ RequestsInside e (s.fetch e ofs len) := by
  have hdev := e.inside
  have hend := e.part.end_le
  have haddr : add e.part.offset ofs = e.part.offset + ofs := add_of_lt (by omega)
  refine ⟨⟨hi, hofs, hlen, hpos, hle, hin, hcovers, fun k hk => ?_⟩, fun r hr => ?_⟩
  · change e.dev.get_fl_mem (add e.part.offset ofs) len s.buf k = _
    rw [haddr, e.dev.inside _ _ _ _ (by omega), if_pos hk, Setup.content, Nat.add_assoc]
  · rw [State.fetch, List.mem_append, List.mem_singleton, haddr] at hr
    obtain hold | rfl := hr
    · exact hreq r hold
    · dsimp only
      omega

/-- The bytes of the buffer at a place are those of the flash. -/
theorem Window.slice_eq (h : Window e s) {n : Nat} (hn : s.ofs + n ≤ s.buf_ofs + s.buf_len) :
    slice s.buf s.inbuf_ofs n = slice e.content s.ofs n := by
  have hbegins := h.begins
  rw [h.inbuf_ofs, slice, slice]
  refine List.map_congr_left fun k hk => ?_
  rw [List.mem_range] at hk
  rw [h.buffer.content _ (by omega)]
  congr 1
  omega

theorem field_of_slice {m m' : Nat → Byte} {k k' n : Nat} (h : slice m k n = slice m' k' n)
    {j l : Nat} (hj : j + l ≤ n) (big : Bool) :
    field big m (k + j) l = field big m' (k' + j) l := by
  have hslice : slice m (k + j) l = slice m' (k' + j) l := by
    rw [← slice_slice hj, ← slice_slice hj, h]
  rw [field, field, hslice]

/-! ## Nodes in the buffer -/

/-- The header of the node at `ofs` is in the buffer, and in the sector. -/
structure Held (e : Setup) (s : State) : Prop where
  window : Window e s
  requests : RequestsInside e s
  loaded : s.ofs + 12 ≤ s.buf_ofs + s.buf_len
  fits : s.ofs + 12 ≤ e.sectorEnd s.i
  seen : s.prevofs = s.ofs

section Held

variable (h : Held e s)
include h

theorem Held.slice_eq : slice s.buf s.inbuf_ofs 12 = slice e.content s.ofs 12 :=
  h.window.slice_eq h.loaded

theorem Held.field_eq {j l : Nat} (hj : j + l ≤ 12) :
    field e.big s.buf (s.inbuf_ofs + j) l = field e.big e.content (s.ofs + j) l :=
  field_of_slice h.slice_eq hj e.big

theorem Held.start_eq {l : Nat} (hl : l ≤ 12) :
    field e.big s.buf s.inbuf_ofs l = field e.big e.content s.ofs l := by
  have heq := h.field_eq (j := 0) (l := l) (by omega)
  rwa [Nat.add_zero, Nat.add_zero] at heq

theorem Held.word_eq :
    field e.big s.buf s.inbuf_ofs 4 = field e.big e.content s.ofs 4 := h.start_eq (by decide)

theorem Held.magic_eq : magic e.big s.buf s.inbuf_ofs = magic e.big e.content s.ofs :=
  h.start_eq (by decide)

theorem Held.nodetype_eq :
    nodetype e.big s.buf s.inbuf_ofs = nodetype e.big e.content s.ofs := by
  rw [nodetype, nodetype, h.field_eq (by decide)]

theorem Held.totlen_eq : totlen e.big s.buf s.inbuf_ofs = totlen e.big e.content s.ofs := by
  rw [totlen, totlen, h.field_eq (by decide)]

theorem Held.hdr_crc_iff :
    hdr_crc e.big s.buf s.inbuf_ofs ↔ hdr_crc e.big e.content s.ofs := by
  have hslice : slice s.buf s.inbuf_ofs 8 = slice e.content s.ofs 8 :=
    h.window.slice_eq (by have := h.loaded; omega)
  rw [hdr_crc, hdr_crc, h.field_eq (by decide), crc, crc, hslice]

theorem Held.ofs_lt : s.ofs < 2 ^ 32 := h.window.ofs_le.trans_lt e.part.size_lt

/-- The rest of the node is read from where the node begins. -/
theorem Held.body_held {need : Nat} (hinside : BodyInside e need s) :
    Held e (body e need s) ∧ (body e need s).ofs = s.ofs ∧ (body e need s).i = s.i ∧
      (body e need s).control = s.control ∧ (body e need s).frag = s.frag ∧
      (body e need s).dir = s.dir := by
  have hbuffer := h.window.buffer
  have hbegins := h.window.begins
  have hloaded := h.loaded
  rw [body]
  split
  · next hshort =>
      have hin := hinside hshort
      have hcovers : s.buf_len = bufSize ∨ e.sectorEnd s.i ≤ s.ofs + s.buf_len :=
        hbuffer.covers.imp_right fun hle => by omega
      obtain ⟨hnew, hreq⟩ := fetch_buffer hbuffer.i_lt h.window.aligned hbuffer.len_aligned
        hbuffer.len_pos hbuffer.len_le hin hcovers h.requests
      refine ⟨⟨⟨hnew, le_rfl, h.window.ofs_le, h.window.aligned⟩, hreq, ?_, h.fits, h.seen⟩,
        rfl, rfl, rfl, rfl, rfl⟩
      change s.ofs + 12 ≤ s.ofs + s.buf_len
      omega
  · exact ⟨h, rfl, rfl, rfl, rfl, rfl⟩

end Held

/-- What is read from the scan on goes to the end of the sector, or fills the buffer. -/
theorem ahead_spec (h : Window e s) (hle : s.ofs ≤ e.sectorEnd s.i) :
    s.ahead e = min bufSize (e.sectorEnd s.i - s.ofs) ∧ 4 ∣ s.ahead e ∧ s.ahead e ≤ bufSize ∧
      s.ofs + s.ahead e ≤ e.part.size ∧
      (s.ahead e = bufSize ∨ e.sectorEnd s.i ≤ s.ofs + s.ahead e) := by
  have hend := sectorEnd_le h.buffer.i_lt
  have hsize := e.part.size_lt
  have hahead : s.ahead e = min bufSize (e.sectorEnd s.i - s.ofs) := by
    rw [State.ahead, sub_of_le hle (by omega)]
  have hdvd := Nat.dvd_sub (four_dvd_sectorEnd (e := e) (i := s.i)) h.aligned
  rw [hahead, bufSize]
  omega

theorem fetch_ahead (h : Window e s) (hreq : RequestsInside e s)
    (hle : s.ofs ≤ e.sectorEnd s.i) (hpos : 0 < s.ahead e) :
    Buffer e s.i s.ofs (s.ahead e) (s.fetch e s.ofs (s.ahead e)).buf ∧
      RequestsInside e (s.fetch e s.ofs (s.ahead e)) := by
  obtain ⟨-, haligned, hhigh, hin, hcovers⟩ := ahead_spec h hle
  exact fetch_buffer h.buffer.i_lt h.aligned haligned hpos hhigh hin hcovers hreq

/-- The header is read to the buffer if it is not there. -/
theorem header_held (h : Window e s) (hreq : RequestsInside e s) (hseen : s.prevofs = s.ofs)
    (hfits : s.ofs + 12 ≤ e.sectorEnd s.i) :
    Held e (header e s) ∧ (header e s).ofs = s.ofs ∧ (header e s).i = s.i ∧
      (header e s).control = s.control ∧ (header e s).frag = s.frag ∧
      (header e s).dir = s.dir := by
  rw [header, h.buf_end]
  split
  · next hshort =>
      have hlow : 12 ≤ s.ahead e := by
        rw [(ahead_spec h (by omega)).1, bufSize]
        omega
      obtain ⟨hnew, hnewreq⟩ := fetch_ahead h hreq (by omega) (by omega)
      refine ⟨⟨⟨hnew, le_rfl, h.ofs_le, h.aligned⟩, hnewreq, ?_, hfits, hseen⟩,
        rfl, rfl, rfl, rfl, rfl⟩
      exact Nat.add_le_add_left hlow s.ofs
  · next hlong =>
      exact ⟨⟨h, hreq, by omega, hfits, hseen⟩, rfl, rfl, rfl, rfl, rfl⟩

/-! ## The invariant -/

/-- What holds at each place of the scan. -/
def Inv (e : Setup) (s : State) : Prop :=
  RequestsInside e s ∧
    match s.control with
    | .sector => s.i < e.nr_sectors
    | .scan => Window e s
    | .empty scan_end => Window e s ∧ scan_end ≤ s.buf_len ∧ s.prevofs < s.ofs
    | .done _ => True

/-- What is left of a sector: mostly the bytes up to the end of the partition. -/
def inner (e : Setup) (s : State) : Nat :=
  match s.control with
  | .sector => 4 * e.part.size + 7
  | .scan => 4 * (e.part.size - s.ofs) + if s.ofs = s.prevofs then 0 else 1
  | .empty scan_end =>
      4 * (e.part.size - s.ofs) + 2 + if s.inbuf_ofs < scan_end then 0 else 1
  | .done _ => 0

/-- It counts down from step to step. -/
def measure (e : Setup) (s : State) : Nat :=
  (e.nr_sectors - s.i) * (4 * e.part.size + 8) + inner e s

/-- The step from one state to another keeps the invariant and counts down. -/
def After (e : Setup) (s s' : State) : Prop := Inv e s' ∧ measure e s' < measure e s

theorem measure_lt {s s' : State} (hi : s'.i = s.i) (h : inner e s' < inner e s) :
    measure e s' < measure e s := by
  rw [measure, measure, hi]
  exact Nat.add_lt_add_left h _

theorem after_scan {s s' : State} (hi : s'.i = s.i) (hcontrol : s'.control = .scan)
    (hreq : RequestsInside e s') (hwindow : Window e s')
    (hinner : 4 * (e.part.size - s'.ofs) + (if s'.ofs = s'.prevofs then 0 else 1) < inner e s) :
    After e s s' := by
  refine ⟨⟨hreq, ?_⟩, measure_lt hi ?_⟩
  · rw [hcontrol]
    exact hwindow
  · rw [inner, hcontrol]
    exact hinner

theorem after_empty {s s' : State} {scan_end : Nat} (hi : s'.i = s.i)
    (hcontrol : s'.control = .empty scan_end) (hreq : RequestsInside e s') (hwindow : Window e s')
    (hscan : scan_end ≤ s'.buf_len) (hprev : s'.prevofs < s'.ofs)
    (hinner : 4 * (e.part.size - s'.ofs) + 2 + (if s'.inbuf_ofs < scan_end then 0 else 1) <
      inner e s) : After e s s' := by
  refine ⟨⟨hreq, ?_⟩, measure_lt hi ?_⟩
  · rw [hcontrol]
    exact ⟨hwindow, hscan, hprev⟩
  · rw [inner, hcontrol]
    exact hinner

/-- The next sector, or the end. -/
theorem nextSector_after {s₀ : State} (hi : s.i < e.nr_sectors) (hreq : RequestsInside e s)
    (h₀ : s₀.i = s.i) : After e s₀ (nextSector e s) := by
  constructor
  · refine ⟨hreq, ?_⟩
    rw [nextSector]
    by_cases hmore : s.i + 1 < e.nr_sectors
    · rw [if_pos hmore]
      exact hmore
    · rw [if_neg hmore]
      trivial
  · have hinner : inner e (nextSector e s) < 4 * e.part.size + 8 := by
      rw [nextSector, inner]
      by_cases hmore : s.i + 1 < e.nr_sectors
      · rw [if_pos hmore]
        exact Nat.lt_succ_self _
      · rw [if_neg hmore]
        exact Nat.succ_pos _
    obtain ⟨left, hleft⟩ : ∃ left, e.nr_sectors - s.i = left + 1 :=
      ⟨e.nr_sectors - s.i - 1, by omega⟩
    have hnext : e.nr_sectors - (nextSector e s).i = left := by
      change e.nr_sectors - (s.i + 1) = left
      omega
    rw [measure, measure, h₀, hleft, hnext, Nat.succ_mul left]
    omega

/-! ## The start of a sector -/

theorem erasedBytes_le (m : Nat → Byte) (words ofs : Nat) (hofs : 4 ∣ ofs) :
    4 ∣ erasedBytes e m words ofs ∧ erasedBytes e m words ofs ≤ ofs + 4 * words := by
  induction words generalizing ofs with
  | zero => exact ⟨hofs, le_rfl⟩
  | succ words ih =>
      rw [erasedBytes]
      split
      · obtain ⟨hdvd, hle⟩ := ih (ofs + 4) (by omega)
        exact ⟨hdvd, by omega⟩
      · exact ⟨hofs, by omega⟩

theorem sectorStep_after (hcontrol : s.control = .sector) (hi : s.i < e.nr_sectors)
    (hreq : RequestsInside e s) : After e s (sectorStep e s) := by
  obtain ⟨hdvd, hpos, hbuf, hsector, hfull⟩ := emptyScanSize_spec (e := e)
  have hend := sectorEnd_le hi
  have hsize := e.part.size_lt
  have hstart : e.sectorEnd s.i = e.sectorOfs s.i + e.part.sector_size := rfl
  obtain ⟨hnew, hnewreq⟩ := fetch_buffer hi (four_dvd_sectorOfs (e := e) (i := s.i)) hdvd hpos hbuf
    (by omega) (hfull.imp_right fun h => by omega) hreq
  rw [sectorStep]
  generalize hbytes : erasedBytes e (s.fetch e (e.sectorOfs s.i) e.emptyScanSize).buf
    (e.emptyScanSize / 4) 0 = bytes
  have hspec := erasedBytes_le (e := e) (s.fetch e (e.sectorOfs s.i) e.emptyScanSize).buf
    (e.emptyScanSize / 4) 0 (dvd_zero 4)
  rw [hbytes] at hspec
  obtain ⟨haligned, hle⟩ := hspec
  split
  · exact nextSector_after hi hnewreq rfl
  · next hne =>
      have hofs : add bytes (e.sectorOfs s.i) = bytes + e.sectorOfs s.i := add_of_lt (by omega)
      have hofsle : bytes + e.sectorOfs s.i ≤ e.part.size := by omega
      have hsectoraligned := four_dvd_sectorOfs (e := e) (i := s.i)
      rw [fetch_i, hofs]
      refine after_scan rfl rfl hnewreq
        ⟨hnew, Nat.le_add_left _ _, hofsle, Nat.dvd_add haligned hsectoraligned⟩ ?_
      rw [inner, hcontrol]
      dsimp only
      split
      · omega
      · omega

/-! ## Erased words -/

theorem emptyStep_after {scan_end : Nat} (hcontrol : s.control = .empty scan_end)
    (h : Inv e s) (hok : StepOk e s) : After e s (emptyStep e scan_end s) := by
  rw [Inv, hcontrol] at h
  rw [StepOk, hcontrol] at hok
  obtain ⟨hreq, hwindow, hscan, hprev⟩ := h
  have hinbuf := hwindow.inbuf_ofs
  have hbegins := hwindow.begins
  have hofsle := hwindow.ofs_le
  have hsize := e.part.size_lt
  have hinner : inner e s =
      4 * (e.part.size - s.ofs) + 2 + if s.inbuf_ofs < scan_end then 0 else 1 := by
    rw [inner, hcontrol]
  rw [emptyStep]
  split
  · next hin =>
      rw [if_pos hin] at hinner
      split
      · refine after_scan rfl rfl hreq ⟨hwindow.buffer, hbegins, hofsle, hwindow.aligned⟩ ?_
        rw [hinner]
        dsimp only
        split
        · omega
        · omega
      · have hbufofs := hwindow.buffer.ofs_aligned
        have hlen := hwindow.buffer.len_aligned
        have haligned := hwindow.aligned
        have hinside := hwindow.buffer.inside
        have hnext : s.ofs + 4 ≤ e.part.size := by omega
        have hofs : add s.ofs 4 = s.ofs + 4 := add_of_lt (by omega)
        rw [hofs]
        refine after_empty rfl hcontrol hreq ⟨hwindow.buffer, hbegins.trans (Nat.le_add_right _ _),
          hnext, Nat.dvd_add haligned (dvd_refl 4)⟩ hscan (hprev.trans_le (Nat.le_add_right _ _)) ?_
        rw [hinner]
        dsimp only
        split
        · omega
        · omega
  · next hout =>
      rw [if_neg hout] at hinner
      have hle := hok.resolve_left hout
      split
      · exact nextSector_after hwindow.buffer.i_lt hreq rfl
      · next hne =>
          have hpos := Nat.pos_of_ne_zero hne
          obtain ⟨hnew, hnewreq⟩ := fetch_ahead hwindow hreq hle hpos
          have hfirst : sub s.ofs s.ofs < s.ahead e := by
            rw [sub_of_le le_rfl (by omega), Nat.sub_self]
            exact hpos
          refine after_empty rfl rfl hnewreq ⟨hnew, le_rfl, hofsle, hwindow.aligned⟩ le_rfl hprev ?_
          rw [hinner, if_pos]
          · exact Nat.lt_succ_self _
          · exact hfirst

/-! ## Nodes -/

theorem value_lt (bytes : List Byte) : value bytes < 256 ^ bytes.length := by
  induction bytes using List.reverseRecOn with
  | nil => exact Nat.one_pos
  | append_singleton bytes b ih =>
      have hb : b.toNat < 256 := b.isLt
      rw [value, List.foldl_concat, List.length_append, List.length_singleton, Nat.pow_succ]
      rw [value] at ih
      omega

theorem totlen_lt (big : Bool) (m : Nat → Byte) (k : Nat) : totlen big m k < 2 ^ 32 := by
  have hlength : (if big then slice m (k + 4) 4 else (slice m (k + 4) 4).reverse).length = 4 := by
    split
    · exact length_slice _ _ _
    · rw [List.length_reverse, length_slice]
  have hlt := value_lt (if big then slice m (k + 4) 4 else (slice m (k + 4) 4).reverse)
  rw [hlength] at hlt
  exact hlt

/-- The end of a node is on the flash, up to where its length is rounded to. -/
structure Passed (e : Setup) (s : State) : Prop where
  fits : add s.ofs (totlen e.big e.content s.ofs) ≤ e.sectorEnd s.i
  unwrapped : s.ofs + totlen e.big e.content s.ofs < 2 ^ 32 ∨
    2 ^ 32 ≤ totlen e.big e.content s.ofs + 3

theorem Passed.roundUp_le (h : Held e s) (hpassed : Passed e s) :
    s.ofs + roundUp (totlen e.big e.content s.ofs) ≤ e.sectorEnd s.i := by
  obtain ⟨hfits, hunwrapped⟩ := hpassed
  have hlt := totlen_lt e.big e.content s.ofs
  have haligned := h.window.aligned
  have hend := four_dvd_sectorEnd (e := e) (i := s.i)
  have hsize := (sectorEnd_le h.window.buffer.i_lt).trans_lt e.part.size_lt
  have hroom := h.fits
  have hround := four_dvd_roundUp (totlen e.big e.content s.ofs)
  generalize totlen e.big e.content s.ofs = t at *
  by_cases hbig : 2 ^ 32 ≤ t + 3
  · have hzero : roundUp t = 0 := by
      rw [roundUp, add]
      omega
    omega
  · have hle := le_roundUp (Nat.lt_of_not_le hbig)
    have hsum := hunwrapped.resolve_right hbig
    rw [add_of_lt hsum] at hfits
    omega

section Nodes

variable {s₀ : State} (h : Held e s)
include h

theorem Held.passOver_ofs (hpassed : Passed e s) :
    (passOver e s).ofs = s.ofs + roundUp (totlen e.big e.content s.ofs) := by
  have hle := hpassed.roundUp_le h
  have hsize := (sectorEnd_le h.window.buffer.i_lt).trans_lt e.part.size_lt
  change add s.ofs (roundUp (totlen e.big s.buf s.inbuf_ofs)) = _
  rw [h.totlen_eq, add_of_lt (by omega)]

/-- A node is passed over, or a place without a length for the first time. -/
theorem Held.passOver_after (hpassed : Passed e s) (hcontrol : s.control = .scan)
    (h₀ : s₀.i = s.i ∧ s₀.control = .scan ∧ s₀.ofs = s.ofs ∧ s₀.ofs ≠ s₀.prevofs) :
    After e s₀ (passOver e s) := by
  obtain ⟨hi, hcontrol₀, hofs₀, hne⟩ := h₀
  have hofs := h.passOver_ofs hpassed
  have hle := hpassed.roundUp_le h
  have hround := four_dvd_roundUp (totlen e.big e.content s.ofs)
  have hend := sectorEnd_le h.window.buffer.i_lt
  refine after_scan hi.symm hcontrol h.requests ⟨h.window.buffer, ?_, ?_, ?_⟩ ?_
  · rw [hofs]
    exact h.window.begins.trans (Nat.le_add_right _ _)
  · rw [hofs]
    exact hle.trans hend
  · rw [hofs]
    exact Nat.dvd_add h.window.aligned hround
  · have hseen : (passOver e s).prevofs = s.ofs := h.seen
    rw [inner, hcontrol₀, hofs, hseen, hofs₀]
    dsimp only
    rw [hofs₀] at hne
    rw [if_neg hne]
    split
    · omega
    · omega

/-- The node is put into a list. -/
theorem Held.insert (frag dir : List Nat) (max_totlen : Nat) :
    Held e { s with frag := frag, dir := dir, max_totlen := max_totlen } :=
  ⟨⟨h.window.buffer, h.window.begins, h.window.ofs_le, h.window.aligned⟩, h.requests, h.loaded,
    h.fits, h.seen⟩

/-- The end of a scan that has no memory for a list node. -/
theorem Held.fails (h₀ : s₀.i = s.i ∧ s₀.control = .scan ∧ s₀.ofs = s.ofs ∧ s₀.ofs ≠ s₀.prevofs) :
    After e s₀ { s with control := .done false } := by
  refine ⟨⟨h.requests, trivial⟩, measure_lt h₀.1.symm ?_⟩
  rw [inner, inner, h₀.2.1]
  dsimp only
  rw [if_neg h₀.2.2.2]
  exact Nat.succ_pos _

/-- Four bytes without a node. -/
theorem Held.skip_after (hcontrol : s.control = .scan)
    (h₀ : s₀.i = s.i ∧ s₀.control = .scan ∧ s₀.ofs = s.ofs ∧ s₀.ofs ≠ s₀.prevofs) :
    After e s₀ { s with ofs := add s.ofs 4 } := by
  have hfits := h.fits
  have hend := sectorEnd_le h.window.buffer.i_lt
  have hofs : add s.ofs 4 = s.ofs + 4 := add_of_lt (by have := e.part.size_lt; omega)
  have hofsle : s.ofs + 4 ≤ e.part.size := by omega
  rw [hofs]
  refine after_scan h₀.1.symm hcontrol h.requests ⟨h.window.buffer,
    h.window.begins.trans (Nat.le_add_right _ _), hofsle,
    Nat.dvd_add h.window.aligned (dvd_refl 4)⟩ ?_
  rw [inner, h₀.2.1, h₀.2.2.1]
  dsimp only
  split
  · omega
  · omega

/-- The first word of an erased area. -/
theorem Held.empty_after
    (h₀ : s₀.i = s.i ∧ s₀.control = .scan ∧ s₀.ofs = s.ofs ∧ s₀.ofs ≠ s₀.prevofs) :
    After e s₀ { s with
      ofs := add s.ofs 4
      control := .empty (min (e.emptyScanSize / 8) s.buf_len) } := by
  have hfits := h.fits
  have hseen := h.seen
  have hend := sectorEnd_le h.window.buffer.i_lt
  have hofs : add s.ofs 4 = s.ofs + 4 := add_of_lt (by have := e.part.size_lt; omega)
  have hofsle : s.ofs + 4 ≤ e.part.size := by omega
  have hprev : s.prevofs < s.ofs + 4 := by omega
  rw [hofs]
  refine after_empty h₀.1.symm rfl h.requests ⟨h.window.buffer,
    h.window.begins.trans (Nat.le_add_right _ _), hofsle,
    Nat.dvd_add h.window.aligned (dvd_refl 4)⟩ (Nat.min_le_right _ _) hprev ?_
  rw [inner, h₀.2.1, h₀.2.2.1]
  dsimp only
  split
  · omega
  · omega

/-- What happens to a node of one of the two lists. -/
theorem Held.listed_after {s' : State} (hpassed : Passed e s) (hcontrol : s.control = .scan)
    (h₀ : s₀.i = s.i ∧ s₀.control = .scan ∧ s₀.ofs = s.ofs ∧ s₀.ofs ≠ s₀.prevofs)
    (hs' : s' = passOver e s ∨ s' = { s with control := .done false } ∨
      ∃ frag dir max_totlen,
        s' = passOver e { s with frag := frag, dir := dir, max_totlen := max_totlen }) :
    After e s₀ s' := by
  obtain rfl | rfl | ⟨frag, dir, max_totlen, rfl⟩ := hs'
  · exact h.passOver_after hpassed hcontrol h₀
  · exact h.fails h₀
  · exact (h.insert frag dir max_totlen).passOver_after ⟨hpassed.1, hpassed.2⟩ hcontrol h₀

theorem Held.body_passed {need : Nat} (hpassed : Passed e s) (hinside : BodyInside e need s) :
    Passed e (body e need s) := by
  obtain ⟨-, hofs, hi, -⟩ := h.body_held hinside
  refine ⟨?_, ?_⟩
  · rw [hofs, hi]
    exact hpassed.fits
  · rw [hofs]
    exact hpassed.unwrapped

theorem Held.inodeStep_after (hpassed : Passed e s) (hinside : BodyInside e 68 s)
    (hcontrol : s.control = .scan)
    (h₀ : s₀.i = s.i ∧ s₀.control = .scan ∧ s₀.ofs = s.ofs ∧ s₀.ofs ≠ s₀.prevofs) :
    After e s₀ (inodeStep e s) := by
  obtain ⟨hheld, hofs, hi, hscan, -⟩ := h.body_held hinside
  refine hheld.listed_after (h.body_passed hpassed hinside) (hscan.trans hcontrol)
    (by rw [hofs, hi]; exact h₀) ?_
  rw [inodeStep]
  split
  · exact .inl rfl
  · split
    · exact .inr (.inl rfl)
    · exact .inr (.inr ⟨_, _, _, rfl⟩)

theorem Held.direntStep_after (hpassed : Passed e s)
    (hinside : BodyInside e (40 + nsize s.buf s.inbuf_ofs) s) (hcontrol : s.control = .scan)
    (h₀ : s₀.i = s.i ∧ s₀.control = .scan ∧ s₀.ofs = s.ofs ∧ s₀.ofs ≠ s₀.prevofs) :
    After e s₀ (direntStep e s) := by
  obtain ⟨hheld, hofs, hi, hscan, -⟩ := h.body_held hinside
  refine hheld.listed_after (h.body_passed hpassed hinside) (hscan.trans hcontrol)
    (by rw [hofs, hi]; exact h₀) ?_
  rw [direntStep]
  split
  · exact .inl rfl
  · split
    · exact .inr (.inl rfl)
    · exact .inr (.inr ⟨_, _, _, rfl⟩)

theorem Held.nodeStep_after (hok : NodeOk e s) (hcontrol : s.control = .scan)
    (h₀ : s₀.i = s.i ∧ s₀.control = .scan ∧ s₀.ofs = s.ofs ∧ s₀.ofs ≠ s₀.prevofs) :
    After e s₀ (nodeStep e s) := by
  rw [nodeStep]
  split
  · exact h.empty_after h₀
  · next hword =>
      split
      · exact h.skip_after hcontrol h₀
      · next haccepted =>
          rw [not_not] at haccepted
          obtain ⟨hunwrapped, hinode, hdirent⟩ := hok hword haccepted
          have hpassed : Passed e s := by
            refine ⟨?_, ?_⟩
            · rw [← h.totlen_eq]
              exact haccepted.2.2
            · rw [← h.totlen_eq]
              exact hunwrapped
          split
          · next htype => exact h.inodeStep_after hpassed (hinode htype) hcontrol h₀
          · split
            · next htype => exact h.direntStep_after hpassed (hdirent htype) hcontrol h₀
            · exact h.passOver_after hpassed hcontrol h₀

end Nodes

theorem StepOk.nodeOk (hok : StepOk e s) (hcontrol : s.control = .scan)
    (hlt : s.ofs < e.sectorEnd s.i) (hne : s.ofs ≠ s.prevofs)
    (hfits : s.ofs + 12 ≤ e.sectorEnd s.i) : NodeOk e (header e { s with prevofs := s.ofs }) := by
  simp only [StepOk, hcontrol] at hok
  rw [hcontrol]
  exact hok hlt hne hfits

theorem scanStep_after (hcontrol : s.control = .scan) (h : Inv e s) (hok : StepOk e s) :
    After e s (scanStep e s) := by
  rw [Inv, hcontrol] at h
  obtain ⟨hreq, hwindow⟩ := h
  have hi := hwindow.buffer.i_lt
  have hend := sectorEnd_le hi
  have hsize := e.part.size_lt
  rw [scanStep]
  split
  · exact nextSector_after hi hreq rfl
  · next hlt =>
      rw [not_not] at hlt
      split
      · next hseen =>
          have haligned := hwindow.aligned
          have hendaligned := four_dvd_sectorEnd (e := e) (i := s.i)
          have hofs : add s.ofs 4 = s.ofs + 4 := add_of_lt (by omega)
          have hofsle : s.ofs + 4 ≤ e.part.size := by omega
          rw [hofs]
          refine after_scan rfl hcontrol hreq ⟨hwindow.buffer,
            hwindow.begins.trans (Nat.le_add_right _ _), hofsle,
            Nat.dvd_add haligned (dvd_refl 4)⟩ ?_
          rw [inner, hcontrol]
          dsimp only
          split
          · omega
          · omega
      · next hne =>
          split
          · exact nextSector_after hi hreq rfl
          · next hfits =>
              rw [Nat.not_lt] at hfits
              have hwindow' : Window e { s with prevofs := s.ofs } :=
                ⟨hwindow.buffer, hwindow.begins, hwindow.ofs_le, hwindow.aligned⟩
              obtain ⟨hheld, hofs, hi', hscan, -⟩ := header_held hwindow' hreq rfl hfits
              exact hheld.nodeStep_after (hok.nodeOk hcontrol hlt hne hfits) (hscan.trans hcontrol)
                ⟨hi'.symm, hcontrol, hofs.symm, hne⟩

/-! ## The run -/

def Stopped (s : State) : Prop := ∃ result, s.control = .done result

/-- A step of a scan that is not at its end. -/
theorem step_after (h : Inv e s) (hok : StepOk e s) (hstop : ¬Stopped s) :
    After e s (step e s) := by
  rw [step]
  cases hcontrol : s.control with
  | sector =>
      rw [Inv, hcontrol] at h
      exact sectorStep_after hcontrol h.2 h.1
  | scan => exact scanStep_after hcontrol h hok
  | empty scan_end => exact emptyStep_after hcontrol h hok
  | done result => exact absurd ⟨result, hcontrol⟩ hstop

theorem step_inv (s : State) (h : Inv e s) (hok : StepOk e s) : Inv e (step e s) := by
  by_cases hstop : Stopped s
  · obtain ⟨result, hcontrol⟩ := hstop
    rw [step, hcontrol]
    exact h
  · exact (step_after h hok hstop).1

theorem start_inv (e : Setup) (buf : Nat → Byte) : Inv e (start e buf) := by
  refine ⟨nofun, ?_⟩
  rw [start]
  by_cases hsome : 0 < e.nr_sectors
  · rw [if_pos hsome]
    exact hsome
  · rw [if_neg hsome]
    trivial

/-- The scan comes to an end. -/
theorem scan_stops {buf : Nat → Byte} (hok : Along (step e) (StepOk e) (start e buf)) :
    ∃ n, Stopped ((step e)^[n] (start e buf)) :=
  hok.stops (Inv e) Stopped (measure e) (start_inv e buf) step_inv
    fun _ h hok hstop => (step_after h hok hstop).2

/-- The scan asks for bytes of the partition only. -/
theorem scan_requests {buf : Nat → Byte} (hok : Along (step e) (StepOk e) (start e buf)) :
    Along (step e) (RequestsInside e) (start e buf) :=
  fun n => (hok.invariant (start_inv e buf) step_inv n).1

end UBoot.Jffs2Scan
