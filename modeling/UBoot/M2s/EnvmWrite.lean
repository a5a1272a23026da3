/-
# Writes to the SmartFusion2 eNVM

`envm_write` of `cpu/arm_cortexm3/m2s/envm.c`. Pages are written one by one through a
buffer. Where a page begins and ends, and where its bytes are in the source, comes from
`min` and `max`, and these compare in the type of their first argument.
-/

import UBoot.LibGeneric.Crc32
import UBoot.Lib.Memory

namespace UBoot.M2s

open UBoot.Lib

/-- `unsigned int` and addresses. -/
abbrev UInt := BitVec 32

/-- `MSS_ENVM_FLASH_SIZE` -/
def MSS_ENVM_FLASH_SIZE : Nat := 1024 * 256

/-- `MSS_ENVM_PAGE_SIZE` -/
def MSS_ENVM_PAGE_SIZE : UInt := 128#32

/-- `max(X, Y)` with an `int` first. -/
def maxInt (x y : UInt) : UInt := if x.toInt > y.toInt then x else y

/-- `min(X, Y)` with an `int` first. -/
def minInt (x y : UInt) : UInt := if x.toInt < y.toInt then x else y

/-- `max(X, Y)` with an `unsigned int` first. -/
def maxUInt (x y : UInt) : UInt := if x > y then x else y

/-- The array, the write data buffer, and the source addresses read so far. -/
structure Envm where
  flash : Nat → Byte
  wdbuff : Nat → Byte
  reads : List UInt

/-- The addresses of `count` bytes. -/
def addresses (buf : UInt) (count : Nat) : List UInt :=
  (List.range count).map fun i => buf + BitVec.ofNat 32 i

/-- `count` bytes of memory. -/
def bytes (memory : UInt → Byte) (buf : UInt) (count : Nat) : List Byte :=
  (addresses buf count).map memory

/-- A page of the array, or of the buffer. -/
def page (m : Nat → Byte) (start : Nat) : List Byte :=
  (List.range MSS_ENVM_PAGE_SIZE.toNat).map fun i => m (start + i)

variable (memory : UInt → Byte)

/-- `envm_write_page_part` -/
def envm_write_page_part (e : Envm) (page' part_begin part_end buf : UInt) : Envm :=
  let start := (page' * MSS_ENVM_PAGE_SIZE).toNat
  let count := (part_end - part_begin).toNat
  let wdbuff :=
    if part_begin ≠ 0#32 ∨ part_end ≠ MSS_ENVM_PAGE_SIZE then store e.wdbuff 0 (page e.flash start)
    else e.wdbuff
  let wdbuff := store wdbuff part_begin.toNat (bytes memory buf count)
  { flash := store e.flash start (page wdbuff 0)
    wdbuff := wdbuff
    reads := e.reads ++ addresses buf count }

/-- The loop of `envm_write`, for `n` pages. -/
def writePages (offset buf size : UInt) : Nat → UInt → Envm → Envm
  | 0, _, e => e
  | n + 1, page, e =>
      writePages offset buf size n (page + 1#32) (envm_write_page_part memory e page
        (maxInt 0#32 (offset - page * MSS_ENVM_PAGE_SIZE))
        (minInt MSS_ENVM_PAGE_SIZE (offset + size - page * MSS_ENVM_PAGE_SIZE))
        (buf + maxUInt (page * MSS_ENVM_PAGE_SIZE - offset) 0#32))

/-- `envm_write` -/
def envm_write (e : Envm) (offset buf size : UInt) : Envm :=
  let first_page := offset / MSS_ENVM_PAGE_SIZE
  let last_page := (offset + size - 1#32) / MSS_ENVM_PAGE_SIZE
  writePages memory offset buf size (last_page.toNat + 1 - first_page.toNat) first_page e

/-- The range holds the source afterwards, the rest of the array is as it was, and nothing
but the source is read. -/
structure WritesSource (e e' : Envm) (offset buf size : UInt) : Prop where
  written : ∀ i < size.toNat,
    e'.flash (offset.toNat + i) = memory (buf + BitVec.ofNat 32 i)
  unchanged : ∀ j < MSS_ENVM_FLASH_SIZE, j < offset.toNat ∨ offset.toNat + size.toNat ≤ j →
    e'.flash j = e.flash j
  reads : ∀ a ∈ e'.reads, ∃ i < size.toNat, a = buf + BitVec.ofNat 32 i

variable {memory}

@[simp]
theorem length_bytes (buf : UInt) (n : Nat) : (bytes memory buf n).length = n := by
  simp [bytes, addresses]

theorem getElem?_bytes {buf : UInt} {n i : Nat} (h : i < n) :
    (bytes memory buf n)[i]? = some (memory (buf + BitVec.ofNat 32 i)) := by
  simp [bytes, addresses, h]

theorem addresses_add (buf : UInt) (m n : Nat) :
    addresses buf (m + n) = addresses buf m ++ addresses (buf + BitVec.ofNat 32 m) n := by
  simp only [addresses, List.range_add, List.map_append, List.map_map]
  congr 2
  funext i
  simp [BitVec.ofNat_add, BitVec.add_assoc]

/-- A page of the array is changed only where the source goes. -/
theorem envm_write_page_part_flash (e : Envm) {page' part_begin part_end : UInt} (buf : UInt)
    (hle : part_begin ≤ part_end) (hend : part_end ≤ MSS_ENVM_PAGE_SIZE) :
    (envm_write_page_part memory e page' part_begin part_end buf).flash =
      store e.flash ((page' * MSS_ENVM_PAGE_SIZE).toNat + part_begin.toNat)
        (bytes memory buf (part_end - part_begin).toNat) := by
  have hle' := BitVec.le_def.mp hle
  have hend' : part_end.toNat ≤ 128 := BitVec.le_def.mp hend
  have hcount : (part_end - part_begin).toNat = part_end.toNat - part_begin.toNat :=
    BitVec.toNat_sub_of_le hle
  have hpage : MSS_ENVM_PAGE_SIZE.toNat = 128 := rfl
  set start := (page' * MSS_ENVM_PAGE_SIZE).toNat with hstart
  funext j
  by_cases hin : start ≤ j ∧ j < start + 128
  · obtain ⟨i, rfl⟩ := Nat.exists_eq_add_of_le hin.1
    have hi : i < 128 := by omega
    have hread : ∀ m : Nat → Byte, store e.flash start (page m 0) (start + i) = m i := by
      intro m
      refine store_add ?_
      simp [page, hpage, hi]
    simp only [envm_write_page_part, ← hstart, hread, hcount]
    by_cases hpart : part_begin.toNat ≤ i ∧ i < part_end.toNat
    · obtain ⟨k, rfl⟩ := Nat.exists_eq_add_of_le hpart.1
      have hk : k < part_end.toNat - part_begin.toNat := by omega
      rw [store_add (getElem?_bytes hk), ← Nat.add_assoc, store_add (getElem?_bytes hk)]
    · rw [store_outside (by rw [length_bytes]; omega),
        store_outside (m := e.flash) (by rw [length_bytes]; omega), if_pos]
      · have := @store_add _ e.wdbuff 0 i (page e.flash start) (e.flash (start + i))
          (by simp [page, hpage, hi])
        rwa [Nat.zero_add] at this
      · by_contra hwhole
        push Not at hwhole
        rw [hwhole.1, hwhole.2] at hpart
        exact hpart ⟨Nat.zero_le _, hi⟩
  · have hout : j < start ∨ start + 128 ≤ j := by omega
    have hsame : store e.flash (start + part_begin.toNat)
        (bytes memory buf (part_end - part_begin).toNat) j = e.flash j :=
      store_outside (by rw [length_bytes, hcount]; omega)
    rw [hsame]
    exact store_outside (by rw [← hstart]; simpa [page, hpage] using hout)

/-- The pages of an aligned range. -/
theorem writePages_of_aligned (offset buf size : UInt)
    (hrange : offset.toNat + size.toNat ≤ MSS_ENVM_FLASH_SIZE) (n : Nat) (p : UInt) (e : Envm)
    (hp : offset.toNat ≤ p.toNat * 128) (halign : offset.toNat % 128 = 0)
    (hn : (p.toNat + n) * 128 < offset.toNat + size.toNat + 128) :
    let count := min (n * 128) (offset.toNat + size.toNat - p.toNat * 128)
    (writePages memory offset buf size n p e).flash = store e.flash (p.toNat * 128)
        (bytes memory (buf + (p * MSS_ENVM_PAGE_SIZE - offset)) count) ∧
      (writePages memory offset buf size n p e).reads =
        e.reads ++ addresses (buf + (p * MSS_ENVM_PAGE_SIZE - offset)) count := by
  have hflash : MSS_ENVM_FLASH_SIZE = 262144 := rfl
  induction n generalizing p e with
  | zero => simp [writePages, bytes, addresses]
  | succ n ih =>
      have hpage : (p * MSS_ENVM_PAGE_SIZE).toNat = p.toNat * 128 := by
        rw [BitVec.toNat_mul]
        exact Nat.mod_eq_of_lt (by show p.toNat * 128 < _; omega)
      have hbegin : maxInt 0#32 (offset - p * MSS_ENVM_PAGE_SIZE) = 0#32 := by
        have hle : (offset - p * MSS_ENVM_PAGE_SIZE).toInt ≤ 0 := by
          rw [BitVec.toInt_eq_toNat_cond, BitVec.toNat_sub, hpage]
          split <;> omega
        rw [maxInt]
        split
        · rfl
        · next hnot =>
            apply BitVec.eq_of_toInt_eq
            simp only [BitVec.toInt_zero] at hnot ⊢
            omega
      have hrest : (offset + size - p * MSS_ENVM_PAGE_SIZE).toNat =
          offset.toNat + size.toNat - p.toNat * 128 := by
        rw [BitVec.toNat_sub, BitVec.toNat_add, hpage]
        omega
      have hend : (minInt MSS_ENVM_PAGE_SIZE (offset + size - p * MSS_ENVM_PAGE_SIZE)).toNat =
          min 128 (offset.toNat + size.toNat - p.toNat * 128) := by
        have h128 : MSS_ENVM_PAGE_SIZE.toInt = 128 := rfl
        have h128' : MSS_ENVM_PAGE_SIZE.toNat = 128 := rfl
        have hint : (offset + size - p * MSS_ENVM_PAGE_SIZE).toInt =
            ((offset.toNat + size.toNat - p.toNat * 128 : Nat) : Int) := by
          rw [BitVec.toInt_eq_toNat_cond, hrest]
          split <;> omega
        rw [minInt, h128, hint]
        split <;> omega
      have hsource : maxUInt (p * MSS_ENVM_PAGE_SIZE - offset) 0#32 = p * MSS_ENVM_PAGE_SIZE - offset := by
        rw [maxUInt]
        split
        · rfl
        · next hnot =>
            apply BitVec.eq_of_toNat_eq
            have := (BitVec.lt_def (x := 0#32) (y := p * MSS_ENVM_PAGE_SIZE - offset)).not.mp hnot
            simp only [BitVec.toNat_zero] at this ⊢
            omega
      set c := min 128 (offset.toNat + size.toNat - p.toNat * 128) with hc
      have hcount : (minInt MSS_ENVM_PAGE_SIZE (offset + size - p * MSS_ENVM_PAGE_SIZE) - 0#32).toNat =
          c := by rw [BitVec.sub_zero, hend]
      obtain ⟨hflash', hreads'⟩ := ih (p + 1#32) (envm_write_page_part memory e p 0#32
        (minInt MSS_ENVM_PAGE_SIZE (offset + size - p * MSS_ENVM_PAGE_SIZE))
        (buf + (p * MSS_ENVM_PAGE_SIZE - offset))) (by bv_omega) (by bv_omega)
      have hfirst := @envm_write_page_part_flash memory e p 0#32
        (minInt MSS_ENVM_PAGE_SIZE (offset + size - p * MSS_ENVM_PAGE_SIZE))
        (buf + (p * MSS_ENVM_PAGE_SIZE - offset))
        (BitVec.le_def.mpr (Nat.zero_le _))
        (BitVec.le_def.mpr (by rw [hend]; exact Nat.min_le_left _ _))
      have hp1 : (p + 1#32).toNat = p.toNat + 1 := by bv_omega
      -- the rest of the pages, if there are any, follow a whole page
      set c' := min (n * 128) (offset.toNat + size.toNat - (p + 1#32).toNat * 128) with hc'
      have htotal : c + c' = min ((n + 1) * 128) (offset.toNat + size.toNat - p.toNat * 128) := by
        omega
      have hnext : c' = 0 ∨ (buf + ((p + 1#32) * MSS_ENVM_PAGE_SIZE - offset) =
          buf + (p * MSS_ENVM_PAGE_SIZE - offset) + BitVec.ofNat 32 c ∧
          (p + 1#32).toNat * 128 = p.toNat * 128 + c) := by
        rcases Nat.lt_or_ge (offset.toNat + size.toNat - p.toNat * 128) 128 with hlast | hmore
        · exact .inl (by omega)
        · have hc128 : c = 128 := by omega
          refine .inr ⟨?_, by rw [hp1, hc128]; ring⟩
          rw [hc128, show MSS_ENVM_PAGE_SIZE = 128#32 from rfl]
          have : (p + 1#32) * 128#32 = p * 128#32 + 128#32 := BitVec.add_mul ..
          rw [this]
          bv_omega
      rw [writePages, hbegin, hsource, hflash', hreads', hfirst, hcount, hpage, ← htotal]
      rcases hnext with hzero | ⟨hbuf, hstart⟩
      · rw [hzero]
        exact ⟨by simp [bytes, addresses], by simp [envm_write_page_part, hend, addresses]⟩
      · rw [hbuf, hstart]
        refine ⟨?_, ?_⟩
        · have happend := store_append e.flash (p.toNat * 128)
            (bytes memory (buf + (p * MSS_ENVM_PAGE_SIZE - offset)) c)
            (bytes memory (buf + (p * MSS_ENVM_PAGE_SIZE - offset) + BitVec.ofNat 32 c) c')
          rw [length_bytes] at happend
          rw [BitVec.toNat_zero, Nat.add_zero, happend, bytes, bytes, bytes, ← List.map_append,
            ← addresses_add]
        · simp only [envm_write_page_part, hcount, List.append_assoc, addresses_add]

/-- What has been read stays read. -/
theorem mem_reads_writePages {offset buf size a : UInt} (n : Nat) (p : UInt) (e : Envm)
    (h : a ∈ e.reads) : a ∈ (writePages memory offset buf size n p e).reads := by
  induction n generalizing p e with
  | zero => exact h
  | succ n ih => exact ih _ _ (List.mem_append_left _ h)

section Write

variable {e : Envm} {offset buf size : UInt}

/-- The first page and the number of pages. -/
theorem envm_write_eq (hpos : 0 < size.toNat)
    (hrange : offset.toNat + size.toNat ≤ MSS_ENVM_FLASH_SIZE) :
    ∃ n, envm_write memory e offset buf size =
        writePages memory offset buf size (n + 1) (offset / MSS_ENVM_PAGE_SIZE) e ∧
      (offset.toNat / 128 + (n + 1)) * 128 < offset.toNat + size.toNat + 128 ∧
      offset.toNat + size.toNat ≤ (offset.toNat / 128 + (n + 1)) * 128 := by
  have hflash : MSS_ENVM_FLASH_SIZE = 262144 := rfl
  have hfirst : (offset / MSS_ENVM_PAGE_SIZE).toNat = offset.toNat / 128 := rfl
  have hlast : ((offset + size - 1#32) / MSS_ENVM_PAGE_SIZE).toNat =
      (offset.toNat + size.toNat - 1) / 128 := by
    rw [BitVec.toNat_udiv, show (offset + size - 1#32).toNat = offset.toNat + size.toNat - 1 by
      bv_omega]
    rfl
  refine ⟨(offset.toNat + size.toNat - 1) / 128 - offset.toNat / 128, ?_, by omega, by omega⟩
  rw [envm_write, hfirst, hlast]
  congr 1
  omega

/-- A range that begins with a page. -/
theorem writesSource_of_aligned (hpos : 0 < size.toNat)
    (hrange : offset.toNat + size.toNat ≤ MSS_ENVM_FLASH_SIZE) (fresh : e.reads = [])
    (halign : offset.toNat % 128 = 0) :
    WritesSource memory e (envm_write memory e offset buf size) offset buf size := by
  obtain ⟨n, heq, hlast, hcover⟩ := @envm_write_eq memory e offset buf size hpos hrange
  have hfirst : (offset / MSS_ENVM_PAGE_SIZE).toNat = offset.toNat / 128 := rfl
  have hstart : offset.toNat / 128 * 128 = offset.toNat := by omega
  have hbuf : buf + (offset / MSS_ENVM_PAGE_SIZE * MSS_ENVM_PAGE_SIZE - offset) = buf := by
    have : offset / MSS_ENVM_PAGE_SIZE * MSS_ENVM_PAGE_SIZE = offset := by
      apply BitVec.eq_of_toNat_eq
      rw [BitVec.toNat_mul, hfirst]
      show offset.toNat / 128 * 128 % _ = _
      rw [hstart, Nat.mod_eq_of_lt offset.isLt]
    rw [this, BitVec.sub_self, BitVec.add_zero]
  have hpages := @writePages_of_aligned memory offset buf size hrange (n + 1)
    (offset / MSS_ENVM_PAGE_SIZE) e (by rw [hfirst, hstart]) halign (by rw [hfirst]; exact hlast)
  rw [hfirst, hstart, hbuf, Nat.add_sub_cancel_left, Nat.min_eq_right (by omega)] at hpages
  rw [heq]
  refine ⟨fun i hi => ?_, fun j _ hj => ?_, fun a ha => ?_⟩
  · rw [hpages.1]
    exact store_add (getElem?_bytes hi)
  · rw [hpages.1]
    exact store_outside (by rw [length_bytes]; exact hj)
  · rw [hpages.2, fresh, List.nil_append, addresses, List.mem_map] at ha
    obtain ⟨i, hi, rfl⟩ := ha
    exact ⟨i, List.mem_range.mp hi, rfl⟩

/-- A range that begins inside a page: bytes before the source are read. -/
theorem not_writesSource_of_unaligned (hpos : 0 < size.toNat)
    (hrange : offset.toNat + size.toNat ≤ MSS_ENVM_FLASH_SIZE) (halign : offset.toNat % 128 ≠ 0) :
    ¬ WritesSource memory e (envm_write memory e offset buf size) offset buf size := by
  intro h
  have hflash : MSS_ENVM_FLASH_SIZE = 262144 := rfl
  obtain ⟨n, heq, -, -⟩ := @envm_write_eq memory e offset buf size hpos hrange
  set p := offset / MSS_ENVM_PAGE_SIZE with hp
  set r := offset.toNat % 128 with hr
  have hpage : (p * MSS_ENVM_PAGE_SIZE).toNat = offset.toNat - r := by
    rw [BitVec.toNat_mul, show p.toNat = offset.toNat / 128 from rfl]
    show offset.toNat / 128 * 128 % _ = _
    omega
  have hoff : (offset - p * MSS_ENVM_PAGE_SIZE).toNat = r := by
    rw [BitVec.toNat_sub, hpage]
    omega
  have hbegin : maxInt 0#32 (offset - p * MSS_ENVM_PAGE_SIZE) = offset - p * MSS_ENVM_PAGE_SIZE := by
    rw [maxInt, if_neg]
    rw [BitVec.toInt_eq_toNat_cond (offset - _), hoff, BitVec.toInt_zero]
    split <;> omega
  have hend : r < (minInt MSS_ENVM_PAGE_SIZE (offset + size - p * MSS_ENVM_PAGE_SIZE)).toNat := by
    have h128 : MSS_ENVM_PAGE_SIZE.toNat = 128 := rfl
    have : (offset + size - p * MSS_ENVM_PAGE_SIZE).toNat = r + size.toNat := by
      rw [BitVec.toNat_sub, BitVec.toNat_add, hpage]
      omega
    rw [minInt]
    split <;> omega
  have hback : maxUInt (p * MSS_ENVM_PAGE_SIZE - offset) 0#32 = p * MSS_ENVM_PAGE_SIZE - offset := by
    rw [maxUInt, if_pos]
    show 0#32 < _
    rw [BitVec.lt_def, BitVec.toNat_sub, hpage, BitVec.toNat_zero]
    omega
  have hread : buf + (p * MSS_ENVM_PAGE_SIZE - offset) ∈
      (envm_write memory e offset buf size).reads := by
    rw [heq, writePages, hbegin, hback]
    refine mem_reads_writePages n _ _ (List.mem_append_right _ (List.mem_map.mpr ⟨0, ?_, ?_⟩))
    · rw [List.mem_range, BitVec.toNat_sub, hoff]
      have := (minInt MSS_ENVM_PAGE_SIZE (offset + size - p * MSS_ENVM_PAGE_SIZE)).isLt
      omega
    · exact BitVec.add_zero _
  obtain ⟨i, hi, hsame⟩ := h.reads _ hread
  have hoffset : p * MSS_ENVM_PAGE_SIZE - offset = BitVec.ofNat 32 i :=
    (BitVec.add_right_inj buf).mp hsame
  have := congrArg BitVec.toNat hoffset
  rw [BitVec.toNat_sub, hpage, BitVec.toNat_ofNat] at this
  omega

/-- A write inside the array stores the source and reads nothing else exactly if it begins
at a page. -/
theorem envm_write_writes_source (hpos : 0 < size.toNat)
    (hrange : offset.toNat + size.toNat ≤ MSS_ENVM_FLASH_SIZE) (fresh : e.reads = []) :
    WritesSource memory e (envm_write memory e offset buf size) offset buf size ↔
      offset.toNat % 128 = 0 :=
  ⟨fun h => by_contra fun halign => not_writesSource_of_unaligned hpos hrange halign h,
    writesSource_of_aligned hpos hrange fresh⟩

end Write

/-- Ten bytes at the second page. -/
theorem envm_write_writes_source_page :
    WritesSource (fun a => a.setWidth 8) ⟨fun _ => 0, fun _ => 0, []⟩
      (envm_write (fun a => a.setWidth 8) ⟨fun _ => 0, fun _ => 0, []⟩ 128#32 0x1000#32 10#32)
      128#32 0x1000#32 10#32 :=
  (envm_write_writes_source (by decide) (by decide) rfl).mpr rfl

/-- One byte inside the first page. -/
theorem not_envm_write_writes_source :
    ¬ ∀ (memory : UInt → Byte) (e : Envm) (offset buf size : UInt), 0 < size.toNat →
      offset.toNat + size.toNat ≤ MSS_ENVM_FLASH_SIZE → e.reads = [] →
      WritesSource memory e (envm_write memory e offset buf size) offset buf size := by
  intro writes
  have h := writes (fun a => a.setWidth 8) ⟨fun _ => 0, fun _ => 0, []⟩ 1#32 0x1000#32 1#32
    (by decide) (by decide) rfl
  have := h.written 0 (by decide)
  revert this
  decide

end UBoot.M2s
