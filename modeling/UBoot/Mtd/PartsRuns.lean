/-
# The current partition

What holds of the lists of devices and partitions in every state: they are sorted, their
lengths are right, the partitions are valid, and the current partition exists. Additions and
deletions leave it the same partition, as long as its index is adjusted rightly.
-/

import UBoot.Mtd.Parts
import Mathlib.Data.List.Nodup
import Mathlib.Data.List.Pairwise

namespace UBoot.Mtd

open UBoot.Lib

/-! ## Valid partitions -/

/-- A partition begins and ends with erase blocks. -/
def Aligned (mtd : MtdInfo) (part : PartInfo) : Prop :=
  if mtd.eraseregions = [] then
    mtd.erasesize.toNat ∣ part.offset.toNat ∧ mtd.erasesize.toNat ∣ part.size.toNat
  else
    part.offset ∈ mtd.eraseregions.flatMap EraseRegion.starts ∧
      (part.offset + part.size ∈ mtd.eraseregions.flatMap EraseRegion.starts ∨
        part.offset + part.size = lastSector mtd.eraseregions)

/-- A partition is inside its device and aligned. -/
structure PartInfo.Valid (id : MtdIds) (part : PartInfo) : Prop where
  inside : part.offset.toNat + part.size.toNat ≤ id.size.toNat
  aligned : ∃ mtd, id.mtd = some mtd ∧ Aligned mtd part

theorem aligned_of_validate {id : MtdIds} {part : PartInfo}
    (h : part_validate_eraseblock id part = 0) : ∃ mtd, id.mtd = some mtd ∧ Aligned mtd part := by
  rw [part_validate_eraseblock] at h
  split at h
  · exact absurd h (by decide)
  · next mtd hmtd =>
      refine ⟨mtd, hmtd, ?_⟩
      rw [Aligned]
      split at h
      · next hregions =>
          rw [if_pos hregions]
          split at h
          · exact absurd h (by decide)
          · next hoffset =>
              split at h
              · exact absurd h (by decide)
              · next hsize =>
                  have hoffset := congrArg BitVec.toNat (not_not.mp hoffset)
                  have hsize := congrArg BitVec.toNat (not_not.mp hsize)
                  rw [BitVec.toNat_umod] at hoffset hsize
                  exact ⟨Nat.dvd_of_mod_eq_zero hoffset, Nat.dvd_of_mod_eq_zero hsize⟩
      · next hregions =>
          rw [if_neg hregions]
          split at h
          · exact absurd h (by decide)
          · next hoffset =>
              refine ⟨not_not.mp hoffset, ?_⟩
              split at h
              · next hend => exact .inl hend
              · split at h
                · next hend => exact .inr hend
                · exact absurd h (by decide)

/-- What is validated is valid. -/
theorem valid_of_validate {id : MtdIds} {part : PartInfo} (h : (part_validate id part).1 = 0) :
    (part_validate id part).2.Valid id ∧ (part_validate id part).2.ptr = part.ptr ∧
      (part_validate id part).2.offset = part.offset := by
  rw [part_validate] at h ⊢
  set part' := if part.size = SIZE_REMAINING then { part with size := id.size - part.offset } else part
    with hpart
  have hsame : part'.ptr = part.ptr ∧ part'.offset = part.offset := by
    rw [hpart]
    split <;> exact ⟨rfl, rfl⟩
  split at h
  · exact absurd (show (1 : Int) = 0 from h) (by decide)
  · next hbeyond =>
      rw [if_neg hbeyond]
      split at h
      · exact absurd (show (1 : Int) = 0 from h) (by decide)
      · next hwrap =>
          rw [if_neg hwrap]
          split at h
          · exact absurd (show (1 : Int) = 0 from h) (by decide)
          · next hexceeds =>
              rw [if_neg hexceeds]
              exact ⟨⟨by bv_omega, aligned_of_validate h⟩, hsame⟩

/-! ## Sorted lists -/

/-- Partitions in the order of their offsets. -/
def Sorted (parts : List PartInfo) : Prop :=
  parts.Pairwise fun p p' => p.offset.toNat ≤ p'.offset.toNat

section Lists

variable {part pi : PartInfo} {parts parts' pre post : List PartInfo}

/-- A partition is put between those with smaller offsets and the rest. -/
theorem insertPart_eq {found : Option PartInfo} (h : insertPart part parts = some (parts', found)) :
    ∃ pre post, parts = pre ++ post ∧ parts' = pre ++ part :: post ∧ found = post.head? ∧
      (∀ x ∈ pre, x.offset.toNat < part.offset.toNat) ∧
      (∀ x, post.head? = some x → part.offset.toNat ≤ x.offset.toNat) := by
  induction parts generalizing parts' found with
  | nil =>
      rw [insertPart, Option.some.injEq, Prod.mk.injEq] at h
      exact ⟨[], [], rfl, h.1.symm, h.2.symm, by simp, by simp⟩
  | cons pi parts ih =>
      rw [insertPart] at h
      split at h
      · exact absurd h (by simp)
      · split at h
        · next hle =>
            rw [Option.some.injEq, Prod.mk.injEq] at h
            refine ⟨[], pi :: parts, rfl, h.1.symm, h.2.symm, by simp, fun x hx => ?_⟩
            obtain rfl : pi = x := by simpa using hx
            exact BitVec.le_def.mp hle
        · next hgt =>
            obtain ⟨⟨rest, found'⟩, hrest, heq⟩ := Option.map_eq_some_iff.mp h
            rw [Prod.mk.injEq] at heq
            obtain ⟨rfl, rfl⟩ := heq
            obtain ⟨pre, post, rfl, hrest, hfound, hpre, hpost⟩ := ih hrest
            refine ⟨pi :: pre, post, rfl, by simp [hrest], hfound, fun x hx => ?_, hpost⟩
            rcases List.mem_cons.mp hx with rfl | hx
            · exact Nat.lt_of_not_le fun hle => hgt (BitVec.le_def.mpr hle)
            · exact hpre x hx

theorem Sorted.head_le (h : Sorted post) {x y : PartInfo} (hx : post.head? = some x) (hy : y ∈ post) :
    x.offset.toNat ≤ y.offset.toNat := by
  cases post with
  | nil => exact absurd hx (by simp)
  | cons x' post =>
      obtain rfl : x' = x := by simpa using hx
      rcases List.mem_cons.mp hy with rfl | hy
      · exact le_rfl
      · exact (List.pairwise_cons.mp h).1 y hy

theorem Sorted.insert (h : Sorted (pre ++ post))
    (hpre : ∀ x ∈ pre, x.offset.toNat < part.offset.toNat)
    (hpost : ∀ x, post.head? = some x → part.offset.toNat ≤ x.offset.toNat) :
    Sorted (pre ++ part :: post) := by
  obtain ⟨sorted_pre, sorted_post, hcross⟩ := List.pairwise_append.mp h
  refine List.pairwise_append.mpr ⟨sorted_pre, List.pairwise_cons.mpr ⟨fun x hx => ?_, sorted_post⟩,
    fun x hx y hy => ?_⟩
  · cases hhead : post.head? with
    | none => exact absurd hx (by simp [List.head?_eq_none_iff.mp hhead])
    | some first => exact (hpost first hhead).trans (Sorted.head_le sorted_post hhead hx)
  · rcases List.mem_cons.mp hy with rfl | hy
    · exact (hpre x hx).le
    · exact hcross x hx y hy

/-- The list without one of its partitions. -/
theorem filter_ptr (h : ((pre ++ part :: post).map PartInfo.ptr).Nodup) :
    (pre ++ part :: post).filter (fun p => p.ptr ≠ part.ptr) = pre ++ post := by
  rw [List.map_append, List.map_cons, List.nodup_middle, List.nodup_cons, ← List.map_append] at h
  have hother : ∀ x ∈ pre ++ post, x.ptr ≠ part.ptr := fun x hx heq =>
    h.1 (heq ▸ List.mem_map_of_mem hx)
  rw [List.filter_append, List.filter_cons, if_neg (by simp),
    List.filter_eq_self.mpr fun x hx => by simpa using hother x (List.mem_append_left _ hx),
    List.filter_eq_self.mpr fun x hx => by simpa using hother x (List.mem_append_right _ hx)]

end Lists

/-! ## The invariant -/

/-- A device in order. -/
structure MtdDevice.Ok (dev : MtdDevice) : Prop where
  sorted : Sorted dev.parts
  count : dev.num_parts.toNat = dev.parts.length
  valid : ∀ part ∈ dev.parts, part.Valid dev.id
  nodup : (dev.parts.map PartInfo.ptr).Nodup

namespace MtdParts

/-- The lists are in order, and the current partition exists. -/
structure Ok (s : MtdParts) : Prop where
  devices : ∀ dev ∈ s.devices, dev.Ok ∧ dev.parts ≠ []
  nodup : (s.devices.map MtdDevice.ptr).Nodup
  none : s.current_mtd_dev = none → s.devices = []
  current : ∀ ptr, s.current_mtd_dev = some ptr →
    ∃ dev ∈ s.devices, dev.ptr = ptr ∧ s.current_mtd_partnum.toNat < dev.parts.length

/-- The current partition is that at address `p`, of the device at address `d`. -/
def Denotes (s : MtdParts) (d p : Nat) : Prop :=
  s.current_mtd_dev = some d ∧ ∃ dev ∈ s.devices, dev.ptr = d ∧
    ∃ part, dev.parts[s.current_mtd_partnum.toNat]? = some part ∧ part.ptr = p

/-- The device at address `d` has a partition at address `p`. -/
def Has (s : MtdParts) (d p : Nat) : Prop :=
  ∃ dev ∈ s.devices, dev.ptr = d ∧ p ∈ dev.parts.map PartInfo.ptr

/-- The current partition is the first one of a device, or there is none. -/
def Reset (s : MtdParts) : Prop :=
  s.current_mtd_dev = none ∧ s.devices = [] ∨
    s.current_mtd_partnum = 0#8 ∧ ∃ dev ∈ s.devices, s.current_mtd_dev = some dev.ptr

/-- From `s` to `s'` the current partition stays the same one, unless it is deleted. -/
def Keeps (s s' : MtdParts) : Prop :=
  ∀ d p, s.Denotes d p → (s'.Has d p → s'.Denotes d p) ∧ (¬ s'.Has d p → s'.Reset)

variable {s : MtdParts} {dev dev' : MtdDevice}

theorem keeps_refl (s : MtdParts) : s.Keeps s := by
  rintro d p hd
  refine ⟨fun _ => hd, fun hnot => ?_⟩
  obtain ⟨-, dev, hdev, hptr, part, hget, hp⟩ := hd
  exact absurd ⟨dev, hdev, hptr, hp ▸ List.mem_map_of_mem (List.mem_of_getElem? hget)⟩ hnot

theorem device_eq {ptr : Nat} (h : s.device ptr = some dev) : dev ∈ s.devices ∧ dev.ptr = ptr :=
  ⟨List.mem_of_find?_eq_some h, by simpa using List.find?_some h⟩

/-- There is one device at an address. -/
theorem Ok.device_unique (ok : s.Ok) (h : dev ∈ s.devices) (h' : dev' ∈ s.devices)
    (hptr : dev.ptr = dev'.ptr) : dev = dev' :=
  List.inj_on_of_nodup_map ok.nodup h h' hptr

theorem mem_setDevice {d : MtdDevice} (h : d ∈ (s.setDevice dev').devices) :
    d = dev' ∨ d ∈ s.devices ∧ d.ptr ≠ dev'.ptr := by
  obtain ⟨x, hx, heq⟩ := List.mem_map.mp h
  split at heq
  · exact .inl heq.symm
  · next hne => exact .inr ⟨heq ▸ hx, heq ▸ hne⟩

theorem mem_setDevice_self (h : dev ∈ s.devices) (hptr : dev'.ptr = dev.ptr) :
    dev' ∈ (s.setDevice dev').devices :=
  List.mem_map.mpr ⟨dev, h, if_pos hptr.symm⟩

theorem mem_setDevice_other {d : MtdDevice} (h : d ∈ s.devices) (hptr : d.ptr ≠ dev'.ptr) :
    d ∈ (s.setDevice dev').devices :=
  List.mem_map.mpr ⟨d, h, if_neg hptr⟩

theorem map_ptr_setDevice (s : MtdParts) (dev' : MtdDevice) :
    (s.setDevice dev').devices.map MtdDevice.ptr = s.devices.map MtdDevice.ptr := by
  rw [setDevice, List.map_map]
  refine List.map_congr_left fun d _ => ?_
  dsimp only [Function.comp_apply]
  split
  · next h => exact h.symm
  · rfl

/-- A change of a device that keeps it in order, and adjusts the index of the current
partition if it is the current device. -/
theorem setDevice_ok (ok : s.Ok) (hdev : dev ∈ s.devices) (dev' : MtdDevice)
    (hptr : dev'.ptr = dev.ptr) (hok : dev'.Ok) (hsome : dev'.parts ≠ []) (partnum : BitVec 8)
    (hother : s.current_mtd_dev ≠ some dev.ptr → partnum = s.current_mtd_partnum)
    (hrange : s.current_mtd_dev = some dev.ptr → partnum.toNat < dev'.parts.length) :
    ({ s with current_mtd_partnum := partnum }.setDevice dev').Ok := by
  refine ⟨fun d hd => ?_, by rw [map_ptr_setDevice]; exact ok.nodup, fun hnone => ?_, fun ptr hcur => ?_⟩
  · rcases mem_setDevice hd with rfl | ⟨hd, -⟩
    · exact ⟨hok, hsome⟩
    · exact ok.devices d hd
  · rw [setDevice, show s.devices = [] from ok.none hnone]
    rfl
  · obtain ⟨d, hd, hd', hlt⟩ := ok.current ptr hcur
    by_cases h : ptr = dev.ptr
    · exact ⟨dev', mem_setDevice_self (s := { s with current_mtd_partnum := partnum }) hdev hptr,
        hptr.trans h.symm, hrange (h ▸ hcur)⟩
    · refine ⟨d, mem_setDevice_other (s := { s with current_mtd_partnum := partnum }) hd
        (by rw [hptr, hd']; exact h), hd', ?_⟩
      show partnum.toNat < d.parts.length
      rw [hother fun heq => h (Option.some.inj (hcur.symm.trans heq))]
      exact hlt

/-- The same change, for what the current partition is. -/
theorem setDevice_keeps (ok : s.Ok) (hdev : dev ∈ s.devices) (dev' : MtdDevice)
    (hptr : dev'.ptr = dev.ptr)
    (partnum : BitVec 8)
    (hother : s.current_mtd_dev ≠ some dev.ptr → partnum = s.current_mtd_partnum)
    (hsame : s.current_mtd_dev = some dev.ptr → ∀ part,
      dev.parts[s.current_mtd_partnum.toNat]? = some part →
        part.ptr ∈ dev'.parts.map PartInfo.ptr ∧ dev'.parts[partnum.toNat]? = some part ∨
          part.ptr ∉ dev'.parts.map PartInfo.ptr ∧ partnum = 0#8) :
    s.Keeps ({ s with current_mtd_partnum := partnum }.setDevice dev') := by
  rintro d p ⟨hcur, cur, hmem, hd, part, hget, hp⟩
  by_cases h : d = dev.ptr
  · obtain rfl := ok.device_unique hmem hdev (hd.trans h)
    have hself := mem_setDevice_self (s := { s with current_mtd_partnum := partnum }) hdev hptr
    have hthis : ∀ x ∈ ({ s with current_mtd_partnum := partnum }.setDevice dev').devices,
        x.ptr = d → x = dev' := by
      intro x hx hxptr
      rcases mem_setDevice hx with heq | ⟨-, hne⟩
      · exact heq
      · exact absurd (hxptr.trans (hd.symm.trans hptr.symm)) hne
    rcases hsame (h ▸ hcur) part hget with ⟨-, hget'⟩ | ⟨hgone, hzero⟩
    · refine ⟨fun _ => ⟨hcur, dev', hself, hptr.trans hd, part, hget', hp⟩, fun hnot => ?_⟩
      exact absurd ⟨dev', hself, hptr.trans hd,
        hp ▸ List.mem_map_of_mem (List.mem_of_getElem? hget')⟩ hnot
    · refine ⟨fun ⟨x, hx, hxptr, hmem⟩ => ?_, fun _ => .inr ⟨hzero, dev', hself, ?_⟩⟩
      · rw [hthis x hx hxptr, ← hp] at hmem
        exact absurd hmem hgone
      · exact hcur.trans (by rw [hptr, hd])
  · have hne : s.current_mtd_dev ≠ some dev.ptr :=
      fun heq => h (Option.some.inj (hcur.symm.trans heq))
    have hmem' := mem_setDevice_other (s := { s with current_mtd_partnum := partnum }) hmem
      (show cur.ptr ≠ dev'.ptr by rw [hptr, hd]; exact h)
    refine ⟨fun _ => ⟨hcur, cur, hmem', hd, part, ?_, hp⟩, fun hnot => ?_⟩
    · show cur.parts[partnum.toNat]? = some part
      rw [hother hne]
      exact hget
    · exact absurd ⟨cur, hmem', hd, hp ▸ List.mem_map_of_mem (List.mem_of_getElem? hget)⟩ hnot

/-! ## Additions and deletions -/

theorem mtd_part_info_eq (hok : dev.Ok) (n : Nat) : mtd_part_info dev n = dev.parts[n]? := by
  rw [mtd_part_info, hok.count]
  split
  · next h => exact (List.getElem?_eq_none h).symm
  · rfl

/-- The index after an insertion. -/
def adjusted (s : MtdParts) (dev : MtdDevice) (found : Option PartInfo) : BitVec 8 :=
  match found, s.curr_pi dev with
  | some pi, some curr_pi =>
      if pi.offset ≤ curr_pi.offset then s.current_mtd_partnum + 1#8 else s.current_mtd_partnum
  | _, _ => s.current_mtd_partnum

theorem part_sort_add_eq {part : PartInfo} {s' : MtdParts}
    (h : s.part_sort_add dev part = some (s', dev')) :
    ∃ pre post, dev.parts = pre ++ post ∧
      dev' = { dev with parts := pre ++ part :: post, num_parts := dev.num_parts + 1#16 } ∧
      s' = { s with current_mtd_partnum := s.adjusted dev post.head? } ∧
      (∀ x ∈ pre, x.offset.toNat < part.offset.toNat) ∧
      (∀ x, post.head? = some x → part.offset.toNat ≤ x.offset.toNat) := by
  obtain ⟨⟨parts, found⟩, hinsert, heq⟩ := Option.map_eq_some_iff.mp h
  obtain ⟨pre, post, hparts, rfl, rfl, hpre, hpost⟩ := insertPart_eq hinsert
  rw [Prod.mk.injEq] at heq
  exact ⟨pre, post, hparts, heq.2.symm, heq.1.symm, hpre, hpost⟩

/-- A valid partition is put into a device in order. -/
theorem ok_insert {part : PartInfo} {pre post : List PartInfo} (hok : dev.Ok)
    (hparts : dev.parts = pre ++ post) (hvalid : part.Valid dev.id)
    (hfresh : part.ptr ∉ dev.parts.map PartInfo.ptr) (hroom : dev.parts.length + 1 < 2 ^ 16)
    (hpre : ∀ x ∈ pre, x.offset.toNat < part.offset.toNat)
    (hpost : ∀ x, post.head? = some x → part.offset.toNat ≤ x.offset.toNat) :
    MtdDevice.Ok { dev with parts := pre ++ part :: post, num_parts := dev.num_parts + 1#16 } := by
  have hcount := hok.count
  have hnodup := hok.nodup
  have hvalid' := hok.valid
  rw [hparts] at hcount hroom hfresh hnodup hvalid'
  refine ⟨(hparts ▸ hok.sorted).insert hpre hpost, ?_, fun x hx => ?_, ?_⟩
  · rw [List.length_append] at hcount hroom
    show (dev.num_parts + 1#16).toNat = (pre ++ part :: post).length
    rw [BitVec.toNat_add, hcount, List.length_append, List.length_cons]
    show (pre.length + post.length + 1) % 2 ^ 16 = _
    rw [Nat.mod_eq_of_lt (by omega)]
    omega
  · rw [List.mem_append, List.mem_cons] at hx
    rcases hx with hx | rfl | hx
    · exact hvalid' x (List.mem_append_left _ hx)
    · exact hvalid
    · exact hvalid' x (List.mem_append_right _ hx)
  · rw [List.map_append, List.map_cons, List.nodup_middle, List.nodup_cons, ← List.map_append]
    exact ⟨hfresh, hnodup⟩

/-- The index follows the current partition when another one is put into the list. -/
theorem getElem?_adjusted {part : PartInfo} {pre post : List PartInfo} (hok : dev.Ok)
    (hcur : s.current_mtd_dev = some dev.ptr) (hparts : dev.parts = pre ++ post)
    (hpre : ∀ x ∈ pre, x.offset.toNat < part.offset.toNat)
    (hpost : ∀ x, post.head? = some x → part.offset.toNat ≤ x.offset.toNat) {cur : PartInfo}
    (hget : dev.parts[s.current_mtd_partnum.toNat]? = some cur)
    (hroom : part.offset.toNat ≤ cur.offset.toNat → s.current_mtd_partnum.toNat < 255) :
    (pre ++ part :: post)[(s.adjusted dev post.head?).toNat]? = some cur := by
  have hcurr : s.curr_pi dev = some cur := by
    rw [curr_pi, if_pos hcur, mtd_part_info_eq hok, hget]
  rw [hparts] at hget
  rcases Nat.lt_or_ge s.current_mtd_partnum.toNat pre.length with hlt | hge
  · -- the current partition is in front of the new one
    rw [List.getElem?_append_left hlt] at hget
    have hmem := hpre cur (List.mem_of_getElem? hget)
    have hsame : s.adjusted dev post.head? = s.current_mtd_partnum := by
      unfold adjusted
      rw [hcurr]
      split
      · next pi curr_pi hhead heq =>
          have := hpost pi hhead
          obtain rfl := Option.some.inj heq
          rw [if_neg (by rw [BitVec.le_def]; omega)]
      · rfl
    rw [hsame, List.getElem?_append_left hlt, hget]
  · rw [List.getElem?_append_right hge] at hget
    have hmem := List.mem_of_getElem? hget
    obtain ⟨x, hx⟩ : ∃ x, post.head? = some x := by
      cases post with
      | nil => exact absurd hmem List.not_mem_nil
      | cons x post => exact ⟨x, rfl⟩
    have hle := Sorted.head_le (List.pairwise_append.mp (hparts ▸ hok.sorted)).2.1 hx hmem
    have hnext : s.adjusted dev post.head? = s.current_mtd_partnum + 1#8 := by
      unfold adjusted
      rw [hcurr, hx]
      exact if_pos (BitVec.le_def.mpr hle)
    have hlt := hroom ((hpost x hx).trans hle)
    rw [hnext, BitVec.toNat_add, show (1#8).toNat = 1 from rfl, Nat.mod_eq_of_lt (by omega),
      List.getElem?_append_right (by omega),
      show s.current_mtd_partnum.toNat + 1 - pre.length =
        s.current_mtd_partnum.toNat - pre.length + 1 by omega, List.getElem?_cons_succ, hget]

theorem part_add_ok (ok : s.Ok) (hdev : dev ∈ s.devices) {part : PartInfo}
    (hfresh : part.ptr ∉ dev.parts.map PartInfo.ptr) (hroom : dev.parts.length + 1 < 2 ^ 16)
    (hindex : s.current_mtd_dev = some dev.ptr → ∀ cur,
      dev.parts[s.current_mtd_partnum.toNat]? = some cur → part.offset.toNat ≤ cur.offset.toNat →
        s.current_mtd_partnum.toNat < 255) :
    (s.part_add dev part).2.Ok ∧ s.Keeps (s.part_add dev part).2 := by
  simp only [part_add]
  split
  · exact ⟨ok, s.keeps_refl⟩
  · next hvalidate =>
      split
      · exact ⟨ok, s.keeps_refl⟩
      · next s' dev' hadd =>
          obtain ⟨hvalid, hptr, hoffset⟩ := valid_of_validate (not_not.mp hvalidate)
          obtain ⟨pre, post, hparts, rfl, rfl, hpre, hpost⟩ := part_sort_add_eq hadd
          have hok := (ok.devices dev hdev).1
          rw [← hptr] at hfresh
          rw [← hoffset] at hindex
          have hget : s.current_mtd_dev = some dev.ptr → ∀ cur,
              dev.parts[s.current_mtd_partnum.toNat]? = some cur →
                (pre ++ (part_validate dev.id part).2 :: post)[(s.adjusted dev post.head?).toNat]? =
                  some cur := fun hcur cur hget =>
            getElem?_adjusted hok hcur hparts hpre hpost hget (hindex hcur cur hget)
          have hother : s.current_mtd_dev ≠ some dev.ptr →
              s.adjusted dev post.head? = s.current_mtd_partnum := by
            intro hne
            unfold adjusted
            rw [curr_pi, if_neg hne]
            split
            · next h => exact absurd h (by simp)
            · rfl
          have hok' := ok_insert hok hparts hvalid hfresh hroom hpre hpost
          refine ⟨setDevice_ok ok hdev
              ⟨dev.ptr, dev.id, dev.num_parts + 1#16, pre ++ (part_validate dev.id part).2 :: post⟩
              rfl hok' (by simp) _ hother fun hcur => ?_,
            setDevice_keeps ok hdev
              ⟨dev.ptr, dev.id, dev.num_parts + 1#16, pre ++ (part_validate dev.id part).2 :: post⟩
              rfl _ hother fun hcur cur hcur' => .inl ⟨?_, hget hcur cur hcur'⟩⟩
          · obtain ⟨d, hd, hdptr, hlt⟩ := ok.current dev.ptr hcur
            obtain rfl := ok.device_unique hd hdev hdptr
            have hcur' := hget hcur _ (List.getElem?_eq_getElem hlt)
            exact (List.getElem?_eq_some_iff.mp hcur').1
          · exact List.mem_map_of_mem (List.mem_of_getElem? (hget hcur cur hcur'))

theorem device_del_ok (ok : s.Ok) (dev : MtdDevice) :
    (s.device_del dev).Ok ∧ s.Keeps (s.device_del dev) := by
  have hsub : (s.devices.filter (·.ptr ≠ dev.ptr)).Sublist s.devices := List.filter_sublist
  have hdevices : ∀ d ∈ s.devices.filter (·.ptr ≠ dev.ptr), d.Ok ∧ d.parts ≠ [] :=
    fun d hd => ok.devices d (hsub.subset hd)
  have hnodup := ok.nodup.sublist (hsub.map MtdDevice.ptr)
  have hgone : ∀ d ∈ s.devices.filter (·.ptr ≠ dev.ptr), d.ptr ≠ dev.ptr := by simp
  rw [device_del]
  by_cases hcur : s.current_mtd_dev = some dev.ptr
  · rw [if_pos hcur]
    have hkeeps : ∀ s' : MtdParts, s'.devices = s.devices.filter (·.ptr ≠ dev.ptr) → s'.Reset →
        s.Keeps s' := by
      rintro s' heq hreset d p ⟨hd, -⟩
      refine ⟨fun ⟨x, hx, hxptr, _⟩ => ?_, fun _ => hreset⟩
      rw [heq] at hx
      exact absurd (hxptr.trans (Option.some.inj (hd.symm.trans hcur))) (hgone x hx)
    split
    · next hnil =>
        refine ⟨⟨hdevices, hnodup, fun _ => hnil, fun ptr h => absurd h (by simp)⟩,
          hkeeps _ rfl (.inl ⟨rfl, hnil⟩)⟩
    · next first rest hcons =>
        have hfirst : first ∈ s.devices.filter (·.ptr ≠ dev.ptr) := hcons ▸ List.mem_cons_self
        refine ⟨⟨hdevices, hnodup, fun h => absurd h (by simp), fun ptr h => ?_⟩,
          hkeeps _ rfl (.inr ⟨rfl, first, hfirst, rfl⟩)⟩
        exact ⟨first, hfirst, Option.some.inj h, List.length_pos_iff.mpr (hdevices first hfirst).2⟩
  · rw [if_neg hcur]
    have hstay : ∀ d, s.current_mtd_dev = some d.ptr → d ∈ s.devices →
        d ∈ s.devices.filter (·.ptr ≠ dev.ptr) := by
      intro d hd hmem
      exact List.mem_filter.mpr ⟨hmem, by simpa using fun heq : d.ptr = dev.ptr => hcur (heq ▸ hd)⟩
    refine ⟨⟨hdevices, hnodup, fun h => ?_, fun ptr h => ?_⟩, ?_⟩
    · show s.devices.filter _ = []
      rw [ok.none h]
      rfl
    · obtain ⟨d, hd, hptr, hlt⟩ := ok.current ptr h
      exact ⟨d, hstay d (hptr ▸ h) hd, hptr, hlt⟩
    · rintro d p ⟨hd, cur, hmem, hptr, part, hget, hp⟩
      have hmem' := hstay cur (hptr ▸ hd) hmem
      exact ⟨fun _ => ⟨hd, cur, hmem', hptr, part, hget, hp⟩, fun hnot => absurd
        ⟨cur, hmem', hptr, hp ▸ List.mem_map_of_mem (List.mem_of_getElem? hget)⟩ hnot⟩

/-- The index after a deletion. -/
def reindexed (s : MtdParts) (dev : MtdDevice) (part : PartInfo) : BitVec 8 :=
  match s.curr_pi dev with
  | some curr_pi =>
      if curr_pi.ptr = part.ptr then 0#8
      else if part.offset ≤ curr_pi.offset then s.current_mtd_partnum - 1#8
      else s.current_mtd_partnum
  | none => s.current_mtd_partnum

theorem part_del_eq (hmore : dev.num_parts ≠ 1#16) (part : PartInfo) :
    s.part_del dev part = { s with current_mtd_partnum := s.reindexed dev part }.setDevice
      { dev with
        parts := dev.parts.filter (·.ptr ≠ part.ptr)
        num_parts := dev.num_parts - 1#16 } := by
  rw [part_del, if_neg hmore]
  rfl

/-- A partition is taken out of a device in order. -/
theorem ok_remove {part : PartInfo} {pre post : List PartInfo} (hok : dev.Ok)
    (hparts : dev.parts = pre ++ part :: post) :
    MtdDevice.Ok { dev with parts := pre ++ post, num_parts := dev.num_parts - 1#16 } := by
  have hsub : (pre ++ post).Sublist dev.parts :=
    hparts ▸ List.Sublist.append_left (List.sublist_cons_self ..) pre
  refine ⟨List.Pairwise.sublist hsub hok.sorted, ?_, fun x hx => hok.valid x (hsub.subset hx),
    hok.nodup.sublist (hsub.map _)⟩
  have hcount := hok.count
  rw [hparts, List.length_append, List.length_cons] at hcount
  show (dev.num_parts - 1#16).toNat = (pre ++ post).length
  rw [List.length_append]
  bv_omega

/-- The index follows the current partition when another one is taken out of the list, if
that is listed in front, or has a larger offset. When it is taken out itself the index is 0. -/
theorem reindexed_spec {part : PartInfo} {pre post : List PartInfo} (hok : dev.Ok)
    (hcur : s.current_mtd_dev = some dev.ptr) (hparts : dev.parts = pre ++ part :: post)
    {cur : PartInfo} (hget : dev.parts[s.current_mtd_partnum.toNat]? = some cur)
    (hbehind : s.current_mtd_partnum.toNat < pre.length → cur.offset.toNat < part.offset.toNat) :
    cur.ptr ∈ (pre ++ post).map PartInfo.ptr ∧
        (pre ++ post)[(s.reindexed dev part).toNat]? = some cur ∨
      cur.ptr ∉ (pre ++ post).map PartInfo.ptr ∧ s.reindexed dev part = 0#8 := by
  have hcurr : s.curr_pi dev = some cur := by
    rw [curr_pi, if_pos hcur, mtd_part_info_eq hok, hget]
  have hnodup := hok.nodup
  rw [hparts, List.map_append, List.map_cons, List.nodup_middle, List.nodup_cons,
    ← List.map_append] at hnodup
  have hsorted := hok.sorted
  rw [hparts] at hget hsorted
  have hne : cur ∈ pre ++ post → cur.ptr ≠ part.ptr := fun hmem heq =>
    hnodup.1 (heq ▸ List.mem_map_of_mem hmem)
  have stays : ∀ n : BitVec 8, s.reindexed dev part = n → (pre ++ post)[n.toNat]? = some cur →
      cur.ptr ∈ (pre ++ post).map PartInfo.ptr ∧
        (pre ++ post)[(s.reindexed dev part).toNat]? = some cur := fun n hn hget' =>
    ⟨List.mem_map_of_mem (List.mem_of_getElem? hget'), hn ▸ hget'⟩
  rcases Nat.lt_trichotomy s.current_mtd_partnum.toNat pre.length with hlt | heq | hgt
  · left
    have hbefore := hbehind hlt
    rw [List.getElem?_append_left hlt] at hget
    refine stays s.current_mtd_partnum ?_ (by rw [List.getElem?_append_left hlt, hget])
    unfold reindexed
    rw [hcurr]
    show (if cur.ptr = part.ptr then _ else _) = _
    rw [if_neg (hne (List.mem_append_left _ (List.mem_of_getElem? hget))),
      if_neg (by rw [BitVec.le_def]; omega)]
  · right
    rw [heq, List.getElem?_append_right le_rfl, Nat.sub_self] at hget
    obtain rfl : part = cur := by simpa using hget
    refine ⟨hnodup.1, ?_⟩
    unfold reindexed
    rw [hcurr]
    exact if_pos rfl
  · left
    rw [List.getElem?_append_right hgt.le, show s.current_mtd_partnum.toNat - pre.length =
      s.current_mtd_partnum.toNat - 1 - pre.length + 1 by omega, List.getElem?_cons_succ] at hget
    have hmem := List.mem_of_getElem? hget
    have hle := (List.pairwise_cons.mp (List.pairwise_append.mp hsorted).2.1).1 cur hmem
    refine stays (s.current_mtd_partnum - 1#8) ?_ ?_
    · unfold reindexed
      rw [hcurr]
      show (if cur.ptr = part.ptr then _ else _) = _
      rw [if_neg (hne (List.mem_append_right _ hmem)), if_pos (BitVec.le_def.mpr hle)]
    · have hpred : (s.current_mtd_partnum - 1#8).toNat = s.current_mtd_partnum.toNat - 1 := by
        bv_omega
      rw [hpred, List.getElem?_append_right (by omega), hget]

theorem part_del_ok (ok : s.Ok) (hdev : dev ∈ s.devices) {part : PartInfo} (hpart : part ∈ dev.parts)
    (hbehind : s.current_mtd_dev = some dev.ptr → ∀ cur,
      dev.parts[s.current_mtd_partnum.toNat]? = some cur →
        ∀ i, s.current_mtd_partnum.toNat < i → dev.parts[i]? = some part →
          cur.offset.toNat < part.offset.toNat) :
    (s.part_del dev part).Ok ∧ s.Keeps (s.part_del dev part) := by
  by_cases hone : dev.num_parts = 1#16
  · rw [part_del, if_pos hone]
    exact device_del_ok ok dev
  · have hok := (ok.devices dev hdev).1
    obtain ⟨pre, post, hparts⟩ := List.append_of_mem hpart
    have hfilter := filter_ptr (hparts ▸ hok.nodup)
    have hspec : s.current_mtd_dev = some dev.ptr → ∀ cur,
        dev.parts[s.current_mtd_partnum.toNat]? = some cur → _ := fun hcur cur hget =>
      reindexed_spec hok hcur hparts hget fun hlt =>
        hbehind hcur cur hget pre.length hlt (by rw [hparts]; simp)
    have hother : s.current_mtd_dev ≠ some dev.ptr → s.reindexed dev part = s.current_mtd_partnum := by
      intro hne
      unfold reindexed
      rw [curr_pi, if_neg hne]
    have hlength : (pre ++ post).length ≠ 0 := by
      have hcount := hok.count
      rw [hparts, List.length_append, List.length_cons] at hcount
      rw [List.length_append]
      bv_omega
    rw [part_del_eq hone, hparts, hfilter]
    refine ⟨setDevice_ok ok hdev ⟨dev.ptr, dev.id, dev.num_parts - 1#16, pre ++ post⟩ rfl
        (ok_remove hok hparts) (fun hnil => hlength (List.length_eq_zero_iff.mpr hnil)) _ hother
        fun hcur => ?_,
      setDevice_keeps ok hdev ⟨dev.ptr, dev.id, dev.num_parts - 1#16, pre ++ post⟩ rfl _ hother hspec⟩
    obtain ⟨d, hd, hdptr, hlt⟩ := ok.current dev.ptr hcur
    obtain rfl := ok.device_unique hd hdev hdptr
    rcases hspec hcur _ (List.getElem?_eq_getElem hlt) with ⟨-, hget⟩ | ⟨-, hzero⟩
    · exact (List.getElem?_eq_some_iff.mp hget).1
    · rw [hzero]
      exact Nat.pos_of_ne_zero hlength

/-- A new device is filled in order. -/
theorem device_fill_ok {parts : List PartInfo} (hok : dev.Ok) (hnodup : (parts.map PartInfo.ptr).Nodup)
    (hfresh : ∀ part ∈ parts, part.ptr ∉ dev.parts.map PartInfo.ptr)
    (hroom : dev.parts.length + parts.length < 2 ^ 16) (h : s.device_fill dev parts = some dev') :
    dev'.Ok ∧ dev'.ptr = dev.ptr ∧ dev'.parts.length = dev.parts.length + parts.length := by
  induction parts generalizing dev with
  | nil =>
      obtain rfl : dev = dev' := by simpa [device_fill] using h
      exact ⟨hok, rfl, rfl⟩
  | cons part parts ih =>
      rw [device_fill] at h
      split at h
      · exact absurd h (by simp)
      · next hvalidate =>
          obtain ⟨⟨s', dev₁⟩, hadd, hrest⟩ := Option.bind_eq_some_iff.mp h
          obtain ⟨hvalid, hptr, -⟩ := valid_of_validate (not_not.mp hvalidate)
          obtain ⟨pre, post, hparts, rfl, -, hpre, hpost⟩ := part_sort_add_eq hadd
          rw [List.map_cons, List.nodup_cons] at hnodup
          have hfirst := hfresh part List.mem_cons_self
          rw [List.length_cons] at hroom
          have hlength : (pre ++ (part_validate dev.id part).2 :: post).length =
              dev.parts.length + 1 := by
            rw [hparts]
            simp
            omega
          have hfresh' : ∀ x ∈ parts, x.ptr ∉
              (pre ++ (part_validate dev.id part).2 :: post).map PartInfo.ptr := by
            intro x hx hmem
            have hold := hfresh x (List.mem_cons_of_mem _ hx)
            rw [hparts, List.map_append, List.mem_append, not_or] at hold
            simp only [List.map_append, List.map_cons, List.mem_append, List.mem_cons, hptr] at hmem
            rcases hmem with hmem | hmem | hmem
            · exact hold.1 hmem
            · exact hnodup.1 (hmem ▸ List.mem_map_of_mem hx)
            · exact hold.2 hmem
          have hroom' : (pre ++ (part_validate dev.id part).2 :: post).length + parts.length <
              2 ^ 16 := by omega
          obtain ⟨hok', hptr', hlength'⟩ := ih
            (ok_insert hok hparts hvalid (hptr ▸ hfirst) (by omega) hpre hpost) hnodup.2
            hfresh' hroom' hrest
          refine ⟨hok', hptr', hlength'.trans ?_⟩
          show (pre ++ (part_validate dev.id part).2 :: post).length + parts.length = _
          rw [List.length_cons]
          omega

theorem device_add_ok (ok : s.Ok) (hok : dev.Ok) (hsome : dev.parts ≠ [])
    (hfresh : dev.ptr ∉ s.devices.map MtdDevice.ptr) :
    (s.device_add dev).Ok ∧ s.Keeps (s.device_add dev) := by
  rw [device_add]
  refine ⟨⟨fun d hd => ?_, ?_, fun hnone => ?_, fun ptr hcur => ?_⟩, ?_⟩
  · rcases List.mem_append.mp hd with hd | hd
    · exact ok.devices d hd
    · obtain rfl := List.mem_singleton.mp hd
      exact ⟨hok, hsome⟩
  · show ((s.devices ++ [dev]).map MtdDevice.ptr).Nodup
    rw [List.map_append, List.nodup_append_comm]
    exact List.nodup_cons.mpr ⟨hfresh, ok.nodup⟩
  · split at hnone
    · exact absurd hnone (by simp)
    · next hsome' => exact absurd (ok.none hnone) (by simpa using hsome')
  · split at hcur
    · next hnil =>
        refine ⟨dev, by simp, Option.some.inj hcur, ?_⟩
        rw [if_pos hnil]
        exact List.length_pos_iff.mpr hsome
    · next hsome' =>
        obtain ⟨d, hd, hptr, hlt⟩ := ok.current ptr hcur
        refine ⟨d, List.mem_append_left _ hd, hptr, ?_⟩
        rw [if_neg hsome']
        exact hlt
  · rintro d p ⟨hcur, cur, hmem, hptr, part, hget, hp⟩
    have hsome' : ¬ s.devices.isEmpty = true := by
      rw [List.isEmpty_iff]
      exact List.ne_nil_of_mem hmem
    rw [if_neg hsome']
    have hmem' : cur ∈ s.devices ++ [dev] := List.mem_append_left _ hmem
    exact ⟨fun _ => ⟨hcur, cur, hmem', hptr, part, hget, hp⟩, fun hnot => absurd
      ⟨cur, hmem', hptr, hp ▸ List.mem_map_of_mem (List.mem_of_getElem? hget)⟩ hnot⟩

/-! ## Runs -/

/-- The condition on a step. Where a partition is put in front of the current one, or at the
same offset, the index of that has room to grow. No partition that is listed behind the
current one is deleted that has the same offset. And no device gets 2^16 partitions. -/
def SafeStep (s : MtdParts) : Event → Prop
  | .part_add ptr part => ∀ dev, s.device ptr = some dev → dev.parts.length + 1 < 2 ^ 16 ∧
      (s.current_mtd_dev = some dev.ptr → ∀ cur,
        dev.parts[s.current_mtd_partnum.toNat]? = some cur → part.offset.toNat ≤ cur.offset.toNat →
          s.current_mtd_partnum.toNat < 255)
  | .part_del ptr part => ∀ dev, s.device ptr = some dev → s.current_mtd_dev = some dev.ptr →
      ∀ cur, dev.parts[s.current_mtd_partnum.toNat]? = some cur →
        ∀ i p, s.current_mtd_partnum.toNat < i → dev.parts[i]? = some p → p.ptr = part →
          cur.offset.toNat < p.offset.toNat
  | .device_add _ _ parts => parts.length < 2 ^ 16
  | .device_del _ | .chpart _ _ => True

/-- What a step does to the current partition: `chpart` makes another one current, and
otherwise it stays the same one, unless it is deleted. -/
def Respects (s : MtdParts) (e : Event) (s' : MtdParts) : Prop :=
  match e with
  | .chpart dev _ => ∃ p, s'.Denotes dev p
  | _ => s.Keeps s'

theorem ok_empty (ptr : Nat) (id : MtdIds) : MtdDevice.Ok ⟨ptr, id, 0#16, []⟩ := by
  refine ⟨?_, rfl, fun part hpart => absurd hpart List.not_mem_nil, List.nodup_nil⟩
  exact List.Pairwise.nil

theorem initial_ok : initial.Ok :=
  ⟨by simp [initial], by simp [initial], fun _ => rfl, fun ptr h => absurd h (by simp [initial])⟩

theorem step_ok {e : Event} {s' : MtdParts} (ok : s.Ok) (safe : s.SafeStep e)
    (h : s.step e = some s') : s'.Ok ∧ s.Respects e s' := by
  cases e with
  | part_add ptr part =>
      obtain ⟨dev, hfind, h⟩ := Option.bind_eq_some_iff.mp h
      obtain ⟨_, hguard, h⟩ := Option.bind_eq_some_iff.mp h
      obtain ⟨hdev, hptr⟩ := device_eq hfind
      obtain ⟨hroom, hindex⟩ := safe dev hfind
      obtain rfl := Option.some.inj h
      have hfresh : part.ptr ∉ s.ptrs := by
        by_contra hused
        simp [guard, hused] at hguard
      exact part_add_ok ok hdev
        (fun hmem => hfresh (List.mem_flatMap.mpr ⟨dev, hdev, List.mem_cons_of_mem _ hmem⟩)) hroom
        hindex
  | part_del ptr part =>
      obtain ⟨dev, hfind, h⟩ := Option.bind_eq_some_iff.mp h
      obtain ⟨p, hpart, h⟩ := Option.bind_eq_some_iff.mp h
      obtain ⟨hdev, hptr⟩ := device_eq hfind
      obtain rfl := Option.some.inj h
      have hp : p.ptr = part := by simpa using List.find?_some hpart
      exact part_del_ok ok hdev (List.mem_of_find?_eq_some hpart) fun hcur cur hget i hi hi' =>
        safe dev hfind hcur cur hget i p hi hi' hp
  | device_add ptr id parts =>
      obtain ⟨_, hguard, h⟩ := Option.bind_eq_some_iff.mp h
      have hnew : parts ≠ [] ∧ (ptr :: parts.map PartInfo.ptr ++ s.ptrs).Nodup := by
        by_contra hnot
        simp only [guard, if_neg hnot] at hguard
        exact absurd hguard (by simp)
      obtain ⟨hnodup, -, hdisjoint⟩ := List.nodup_append.mp hnew.2
      have hfresh : ptr ∉ s.devices.map MtdDevice.ptr := by
        intro hmem
        obtain ⟨d, hd, heq⟩ := List.mem_map.mp hmem
        exact hdisjoint ptr List.mem_cons_self ptr
          (List.mem_flatMap.mpr ⟨d, hd, heq ▸ List.mem_cons_self⟩) rfl
      split at h
      · next dev hfill =>
          obtain rfl := Option.some.inj h
          have hroom : parts.length < 2 ^ 16 := safe
          obtain ⟨hok, hptr, hlength⟩ := device_fill_ok (ok_empty ptr id) (List.nodup_cons.mp hnodup).2
            (by simp) (by simpa using hroom) hfill
          refine device_add_ok ok hok (fun hnil => hnew.1 ?_) (hptr ▸ hfresh)
          rw [hnil] at hlength
          exact List.length_eq_zero_iff.mp (by simpa using hlength.symm)
      · obtain rfl := Option.some.inj h
        exact ⟨ok, s.keeps_refl⟩
  | device_del ptr =>
      obtain ⟨dev, hfind, h⟩ := Option.bind_eq_some_iff.mp h
      obtain rfl := Option.some.inj h
      exact device_del_ok ok dev
  | chpart ptr pnum =>
      obtain ⟨dev, hfind, h⟩ := Option.bind_eq_some_iff.mp h
      obtain ⟨part, hpart, h⟩ := Option.bind_eq_some_iff.mp h
      obtain ⟨hdev, hptr⟩ := device_eq hfind
      obtain rfl := Option.some.inj h
      rw [mtd_part_info_eq (ok.devices dev hdev).1] at hpart
      refine ⟨⟨ok.devices, ok.nodup, fun hnone => absurd hnone (by simp), fun ptr' hcur => ?_⟩,
        part.ptr, rfl, dev, hdev, hptr, part, hpart, rfl⟩
      exact ⟨dev, hdev, hptr.trans (Option.some.inj hcur), (List.getElem?_eq_some_iff.mp hpart).1⟩

/-- In every run whose steps meet the condition the lists are in order and the current
partition exists, and another such step leaves it the same one unless it is deleted. -/
theorem current_partition_kept {events : List Event}
    (run : Run (fun s e s' => s.SafeStep e ∧ s.step e = some s') initial events s) :
    s.Ok ∧ ∀ e s', s.SafeStep e → s.step e = some s' → s'.Ok ∧ s.Respects e s' := by
  have ok : s.Ok := Run.invariant (I := Ok)
    (fun _ _ _ ok taken => (step_ok ok taken.1 taken.2).1) run initial_ok
  exact ⟨ok, fun _ _ safe h => step_ok ok safe h⟩

/-- A flash of 1 MB with blocks of 64 KB. -/
def oneMegabyte : MtdIds := ⟨0x100000#32, some ⟨0x10000#32, []⟩⟩

/-- Three partitions, the last two at the same offset, of which the one in front is made
current. -/
def sameOffset : List Event :=
  [.device_add 1 oneMegabyte [⟨2, 0x10000#32, 0#32⟩, ⟨3, 0x20000#32, 0x10000#32⟩],
    .part_add 1 ⟨4, 0x10000#32, 0x10000#32⟩, .chpart 1 1#8]

/-- The state after these steps. -/
def sameOffsetState : MtdParts :=
  ⟨[⟨1, oneMegabyte, 3#16, [⟨2, 0x10000#32, 0#32⟩, ⟨4, 0x10000#32, 0x10000#32⟩,
    ⟨3, 0x20000#32, 0x10000#32⟩]⟩], some 1, 1#8⟩

theorem foldlM_sameOffset : sameOffset.foldlM step initial = some sameOffsetState := by
  rfl

/-- These steps meet the condition, and then the last partition but one may be deleted. -/
theorem current_partition_kept_sameOffset :
    sameOffsetState.Ok ∧ ∀ e s', sameOffsetState.SafeStep e → sameOffsetState.step e = some s' →
      s'.Ok ∧ sameOffsetState.Respects e s' :=
  @current_partition_kept sameOffsetState sameOffset
    (.cons ⟨show 2 < 2 ^ 16 by decide, rfl⟩
      (.cons ⟨fun dev hdev => by
        obtain rfl := Option.some.inj hdev
        exact ⟨by decide, fun _ _ _ _ => by decide⟩, rfl⟩
        (.cons ⟨trivial, rfl⟩ (.nil _))))

/-- The partition behind the current one is deleted: the one in front becomes current. -/
theorem not_current_partition_kept :
    ¬ ∀ (events : List Event) (s s' : MtdParts) (e : Event),
      Run (fun s e s' => s.step e = some s') initial events s → s.step e = some s' →
        s.Respects e s' := by
  intro kept
  have h := kept sameOffset sameOffsetState _ (.part_del 1 3) (Run.of_foldlM foldlM_sameOffset) rfl
  obtain ⟨-, dev, hdev, -, part, hget, hptr⟩ := (h 1 4
    ⟨rfl, _, List.mem_singleton_self _, rfl, _, rfl, rfl⟩).1
      ⟨_, List.mem_singleton_self _, rfl, by decide⟩
  obtain rfl := List.mem_singleton.mp hdev
  obtain rfl := Option.some.inj hget
  exact absurd hptr (by decide)

end MtdParts

end UBoot.Mtd
