/-
# What the commands leave behind

Whatever `parse_mtdparts`, `mtdparts add` and `mtdparts del` do, the devices of the list are
`Ok`: their ids are found by name, and their partitions are valid and sorted. So the text of
regular devices is read back in every run.
-/

import UBoot.Mtd.PartsRoundTrip

namespace UBoot.Mtd

/-! ## Partitions -/

/-- The partition that comes back has its size. -/
theorem part_validate_snd (id : MtdIds) (part : PartInfo) :
    (part_validate id part).2 =
      if part.size = SIZE_REMAINING then { part with size := id.size - part.offset } else part := by
  unfold part_validate
  dsimp only
  generalize (if part.size = SIZE_REMAINING then
    { part with size := id.size - part.offset } else part) = part'
  split_ifs <;> rfl

/-- It is validated in the same way again. -/
theorem part_validate_again (id : MtdIds) (part : PartInfo) :
    part_validate id (part_validate id part).2 = part_validate id part := by
  rw [part_validate_snd]
  by_cases hrest : part.size = SIZE_REMAINING
  · rw [if_pos hrest]
    unfold part_validate
    -- the size that is set may be the one that stands for the rest
    simp only [if_pos hrest, ite_self]
  · rw [if_neg hrest]

/-- A partition that was validated is valid. -/
theorem NamedPart.validate_valid {id : NamedIds} {part : NamedPart}
    (h : (part.validate id).1 = 0) : (part.validate id).2.Valid id := by
  have hagain := part_validate_again id.ids ⟨0, part.size, part.offset⟩
  have hkept : (part_validate id.ids ⟨0, part.size, part.offset⟩).2 =
      ⟨0, (part_validate id.ids ⟨0, part.size, part.offset⟩).2.size, part.offset⟩ := by
    rw [part_validate_snd]
    split_ifs <;> rfl
  rw [hkept] at hagain
  rw [NamedPart.Valid, NamedPart.validate]
  exact Prod.ext ((congrArg Prod.fst hagain).trans h) (by rw [NamedPart.validate, hagain])

/-- Only the size may have changed. -/
theorem NamedPart.Named.validate {part : NamedPart} (h : part.Named) (id : NamedIds) :
    (part.validate id).2.Named := h

theorem nameParse_named {p rest : List Byte} {name : List Byte}
    (h : nameParse p = some (some name, rest)) : name ≠ [] ∧ 0x29#8 ∉ name := by
  cases p with
  | nil => simp [nameParse] at h
  | cons c p =>
      simp only [nameParse] at h
      split_ifs at h with _ _ nonempty
      · simp only [Option.some.injEq, Prod.mk.injEq] at h
        obtain ⟨rfl, -⟩ := h
        refine ⟨nonempty, fun closed => ?_⟩
        simpa using List.mem_takeWhile_imp closed
      · simp at h

theorem part_parse_named {p rest : List Byte} {part : NamedPart}
    (h : part_parse p = some (part, rest)) : part.Named := by
  simp only [part_parse, Option.bind_eq_bind, Option.bind_eq_some_iff, Option.pure_def,
    Option.some.injEq, Prod.mk.injEq, Prod.exists] at h
  obtain ⟨_, _, -, name, _, parsed, _, -, rfl, -⟩ := h
  intro given
  cases name with
  | none => simp at given
  | some name => exact nameParse_named parsed

/-- The loop of `device_parse` leaves valid partitions. -/
theorem partsParse_valid {id : NamedIds} {fuel : Nat} {offset : U32} {p rest : List Byte}
    {parts : List NamedPart} (h : partsParse id fuel offset p = some (parts, rest)) :
    ∀ part ∈ parts, part.Valid id ∧ part.Named := by
  induction fuel generalizing offset p parts rest with
  | zero => simp [partsParse] at h
  | succ fuel ih =>
      rw [partsParse] at h
      split_ifs at h with stop
      · obtain ⟨rfl, -⟩ := by simpa using h
        simp
      · simp only [Option.bind_eq_bind, Option.bind_eq_some_iff, Prod.exists] at h
        obtain ⟨part, p', parsed, h⟩ := h
        generalize placed : (if part.offset = OFFSET_NOT_SPECIFIED then
          { part with offset := offset } else part) = part' at h
        have named : part'.Named := by
          have := part_parse_named parsed
          rw [← placed]
          split_ifs <;> exact this
        split_ifs at h with rc
        simp only [Option.bind_eq_some_iff, Prod.exists, Option.pure_def, Option.some.injEq,
          Prod.mk.injEq] at h
        obtain ⟨parts', _, rest', rfl, -⟩ := h
        intro q hq
        rcases List.mem_cons.1 hq with rfl | hq
        · exact ⟨NamedPart.validate_valid (not_not.1 rc), named.validate id⟩
        · exact ih rest' q hq

theorem sortAdd_mem {part : NamedPart} {parts parts' : List NamedPart}
    (h : sortAdd part parts = some parts') : ∀ q ∈ parts', q = part ∨ q ∈ parts := by
  induction parts generalizing parts' with
  | nil =>
      obtain rfl := by simpa [sortAdd] using h
      simp
  | cons pi parts ih =>
      rw [sortAdd] at h
      split_ifs at h
      · obtain rfl := by simpa using h
        simp
      · obtain ⟨parts'', added, rfl⟩ := by simpa using h
        intro q hq
        rcases List.mem_cons.1 hq with rfl | hq
        · exact Or.inr List.mem_cons_self
        · exact (ih added q hq).imp_right (List.mem_cons_of_mem _)

theorem sortAdd_ne_nil {part : NamedPart} {parts parts' : List NamedPart}
    (h : sortAdd part parts = some parts') : parts' ≠ [] := by
  rintro rfl
  cases parts with
  | nil => simp [sortAdd] at h
  | cons pi parts =>
      rw [sortAdd] at h
      split_ifs at h
      · simp at h
      · obtain ⟨parts', -, eq⟩ := Option.map_eq_some_iff.1 h
        simp at eq

/-- `part_sort_add` keeps the order. -/
theorem sortAdd_sorted {part : NamedPart} {parts parts' : List NamedPart} (sorted : SortedParts parts)
    (h : sortAdd part parts = some parts') : SortedParts parts' := by
  induction parts generalizing parts' with
  | nil =>
      obtain rfl := by simpa [sortAdd] using h
      exact List.pairwise_singleton _ _
  | cons pi parts ih =>
      have behind := List.pairwise_cons.1 sorted
      rw [sortAdd] at h
      split_ifs at h with zero front
      · obtain rfl := by simpa using h
        have first : pi.offset ≠ 0#32 := by
          intro eq
          rw [eq, BitVec.le_zero_iff] at front
          exact zero ⟨front.trans eq.symm, eq⟩
        refine List.pairwise_cons.2 ⟨fun q hq => ?_, sorted⟩
        rcases List.mem_cons.1 hq with rfl | hq
        · exact ⟨front, first⟩
        · exact ⟨BitVec.le_trans front (behind.1 q hq).1, (behind.1 q hq).2⟩
      · obtain ⟨parts'', added, rfl⟩ := by simpa using h
        have later : pi.offset < part.offset := BitVec.not_le.1 front
        refine List.pairwise_cons.2 ⟨fun q hq => ?_, ih behind.2 added⟩
        rcases sortAdd_mem added q hq with rfl | hq
        · refine ⟨BitVec.le_of_lt later, ?_⟩
          intro eq
          rw [eq] at later
          exact absurd later BitVec.not_lt_zero
        · exact behind.1 q hq

theorem foldlM_sortAdd {parts list list' : List NamedPart} (sorted : SortedParts list)
    (h : parts.foldlM (fun list part => sortAdd part list) list = some list') :
    SortedParts list' ∧ (∀ q ∈ list', q ∈ parts ∨ q ∈ list) ∧ (parts ≠ [] ∨ list ≠ [] → list' ≠ []) := by
  induction parts generalizing list with
  | nil =>
      obtain rfl := by simpa using h
      exact ⟨sorted, fun q hq => Or.inr hq, by simp⟩
  | cons part parts ih =>
      simp only [List.foldlM_cons, Option.bind_eq_bind, Option.bind_eq_some_iff] at h
      obtain ⟨middle, added, h⟩ := h
      obtain ⟨sorted', mem, nonempty⟩ := ih (sortAdd_sorted sorted added) h
      refine ⟨sorted', fun q hq => ?_, fun _ => nonempty (Or.inr (sortAdd_ne_nil added))⟩
      rcases mem q hq with hq | hq
      · exact Or.inl (List.mem_cons_of_mem _ hq)
      · rcases sortAdd_mem added q hq with rfl | hq
        · exact Or.inl List.mem_cons_self
        · exact Or.inr hq

/-! ## Devices -/

/-- `device_parse` makes devices that are `Ok`. -/
theorem device_parse_ok {mtdids : List NamedIds} {devices : List NamedDevice} {p rest : List Byte}
    {dev : NamedDevice} (h : device_parse mtdids devices p = some (dev, rest)) :
    dev.Ok mtdids := by
  simp only [device_parse] at h
  split_ifs at h
  simp only [Option.bind_eq_bind, Option.bind_eq_some_iff, Prod.exists] at h
  obtain ⟨id, found, parts, rest', parsed, h⟩ := h
  split_ifs at h with nonempty
  simp only [Option.bind_eq_some_iff, Option.pure_def, Option.some.injEq, Prod.mk.injEq] at h
  obtain ⟨list, added, rfl, -⟩ := h
  have all := partsParse_valid parsed
  obtain ⟨sorted, mem, more⟩ := foldlM_sortAdd List.Pairwise.nil added
  have mem : ∀ q ∈ list, q ∈ parts := fun q hq => (mem q hq).resolve_right (by simp)
  have mtd_id : id.mtd_id = p.takeWhile (· ≠ 0x3a#8) := by
    simpa using List.find?_some found
  refine ⟨?_, ?_, more (Or.inl nonempty), fun q hq => (all q (mem q hq)).1,
    fun q hq => (all q (mem q hq)).2, sorted⟩
  · rw [mtd_id]
    exact found
  · rw [mtd_id]
    intro colon
    simpa using List.mem_takeWhile_imp colon

/-- What holds of the list of devices. -/
structure DevicesOk (mtdids : List NamedIds) (devices : List NamedDevice) : Prop where
  ok : ∀ dev ∈ devices, dev.Ok mtdids
  apart : devices.Pairwise Apart

variable {mtdids : List NamedIds} {devices : List NamedDevice}

theorem DevicesOk.nil : DevicesOk mtdids [] := ⟨by simp, List.Pairwise.nil⟩

/-- A device of another type or number is added at the end. -/
theorem DevicesOk.append (h : DevicesOk mtdids devices) {dev : NamedDevice} (ok : dev.Ok mtdids)
    (fresh : device_find devices dev.id.type dev.id.num = none) :
    DevicesOk mtdids (devices ++ [dev]) := by
  refine ⟨fun d hd => ?_, List.pairwise_append.2 ⟨h.apart, List.pairwise_singleton _ _, ?_⟩⟩
  · rcases List.mem_append.1 hd with hd | hd
    · exact h.ok d hd
    · rw [List.mem_singleton.1 hd]
      exact ok
  · intro d hd d' hd'
    rw [List.mem_singleton.1 hd']
    exact device_find_eq_none.1 fresh d hd

theorem DevicesOk.devicesParse (h : DevicesOk mtdids devices) {fuel : Nat} {p : List Byte}
    {devices' : List NamedDevice} (parsed : devicesParse mtdids fuel devices p = some devices') :
    DevicesOk mtdids devices' := by
  induction fuel generalizing devices p with
  | zero => simp [UBoot.Mtd.devicesParse] at parsed
  | succ fuel ih =>
      rw [UBoot.Mtd.devicesParse] at parsed
      split_ifs at parsed with stop
      · obtain rfl := by simpa using parsed
        exact h
      · simp only [Option.bind_eq_bind, Option.bind_eq_some_iff, Prod.exists] at parsed
        obtain ⟨dev, p', device, parsed⟩ := parsed
        split_ifs at parsed with redefined
        exact ih (h.append (device_parse_ok device) (by simpa using redefined)) parsed

theorem parse_mtdparts_ok {p : List Byte} {devices : List NamedDevice}
    (parsed : parse_mtdparts mtdids p = some devices) : DevicesOk mtdids devices := by
  simp only [parse_mtdparts] at parsed
  split_ifs at parsed
  exact DevicesOk.nil.devicesParse parsed

/-- A partition is added to a device. -/
theorem NamedDevice.Ok.add {dev : NamedDevice} (ok : dev.Ok mtdids) {part : NamedPart}
    (valid : part.Valid dev.id) (named : part.Named) :
    { dev with parts := (sortAdd part dev.parts).getD dev.parts }.Ok mtdids := by
  cases added : sortAdd part dev.parts with
  | none => exact ok
  | some parts =>
      refine ⟨ok.found, ok.plain, sortAdd_ne_nil added, fun q hq => ?_, fun q hq => ?_,
        sortAdd_sorted ok.sorted added⟩
      · rcases sortAdd_mem added q hq with rfl | hq
        · exact valid
        · exact ok.valid q hq
      · rcases sortAdd_mem added q hq with rfl | hq
        · exact named
        · exact ok.named q hq

theorem DevicesOk.mtdpartsAdd (h : DevicesOk mtdids devices) (id : NamedIds) (text : List Byte) :
    DevicesOk mtdids (mtdpartsAdd mtdids devices id text) := by
  rw [UBoot.Mtd.mtdpartsAdd]
  cases parsed : device_parse mtdids devices (id.mtd_id ++ 0x3a#8 :: text) with
  | none => exact h
  | some result =>
      obtain ⟨dev, rest⟩ := result
      have ok := device_parse_ok parsed
      simp only []
      cases find : device_find devices dev.id.type dev.id.num with
      | none => exact h.append ok find
      | some dev_tmp =>
          cases parts : dev.parts with
          | nil => exact absurd parts ok.nonempty
          | cons part others =>
              have named : part.Named := ok.named part (by simp [parts])
              simp only []
              refine ⟨fun d hd => ?_, ?_⟩
              · obtain ⟨d, mem, rfl⟩ := List.mem_map.1 hd
                split_ifs with same rc
                · exact h.ok d mem
                · exact (h.ok d mem).add (NamedPart.validate_valid (not_not.1 rc))
                    (named.validate d.id)
                · exact h.ok d mem
              · refine List.pairwise_map.2 (h.apart.imp ?_)
                intro a b apart
                have kept : ∀ d : NamedDevice,
                    (if d.id.type = dev.id.type ∧ d.id.num = dev.id.num then
                      if (part.validate d.id).1 ≠ 0 then d
                      else { d with parts :=
                        (sortAdd (part.validate d.id).2 d.parts).getD d.parts }
                      else d).id = d.id := by
                  intro d
                  split_ifs <;> rfl
                rw [Apart, kept a, kept b]
                exact apart

theorem DevicesOk.mtdpartsDel (h : DevicesOk mtdids devices) (type num : Byte) (index : Nat) :
    DevicesOk mtdids (mtdpartsDel devices type num index) := by
  have kept : ∀ dev dev' : NamedDevice,
      (if dev.id.type = type ∧ dev.id.num = num ∧ index < dev.parts.length then
        if dev.parts.length = 1 then none
        else some { dev with parts := dev.parts.eraseIdx index }
        else some dev) = some dev' →
      dev'.id = dev.id ∧ (dev.Ok mtdids → dev'.Ok mtdids) := by
    intro dev dev' eq
    split_ifs at eq with found only
    · obtain rfl := by simpa using eq
      have sub : (dev.parts.eraseIdx index).Sublist dev.parts := List.eraseIdx_sublist _ _
      refine ⟨rfl, fun ok => ⟨ok.found, ok.plain, ?_, fun q hq => ok.valid q (sub.subset hq),
        fun q hq => ok.named q (sub.subset hq), ok.sorted.sublist sub⟩⟩
      intro empty
      have length := congrArg List.length empty
      rw [List.length_eraseIdx_of_lt found.2.2, List.length_nil] at length
      have := List.length_pos_of_ne_nil ok.nonempty
      omega
    · obtain rfl := by simpa using eq
      exact ⟨rfl, id⟩
  refine ⟨fun d hd => ?_, ?_⟩
  · obtain ⟨dev, mem, eq⟩ := List.mem_filterMap.1 hd
    exact (kept dev d eq).2 (h.ok dev mem)
  · refine List.Pairwise.filterMap _ (fun a b apart a' ha b' hb => ?_) h.apart
    rw [Apart, (kept a a' ha).1, (kept b b' hb).1]
    exact apart

/-! ## Runs -/

theorem DevicesOk.textStep (h : DevicesOk mtdids devices) (event : TextEvent) :
    DevicesOk mtdids (textStep mtdids devices event) := by
  cases event with
  | parse mtdparts =>
      rw [UBoot.Mtd.textStep]
      cases parsed : parse_mtdparts mtdids mtdparts with
      | none => exact DevicesOk.nil
      | some devices' => exact parse_mtdparts_ok parsed
  | add id text => exact h.mtdpartsAdd id text
  | del type num index => exact h.mtdpartsDel type num index

theorem DevicesOk.run (h : DevicesOk mtdids devices) (events : List TextEvent) :
    DevicesOk mtdids (events.foldl (UBoot.Mtd.textStep mtdids) devices) := by
  induction events generalizing devices with
  | nil => exact h
  | cons event events ih => exact ih (h.textStep event)

/-- Whatever was done before, the text that is written for regular devices is read as the
same devices. -/
theorem generate_parse_mtdparts (mtdids : List NamedIds) (events : List TextEvent) (buflen : U32)
    (text : List Byte)
    (nonempty : events.foldl (textStep mtdids) [] ≠ [])
    (regular : ∀ dev ∈ events.foldl (textStep mtdids) [], dev.Regular)
    (written : generate_mtdparts (events.foldl (textStep mtdids) []) buflen = some text) :
    parse_mtdparts mtdids text = some (events.foldl (textStep mtdids) []) := by
  have ok : DevicesOk mtdids (events.foldl (textStep mtdids) []) := DevicesOk.nil.run events
  rw [generate_mtdparts, if_neg (by simpa using nonempty)] at written
  split_ifs at written
  obtain rfl := by simpa using written
  exact parse_mtdparts_text ok.ok ok.apart nonempty regular

/-- A NOR flash of 1 MB with blocks of 64 KB. -/
def nor : NamedIds := ⟨1#8, 0#8, ascii "nor0", ⟨0x100000#32, some ⟨0x10000#32, []⟩⟩⟩

/-- Three partitions are read, the second is deleted, and one is added at the end. -/
def norEvents : List TextEvent :=
  [.parse (ascii "mtdparts=nor0:128k(boot)ro,64k(env),512k(fs)"), .del 1#8 0#8 1,
    .add nor (ascii "64k@768k")]

/-- What is left in the end. -/
def norDevice : NamedDevice :=
  ⟨nor, [⟨0x20000#32, 0#32, ascii "boot", false, true⟩,
    ⟨0x80000#32, 0x30000#32, ascii "fs", false, false⟩,
    ⟨0x10000#32, 0xc0000#32, ascii "0x00010000@0x000c0000", true, false⟩]⟩

theorem generate_parse_mtdparts_nor :
    norEvents.foldl (textStep [nor]) [] = [norDevice] ∧
      parse_mtdparts [nor] (ascii "mtdparts=nor0:128k(boot)ro,512k@192k(fs),64k@768k") =
        some [norDevice] := by
  have run : norEvents.foldl (textStep [nor]) [] = [norDevice] := by decide +kernel
  have written : generate_mtdparts [norDevice] 512#32 =
      some (ascii "mtdparts=nor0:128k(boot)ro,512k@192k(fs),64k@768k") := by decide +kernel
  have regular : norDevice.Regular :=
    ⟨by decide +kernel, by decide +kernel, by decide +kernel,
      ⟨by decide +kernel, by decide +kernel, by decide +kernel, trivial⟩⟩
  have read := generate_parse_mtdparts [nor] norEvents 512#32
    (ascii "mtdparts=nor0:128k(boot)ro,512k@192k(fs),64k@768k")
    (by rw [run]; exact List.cons_ne_nil _ _)
    (by rw [run]; exact fun dev hdev => List.mem_singleton.1 hdev ▸ regular)
    (by rw [run]; exact written)
  rw [run] at read
  exact ⟨run, read⟩

/-- The name that is generated for a partition with the remaining size does not say its size,
and the text that is written for it does: the name is another one when it is read. -/
theorem not_generate_parse_mtdparts :
    ∃ text, generate_mtdparts
        ([.parse (ascii "mtdparts=nor0:-")].foldl (textStep [nor]) []) 512#32 = some text ∧
      parse_mtdparts [nor] text ≠
        some ([.parse (ascii "mtdparts=nor0:-")].foldl (textStep [nor]) []) :=
  ⟨ascii "mtdparts=nor0:1m", by decide +kernel, by decide +kernel⟩

end UBoot.Mtd
