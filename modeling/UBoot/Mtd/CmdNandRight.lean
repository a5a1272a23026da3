/-
# The `nand` command on the right device

When `do_nand` leaves the table of devices alone and stays in its range. A partition is the range of
its own device as soon as its name is found, and nothing is touched outside of a device; but the
device is copied into the table, and two numbers that are no range of the device are only refused
where a loop comes to its end.
-/

import UBoot.Lib.Masks
import UBoot.Mtd.CmdNandRanges

namespace UBoot.CmdNand

open UBoot.Lib

/-! ## Sizes -/

section Sizes

variable (nand : MtdInfo)

theorem MtdInfo.writeshift_lt : nand.writeshift < 32 := nand.writeshift_le.trans_lt nand.eraseshift_lt

theorem MtdInfo.writesize_lt : nand.writesize < 2 ^ 32 :=
  Nat.pow_lt_pow_right Nat.one_lt_two nand.writeshift_lt

/-- The sum of a size and a page less one wraps. -/
theorem roundUp_toNat (size : U32) : (nand.roundUp size).toNat =
    (size.toNat + (nand.writesize - 1)) % 2 ^ 32 / nand.writesize * nand.writesize := by
  have hpos := nand.writesize_pos
  have hlt := nand.writesize_lt
  have hpage : (BitVec.ofNat 32 nand.writesize).toNat = nand.writesize :=
    BitVec.toNat_ofNat _ _ |>.trans (Nat.mod_eq_of_lt hlt)
  have hone : (1 : U32) ≤ BitVec.ofNat 32 nand.writesize := by
    rw [BitVec.le_def, hpage]
    exact hpos
  have hmask : (BitVec.ofNat 32 nand.writesize - 1).toNat = 2 ^ nand.writeshift - 1 := by
    rw [BitVec.toNat_sub_of_le hone, hpage]
    rfl
  rw [MtdInfo.roundUp, BitVec.sub_eq_add_neg, BitVec.add_assoc, ← BitVec.sub_eq_add_neg,
    and_not_low_toNat hmask, BitVec.toNat_add, hmask]
  rfl

theorem writesize_dvd_roundUp (size : U32) : nand.writesize ∣ (nand.roundUp size).toNat := by
  rw [roundUp_toNat]
  exact Nat.dvd_mul_left _ _

/-- A size that is rounded up does not get past whole pages. -/
theorem roundUp_le {size limit : U32} (hdvd : nand.writesize ∣ limit.toNat) (hle : size ≤ limit) :
    nand.roundUp size ≤ limit := by
  have hpos := nand.writesize_pos
  rw [BitVec.le_def] at hle ⊢
  rw [roundUp_toNat]
  obtain ⟨n, hn⟩ := hdvd
  have hlimit : limit.toNat / nand.writesize = n := by rw [hn, Nat.mul_div_cancel_left _ hpos]
  calc (size.toNat + (nand.writesize - 1)) % 2 ^ 32 / nand.writesize * nand.writesize
      ≤ (size.toNat + (nand.writesize - 1)) / nand.writesize * nand.writesize :=
        Nat.mul_le_mul_right _ (Nat.div_le_div_right (Nat.mod_le _ _))
    _ ≤ (limit.toNat + (nand.writesize - 1)) / nand.writesize * nand.writesize :=
        Nat.mul_le_mul_right _ (Nat.div_le_div_right (by omega))
    _ = limit.toNat := by
        rw [hn, Nat.mul_add_div hpos, Nat.div_eq_of_lt (by omega), Nat.add_zero, Nat.mul_comm]

end Sizes

/-! ## Arguments -/

section Arguments

variable {sys : System} {args : List (List Byte)}

/-- The size of a partition's range. -/
def partSize (part : PartInfo) (args : List (List Byte)) : Option U32 :=
  match args.head? with
  | some arg => (str2long arg).map fun size => if size > part.size then part.size else size
  | none => some part.size

theorem partSize_le {part : PartInfo} {size : U32} (h : partSize part args = some size) :
    size ≤ part.size := by
  rw [partSize] at h
  split at h
  · obtain ⟨num, -, rfl⟩ := Option.map_eq_some_iff.mp h
    split
    · exact BitVec.le_refl _
    · next hle => exact BitVec.not_lt.mp hle
  · rw [← Option.some.inj h]
    exact BitVec.le_refl _

theorem partSize_isSome_iff (part : PartInfo) :
    (partSize part args).isSome ↔ ∀ arg ∈ args.head?, (str2long arg).isSome := by
  rw [partSize]
  cases args.head? with
  | none => exact iff_of_true rfl fun _ h => absurd h (Option.not_mem_none _)
  | some arg =>
      rw [Option.isSome_map]
      exact ⟨fun h _ harg => Option.mem_some_iff.mp harg ▸ h, fun h => h arg rfl⟩

theorem arg_off_size_partition {arg : List Byte} {dev : MtdDevice} {part : PartInfo}
    (h : sys.partition arg = some (dev, part)) : sys.arg_off_size (arg :: args) =
      if dev.type ≠ .nand then (sys.nand_info, none)
      else match partSize part args with
        | some size => (Function.update sys.nand_info sys.nand_curr_device (sys.nand_info dev.num),
            some ⟨part.offset, (sys.nand_info dev.num).roundUp size⟩)
        | none => (sys.nand_info, none) := by
  rw [System.arg_off_size]
  simp only [h]
  rfl

/-- Without a partition the table stays. -/
theorem arg_off_size_numbers (h : ∀ arg ∈ args.head?, sys.partition arg = none) :
    (sys.arg_off_size args).1 = sys.nand_info := by
  cases args with
  | nil => rfl
  | cons arg rest =>
      rw [System.arg_off_size]
      simp only [h arg rfl]
      split <;> rfl

/-- Every range is made of pages. -/
theorem range_pages {range : Range} (h : (sys.arg_off_size args).2 = some range) :
    ((sys.arg_off_size args).1 sys.nand_curr_device).writesize ∣ range.size.toNat := by
  cases args with
  | nil =>
      rw [← Option.some.inj h]
      exact writesize_dvd_roundUp _ _
  | cons arg rest =>
      cases hpart : sys.partition arg with
      | some found =>
          rw [arg_off_size_partition hpart] at h ⊢
          split_ifs at h ⊢ with htype
          split at h
          · next size hsize =>
              rw [← Option.some.inj h]
              dsimp only
              rw [Function.update_self]
              exact writesize_dvd_roundUp _ _
          · exact absurd h (Option.some_ne_none _).symm
      | none =>
          rw [arg_off_size_numbers fun a ha => Option.mem_some_iff.mp ha ▸ hpart]
          rw [System.arg_off_size] at h
          simp only [hpart] at h
          split at h
          · obtain ⟨size, -, rfl⟩ := Option.map_eq_some_iff.mp h
            exact writesize_dvd_roundUp _ _
          · exact absurd h (Option.some_ne_none _).symm

theorem partition_mem {arg : List Byte} {dev : MtdDevice} {part : PartInfo}
    (h : sys.partition arg = some (dev, part)) :
    ∃ devs ∈ sys.devices, dev ∈ devs ∧ part ∈ dev.parts := by
  rw [System.partition] at h
  split_ifs at h
  obtain ⟨devs, hdevs, hfind⟩ := Option.bind_eq_some_iff.mp h
  refine ⟨devs, hdevs, ?_⟩
  rw [find_dev_and_part, Option.or_eq_some_iff] at hfind
  rcases hfind with hname | ⟨-, hid⟩
  · obtain ⟨dev', hdev', hmap⟩ := List.exists_of_findSome?_eq_some hname
    obtain ⟨part', hpart', heq⟩ := Option.map_eq_some_iff.mp hmap
    obtain ⟨rfl, rfl⟩ := Prod.mk.injEq .. ▸ heq
    exact ⟨hdev', List.mem_of_find?_eq_some hpart'⟩
  · rw [findById] at hid
    obtain ⟨⟨type, dnum, p⟩, -, hp⟩ := Option.bind_eq_some_iff.mp hid
    dsimp only at hp
    split_ifs at hp
    obtain ⟨dev', hdev', hmap⟩ := Option.bind_eq_some_iff.mp hp
    obtain ⟨part', hpart', heq⟩ := Option.map_eq_some_iff.mp hmap
    obtain ⟨rfl, rfl⟩ := Prod.mk.injEq .. ▸ heq
    exact ⟨List.mem_of_find?_eq_some hdev', List.mem_of_getElem? hpart'⟩

/-- What follows the name of a partition that is found. -/
theorem partition_range {arg : List Byte} {dev : MtdDevice} {part : PartInfo} {range : Range}
    (hpart : sys.partition arg = some (dev, part))
    (h : (sys.arg_off_size (arg :: args)).2 = some range) :
    dev.type = .nand ∧ ∃ size, partSize part args = some size ∧
      (sys.arg_off_size (arg :: args)).1 =
        Function.update sys.nand_info sys.nand_curr_device (sys.nand_info dev.num) ∧
      range = ⟨part.offset, (sys.nand_info dev.num).roundUp size⟩ := by
  rw [arg_off_size_partition hpart] at h ⊢
  split_ifs at h ⊢ with htype
  split at h
  · next size hsize => exact ⟨not_not.mp htype, size, hsize, rfl, (Option.some.inj h).symm⟩
  · exact absurd h (Option.some_ne_none _).symm

/-- The range of a partition is of its device. -/
theorem partition_right {arg : List Byte} {dev : MtdDevice} {part : PartInfo} {range : Range}
    (hpart : sys.partition arg = some (dev, part))
    (h : (sys.arg_off_size (arg :: args)).2 = some range) :
    ((sys.arg_off_size (arg :: args)).1 sys.nand_curr_device).priv = dev.num ∧
      range.off = part.offset ∧ range.size ≤ part.size := by
  obtain ⟨htype, size, hsize, htable, rfl⟩ := partition_range hpart h
  obtain ⟨devs, hdevs, hdev, hmem⟩ := partition_mem hpart
  obtain ⟨-, hblocks, -⟩ := sys.parts_inside devs hdevs dev hdev htype part hmem
  rw [htable, Function.update_self]
  exact ⟨sys.own _, rfl, roundUp_le _ ((MtdInfo.writesize_dvd _).trans hblocks)
    (partSize_le hsize)⟩

/-- The table stays exactly if the device of a partition that is used is the current one. -/
theorem arg_off_size_unchanged_iff : (sys.arg_off_size args).1 = sys.nand_info ↔
    ∀ arg ∈ args.head?, ∀ dev part, sys.partition arg = some (dev, part) → dev.type = .nand →
      (∀ arg ∈ args.tail.head?, (str2long arg).isSome) → dev.num = sys.nand_curr_device := by
  by_cases hpart : ∀ arg ∈ args.head?, sys.partition arg = none
  · refine iff_of_true (arg_off_size_numbers hpart) fun arg harg dev part h => ?_
    rw [hpart arg harg] at h
    exact absurd h (Option.some_ne_none _).symm
  push Not at hpart
  obtain ⟨arg, harg, hsome⟩ := hpart
  obtain ⟨⟨dev, part⟩, hpart⟩ := Option.ne_none_iff_exists'.mp hsome
  obtain ⟨rest, rfl⟩ : ∃ rest, args = arg :: rest := by
    cases args with
    | nil => exact absurd harg (Option.not_mem_none _)
    | cons first rest => exact ⟨rest, by rw [Option.mem_some_iff.mp harg]⟩
  rw [arg_off_size_partition hpart]
  have hall : (∀ arg' ∈ (arg :: rest).head?, ∀ dev part, sys.partition arg' = some (dev, part) →
      dev.type = .nand → (∀ arg ∈ (arg :: rest).tail.head?, (str2long arg).isSome) →
        dev.num = sys.nand_curr_device) ↔
      (dev.type = .nand → (partSize part rest).isSome → dev.num = sys.nand_curr_device) := by
    rw [partSize_isSome_iff]
    constructor
    · exact fun h => h arg rfl dev part hpart
    · intro h arg' harg' dev' part' hpart'
      rw [← Option.mem_some_iff.mp harg', hpart] at hpart'
      obtain ⟨rfl, rfl⟩ := Prod.mk.injEq .. ▸ Option.some.inj hpart'
      exact h
  refine Iff.trans ?_ hall.symm
  by_cases htype : dev.type = .nand
  · rw [if_neg (not_not.mpr htype)]
    cases hsize : partSize part rest with
    | none => exact iff_of_true rfl fun _ h => absurd h Bool.false_ne_true
    | some size =>
        constructor
        · intro h _ _
          have hpriv := congrArg MtdInfo.priv (congrFun h sys.nand_curr_device)
          dsimp only at hpriv
          rwa [Function.update_self, sys.own, sys.own] at hpriv
        · intro h
          rw [h htype rfl]
          exact Function.update_eq_self _ _
  · rw [if_pos htype]
    exact iff_of_true rfl fun h => absurd h htype

end Arguments

/-! ## Operations -/

section Operations

variable {nand : MtdInfo} {chip : Chip} {range : Range}

theorem page_end_le {pages addr : Nat} (hpages : addr / nand.writesize + pages ≤ nand.size / nand.writesize) :
    addr / nand.writesize * nand.writesize + pages * nand.writesize ≤ nand.size := by
  rw [← Nat.add_mul]
  exact (Nat.mul_le_mul_right _ hpages).trans (Nat.div_mul_le_self _ _)

theorem page_lt {addr : Nat} (h : addr < nand.size) :
    addr / nand.writesize < nand.size / nand.writesize := by
  refine Nat.div_lt_of_lt_mul ?_
  rwa [Nat.mul_div_cancel' (nand.writesize_dvd.trans nand.erasesize_dvd_size)]

theorem nand_oob_inside {read : Bool} {addr ooblen : Nat} {touch : Touch}
    (h : touch ∈ (nand_oob nand chip read addr ooblen).touched) :
    touch.start + touch.len ≤ nand.size := by
  unfold nand_oob at h
  dsimp only at h
  split_ifs at h with _ houtside
  all_goals
    first
    | exact absurd h List.not_mem_nil
    | rw [List.mem_singleton.mp h]
      rw [not_or, not_not] at houtside
      obtain ⟨hpos, hlt, hlen⟩ := houtside
      have hfirst := page_lt hlt
  · refine page_end_le ?_
    have hceil : (ooblen + nand.oobsize - 1) / nand.oobsize ≤
        nand.size / nand.writesize - addr / nand.writesize := by
      rw [Nat.div_le_iff_le_mul_add_pred (Nat.pos_of_ne_zero hpos), Nat.mul_comm]
      omega
    omega
  · have hone := @page_end_le nand 1 _ hfirst
    rwa [Nat.one_mul] at hone

/-- Nothing outside of the device is touched. -/
theorem perform_inside {fuel : Nat} {confirmed : Bool} {op : Op} {result : Result}
    (h : perform nand chip fuel confirmed op range = some result) :
    ∀ touch ∈ result.touched, touch.start + touch.len ≤ nand.size := by
  cases op with
  | erase scrub clean =>
      simp only [perform] at h
      split at h
      · rw [← Option.some.inj h]
        exact fun _ h => absurd h List.not_mem_nil
      · rw [← Option.some.inj h]
        exact eraseLoop_inside scrub clean _ _
  | transfer read =>
      obtain ⟨result', hrun, rfl⟩ := Option.map_eq_some_iff.mp h
      exact fun touch htouch => skip_bad_inside hrun touch htouch
  | oob read =>
      rw [← Option.some.inj h]
      exact fun _ h => nand_oob_inside h
  | unknown =>
      rw [← Option.some.inj h]
      exact fun _ h => absurd h List.not_mem_nil

/-- An operation fails and has touched nothing. -/
def Fails (nand : MtdInfo) (chip : Chip) (confirmed : Bool) (op : Op) (range : Range) : Prop :=
  ∃ fuel result, perform nand chip fuel confirmed op range = some result ∧ result.ret ≠ 0 ∧
    result.touched = []

/-- What `do_nand` returns is 0 exactly if the operation returned 0. -/
theorem outcome_iff {result : Result} : (if result.ret = 0 then (0 : Int) else 1) ≠ 0 ↔
    result.ret ≠ 0 := by
  split_ifs with h
  · exact iff_of_false (not_not.mpr rfl) (not_not.mpr h)
  · exact iff_of_true Int.one_ne_zero h

/-- A range that ends behind 4 GiB is empty. -/
theorem erase_stop (hwrap : 2 ^ 32 ≤ range.off.toNat + eraseLength nand range.size.toNat) :
    (range.off.toNat + eraseLength nand range.size.toNat) % 2 ^ 32 ≤ range.off.toNat := by
  have hsize := nand.erasesize_lt
  have hoff := range.off.isLt
  have hlength : eraseLength nand range.size.toNat < 2 ^ 32 := by
    rw [eraseLength]
    split
    · exact hsize
    · exact range.size.isLt
  omega

theorem fails_erase_iff {scrub clean : Bool} {confirmed : Bool}
    (hout : nand.size < range.off.toNat + eraseLength nand range.size.toNat) :
    Fails nand chip confirmed (.erase scrub clean) range ↔
      Refused nand chip confirmed (.erase scrub clean) range := by
  rw [Refused]
  simp only [Fails, perform]
  cases scrub with
  | true =>
      rw [if_pos rfl]
      cases confirmed with
      | false => exact iff_of_true ⟨0, ⟨-1, []⟩, rfl, by decide, rfl⟩ rfl
      | true =>
          refine iff_of_false ?_ Bool.false_ne_true.symm
          rintro ⟨-, result, h, hret, -⟩
          rw [if_neg fun h => Bool.false_ne_true h.2.symm] at h
          rw [← Option.some.inj h] at hret
          exact outcome_iff.mp hret (eraseLoop_scrub_ret _ _ _)
  | false =>
      rw [if_neg Bool.false_ne_true]
      simp only [Bool.false_eq_true, false_and, if_false, Option.some.injEq]
      have hfails : (∃ _ : Nat, ∃ result : Result,
          (⟨if (nand_erase_opts nand chip false clean range.off.toNat range.size.toNat).ret = 0
              then 0 else 1,
            (nand_erase_opts nand chip false clean range.off.toNat range.size.toNat).touched⟩ :
              Result) = result ∧ result.ret ≠ 0 ∧ result.touched = []) ↔
          (nand_erase_opts nand chip false clean range.off.toNat range.size.toNat).ret ≠ 0 ∧
            (nand_erase_opts nand chip false clean range.off.toNat range.size.toNat).touched = [] := by
        constructor
        · rintro ⟨-, _, rfl, hret, htouched⟩
          exact ⟨outcome_iff.mp hret, htouched⟩
        · exact fun ⟨hret, htouched⟩ => ⟨0, _, rfl, outcome_iff.mpr hret, htouched⟩
      rw [hfails, nand_erase_opts, eraseLoop_ret_iff, ← not_not (a := _ = []), ← Ne,
        eraseLoop_touched_iff]
      by_cases hwrap : 2 ^ 32 ≤ range.off.toNat + eraseLength nand range.size.toNat
      · have hstop := erase_stop hwrap
        refine iff_of_false ?_ fun h => absurd h.1 (Nat.not_lt.mpr hwrap)
        rintro ⟨⟨k, -, hk⟩, -⟩
        omega
      · rw [Nat.mod_eq_of_lt (Nat.lt_of_not_le hwrap), and_iff_right (Nat.lt_of_not_le hwrap)]
        refine and_congr_right fun _ => ?_
        rw [or_iff_not_imp_left, or_iff_not_imp_left, Bool.not_eq_true, not_not]
        constructor
        · intro hnone hprotected hdvd a hle hlt hblock
          obtain ⟨k, hk⟩ := (Nat.dvd_sub hblock hdvd)
          have ha : a = range.off.toNat + k * nand.erasesize := by
            rw [Nat.mul_comm, ← hk]
            omega
          by_contra hgood
          refine hnone ⟨k, ?_, ?_, ?_⟩
          · rw [← ha]
            exact hlt.trans hout
          · exact ⟨hprotected, ha ▸ hblock, ha ▸ hlt⟩
          · exact ha ▸ Bool.not_eq_true _ ▸ hgood
        · rintro h ⟨k, hk, ⟨hprotected, hdvd, hlt⟩, hgood⟩
          have hoff : nand.erasesize ∣ range.off.toNat :=
            (Nat.dvd_add_left (Nat.dvd_mul_left _ k)).mp hdvd
          rw [h hprotected hoff _ (Nat.le_add_right _ _) hlt hdvd] at hgood
          exact Bool.false_ne_true hgood.symm

/-- A range outside of the device is refused, or something happens. -/
theorem fails_iff {confirmed : Bool} {op : Op} (hpages : nand.writesize ∣ range.size.toNat)
    (hout : ¬Inside nand op range) :
    Fails nand chip confirmed op range ↔ Refused nand chip confirmed op range := by
  cases op with
  | erase scrub clean => exact fails_erase_iff (Nat.lt_of_not_le hout)
  | transfer read =>
      rw [Refused, ← Blocked, ← skip_bad_fails_iff range.size.isLt hpages (Nat.lt_of_not_le hout)]
      constructor
      · rintro ⟨fuel, result, h, hret, htouched⟩
        obtain ⟨result, hrun, rfl⟩ := Option.map_eq_some_iff.mp h
        exact ⟨fuel, result, hrun, outcome_iff.mp hret, htouched⟩
      · rintro ⟨fuel, result, hrun, hret, htouched⟩
        exact ⟨fuel, _, Option.map_eq_some_iff.mpr ⟨result, hrun, rfl⟩, outcome_iff.mpr hret,
          htouched⟩
  | oob read =>
      refine iff_of_true ⟨0, ⟨1, []⟩, ?_, Int.one_ne_zero, rfl⟩ trivial
      have houtside : nand_oob nand chip read range.off.toNat range.size.toNat = ⟨EINVAL, []⟩ := by
        rw [nand_oob]
        split
        · rfl
        · exact if_pos (.inr hout)
      rw [perform, houtside]
      rfl
  | unknown => exact iff_of_true ⟨0, ⟨1, []⟩, rfl, Int.one_ne_zero, rfl⟩ trivial

end Operations

/-! ## Where the command does what it should -/

section Command

variable {sys : System} {confirmed : Bool} {argv : List (List Byte)}

theorem Acts.run {op : Op} {args : List (List Byte)} {nand : MtdInfo} {range : Range}
    (h : Acts sys argv op args nand range) (fuel : Nat) : (sys.do_nand fuel confirmed argv).2 =
      perform nand (sys.chips nand.priv) fuel confirmed op range := by
  have hpair : sys.arg_off_size args = ((sys.arg_off_size args).1, some range) :=
    Prod.ext rfl h.range
  rw [System.do_nand, h.parsed]
  dsimp only
  rw [hpair]
  dsimp only
  rw [h.current]

theorem do_nand_table {op : Op} {args : List (List Byte)} (h : parse argv = some (op, args))
    (fuel : Nat) : (sys.do_nand fuel confirmed argv).1 = (sys.arg_off_size args).1 := by
  rw [System.do_nand, h]
  dsimp only
  cases hargs : sys.arg_off_size args with
  | mk table range => cases range <;> rfl

theorem unchanged_iff : (∀ fuel, (sys.do_nand fuel confirmed argv).1 = sys.nand_info) ↔
    ∀ op args, parse argv = some (op, args) → ∀ arg ∈ args.head?, ∀ dev part,
      sys.partition arg = some (dev, part) → dev.type = .nand →
        (∀ arg ∈ args.tail.head?, (str2long arg).isSome) → dev.num = sys.nand_curr_device := by
  cases hparse : parse argv with
  | none =>
      refine iff_of_true (fun fuel => ?_) fun op args h => absurd h (Option.some_ne_none _).symm
      rw [System.do_nand, hparse]
  | some found =>
      obtain ⟨op, args⟩ := found
      constructor
      · intro h op' args' heq
        obtain ⟨rfl, rfl⟩ := Prod.mk.injEq .. ▸ Option.some.inj heq
        exact arg_off_size_unchanged_iff.mp ((do_nand_table hparse 0).symm.trans (h 0))
      · exact fun h fuel => (do_nand_table hparse fuel).trans
          (arg_off_size_unchanged_iff.mpr (h op args rfl))

/-- The command does what it should exactly if it does not change the current device, and two
numbers are a range of the device or one that is refused. -/
theorem nand_right_iff (sys : System) (confirmed : Bool) (argv : List (List Byte)) :
    Right sys confirmed argv ↔ Suits sys confirmed argv := by
  have hrefused (op : Op) (args : List (List Byte)) (nand : MtdInfo) (range : Range)
      (hacts : Acts sys argv op args nand range) :
      (Inside nand op range ∨ ∃ fuel result, (sys.do_nand fuel confirmed argv).2 = some result ∧
          result.ret ≠ 0 ∧ result.touched = []) ↔
        Inside nand op range ∨ Refused nand (sys.chips nand.priv) confirmed op range := by
    by_cases hin : Inside nand op range
    · exact iff_of_true (.inl hin) (.inl hin)
    · rw [or_iff_right hin, or_iff_right hin]
      simp only [hacts.run]
      refine fails_iff ?_ hin
      rw [← hacts.current]
      exact range_pages hacts.range
  constructor
  · intro h
    exact ⟨unchanged_iff.mp h.unchanged, fun op args nand range hacts hnumbers =>
      (hrefused op args nand range hacts).mp (h.numbers op args nand range hacts hnumbers)⟩
  · intro h
    refine ⟨unchanged_iff.mpr h.stays, ?_, fun op args nand range hacts hnumbers =>
      (hrefused op args nand range hacts).mpr (h.refused op args nand range hacts hnumbers), ?_⟩
    · intro op args nand range hacts arg harg dev part hpart
      obtain ⟨rest, rfl⟩ : ∃ rest, args = arg :: rest := by
        cases args with
        | nil => exact absurd harg (Option.not_mem_none _)
        | cons first rest => exact ⟨rest, by rw [Option.mem_some_iff.mp harg]⟩
      rw [← hacts.current]
      exact partition_right hpart hacts.range
    · intro op args nand range hacts fuel result hrun
      rw [hacts.run] at hrun
      exact perform_inside hrun

end Command

/-- Two devices of two blocks, the first one current, and a partition on the second one. -/
def twoDevices : System where
  chips _ := ⟨fun _ => false, false, fun _ => 0, fun _ _ => 0, fun _ _ => 0, fun _ _ => 0⟩
  nand_info n := ⟨14, 9, 2, 16, 8, n, by decide, by decide⟩
  nand_curr_device := 0
  devices := some [⟨.nand, 1, [⟨ascii "root", 0x4000, 0⟩]⟩]
  own _ := rfl
  parts_inside := by decide

/-- When the partition is erased, the first device is lost from the table. -/
theorem not_nand_right :
    ¬Right twoDevices true [ascii "nand", ascii "erase", ascii "root"] := by
  intro h
  have hstays := unchanged_iff.mp h.unchanged (.erase false false) [ascii "root"] rfl
    (ascii "root") rfl ⟨.nand, 1, [⟨ascii "root", 0x4000, 0⟩]⟩ ⟨ascii "root", 0x4000, 0⟩ rfl rfl
    fun _ harg => absurd harg (Option.not_mem_none _)
  exact absurd hstays Nat.one_ne_zero

end UBoot.CmdNand
