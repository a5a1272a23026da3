/-
# Protection around an update

`update_flash` removes the protection of sectors of the target and restores it behind the write.
The range is clamped to each bank that is looked at and stays so, and the banks have no addresses in
common: no protection is removed but in the first bank of the table. It is restored when nothing
fails after the first flag has been cleared.
-/

import UBoot.Flash.UpdateTouches

namespace UBoot.Flash

/-! ## Sectors of a bank -/

/-- A bank with the flags of sectors set or cleared. -/
def FlashInfo.setAll (info : FlashInfo) (prot : Bool) (sectors : List Nat) : FlashInfo :=
  info.withProtect fun i => if i ∈ sectors then prot else info.protect i

/-- The driver sets or clears the flags of sectors, one after the other. -/
def Granted (flash_real_protect : FlashInfo → Nat → Int → Int) (prot : Bool) :
    List Nat → FlashInfo → Prop
  | [], _ => True
  | i :: sectors, info =>
      flash_real_protect info i (if prot then 1 else 0) = 0 ∧
        Granted flash_real_protect prot sectors (info.setAll prot [i])

section Loop

variable {flash_real_protect : FlashInfo → Nat → Int → Int} {prot : Bool} {info : FlashInfo}
  {sp_info : Nat → Bool} {sectors : List Nat}

@[simp]
theorem setAll_nil (info : FlashInfo) (prot : Bool) : info.setAll prot [] = info := by
  simp [FlashInfo.setAll, FlashInfo.withProtect]

@[simp]
theorem setAll_protect (i : Nat) :
    (info.setAll prot sectors).protect i = if i ∈ sectors then prot else info.protect i := rfl

theorem setAll_bare : (info.setAll prot sectors).bare = info.bare := rfl

theorem setAll_cons (i : Nat) :
    info.setAll prot (i :: sectors) = (info.setAll prot [i]).setAll prot sectors := by
  unfold FlashInfo.setAll FlashInfo.withProtect
  congr 1
  ext k
  by_cases hk : k ∈ sectors <;> by_cases hi : k = i <;> simp [hk, hi]

theorem setAll_update (i : Nat) :
    info.withProtect (Function.update info.protect i prot) = info.setAll prot [i] := by
  unfold FlashInfo.setAll
  congr 1
  ext k
  simp [Function.update_apply]

/-- The driver refuses at a sector. -/
structure Stops (flash_real_protect : FlashInfo → Nat → Int → Int) (prot : Bool) (info : FlashInfo)
    (sectors before : List Nat) (i : Nat) : Prop where
  split : ∃ after, sectors = before ++ i :: after
  granted : Granted flash_real_protect prot before info
  refused : flash_real_protect (info.setAll prot before) i (if prot then 1 else 0) ≠ 0

/-- The flags of sectors are set or cleared, up to where the driver refuses. -/
def protectAll (flash_real_protect : FlashInfo → Nat → Int → Int) (prot : Bool)
    (sectors : List Nat) (info : FlashInfo) : Bool × FlashInfo :=
  protectLoop flash_real_protect prot (fun _ => true) sectors info

/-- The loop passes over the sectors that are not selected. -/
theorem protectLoop_eq :
    protectLoop flash_real_protect prot sp_info sectors info =
      protectAll flash_real_protect prot (sectors.filter sp_info) info := by
  induction sectors generalizing info with
  | nil => rfl
  | cons i sectors ih =>
      rw [protectLoop]
      by_cases hsp : sp_info i = true
      · rw [if_pos hsp, List.filter_cons_of_pos hsp, protectAll, protectLoop, if_pos rfl, ih]
        rfl
      · rw [if_neg hsp, List.filter_cons_of_neg hsp, ih]

variable (flash_real_protect prot sectors info) in
/-- All flags are set or cleared, or those in front of the sector where the driver refuses. -/
theorem protectAll_cases :
    (Granted flash_real_protect prot sectors info ∧
      protectAll flash_real_protect prot sectors info = (true, info.setAll prot sectors)) ∨
    ∃ before i, Stops flash_real_protect prot info sectors before i ∧
      protectAll flash_real_protect prot sectors info = (false, info.setAll prot before) := by
  induction sectors generalizing info with
  | nil => exact .inl ⟨trivial, by rw [setAll_nil]; rfl⟩
  | cons i sectors ih =>
      rw [protectAll, protectLoop, if_pos rfl, setAll_update]
      by_cases hrefused : flash_real_protect info i (if prot then 1 else 0) = 0
      · rw [if_neg (not_not.mpr hrefused)]
        rcases ih (info.setAll prot [i]) with ⟨hgranted, hloop⟩ | ⟨before, k, hstops, hloop⟩
        · refine .inl ⟨⟨hrefused, hgranted⟩, ?_⟩
          rw [← protectAll, hloop, ← setAll_cons]
        · obtain ⟨after, hsplit⟩ := hstops.split
          refine .inr ⟨i :: before, k, ⟨⟨after, ?_⟩, ⟨hrefused, hstops.granted⟩, ?_⟩, ?_⟩
          · rw [hsplit, List.cons_append]
          · rw [setAll_cons]
            exact hstops.refused
          · rw [← protectAll, hloop, ← setAll_cons]
      · rw [if_pos hrefused]
        refine .inr ⟨[], i, ⟨⟨_, List.nil_append _⟩, trivial, ?_⟩, ?_⟩
        · rwa [setAll_nil]
        · rw [setAll_nil]

theorem Stops.not_granted {before : List Nat} {i : Nat}
    (h : Stops flash_real_protect prot info sectors before i) :
    ¬ Granted flash_real_protect prot sectors info := by
  obtain ⟨⟨after, rfl⟩, -, hrefused⟩ := h
  induction before generalizing info with
  | nil =>
      rw [setAll_nil] at hrefused
      exact fun hgranted => hrefused hgranted.1
  | cons k before ih =>
      rw [setAll_cons] at hrefused
      exact fun hgranted => ih hrefused hgranted.2

/-- What has been cleared is set again. -/
theorem setAll_again (h : ∀ i ∈ sectors, info.protect i = true) :
    (info.setAll false sectors).setAll true sectors = info := by
  unfold FlashInfo.setAll FlashInfo.withProtect
  cases info
  congr 1
  ext k
  by_cases hk : k ∈ sectors
  · simp only [if_pos hk]
    exact (h k hk).symm
  · simp only [if_neg hk]

end Loop

/-! ## Banks -/

namespace FlashInfo

/-- What is saved for a sector when its protection is to be removed. -/
def toSave (info : FlashInfo) (first last : ULong) (i : Nat) : Bool :=
  decide (info.start i ≥ first) && decide (info.start i ≤ last) && info.protect i

/-- The protected sectors of a bank that begin in an interval. -/
def protectedFrom (info : FlashInfo) (first last : ULong) : List Nat :=
  (List.range info.sector_count).filter (info.toSave first last)

/-- The interval, clamped to a bank. -/
def clampFirst (info : FlashInfo) (first : ULong) : ULong :=
  if first < info.start 0 then info.start 0 else first

def clampLast (info : FlashInfo) (last : ULong) : ULong :=
  if last > info.start 0 + info.size - 1#32 then info.start 0 + info.size - 1#32 else last

end FlashInfo

@[simp]
theorem filter_toSave (info : FlashInfo) (first last : ULong) :
    (List.range info.sector_count).filter (info.toSave first last) =
      info.protectedFrom first last := rfl

section Banks

variable {flash_real_protect : FlashInfo → Nat → Int → Int} {info : FlashInfo}
  {banks : List FlashInfo} {first last : ULong}

theorem mem_protectedFrom {i : Nat} :
    i ∈ info.protectedFrom first last ↔
      i < info.sector_count ∧ first ≤ info.start i ∧ info.start i ≤ last ∧
        info.protect i = true := by
  simp only [FlashInfo.protectedFrom, FlashInfo.toSave, List.mem_filter, List.mem_range,
    Bool.and_eq_true, decide_eq_true_eq, ge_iff_le, and_assoc]

theorem clampLast_le (info : FlashInfo) (last : ULong) : info.clampLast last ≤ last := by
  unfold FlashInfo.clampLast
  split
  · exact BitVec.le_of_lt ‹_›
  · exact BitVec.le_refl last

theorem le_clampFirst (info : FlashInfo) (first : ULong) : first ≤ info.clampFirst first := by
  unfold FlashInfo.clampFirst
  split
  · exact BitVec.le_of_lt ‹_›
  · exact BitVec.le_refl first

/-- A turn of the loop over the banks that removes protection. -/
theorem unprotect_cons (hsome : info.sector_count ≠ 0) (saved : List (Nat → Bool)) :
    update_flash_protect flash_real_protect false (info :: banks) saved first last =
      let sp_info := info.toSave (info.clampFirst first) (info.clampLast last)
      let here :=
        protectLoop flash_real_protect false sp_info (List.range info.sector_count) info
      let rest := update_flash_protect flash_real_protect false banks saved.tail
        (info.clampFirst first) (info.clampLast last)
      if here.1 then (rest.1, here.2 :: rest.2.1, sp_info :: rest.2.2)
      else (false, here.2 :: banks, sp_info :: saved.tail) := by
  rw [update_flash_protect, if_neg hsome]
  rfl

/-- A turn of the loop that restores it. -/
theorem reprotect_cons (hsome : info.sector_count ≠ 0) (sp_info : Nat → Bool)
    (saved : List (Nat → Bool)) :
    update_flash_protect flash_real_protect true (info :: banks) (sp_info :: saved) first last =
      let here := protectLoop flash_real_protect true sp_info (List.range info.sector_count) info
      let rest := update_flash_protect flash_real_protect true banks saved
        (info.clampFirst first) (info.clampLast last)
      if here.1 then (rest.1, here.2 :: rest.2.1, sp_info :: rest.2.2)
      else (false, here.2 :: banks, sp_info :: saved) := by
  rw [update_flash_protect, if_neg hsome]
  rfl

/-- No sector of these banks begins in the interval. -/
def NoStart (banks : List FlashInfo) (first last : ULong) : Prop :=
  ∀ info ∈ banks, ∀ i < info.sector_count, first ≤ info.start i → ¬ info.start i ≤ last

variable (flash_real_protect) in
/-- Banks where no sector begins in the interval are passed over, also with what is saved. -/
theorem protect_noStart (h : NoStart banks first last) (saved : List (Nat → Bool)) :
    ∃ kept, update_flash_protect flash_real_protect false banks saved first last =
        (true, banks, kept) ∧
      ∀ f l, ∃ kept', update_flash_protect flash_real_protect true banks kept f l =
        (true, banks, kept') := by
  induction banks generalizing saved first last with
  | nil => exact ⟨_, rfl, fun _ _ => ⟨_, rfl⟩⟩
  | cons info banks ih =>
      by_cases hnone : info.sector_count = 0
      · refine ⟨saved, by rw [update_flash_protect, if_pos hnone], fun _ _ => ⟨saved, ?_⟩⟩
        rw [update_flash_protect, if_pos hnone]
      · have hshrunk : NoStart (info :: banks) (info.clampFirst first) (info.clampLast last) :=
          fun x hx i hi hge hle => h x hx i hi (BitVec.le_trans (le_clampFirst info first) hge)
            (BitVec.le_trans hle (clampLast_le info last))
        have hselected : info.protectedFrom (info.clampFirst first) (info.clampLast last) = [] := by
          rw [List.eq_nil_iff_forall_not_mem]
          intro i hi
          obtain ⟨hlt, hge, hle, -⟩ := mem_protectedFrom.mp hi
          exact hshrunk info List.mem_cons_self i hlt hge hle
        obtain ⟨kept, hrest, hagain⟩ :=
          ih (fun x hx => hshrunk x (List.mem_cons_of_mem info hx)) saved.tail
        refine ⟨info.toSave (info.clampFirst first) (info.clampLast last) :: kept, ?_,
          fun f l => ?_⟩
        · rw [unprotect_cons hnone]
          simp only [protectLoop_eq, filter_toSave, hselected, hrest]
          rfl
        · obtain ⟨kept', hrest'⟩ := hagain (info.clampFirst f) (info.clampLast l)
          rw [reprotect_cons hnone]
          simp only [protectLoop_eq, filter_toSave, hselected, hrest']
          exact ⟨_, rfl⟩

variable (first last) in
/-- Sectors of later banks do not begin in an interval that has been clamped to the first one. -/
theorem noStart_clamped (apart : Apart (info :: banks)) (hsome : info.sector_count ≠ 0) :
    NoStart banks (info.clampFirst first) (info.clampLast last) := by
  intro x hx i hi hge hle
  refine apart.notMem hx ⟨x.base_le_start hi, x.start_lt_limit hi⟩ ⟨?_, ?_⟩
  · refine le_trans ?_ (BitVec.le_def.mp hge)
    unfold FlashInfo.clampFirst FlashInfo.base
    split
    · exact le_rfl
    · exact BitVec.le_def.mp (BitVec.not_lt.mp ‹_›)
  · have hpos := info.inside 0 (Nat.pos_of_ne_zero hsome)
    have hfits := info.fits
    have hend : (info.start 0 + info.size - 1#32).toNat = info.limit - 1 := by
      unfold FlashInfo.limit FlashInfo.base
      bv_omega
    refine lt_of_le_of_lt (BitVec.le_def.mp hle) ?_
    have hclamped : (info.clampLast last).toNat ≤ info.limit - 1 := by
      rw [← hend]
      unfold FlashInfo.clampLast
      split
      · exact le_rfl
      · exact BitVec.le_def.mp (BitVec.not_lt.mp ‹_›)
    have : 0 < info.limit := by
      unfold FlashInfo.limit FlashInfo.base
      omega
    omega

/-- Within the bank the clamps change nothing. -/
theorem protectedFrom_clamped :
    info.protectedFrom (info.clampFirst first) (info.clampLast last) =
      info.protectedFrom first last := by
  apply List.filter_congr
  intro i hi
  have hi := List.mem_range.mp hi
  have hfirst : info.start i ≥ info.clampFirst first ↔ info.start i ≥ first := by
    have hbase : info.start 0 ≤ info.start i := BitVec.le_def.mpr (info.base_le_start hi)
    unfold FlashInfo.clampFirst
    split
    · next hlt => exact iff_of_true hbase (BitVec.le_trans (BitVec.le_of_lt hlt) hbase)
    · exact Iff.rfl
  have hlast : info.start i ≤ info.clampLast last ↔ info.start i ≤ last := by
    have hend : info.start i ≤ info.start 0 + info.size - 1#32 := by
      have hlimit := info.inside i hi
      have hfits := info.fits
      bv_omega
    unfold FlashInfo.clampLast
    split
    · next hlt => exact iff_of_true hend (BitVec.le_trans hend (BitVec.le_of_lt hlt))
    · exact Iff.rfl
  unfold FlashInfo.toSave
  rw [decide_eq_decide.mpr hfirst, decide_eq_decide.mpr hlast]

variable (flash_real_protect first last) in
/-- The protection is removed in the first bank only, and restored there from what is saved. -/
theorem update_flash_protect_first (apart : Apart (info :: banks)) :
    ∃ saved, update_flash_protect flash_real_protect false (info :: banks) [] first last =
        ((protectAll flash_real_protect false (info.protectedFrom first last) info).1,
          (protectAll flash_real_protect false (info.protectedFrom first last) info).2 :: banks,
          saved) ∧
      ((protectAll flash_real_protect false (info.protectedFrom first last) info).1 = true →
        ∀ info' : FlashInfo, info'.sector_count = info.sector_count →
          ∃ saved', update_flash_protect flash_real_protect true (info' :: banks) saved first last =
            ((protectAll flash_real_protect true (info.protectedFrom first last) info').1,
              (protectAll flash_real_protect true (info.protectedFrom first last) info').2 :: banks,
              saved')) := by
  by_cases hsome : info.sector_count = 0
  · have hnone : info.protectedFrom first last = [] := by
      rw [FlashInfo.protectedFrom, hsome]
      rfl
    refine ⟨[], ?_, fun _ info' hcount => ⟨[], ?_⟩⟩
    · rw [update_flash_protect, if_pos hsome, hnone]
      rfl
    · rw [update_flash_protect, if_pos (hcount.trans hsome), hnone]
      rfl
  · obtain ⟨kept, hrest, hagain⟩ := protect_noStart flash_real_protect
      (noStart_clamped first last apart hsome) []
    rw [unprotect_cons hsome]
    simp only [protectLoop_eq, filter_toSave, protectedFrom_clamped, List.tail_nil, hrest]
    cases hhere : (protectAll flash_real_protect false (info.protectedFrom first last) info).1 with
    | false => exact ⟨_, rfl, fun h => absurd h Bool.false_ne_true⟩
    | true =>
        refine ⟨_, rfl, fun _ info' hcount => ?_⟩
        rw [reprotect_cons (hcount.symm ▸ hsome), hcount]
        simp only [protectLoop_eq, filter_toSave, protectedFrom_clamped]
        obtain ⟨kept', hrest'⟩ := hagain (info'.clampFirst first) (info'.clampLast last)
        rw [hrest']
        cases (protectAll flash_real_protect true (info.protectedFrom first last) info').1 with
        | false => exact ⟨_, rfl⟩
        | true => exact ⟨_, rfl⟩

end Banks

/-! ## What an update comes to -/

section Update

/-- The table when the protection of the target has been removed. -/
def unprotected (info : FlashInfo) (banks : List FlashInfo) (first last : ULong) : List FlashInfo :=
  info.setAll false (info.protectedFrom first last) :: banks

/-- The erases and the writes that an update has them do. -/
def touchesOf (drivers : Drivers) (flash_info : List FlashInfo) (src first size last : ULong) :
    List Touch :=
  (flash_sect_erase flash_info drivers.flash_erase first last).2.map
      (fun t => .erase t.1 t.2.1 t.2.2) ++
    (flash_write flash_info drivers.write_buff src first size).2.map .write

variable (drivers : Drivers) (info : FlashInfo) (banks : List FlashInfo)
  (src first size last : ULong)

/-- The outcomes of an update whose last address is rounded to `last`. -/
inductive Outcome : Flashed → Prop
  | refused {before : List Nat} {i : Nat}
      (stops : Stops drivers.flash_real_protect false info (info.protectedFrom first last)
          before i) :
      Outcome ⟨1, info.setAll false before :: banks, []⟩
  | failed {touches : List Touch}
      (granted : Granted drivers.flash_real_protect false (info.protectedFrom first last) info)
      (failed : 0 < (flash_sect_erase (unprotected info banks first last) drivers.flash_erase
            first last).1 ∨
          0 < (flash_write (unprotected info banks first last) drivers.write_buff
            src first size).1) :
      Outcome ⟨1, unprotected info banks first last, touches⟩
  | left {before : List Nat} {i : Nat} {touches : List Touch}
      (granted : Granted drivers.flash_real_protect false (info.protectedFrom first last) info)
      (erased : ¬ 0 < (flash_sect_erase (unprotected info banks first last) drivers.flash_erase
          first last).1)
      (written : ¬ 0 < (flash_write (unprotected info banks first last) drivers.write_buff
          src first size).1)
      (stops : Stops drivers.flash_real_protect true
          (info.setAll false (info.protectedFrom first last)) (info.protectedFrom first last)
          before i) :
      Outcome ⟨1, (info.setAll false (info.protectedFrom first last)).setAll true before :: banks,
        touches⟩
  | done
      (granted : Granted drivers.flash_real_protect false (info.protectedFrom first last) info)
      (erased : ¬ 0 < (flash_sect_erase (unprotected info banks first last) drivers.flash_erase
          first last).1)
      (written : ¬ 0 < (flash_write (unprotected info banks first last) drivers.write_buff
          src first size).1)
      (restored : Granted drivers.flash_real_protect true (info.protectedFrom first last)
          (info.setAll false (info.protectedFrom first last))) :
      Outcome ⟨0, info :: banks,
        touchesOf drivers (unprotected info banks first last) src first size last⟩

variable {info banks first size last}

theorem update_flash_outcome (apart : Apart (info :: banks))
    (hround : flash_sect_roundb (info :: banks) (first + size - 1#32) = some last)
    (hlt : first < last) :
    Outcome drivers info banks src first size last
      (update_flash drivers (info :: banks) src first size) := by
  obtain ⟨saved, hremove, hrestore⟩ := update_flash_protect_first
    drivers.flash_real_protect first last apart
  unfold update_flash
  simp only [hround, if_neg (BitVec.not_le.mpr hlt), hremove]
  rcases protectAll_cases drivers.flash_real_protect false info (info.protectedFrom first last) with
    ⟨hgranted, hall⟩ | ⟨before, i, hstops, hall⟩
  case inr =>
    rw [hall, if_pos rfl]
    exact .refused hstops
  rw [hall] at hrestore ⊢
  obtain ⟨saved', hrestore⟩ :=
    hrestore rfl (info.setAll false (info.protectedFrom first last)) rfl
  rw [if_neg nofun, hrestore, ← unprotected]
  split
  · next herased => exact .failed hgranted (.inl herased)
  · next herased =>
      split
      · next hwritten => exact .failed hgranted (.inr hwritten)
      · next hwritten =>
          rcases protectAll_cases drivers.flash_real_protect true
            (info.setAll false (info.protectedFrom first last)) (info.protectedFrom first last) with
            ⟨hgranted', hall'⟩ | ⟨before, i, hstops, hall'⟩
          · rw [hall', setAll_again fun i hi => (mem_protectedFrom.mp hi).2.2.2]
            exact .done hgranted herased hwritten hgranted'
          · rw [hall']
            exact .left hgranted herased hwritten hstops

end Update

/-! ## What is meant -/

/-- A sector has a byte of the target. -/
def FlashInfo.Meets (info : FlashInfo) (i : Nat) (first size : ULong) : Prop :=
  ∃ k < size.toNat, (first + BitVec.ofNat 32 k).toNat ∈ info.sector i

/-- What the driver reports for what it is to touch. -/
def Drivers.report (drivers : Drivers) : Touch → Int
  | .erase info s_first s_last => drivers.flash_erase info s_first s_last
  | .write call => drivers.write_buff call

/-- The call of a write. -/
def Touch.call? : Touch → Option Call
  | .erase .. => none
  | .write call => some call

/-- No error is reported; each sector of the target has been erased while it was not protected; and
each byte has been written once, in its bank. -/
structure Stored (drivers : Drivers) (flash_info : List FlashInfo) (src first size : ULong)
    (touches : List Touch) : Prop where
  reports : ∀ t ∈ touches, drivers.report t = 0
  erased : ∀ info ∈ flash_info, ∀ i < info.sector_count, info.Meets i first size →
    ∃ info' s_first s_last, Touch.erase info' s_first s_last ∈ touches ∧ info'.bare = info.bare ∧
      s_first ≤ i ∧ i ≤ s_last ∧ info'.protect i = false
  inside : ∀ call, Touch.write call ∈ touches → call.Inside
  written : ((touches.filterMap Touch.call?).flatMap Call.passed).Perm
    (bytesFrom src first size.toNat)

/-- An update leaves the protection as it was, and has stored the data when it returns 0. -/
def LeavesProtection (drivers : Drivers) (flash_info : List FlashInfo) (src first size : ULong) :
    Prop :=
  (update_flash drivers flash_info src first size).flash_info = flash_info ∧
    ((update_flash drivers flash_info src first size).rc = 0 →
      Stored drivers flash_info src first size
        (update_flash drivers flash_info src first size).touches)

/-- Nothing is refused and no error is reported; the banks of the target are in order, and no
protected sector of another bank than the first one has a byte of it. -/
structure Finishes (drivers : Drivers) (info : FlashInfo) (banks : List FlashInfo)
    (src first size last : ULong) : Prop where
  granted : Granted drivers.flash_real_protect false (info.protectedFrom first last) info
  erased : (flash_sect_erase (unprotected info banks first last) drivers.flash_erase
    first last).1 = 0
  written : (flash_write (unprotected info banks first last) drivers.write_buff
    src first size).1 = 0
  restored : Granted drivers.flash_real_protect true (info.protectedFrom first last)
    (info.setAll false (info.protectedFrom first last))
  order : size ≠ 0#32 → InOrder (unprotected info banks first last) first (first + size - 1#32)
  others : ∀ x ∈ banks, ∀ i < x.sector_count, x.protect i = true → ¬ x.Meets i first size

/-- There is nothing to update; or the driver refuses at once; or the erase or the write fails when
no protection was removed; or nothing fails. -/
def FailsEarlyOrFinishes (drivers : Drivers) (src first size : ULong) : List FlashInfo → Prop
  | [] => True
  | info :: banks =>
      match flash_sect_roundb (info :: banks) (first + size - 1#32) with
      | none => True
      | some last =>
          last ≤ first ∨
          (∃ i, Stops drivers.flash_real_protect false info (info.protectedFrom first last) [] i) ∨
          (info.protectedFrom first last = [] ∧
            (0 < (flash_sect_erase (info :: banks) drivers.flash_erase first last).1 ∨
              0 < (flash_write (info :: banks) drivers.write_buff src first size).1)) ∨
          Finishes drivers info banks src first size last

/-! ## When the protection stays -/

section Protection

variable {drivers : Drivers} {info : FlashInfo} {banks : List FlashInfo}
  {src first size last : ULong}

theorem protectedFrom_nodup (info : FlashInfo) (first last : ULong) :
    (info.protectedFrom first last).Nodup :=
  List.nodup_range.filter _

/-- Flags that have been cleared differ. -/
theorem setAll_false_eq_iff {sectors : List Nat} (h : ∀ i ∈ sectors, info.protect i = true) :
    info.setAll false sectors :: banks = info :: banks ↔ sectors = [] := by
  constructor
  · intro heq
    have heq := (List.cons.inj heq).1
    by_contra hne
    obtain ⟨i, hi⟩ := List.exists_mem_of_ne_nil sectors hne
    have hflag : (info.setAll false sectors).protect i = false := if_pos hi
    rw [heq, h i hi] at hflag
    cases hflag
  · rintro rfl
    rw [setAll_nil]

theorem protected_of_mem {i : Nat} (h : i ∈ info.protectedFrom first last) :
    info.protect i = true :=
  (mem_protectedFrom.mp h).2.2.2

theorem unprotected_of_nil (h : info.protectedFrom first last = []) :
    unprotected info banks first last = info :: banks := by
  rw [unprotected, h, setAll_nil]

/-- At most one sector is refused at first. -/
theorem Stops.eq_nil {flash_real_protect : FlashInfo → Nat → Int → Int} {prot : Bool}
    {sectors before : List Nat} {i j : Nat}
    (h : Stops flash_real_protect prot info sectors before i)
    (hat : Stops flash_real_protect prot info sectors [] j) : before = [] := by
  obtain ⟨⟨after, rfl⟩, hgranted, -⟩ := h
  obtain ⟨⟨after', hsplit⟩, -, hrefused⟩ := hat
  cases before with
  | nil => rfl
  | cons k before =>
      rw [setAll_nil] at hrefused
      obtain rfl : k = j := (List.cons.inj hsplit).1
      exact absurd hgranted.1 hrefused

/-- A sector that is refused when the flags are set again has its flag cleared. -/
theorem left_ne {before : List Nat} {i : Nat}
    (h : Stops drivers.flash_real_protect true
      (info.setAll false (info.protectedFrom first last)) (info.protectedFrom first last)
      before i) :
    (info.setAll false (info.protectedFrom first last)).setAll true before :: banks ≠
      info :: banks := by
  obtain ⟨⟨after, hsplit⟩, -⟩ := h
  have hmem : i ∈ info.protectedFrom first last := by
    rw [hsplit]
    exact List.mem_append_right _ List.mem_cons_self
  have hnot : i ∉ before := by
    have hnodup := protectedFrom_nodup info first last
    rw [hsplit, List.nodup_append] at hnodup
    exact fun hi => hnodup.2.2 i hi i List.mem_cons_self rfl
  intro heq
  have hflag := congrArg (fun x => x.protect i) (List.cons.inj heq).1
  simp only [setAll_protect, if_neg hnot, if_pos hmem, protected_of_mem hmem] at hflag
  cases hflag

/-! ### Reports -/

/-- The loop returns 0 when no call has reported an error. -/
theorem eraseBanks_eq_zero_iff (flash_erase : FlashInfo → Nat → Nat → Int)
    (ranges : List (FlashInfo × Range)) :
    (eraseBanks flash_erase ranges).1 = 0 ↔
      ∀ t ∈ (eraseBanks flash_erase ranges).2, flash_erase t.1 t.2.1 t.2.2 = 0 := by
  induction ranges with
  | nil => exact iff_of_true rfl fun _ ht => absurd ht List.not_mem_nil
  | cons range ranges ih =>
      rcases range with ⟨x, _ | i, _ | j⟩
      case some.some =>
        by_cases hfail : flash_erase x i j ≠ 0
        · rw [eraseBanks_fails hfail]
          exact iff_of_false hfail fun h => hfail (h _ (List.mem_singleton_self _))
        · rw [eraseBanks_erased hfail, ih, List.forall_mem_cons]
          exact (and_iff_right (not_not.mp hfail)).symm
      all_goals exact ih

theorem flash_sect_erase_eq_zero_iff {flash_info : List FlashInfo}
    (herased : ¬ 0 < (flash_sect_erase flash_info drivers.flash_erase first last).1) :
    (flash_sect_erase flash_info drivers.flash_erase first last).1 = 0 ↔
      ∀ t ∈ (flash_sect_erase flash_info drivers.flash_erase first last).2,
        drivers.flash_erase t.1 t.2.1 t.2.2 = 0 := by
  rw [flash_sect_erase, if_pos (planned_of_erased herased)]
  exact eraseBanks_eq_zero_iff ..

/-- A write that reports no positive error has found both ends and no protected sector. -/
theorem flash_write_found {flash_info : List FlashInfo} {write_buff : Call → Int}
    (hsize : size ≠ 0#32) (h : ¬ 0 < (flash_write flash_info write_buff src first size).1) :
    ¬ CheckMeets flash_info first (first + size - 1#32) ∧
      (addr2info flash_info (first + size - 1#32)).isSome ∧
      ∃ banks, ∀ write_buff, flash_write flash_info write_buff src first size =
        writeBanks write_buff banks src first size := by
  have hcheck : ¬ CheckMeets flash_info first (first + size - 1#32) := by
    intro hcheck
    rw [flash_write_of_checkMeets hsize hcheck] at h
    exact h (by decide)
  cases hfirst : addr2info flash_info first with
  | none =>
      rw [flash_write_of_outside hsize (.inl hfirst)] at h
      exact absurd (by decide) h
  | some info_first =>
      cases hlast : addr2info flash_info (first + size - 1#32) with
      | none =>
          rw [flash_write_of_outside hsize (.inr hlast)] at h
          exact absurd (by decide) h
      | some info_last =>
          exact ⟨hcheck, rfl, _, flash_write_of_not_checkMeets hsize hcheck hfirst hlast⟩

theorem flash_write_eq_zero_iff {flash_info : List FlashInfo} {write_buff : Call → Int}
    (h : ¬ 0 < (flash_write flash_info write_buff src first size).1) :
    (flash_write flash_info write_buff src first size).1 = 0 ↔
      ∀ call ∈ (flash_write flash_info write_buff src first size).2, write_buff call = 0 := by
  by_cases hsize : size = 0#32
  · rw [flash_write, if_pos hsize]
    exact iff_of_true rfl (by simp)
  · obtain ⟨-, -, banks, hwrite⟩ := flash_write_found hsize h
    rw [hwrite]
    exact writeBanks_eq_zero_iff ..

/-- Every call has reported success exactly if both loops return 0. -/
theorem reports_iff {flash_info : List FlashInfo}
    (herased : ¬ 0 < (flash_sect_erase flash_info drivers.flash_erase first last).1)
    (hwritten : ¬ 0 < (flash_write flash_info drivers.write_buff src first size).1) :
    (∀ t ∈ touchesOf drivers flash_info src first size last, drivers.report t = 0) ↔
      (flash_sect_erase flash_info drivers.flash_erase first last).1 = 0 ∧
        (flash_write flash_info drivers.write_buff src first size).1 = 0 := by
  rw [flash_sect_erase_eq_zero_iff herased, flash_write_eq_zero_iff hwritten, touchesOf,
    List.forall_mem_append, List.forall_mem_map, List.forall_mem_map]
  rfl

theorem mem_touchesOf_write {flash_info : List FlashInfo} {call : Call} :
    Touch.write call ∈ touchesOf drivers flash_info src first size last ↔
      call ∈ (flash_write flash_info drivers.write_buff src first size).2 := by
  simp [touchesOf]

theorem mem_touchesOf_erase {flash_info : List FlashInfo} {x : FlashInfo} {i j : Nat} :
    Touch.erase x i j ∈ touchesOf drivers flash_info src first size last ↔
      (x, i, j) ∈ (flash_sect_erase flash_info drivers.flash_erase first last).2 := by
  simp [touchesOf]

theorem calls_touchesOf (drivers : Drivers) (flash_info : List FlashInfo) :
    (touchesOf drivers flash_info src first size last).filterMap Touch.call? =
      (flash_write flash_info drivers.write_buff src first size).2 := by
  rw [touchesOf, List.filterMap_append, List.filterMap_map, List.filterMap_map]
  have hnone : Touch.call? ∘ (fun t : FlashInfo × Nat × Nat => Touch.erase t.1 t.2.1 t.2.2) =
      fun _ => none := rfl
  have hsome : Touch.call? ∘ Touch.write = some := rfl
  rw [hnone, hsome, List.filterMap_some]
  simp

/-! ### Sectors of the target -/

/-- A sector has its addresses for itself. -/
theorem FlashInfo.sector_unique {x : FlashInfo} {i k a : Nat} (hi : i < x.sector_count)
    (hk : k < x.sector_count) (ha : a ∈ x.sector i) (hak : a ∈ x.sector k) : i = k := by
  rcases Nat.lt_trichotomy i k with hlt | heq | hlt
  · have := FlashInfo.sectorLimit_le_start hlt hk
    have := ha.2
    have := hak.1
    omega
  · exact heq
  · have := FlashInfo.sectorLimit_le_start hlt hi
    have := hak.2
    have := ha.1
    omega

/-- The last sector of a range is one of its bank. -/
theorem last_lt_of_mem {t : List FlashInfo} {c : Nat} {f l : ULong}
    (hok : (fillBanks l t f c).rcode = 0) {x : FlashInfo} {i j : Nat}
    (h : (x, some i, some j) ∈ t.zip (fillBanks l t f c).ranges) : j < x.sector_count := by
  induction t generalizing f c with
  | nil => exact absurd h List.not_mem_nil
  | cons bank t ih =>
      by_cases hle : f ≤ l
      · have v := visit hle bank t c
        generalize hr : fillBanks l (bank :: t) f c = r at v hok h
        cases v with
        | skip => exact ih hok (by simpa [Ranges.put] using h)
        | error r failed => rw [failed] at hok; exact absurd hok (by decide)
        | ends i' j' hknown hfirst hlast =>
            rcases List.mem_cons.mp h with heq | hrest
            · obtain ⟨i'', j'', -, hj, -, -, hr'⟩ :=
                @fillBanks_ends bank t f l c hle hknown hfirst hlast
              have hhead := (List.cons.inj (congrArg Ranges.ranges (hr.symm.trans hr'))).1
              cases heq
              cases hhead
              exact hj
            · exact ih hok hrest
        | whole i' j' hknown hfirst hlast hbehind =>
            rcases List.mem_cons.mp h with heq | hrest
            · obtain ⟨i'', j'', -, hj, -, -, hr'⟩ :=
                @fillBanks_whole bank t f l c hlast hle hknown hfirst hbehind
              have hhead := (List.cons.inj (congrArg Ranges.ranges (hr.symm.trans hr'))).1
              cases heq
              cases hhead
              exact hj
            · exact ih hok hrest
      · rw [fillBanks_done (BitVec.not_le.mp hle)] at h
        have hrange := (List.of_mem_zip h).2
        simp [unset] at hrange

/-- A sector of the target begins in the range that is erased, and is selected there. -/
theorem selected_of_meets {t : List FlashInfo} (apart : Apart t)
    (hround : flash_sect_roundb t (first + size - 1#32) = some last) (hlt : first < last)
    (hplanned : (flash_fill_sect_ranges t first last).s_count ≠ 0 ∧
      (flash_fill_sect_ranges t first last).rcode = 0)
    (hfound : (addr2info t (first + size - 1#32)).isSome) {x : FlashInfo} (hx : x ∈ t) {i : Nat}
    (hi : i < x.sector_count) (hmeets : x.Meets i first size) :
    first ≤ x.start i ∧ x.start i ≤ last ∧
      ∃ a b, (x, some a, some b) ∈ t.zip (flash_fill_sect_ranges t first last).ranges ∧
        a ≤ i ∧ i ≤ b := by
  obtain ⟨k, hk, hmem⟩ := hmeets
  have hle := le_last_of_planned apart hround hlt hplanned.2 hplanned.1
  obtain ⟨bank, hbank, hknown, hin⟩ := addr2info_known hfound
  obtain ⟨bank', hbank', j, hj, hin', hlimit⟩ := flash_sect_roundb_some hround
  obtain rfl := apart.eq_of_mem hbank hbank' hin (FlashInfo.mem_addresses_of_sector hj hin')
  have someEnd : SomeEnd t last.toNat := ⟨bank, hbank, hknown, j, hj, hlimit.symm⟩
  have hsel := (selected_of_someEnd apart (BitVec.le_of_lt hlt) someEnd hplanned.2).2
  have hbyte := hin'.2
  rw [BitVec.le_def] at hle
  have hrange : (first + BitVec.ofNat 32 k).toNat ∈ Set.Icc first.toNat last.toNat :=
    ⟨by bv_omega, by bv_omega⟩
  have hadd := FlashInfo.mem_addresses_of_sector hi hmem
  refine ⟨?_, BitVec.le_def.mpr (hmem.1.trans hrange.2), ?_⟩
  · -- a sector starts at the first address, so it is not inside this one
    obtain ⟨y, hy, -, n, hn, hstart⟩ :=
      starts_of_planned apart (BitVec.le_of_lt hlt) hplanned.2 hplanned.1
    rw [BitVec.le_def]
    by_contra hbelow
    rw [not_le] at hbelow
    have hfirst : first.toNat ∈ x.sector i := ⟨hbelow.le, hrange.1.trans_lt hmem.2⟩
    obtain rfl : y = x := by
      apply apart.eq_of_mem hy hx _ (FlashInfo.mem_addresses_of_sector hi hfirst)
      rw [← hstart]
      exact ⟨y.base_le_start hn, y.start_lt_limit hn⟩
    have hoff := FlashInfo.start_outside hi hn ⟨le_rfl, y.start_lt_sectorLimit hi⟩
      (by rw [hstart]; exact hbelow)
    have := hfirst.2
    omega
  · have hselected : (first + BitVec.ofNat 32 k).toNat ∈
        selected (t.zip (flash_fill_sect_ranges t first last).ranges) := by
      rw [flash_fill_sect_ranges, hsel]
      exact .inl hrange
    obtain ⟨y, a, b, hzip, n, han, hnb, hyn⟩ := hselected
    have hn := hnb.trans_lt (last_lt_of_mem hplanned.2 hzip)
    obtain rfl := apart.eq_of_mem (List.of_mem_zip hzip).1 hx
      (FlashInfo.mem_addresses_of_sector hn hyn) hadd
    obtain rfl := FlashInfo.sector_unique hn hi hyn hmem
    exact ⟨a, b, hzip, han, hnb⟩

theorem bare_unprotected : bare (unprotected info banks first last) = bare (info :: banks) := rfl

theorem bare_addresses {x y : FlashInfo} (h : x.bare = y.bare) : x.addresses = y.addresses := by
  change x.bare.addresses = y.bare.addresses
  rw [h]

/-- When an update comes to its end, what is left to ask is whether an error was reported, whether
the banks are in order, and whether other banks have protected sectors. -/
theorem stored_iff (apart : Apart (info :: banks))
    (hround : flash_sect_roundb (info :: banks) (first + size - 1#32) = some last)
    (hlt : first < last)
    (herased : ¬ 0 < (flash_sect_erase (unprotected info banks first last) drivers.flash_erase
      first last).1)
    (hwritten : ¬ 0 < (flash_write (unprotected info banks first last) drivers.write_buff
      src first size).1) :
    Stored drivers (info :: banks) src first size
        (touchesOf drivers (unprotected info banks first last) src first size last) ↔
      (flash_sect_erase (unprotected info banks first last) drivers.flash_erase first last).1 = 0 ∧
        (flash_write (unprotected info banks first last) drivers.write_buff src first size).1 = 0 ∧
        (size ≠ 0#32 →
          InOrder (unprotected info banks first last) first (first + size - 1#32)) ∧
        ∀ x ∈ banks, ∀ i < x.sector_count, x.protect i = true → ¬ x.Meets i first size := by
  have apart' : Apart (unprotected info banks first last) := Apart.congr bare_unprotected apart
  have hround' : flash_sect_roundb (unprotected info banks first last) (first + size - 1#32) =
      some last := by
    rw [← flash_sect_roundb_bare, bare_unprotected, flash_sect_roundb_bare]
    exact hround
  have hplanned := planned_of_erased herased
  constructor
  · intro stored
    obtain ⟨hzero, hzero'⟩ := (reports_iff herased hwritten).mp stored.reports
    refine ⟨hzero, hzero', fun hsize => ?_, ?_⟩
    · obtain ⟨hcheck, -, t, hwrite⟩ := flash_write_found hsize hwritten
      have hsame : flash_write (unprotected info banks first last) drivers.write_buff
          src first size =
          flash_write (unprotected info banks first last) (fun _ => ERR_OK) src first size := by
        rw [hwrite] at hzero' ⊢
        rw [hwrite, writeBanks_of_eq_zero _ hzero']
      have hinside : ∀ call ∈ (flash_write (unprotected info banks first last) (fun _ => ERR_OK)
          src first size).2, call.Inside := by
        rw [← hsame]
        exact fun call hcall => stored.inside call (mem_touchesOf_write.mpr hcall)
      refine inOrder_of_written apart' hsize hcheck hinside fun _ => ?_
      rw [← hsame, ← calls_touchesOf]
      exact stored.written
    · intro x hx i hi hprotect hmeets
      obtain ⟨y, a, b, htouch, hbare, -, -, hflag⟩ :=
        stored.erased x (List.mem_cons_of_mem info hx) i hi hmeets
      rw [mem_touchesOf_erase, flash_sect_erase, if_pos hplanned] at htouch
      have hy := (List.of_mem_zip (mem_eraseBanks _ htouch)).1
      have hin : (x.start i).toNat ∈ x.addresses := ⟨x.base_le_start hi, x.start_lt_limit hi⟩
      rcases List.mem_cons.mp hy with rfl | hy
      · exact apart.notMem hx hin (bare_addresses (setAll_bare.symm.trans hbare) ▸ hin)
      · obtain rfl := apart.tail.eq_of_mem hy hx (bare_addresses hbare ▸ hin) hin
        rw [hprotect] at hflag
        cases hflag
  · rintro ⟨hzero, hzero', order, others⟩
    have hwrites : (∀ call ∈ (flash_write (unprotected info banks first last) drivers.write_buff
          src first size).2, call.Inside) ∧
        ((flash_write (unprotected info banks first last) drivers.write_buff
          src first size).2.flatMap Call.passed).Perm (bytesFrom src first size.toNat) := by
      by_cases hsize : size = 0#32
      · rw [flash_write, if_pos hsize, hsize]
        exact ⟨by simp, List.Perm.refl _⟩
      · exact (written_of_inOrder apart' hsize (order hsize) drivers.write_buff).imp_right
          fun hpassed => hpassed hzero'
    refine ⟨(reports_iff herased hwritten).mpr ⟨hzero, hzero'⟩, ?_,
      fun call hcall => hwrites.1 call (mem_touchesOf_write.mp hcall),
      (calls_touchesOf drivers _).symm ▸ hwrites.2⟩
    have herase : ∀ x ∈ unprotected info banks first last, ∀ i < x.sector_count,
        x.Meets i first size → first ≤ x.start i ∧ x.start i ≤ last ∧ ∃ a b,
          Touch.erase x a b ∈ touchesOf drivers (unprotected info banks first last)
            src first size last ∧ a ≤ i ∧ i ≤ b := by
      intro x hx i hi hmeets
      have hsize : size ≠ 0#32 := by
        rintro rfl
        obtain ⟨k, hk, -⟩ := hmeets
        exact absurd hk (Nat.not_lt_zero k)
      obtain ⟨-, hfound, -⟩ := flash_write_found hsize hwritten
      obtain ⟨hge, hle, a, b, hzip, hrange⟩ :=
        selected_of_meets apart' hround' hlt hplanned hfound hx hi hmeets
      refine ⟨hge, hle, a, b, ?_, hrange⟩
      rw [flash_sect_erase, if_pos hplanned] at hzero
      rw [mem_touchesOf_erase, flash_sect_erase, if_pos hplanned]
      exact mem_eraseBanks_of_ok _ hzero hzip
    intro x hx i hi hmeets
    rcases List.mem_cons.mp hx with rfl | hx
    · obtain ⟨hge, hle, a, b, htouch, hai, hib⟩ :=
        herase (x.setAll false (x.protectedFrom first last)) List.mem_cons_self i hi hmeets
      refine ⟨_, a, b, htouch, setAll_bare, hai, hib, ?_⟩
      rw [setAll_protect]
      by_cases hmem : i ∈ x.protectedFrom first last
      · exact if_pos hmem
      · rw [if_neg hmem, ← Bool.not_eq_true]
        exact fun hprotect => hmem (mem_protectedFrom.mpr ⟨hi, hge, hle, hprotect⟩)
    · obtain ⟨-, -, a, b, htouch, hai, hib⟩ := herase x (List.mem_cons_of_mem _ hx) i hi hmeets
      refine ⟨x, a, b, htouch, rfl, hai, hib, ?_⟩
      rw [← Bool.not_eq_true]
      exact fun hprotect => others x hx i hi hprotect hmeets

theorem update_flash_nothing {flash_info : List FlashInfo}
    (h : ∀ last, flash_sect_roundb flash_info (first + size - 1#32) = some last → last ≤ first) :
    update_flash drivers flash_info src first size = ⟨1, flash_info, []⟩ := by
  unfold update_flash
  cases hround : flash_sect_roundb flash_info (first + size - 1#32) with
  | none => rfl
  | some last => exact if_pos (h last hround)

theorem leavesProtection_of_nothing {flash_info : List FlashInfo}
    (h : ∀ last, flash_sect_roundb flash_info (first + size - 1#32) = some last → last ≤ first) :
    LeavesProtection drivers flash_info src first size := by
  rw [LeavesProtection, update_flash_nothing h]
  exact ⟨rfl, fun hzero => absurd hzero Int.one_ne_zero⟩

theorem Stops.mem {flash_real_protect : FlashInfo → Nat → Int → Int} {prot : Bool}
    {sectors before : List Nat} {i : Nat}
    (h : Stops flash_real_protect prot info sectors before i) : i ∈ sectors := by
  obtain ⟨⟨after, rfl⟩, -⟩ := h
  exact List.mem_append_right _ List.mem_cons_self

theorem Stops.protected {before : List Nat} {i : Nat}
    (h : Stops drivers.flash_real_protect false info (info.protectedFrom first last) before i) :
    ∀ k ∈ before, info.protect k = true := by
  obtain ⟨⟨after, hsplit⟩, -⟩ := h
  intro k hk
  have hmem : k ∈ info.protectedFrom first last := by
    rw [hsplit]
    exact List.mem_append_left _ hk
  exact protected_of_mem hmem

theorem failsEarlyOrFinishes_of_finishes
    (hround : flash_sect_roundb (info :: banks) (first + size - 1#32) = some last)
    (h : Finishes drivers info banks src first size last) :
    FailsEarlyOrFinishes drivers src first size (info :: banks) := by
  rw [FailsEarlyOrFinishes, hround]
  exact .inr (.inr (.inr h))

/-- The protection is left as it was, and an update that returns 0 has stored the data, exactly if
nothing fails after the protection of a sector has been removed. -/
theorem leavesProtection_iff (drivers : Drivers) (flash_info : List FlashInfo)
    (src first size : ULong) (apart : Apart flash_info) :
    LeavesProtection drivers flash_info src first size ↔
      FailsEarlyOrFinishes drivers src first size flash_info := by
  cases flash_info with
  | nil => exact iff_of_true (leavesProtection_of_nothing nofun) trivial
  | cons info banks =>
      rw [FailsEarlyOrFinishes]
      cases hround : flash_sect_roundb (info :: banks) (first + size - 1#32) with
      | none =>
          refine iff_of_true (leavesProtection_of_nothing fun last h => ?_) trivial
          rw [hround] at h
          cases h
      | some last =>
          by_cases hle : last ≤ first
          · refine iff_of_true (leavesProtection_of_nothing fun last' h => ?_) (.inl hle)
            rw [hround, Option.some.injEq] at h
            exact h ▸ hle
          have outcome := update_flash_outcome drivers src apart hround
            (BitVec.not_le.mp hle)
          rw [LeavesProtection]
          generalize update_flash drivers (info :: banks) src first size = r at outcome ⊢
          dsimp only
          rw [or_iff_right hle]
          cases outcome with
          | refused stops =>
              constructor
              · rintro ⟨heq, -⟩
                obtain rfl := (setAll_false_eq_iff stops.protected).mp heq
                exact .inl ⟨_, stops⟩
              · rintro (⟨i, hat⟩ | ⟨hnil, -⟩ | finishes)
                · obtain rfl := stops.eq_nil hat
                  exact ⟨by rw [setAll_nil], fun hzero => absurd hzero Int.one_ne_zero⟩
                · exact absurd (hnil ▸ stops.mem) List.not_mem_nil
                · exact absurd finishes.granted stops.not_granted
          | failed granted failed =>
              constructor
              · rintro ⟨heq, -⟩
                have hnil := (setAll_false_eq_iff fun i => protected_of_mem).mp heq
                rw [unprotected_of_nil hnil] at failed
                exact .inr (.inl ⟨hnil, failed⟩)
              · rintro (⟨i, hat⟩ | ⟨hnil, -⟩ | finishes)
                · exact absurd granted hat.not_granted
                · exact ⟨unprotected_of_nil hnil, fun hzero => absurd hzero Int.one_ne_zero⟩
                · rcases failed with h | h
                  · exact absurd finishes.erased h.ne'
                  · exact absurd finishes.written h.ne'
          | left granted erased written stops =>
              refine iff_of_false (fun h => left_ne stops h.1) ?_
              rintro (⟨i, hat⟩ | ⟨hnil, -⟩ | finishes)
              · exact absurd granted hat.not_granted
              · exact absurd (hnil ▸ stops.mem) List.not_mem_nil
              · exact absurd finishes.restored stops.not_granted
          | done granted erased written restored =>
              refine (and_iff_right rfl).trans ?_
              rw [forall_prop_of_true rfl,
                stored_iff apart hround (BitVec.not_le.mp hle) erased written]
              constructor
              · rintro ⟨hzero, hzero', order, others⟩
                exact .inr (.inr ⟨granted, hzero, hzero', restored, order, others⟩)
              · rintro (⟨i, hat⟩ | ⟨hnil, hfailed⟩ | finishes)
                · exact absurd granted hat.not_granted
                · rw [unprotected_of_nil hnil] at erased written
                  exact absurd hfailed (not_or.mpr ⟨erased, written⟩)
                · exact ⟨finishes.erased, finishes.written, finishes.order, finishes.others⟩

end Protection

theorem granted_quiet (prot : Bool) (sectors : List Nat) (info : FlashInfo) :
    Granted Drivers.quiet.flash_real_protect prot sectors info := by
  induction sectors generalizing info with
  | nil => trivial
  | cons i sectors ih => exact ⟨rfl, ih _⟩

theorem inOrder_second : InOrder (unprotected (twoSectors 0x10000000#32 (by decide)) []
    0x10008000#32 0x1000ffff#32) 0x10008000#32 (0x10008000#32 + 0x10#32 - 1#32) := by
  have hbank : ∀ addr : ULong, addr = 0x10008000#32 ∨ addr = 0x10008000#32 + 0x10#32 - 1#32 →
      addr2info (unprotected (twoSectors 0x10000000#32 (by decide)) [] 0x10008000#32
        0x1000ffff#32) addr = some 0 := by
    rintro addr (rfl | rfl) <;> decide
  intro info_first info_last hfirst hlast
  rw [hbank _ (.inl rfl), Option.some.injEq] at hfirst
  rw [hbank _ (.inr rfl), Option.some.injEq] at hlast
  subst hfirst hlast
  exact ⟨le_rfl, fun _ => by decide, by simp [banksBetween, unprotected]⟩

/-- The write into the second sector of a bank, which is protected. -/
theorem leavesProtection_second : LeavesProtection Drivers.quiet
    [twoSectors 0x10000000#32 (by decide)] 0x1000#32 0x10008000#32 0x10#32 := by
  refine (leavesProtection_iff _ _ _ _ _ (by simp [Apart])).mpr ?_
  have hround : flash_sect_roundb [twoSectors 0x10000000#32 (by decide)]
      (0x10008000#32 + 0x10#32 - 1#32) = some 0x1000ffff#32 := by decide
  refine failsEarlyOrFinishes_of_finishes hround ⟨granted_quiet .., ?_, ?_, granted_quiet ..,
    fun _ => inOrder_second, by simp⟩
  · decide
  · decide

/-- The write fails, and the sector stays without protection. -/
theorem not_leavesProtection :
    ¬ ∀ (drivers : Drivers) (flash_info : List FlashInfo) (src first size : ULong),
      Apart flash_info → LeavesProtection drivers flash_info src first size := by
  intro h
  let drivers : Drivers := { Drivers.quiet with write_buff := fun _ => 1 }
  have hsame := (h drivers [twoSectors 0x10000000#32 (by decide)] 0x1000#32 0x10008000#32 0x10#32
    (by simp [Apart])).1
  have hflags := congrArg (fun banks => banks.map fun info => info.protect 1) hsame
  exact absurd hflags (by decide)

end UBoot.Flash
