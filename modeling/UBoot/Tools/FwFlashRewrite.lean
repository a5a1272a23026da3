/-
# Rewriting an erase block

`flash_write_buf` writes `CONFIG_ENV_SIZE` bytes after each erase, and not as many as it has
erased. So the rest of the block is lost when the environment is smaller, and when it is
larger than a block of NAND a round goes on beyond its block and beyond its data.
-/

import UBoot.Tools.FwFlashCall

namespace UBoot.Tools

open UBoot.Lib

namespace EnvDev

variable {dev : EnvDev} {sectors blockstart : Nat}

/-! ## Rounds and places -/

theorem mem_roundsFrom {r : Nat × Nat} {k : Nat} {gs : List Nat} (hr : r ∈ dev.roundsFrom k gs) :
    ∃ i, gs[i]? = some r.1 ∧ r.2 = (k + i) * dev.erase_size := by
  induction gs generalizing k with
  | nil => cases hr
  | cons g gs ih =>
      rcases List.mem_cons.mp hr with rfl | hr
      · exact ⟨0, rfl, rfl⟩
      · obtain ⟨i, hi, hsrc⟩ := ih hr
        exact ⟨i + 1, hi, by rw [hsrc, Nat.add_assoc, Nat.add_comm 1]⟩

theorem roundsFrom_mem (dev : EnvDev) (k : Nat) {i g : Nat} {gs : List Nat} (hi : gs[i]? = some g) :
    (g, (k + i) * dev.erase_size) ∈ dev.roundsFrom k gs := by
  induction gs generalizing k i with
  | nil => cases hi
  | cons g' gs ih =>
      cases i with
      | zero =>
          cases hi
          exact List.mem_cons_self
      | succ i =>
          have hmem := ih (k + 1) hi
          rw [Nat.add_assoc, Nat.add_comm 1] at hmem
          exact List.mem_cons_of_mem _ hmem

/-- The rounds are in order, and so is what they write. -/
theorem pairwise_roundsFrom {k : Nat} {gs : List Nat}
    (hgs : gs.Pairwise fun g g' => g + dev.erase_size ≤ g') :
    (dev.roundsFrom k gs).Pairwise fun r r' =>
      r.1 + dev.erase_size ≤ r'.1 ∧ r.2 + dev.erase_size ≤ r'.2 := by
  induction gs generalizing k with
  | nil => exact List.Pairwise.nil
  | cons g gs ih =>
      obtain ⟨hfirst, hrest⟩ := List.pairwise_cons.mp hgs
      apply List.pairwise_cons.mpr ⟨_, ih hrest⟩
      intro r hr
      obtain ⟨i, hi, hsrc⟩ := mem_roundsFrom hr
      refine ⟨hfirst _ (List.mem_of_getElem? hi), ?_⟩
      rw [hsrc, Nat.add_mul, Nat.add_mul]
      omega

section Rounds

variable {count : Nat} {r : Nat × Nat}

/-- A round on NAND: its block, and how many blocks were written before. -/
theorem mem_rounds_nand (htype : dev.mtd_type = .nand) (hr : r ∈ dev.rounds count) :
    ∃ i < dev.blockCount count, dev.goodBlocks[i]? = some r.1 ∧ r.2 = i * dev.erase_size := by
  rw [rounds_nand htype] at hr
  obtain ⟨i, hi, hsrc⟩ := mem_roundsFrom hr
  rw [Nat.zero_add] at hsrc
  obtain ⟨hlt, -⟩ := List.getElem?_eq_some_iff.mp hi
  have hlt : i < dev.blockCount count := by
    rw [List.length_take] at hlt
    omega
  rw [List.getElem?_take_of_lt hlt] at hi
  exact ⟨i, hlt, hi, hsrc⟩

theorem mem_rounds_nor (htype : dev.mtd_type = .nor) (hr : r ∈ dev.rounds count) :
    dev.blockCount count ≠ 0 ∧ r = (dev.first, 0) := by
  rw [rounds_nor htype] at hr
  split at hr
  · cases hr
  · next hcount => exact ⟨hcount, List.mem_singleton.mp hr⟩

/-- What is erased is in the sectors. -/
theorem erase_inside (hr : r ∈ dev.rounds count) :
    dev.first ≤ r.1 ∧ r.1 + dev.area ≤ dev.top := by
  have htop := dev.top_eq
  cases htype : dev.mtd_type with
  | nand =>
      obtain ⟨i, -, hi, -⟩ := mem_rounds_nand htype hr
      rw [area_nand htype, htop]
      exact mem_goodFrom (List.mem_of_getElem? hi)
  | nor =>
      obtain ⟨-, rfl⟩ := mem_rounds_nor htype hr
      rw [area_nor htype]
      simp only
      omega

theorem pairwise_rounds : (dev.rounds count).Pairwise fun r r' =>
    r.1 + dev.area ≤ r'.1 ∧ r.2 + dev.area ≤ r'.2 := by
  cases htype : dev.mtd_type with
  | nand =>
      rw [rounds_nand htype, area_nand htype]
      exact pairwise_roundsFrom (pairwise_goodFrom.take)
  | nor =>
      rw [rounds_nor htype]
      split
      · exact List.Pairwise.nil
      · exact List.pairwise_singleton _ _

/-- The byte that the buffer has at an index belongs to the place that the round gives it. -/
theorem place_round (hr : r ∈ dev.rounds count) {j : Nat} (hj : j < dev.area) :
    dev.place (r.2 + j) = r.1 + j := by
  cases htype : dev.mtd_type with
  | nand =>
      obtain ⟨i, -, hi, hsrc⟩ := mem_rounds_nand htype hr
      rw [area_nand htype] at hj
      rw [place_nand htype, placeIn, hsrc, Nat.add_comm (i * dev.erase_size), Nat.add_mul_div_right _ _ dev.erase_pos,
        Nat.div_eq_of_lt hj, Nat.zero_add, List.getD_eq_getElem?_getD, hi,
        Nat.add_mul_mod_self_right, Nat.mod_eq_of_lt hj]
      rfl
  | nor =>
      obtain ⟨-, rfl⟩ := mem_rounds_nor htype hr
      rw [place_nor htype, Nat.zero_add]

/-- A round writes bytes of the blocks that were read. -/
theorem staged_round (hr : r ∈ dev.rounds count) {j : Nat}
    (hj : j < dev.area) (hcount : j < count) :
    r.2 + j < dev.blockCount count * dev.erase_size := by
  have hle := dev.seek_add_le count
  cases htype : dev.mtd_type with
  | nand =>
      obtain ⟨i, hi, -, hsrc⟩ := mem_rounds_nand htype hr
      rw [area_nand htype] at hj
      have := Nat.mul_le_mul_right dev.erase_size (Nat.succ_le_of_lt hi)
      rw [Nat.succ_mul] at this
      omega
  | nor =>
      obtain ⟨-, rfl⟩ := mem_rounds_nor htype hr
      omega

/-- The places of the environment are erased by some round. -/
theorem exists_round (enough : dev.Enough count)
    (inside : ∀ r ∈ dev.rounds count, r.1 + count ≤ dev.top) {i : Nat} (hi : i < count) :
    ∃ r ∈ dev.rounds count, ∃ j < dev.area, dev.seek + i = r.2 + j := by
  have hle := dev.seek_add_le count
  have hpos := dev.erase_pos
  cases htype : dev.mtd_type with
  | nand =>
      have hlt : (dev.seek + i) / dev.erase_size < dev.blockCount count :=
        (Nat.div_lt_iff_lt_mul hpos).mpr (by omega)
      have henough := (enough_nand htype).mp enough
      have hget := List.getElem?_eq_getElem (l := dev.goodBlocks.take (dev.blockCount count))
        (i := (dev.seek + i) / dev.erase_size) (by rw [List.length_take]; omega)
      have hmem := dev.roundsFrom_mem 0 hget
      rw [← rounds_nand htype, Nat.zero_add] at hmem
      refine ⟨_, hmem, (dev.seek + i) % dev.erase_size, ?_, ?_⟩
      · rw [area_nand htype]
        exact Nat.mod_lt _ hpos
      · rw [Nat.mul_comm]
        exact (Nat.div_add_mod _ _).symm
  | nor =>
      have hcount : dev.blockCount count = 1 := by
        have := (enough_nor htype).mp enough
        have : dev.blockCount count ≠ 0 := by
          intro hzero
          rw [hzero] at hle
          omega
        omega
      have hmem : (dev.first, 0) ∈ dev.rounds count := by
        rw [rounds_nor htype, hcount]
        exact List.mem_singleton.mpr rfl
      refine ⟨_, hmem, dev.seek + i, ?_, (Nat.zero_add _).symm⟩
      have hinside := inside _ hmem
      have htop := dev.top_eq
      rw [hcount] at hle
      rw [area_nor htype]
      simp only at hinside
      -- there is room for the environment, so there is a sector
      have hsectors : 0 < dev.env_sectors := by
        by_contra hzero
        rw [show dev.env_sectors = 0 by omega] at htop
        omega
      have := Nat.mul_le_mul_right dev.erase_size hsectors
      omega

end Rounds

/-! ## What is kept -/

/-- An address is in what the rounds erase. -/
def Erased (dev : EnvDev) (count a : Nat) : Prop :=
  ∃ r ∈ dev.rounds count, r.1 ≤ a ∧ a < r.1 + dev.area

/-- Erased cells are what they are to be, and others are what they were. -/
structure Exact (dev : EnvDev) (flash : Nat → Byte) (buf : List Byte) (after : Nat → Byte) :
    Prop where
  erased : ∀ r ∈ dev.rounds buf.length, ∀ j < dev.area,
    after (r.1 + j) = dev.desired flash buf (r.2 + j)
  kept : ∀ a, ¬ dev.Erased buf.length a → after a = flash a

/-- A round does no harm: the environment's length from its start on stays in the sectors and
from its index on in the buffer, what is erased behind that is to be blank, and programming
what was not erased changes nothing. -/
structure Harmless (dev : EnvDev) (heap flash : Nat → Byte) (buf : List Byte) (r : Nat × Nat) :
    Prop where
  inside : r.1 + buf.length ≤ dev.top
  source : r.2 + buf.length ≤ dev.dataLen buf.length
  blank : ∀ j < dev.area, buf.length ≤ j → dev.desired flash buf (r.2 + j) = 0xff#8
  spills : ∀ j < buf.length, ¬ dev.Erased buf.length (r.1 + j) →
    flash (r.1 + j) &&& dev.staged heap flash buf (r.2 + j) = flash (r.1 + j)

section Kept

variable {heap flash after : Nat → Byte} {buf : List Byte}

/-- An address is in one round. -/
theorem round_unique {count j j' : Nat} {r r' : Nat × Nat} (hr : r ∈ dev.rounds count)
    (hr' : r' ∈ dev.rounds count) (hj : j < dev.area) (hj' : j' < dev.area)
    (heq : r.1 + j = r'.1 + j') : r = r' ∧ j = j' := by
  have hapart : (dev.rounds count).Pairwise fun r r' =>
      r.1 + dev.area ≤ r'.1 ∨ r'.1 + dev.area ≤ r.1 :=
    pairwise_rounds.imp fun h => Or.inl h.1
  have : Std.Symm fun r r' : Nat × Nat => r.1 + dev.area ≤ r'.1 ∨ r'.1 + dev.area ≤ r.1 :=
    ⟨fun _ _ h => h.symm⟩
  have hsame : r = r' := by
    by_contra hne
    rcases List.Pairwise.forall hapart hr hr' hne with h | h <;> omega
  subst hsame
  exact ⟨rfl, by omega⟩

theorem desired_env {i : Nat} (hi : i < buf.length) :
    dev.desired flash buf (dev.seek + i) = buf[i] :=
  store_add (List.getElem?_eq_getElem hi)

theorem desired_other {p : Nat} (h : ∀ i < buf.length, p ≠ dev.seek + i) :
    dev.desired flash buf p = flash (dev.place p) := by
  apply store_outside
  by_contra hin
  exact h (p - dev.seek) (by omega) (by omega)

/-- Reading the environment back and keeping the rest is being exact. -/
theorem exact_iff (enough : dev.Enough buf.length)
    (inside : ∀ r ∈ dev.rounds buf.length, r.1 + buf.length ≤ dev.top) :
    dev.Exact flash buf after ↔
      (∀ i, ∀ hi : i < buf.length, after (dev.place (dev.seek + i)) = buf[i]) ∧
        ∀ a, (∀ i < buf.length, a ≠ dev.place (dev.seek + i)) → after a = flash a := by
  constructor
  · intro exact
    constructor
    · intro i hi
      obtain ⟨r, hr, j, hj, hp⟩ := exists_round enough inside hi
      rw [hp, place_round hr hj, exact.erased r hr j hj, ← hp, desired_env hi]
    · intro a hother
      by_cases herased : dev.Erased buf.length a
      · obtain ⟨r, hr, hle, hlt⟩ := herased
        obtain ⟨j, rfl⟩ := Nat.exists_eq_add_of_le hle
        have hj : j < dev.area := by omega
        rw [exact.erased r hr j hj, desired_other, place_round hr hj]
        intro i hi heq
        apply hother i hi
        rw [← heq, place_round hr hj]
      · exact exact.kept a herased
  · rintro ⟨hback, hrest⟩
    constructor
    · intro r hr j hj
      by_cases henv : ∃ i < buf.length, r.2 + j = dev.seek + i
      · obtain ⟨i, hi, hp⟩ := henv
        rw [hp, desired_env hi, ← hback i hi, ← hp, place_round hr hj]
      · have hp : ∀ i < buf.length, r.2 + j ≠ dev.seek + i := fun i hi h => henv ⟨i, hi, h⟩
        rw [desired_other hp, place_round hr hj]
        apply hrest
        intro i hi heq
        obtain ⟨r', hr', j', hj', hp'⟩ := exists_round enough inside hi
        rw [hp', place_round hr' hj'] at heq
        obtain ⟨rfl, rfl⟩ := round_unique hr hr' hj hj' heq
        exact hp i hi hp'.symm
    · intro a herased
      apply hrest
      rintro i hi rfl
      obtain ⟨r, hr, j, hj, hp⟩ := exists_round enough inside hi
      apply herased
      rw [hp, place_round hr hj]
      exact ⟨r, hr, by omega, by omega⟩

/-- The contents that the rounds leave are exact if they do no harm to cells. -/
theorem exact_runRounds_iff :
    dev.Exact flash buf (runRounds dev.area buf.length
      (eraseRounds (dev.staged heap flash buf) (dev.rounds buf.length)) flash) ↔
      ∀ r ∈ dev.rounds buf.length,
        (∀ j < dev.area, buf.length ≤ j → dev.desired flash buf (r.2 + j) = 0xff#8) ∧
          ∀ j < buf.length, ¬ dev.Erased buf.length (r.1 + j) →
            flash (r.1 + j) &&& dev.staged heap flash buf (r.2 + j) = flash (r.1 + j) := by
  have upwards : Upwards dev.area
      (eraseRounds (dev.staged heap flash buf) (dev.rounds buf.length)) :=
    List.pairwise_map.mpr (pairwise_rounds.imp fun h => h.1)
  have herased (r : Nat × Nat) (hr : r ∈ dev.rounds buf.length) (j : Nat) (hj : j < dev.area) :
      runRounds dev.area buf.length
        (eraseRounds (dev.staged heap flash buf) (dev.rounds buf.length)) flash (r.1 + j) =
          if j < buf.length then dev.desired flash buf (r.2 + j) else 0xff#8 := by
    have hmem : (⟨r.1, fun i => dev.staged heap flash buf (r.2 + i)⟩ : EraseRound 8) ∈
        eraseRounds (dev.staged heap flash buf) (dev.rounds buf.length) :=
      List.mem_map.mpr ⟨r, hr, rfl⟩
    rw [runRounds_erased upwards hmem ⟨Nat.le_add_right _ _, Nat.add_lt_add_left hj _⟩,
      Nat.add_sub_cancel_left]
    change (if j < buf.length then dev.staged heap flash buf (r.2 + j) else _) = _
    split
    · next hlt => rw [staged, if_pos (staged_round hr hj hlt)]
    · rfl
  have hkept (a : Nat) (ha : ¬ dev.Erased buf.length a) :
      runRounds dev.area buf.length
        (eraseRounds (dev.staged heap flash buf) (dev.rounds buf.length)) flash a = flash a ↔
          ∀ r ∈ dev.rounds buf.length, r.1 ≤ a → a < r.1 + buf.length →
            flash a &&& dev.staged heap flash buf (r.2 + (a - r.1)) = flash a := by
    rw [runRounds_kept_iff]
    · exact List.forall_mem_map
    · exact List.forall_mem_map.mpr fun r hr h => ha ⟨r, hr, h⟩
  constructor
  · intro exact r hr
    constructor
    · intro j hj hle
      rw [← exact.erased r hr j hj, herased r hr j hj, if_neg (by omega)]
    · intro j hj hnot
      have hcell := (hkept _ hnot).mp (exact.kept _ hnot) r hr (by omega) (by omega)
      rwa [Nat.add_sub_cancel_left] at hcell
  · intro harmless
    constructor
    · intro r hr j hj
      rw [herased r hr j hj]
      split
      · rfl
      · exact ((harmless r hr).1 j hj (by omega)).symm
    · intro a ha
      apply (hkept a ha).mpr
      intro r hr hle hlt
      obtain ⟨j, rfl⟩ := Nat.exists_eq_add_of_le hle
      rw [Nat.add_sub_cancel_left]
      exact (harmless r hr).2 j (by omega) ha

theorem forall_opsOf {P : FlashOp → Prop} {area length : Nat} {rounds : List (Nat × Nat)} :
    (∀ op ∈ opsOf area length rounds, P op) ↔
      ∀ r ∈ rounds, P (.erase r.1 area) ∧ P (.write r.1 r.2 length) := by
  simp only [opsOf, List.forall_mem_flatMap, List.forall_mem_cons, List.not_mem_nil, false_implies,
    implies_true, and_true]

theorem map_range_eq_iff (f : Nat → Byte) :
    (List.range buf.length).map f = buf ↔ ∀ i, ∀ hi : i < buf.length, f i = buf[i] := by
  constructor
  · intro h i hi
    have hget := congrArg (·[i]?) h
    simpa [hi] using hget
  · intro h
    apply List.ext_getElem (by simp)
    intro i _ hi
    simpa using h i hi

/-- When a call that succeeds does what is meant. -/
theorem flash_write_buf_rewrites (dev : EnvDev) (heap flash : Nat → Byte) (buf : List Byte) :
    ((dev.flash_write_buf buf.length heap flash buf dev.devoff).rc.isSome = true →
      dev.Rewrites flash buf (dev.flash_write_buf buf.length heap flash buf dev.devoff)) ↔
      (dev.Enough buf.length →
        ∀ r ∈ dev.rounds buf.length, dev.Harmless heap flash buf r) := by
  by_cases enough : dev.Enough buf.length
  · rw [flash_write_buf_enough enough, forall_prop_of_true enough]
    simp only [Option.isSome_some, forall_const]
    have hread (after : Nat → Byte) :
        dev.flash_read_buf after buf.length dev.devoff =
          some ((List.range buf.length).map fun i => after (dev.place (dev.seek + i))) := by
      rw [← first_add_seek]
      apply dev.flash_read_buf_eq after _ _ dev.seek_lt
      intro htype
      right
      exact blockCount_le_iff.mp ((enough_nand htype).mp enough)
    constructor
    · rintro ⟨hback, hinside, hsources, hrest⟩ r hr
      rw [forall_opsOf] at hinside hsources
      rw [hread, Option.some_inj, map_range_eq_iff] at hback
      have hexact := (exact_iff enough fun r hr => (hinside r hr).2.2).mpr ⟨hback, hrest⟩
      obtain ⟨hblank, hspills⟩ := exact_runRounds_iff.mp hexact r hr
      exact ⟨(hinside r hr).2.2, (hsources r hr).2, hblank, hspills⟩
    · intro harmless
      have hexact := exact_runRounds_iff.mpr fun r hr =>
        ⟨(harmless r hr).blank, (harmless r hr).spills⟩
      obtain ⟨hback, hrest⟩ := (exact_iff enough fun r hr => (harmless r hr).inside).mp hexact
      refine ⟨?_, ?_, ?_, hrest⟩
      · rw [hread, Option.some_inj, map_range_eq_iff]
        exact hback
      · rw [forall_opsOf]
        intro r hr
        have herase := erase_inside hr
        exact ⟨herase, herase.1, (harmless r hr).inside⟩
      · rw [forall_opsOf]
        intro r hr
        exact ⟨trivial, (harmless r hr).source⟩
  · constructor
    · intro _ h
      exact absurd h enough
    · intro _ h
      rw [flash_write_buf_short enough] at h
      cases h

theorem length_goodFrom : (dev.goodFrom sectors blockstart).length ≤ sectors := by
  induction sectors generalizing blockstart with
  | zero => exact le_rfl
  | succ sectors ih =>
      rw [goodFrom]
      split
      · exact ih.trans (Nat.le_succ _)
      · exact Nat.succ_le_succ ih

/-- An environment that is no longer than what a round erases: only what is erased behind it
is lost. -/
theorem harmless_iff_blank (enough : dev.Enough buf.length) (hlen : buf.length ≤ dev.area)
    {r : Nat × Nat} (hr : r ∈ dev.rounds buf.length) :
    dev.Harmless heap flash buf r ↔
      ∀ j < dev.area, buf.length ≤ j → dev.desired flash buf (r.2 + j) = 0xff#8 := by
  have herase := erase_inside hr
  have htop := dev.top_eq
  constructor
  · intro harmless
    exact harmless.blank
  · intro blank
    refine ⟨by omega, ?_, blank, fun j hj hnot => absurd ⟨r, hr, by omega, by omega⟩ hnot⟩
    rw [dataLen]
    cases htype : dev.mtd_type with
    | nand =>
        obtain ⟨i, hi, -, hsrc⟩ := mem_rounds_nand htype hr
        have hgood := ((enough_nand htype).mp enough).trans length_goodFrom
        have hround := Nat.mul_le_mul_right dev.erase_size (Nat.succ_le_of_lt hi)
        have hall := Nat.mul_le_mul_right dev.erase_size hgood
        rw [Nat.succ_mul] at hround
        rw [area_nand htype] at hlen
        split <;> omega
    | nor =>
        obtain ⟨-, rfl⟩ := mem_rounds_nor htype hr
        rw [area_nor htype] at hlen
        split <;> omega

end Kept

/-- One sector of 4 KB of NOR flash. -/
def oneSector : EnvDev where
  devoff := 0
  erase_size := 0x1000
  env_sectors := 1
  mtd_type := .nor
  bad _ := false
  erase_pos := by decide

/-- An environment of 1 KB in a sector whose other bytes are 0: they become 0xff. -/
theorem not_flash_write_buf_rewrites :
    let buf : List Byte := List.replicate 0x400 0xa5#8
    let r := oneSector.flash_write_buf buf.length (fun _ => 0#8) (fun _ => 0#8) buf oneSector.devoff
    r.rc.isSome = true ∧ ¬ oneSector.Rewrites (fun _ => 0#8) buf r := by
  intro buf r
  have hlen : buf.length = 0x400 := List.length_replicate
  have enough : oneSector.Enough buf.length := by
    rw [enough_nor rfl, hlen]
    decide
  have hrounds : oneSector.rounds buf.length = [(0, 0)] := by
    rw [hlen]
    decide
  have hr : r = _ := flash_write_buf_enough enough
  constructor
  · rw [hr]
    rfl
  · rw [hr]
    rintro ⟨-, -, -, hrest⟩
    have hcell := hrest 0x400 (by
      intro i hi
      rw [place_nor rfl]
      change 0x400 ≠ 0 + (0 + i)
      omega)
    have hblank : runRounds oneSector.area buf.length
        (eraseRounds (oneSector.staged (fun _ => 0#8) (fun _ => 0#8) buf)
          (oneSector.rounds buf.length)) (fun _ => 0#8) 0x400 = 0xff#8 := by
      rw [hrounds]
      refine (runRounds_erased (List.pairwise_singleton _ _) List.mem_cons_self
        ⟨Nat.zero_le _, ?_⟩).trans (if_neg ?_)
      · change 0x400 < 0 + oneSector.area
        decide
      · rw [hlen]
        decide
    exact absurd (hblank.symm.trans hcell) (by decide)

end EnvDev

end UBoot.Tools
