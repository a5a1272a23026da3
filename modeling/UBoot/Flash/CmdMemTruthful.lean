/-
# Copies of the cp command

Of what `do_mem_cp` does with a copy, each route has its own condition. A driver is passed
`count` where the number of bytes is `count * size`, and what `envm_write` returns is
returned. A range is compared with a device at its ends only, and the second end is the
address behind `count` bytes.
-/

import UBoot.Flash.CmdMem

namespace UBoot.CmdMem

open UBoot.Flash UBoot.Lib

/-! ## Routes -/

/-- Where a copy goes. -/
inductive Route
  | flash
  | device (name : Name) (device : Device name)
  | ram

namespace Request

variable (req : Request) (r : Region)

/-- The block of the device decides. -/
def enters : Bool := r.hasAddr req.dest || r.hasAddr (req.dest + req.count)

/-- The block of the device calls the driver. -/
def passes : Bool :=
  r.hasAddr req.dest && r.hasAddr (req.dest + req.count) && !r.hasAddr req.addr &&
    !r.hasAddr (req.addr + req.count)

end Request

/-- The route of a copy. -/
def Board.route (board : Board) (req : Request) : Route :=
  if (addr2info board.flash_info req.dest).isSome then .flash
  else
    match board.spifi.filter (req.enters ·.toRegion) with
    | some d => .device .spifi d
    | none =>
        match board.envm.filter (req.enters ·.toRegion) with
        | some d => .device .envm d
        | none => .ram

/-- What the block of a device does when it decides. -/
def deviceOutcome {name : Name} (m : Memory) (req : Request) (d : Device name) : Outcome :=
  if req.passes d.toRegion then
    ⟨(d.driver.write m req.addr req.dest req.count).1,
      (d.driver.write m req.addr req.dest req.count).2, [⟨name, req.addr, req.dest, req.count⟩]⟩
  else ⟨1#32, m, []⟩

theorem deviceCopy_eq {name : Name} (device : Option (Device name)) (m : Memory) (req : Request) :
    deviceCopy device m req =
      (device.filter (req.enters ·.toRegion)).map (deviceOutcome m req) := by
  cases device with
  | none => rfl
  | some d =>
      rw [deviceCopy, Option.filter_some, Request.enters]
      split
      · rw [Option.map_some, deviceOutcome, Request.passes]
        cases d.hasAddr req.dest <;> cases d.hasAddr (req.dest + req.count) <;>
          cases d.hasAddr req.addr <;> cases d.hasAddr (req.addr + req.count) <;> rfl
      · rfl

/-- The outcome of a copy by its route. -/
def routeOutcome (board : Board) (m : Memory) (req : Request) : Route → Outcome
  | .flash =>
      let cnt := req.count * BitVec.ofNat 32 req.size
      let written := board.flash_write.write m req.addr req.dest cnt
      ⟨if written.1 ≠ 0#32 then 1#32 else 0#32, written.2, [⟨.flash, req.addr, req.dest, cnt⟩]⟩
  | .device _ d => deviceOutcome m req d
  | .ram => ⟨0#32, copyUnits board.ram req.size req.count.toNat req.dest req.addr m, []⟩

theorem copy_eq (board : Board) (m : Memory) (req : Request) :
    copy board m req = routeOutcome board m req (board.route req) := by
  rw [copy, Board.route, deviceCopy_eq, deviceCopy_eq]
  split
  · simp only [routeOutcome]
    split <;> rfl
  · cases board.spifi.filter (req.enters ·.toRegion) with
    | some d => rfl
    | none => cases board.envm.filter (req.enters ·.toRegion) <;> rfl

/-- The device of a route is one of the board, and its block is entered. -/
theorem route_device {board : Board} {req : Request} {name : Name} {d : Device name}
    (h : board.route req = .device name d) :
    board.region name = some d.toRegion ∧ req.enters d.toRegion = true := by
  rw [Board.route] at h
  split at h
  · cases h
  · split at h
    · next hspifi =>
        cases h
        obtain ⟨hdevice, henters⟩ := Option.filter_eq_some_iff.mp hspifi
        exact ⟨by rw [Board.region, hdevice]; rfl, henters⟩
    · split at h
      · next henvm =>
          cases h
          obtain ⟨hdevice, henters⟩ := Option.filter_eq_some_iff.mp henvm
          exact ⟨by rw [Board.region, hdevice]; rfl, henters⟩
      · cases h

/-- A copy to flash begins in a bank. -/
theorem route_flash {board : Board} {req : Request} (h : board.route req = .flash) :
    (addr2info board.flash_info req.dest).isSome := by
  rw [Board.route] at h
  split at h
  · assumption
  · split at h
    · cases h
    · split at h <;> cases h

/-! ## The condition -/

/-- The block of a device does what is meant: of the copies that it passes on those of bytes,
into the device, and from the internal eNVM only failures with an error code; of those that
it refuses, all that may be refused and do not find the bytes there already. -/
def DeviceCopies {name : Name} (board : Board) (m : Memory) (req : Request) (d : Device name) :
    Prop :=
  if req.passes d.toRegion then
    req.size = 1 ∧ req.destination ⊆ d.addresses ∧
      (name = .envm → (d.driver.write m req.addr req.dest req.count).1 ≠ 0#32 ∧
        (d.driver.write m req.addr req.dest req.count).1 ≠ req.count)
  else
    ¬ SameBytes m req.dest req.addr req.len ∧
      ∀ name', ∀ r ∈ board.region name', ¬ req.Into r

/-- The route of the copy does what is meant. -/
def RouteCopies (board : Board) (m : Memory) (req : Request) : Prop :=
  match board.route req with
  | .flash =>
      req.destination ⊆ bankAddresses board.flash_info ∨ ¬ SameBytes m req.dest req.addr req.len
  | .device _ d => DeviceCopies board m req d
  | .ram =>
      (∀ name, ∀ r ∈ board.region name, Disjoint req.destination r.addresses) ∧
        ∀ i < req.len, board.ram (req.dest + BitVec.ofNat 32 i) = false →
          m (req.dest + BitVec.ofNat 32 i) = m (req.addr + BitVec.ofNat 32 i)

/-! ## The loop -/

/-- The unit sizes of the suffixes. -/
def UnitSize (size : Nat) : Prop := size = 1 ∨ size = 2 ∨ size = 4

theorem copyUnit_eq {size : Nat} (hsize : UnitSize size) (ram : ULong → Bool) (dest addr : ULong)
    (m : Memory) : copyUnit ram size dest addr m = copySpan ram dest addr size m := by
  obtain rfl | rfl | rfl := hsize <;> rfl

/-- The loop copies the bytes of its units. -/
theorem copyUnits_eq {size : Nat} (hsize : UnitSize size) (ram : ULong → Bool) (count : Nat)
    (dest addr : ULong) (m : Memory) (hle : count * size ≤ 2 ^ 32)
    (apart : Disjoint (span addr (count * size)) (span dest (count * size))) :
    copyUnits ram size count dest addr m = copySpan ram dest addr (count * size) m := by
  induction count generalizing dest addr m with
  | zero => simp [copyUnits]
  | succ count ih =>
      rw [Nat.succ_mul, Nat.add_comm (count * size)] at hle apart ⊢
      have hrest (a : ULong) :
          span (a + BitVec.ofNat 32 size) (count * size) ⊆ span a (size + count * size) :=
        fun x hx => (mem_span_add hle).mpr (Or.inr hx)
      rw [copyUnits, copyUnit_eq hsize,
        ih _ _ _ (by omega) (apart.mono (hrest addr) (hrest dest)), copySpan_add hle apart]

/-! ## Ranges and devices -/

theorem Region.hasAddr_iff {r : Region} {a : ULong} :
    r.hasAddr a = true ↔ a ∈ r.addresses ∧ r.base.toNat + r.len.toNat < 2 ^ 32 := by
  have hfits := r.fits
  rw [Region.hasAddr, Bool.and_eq_true, decide_eq_true_eq, decide_eq_true_eq, Region.addresses,
    Set.mem_ofPred_eq]
  bv_omega

section Requests

variable {board : Board} {m : Memory} {req : Request}

theorem Request.dest_mem (hlen : 0 < req.len) : req.dest ∈ req.destination := by
  rw [Request.destination, mem_span, sub_self]
  exact hlen

/-- What ends where the device ends is not passed on. -/
theorem Request.not_passes_at_end {r : Region}
    (hend : req.dest.toNat + req.count.toNat = r.base.toNat + r.len.toNat) :
    ¬ req.passes r = true := by
  have hfits := r.fits
  rw [Request.passes, Bool.and_eq_true, Bool.and_eq_true, Bool.and_eq_true, Region.hasAddr_iff,
    Region.hasAddr_iff, Region.addresses, Set.mem_ofPred_eq, Set.mem_ofPred_eq]
  bv_omega

/-- Two ranges apart are shorter than the address space. -/
theorem Request.Proper.len_lt (proper : req.Proper) : req.len < 2 ^ 32 := by
  have hsource := proper.source_le
  have hdestination := proper.destination_le
  by_contra hge
  have heq : req.addr = req.dest := by bv_omega
  have hmem : req.dest ∈ req.destination := req.dest_mem (by omega)
  apply Set.disjoint_left.mp proper.apart _ hmem
  rw [Request.source, heq]
  exact hmem

theorem Request.cnt_eq : req.count * BitVec.ofNat 32 req.size = BitVec.ofNat 32 req.len := by
  apply BitVec.eq_of_toNat_eq
  simp [Request.len]

theorem Request.Proper.len_toNat (proper : req.Proper) :
    (BitVec.ofNat 32 req.len).toNat = req.len := by
  rw [BitVec.toNat_ofNat, Nat.mod_eq_of_lt proper.len_lt]

/-- The source of a copy into a device is not in it when neither of its ends is. -/
theorem Request.into_of_passes {r : Region} (proper : req.Proper) (hlen : req.count.toNat = req.len)
    (hpos : 0 < req.len) (passes : req.passes r = true) (hsub : req.destination ⊆ r.addresses) :
    req.Into r := by
  have hlt := proper.len_lt
  have hsource := proper.source_le
  have hdest := req.dest_mem hpos
  rw [Request.passes, Bool.and_eq_true, Bool.and_eq_true, Bool.and_eq_true, Bool.not_eq_true',
    Bool.not_eq_true', ← Bool.not_eq_true, ← Bool.not_eq_true, Region.hasAddr_iff,
    Region.hasAddr_iff, Region.hasAddr_iff, Region.hasAddr_iff] at passes
  obtain ⟨⟨⟨⟨hin, hlimit⟩, -⟩, hfirst⟩, hbehind⟩ := passes
  refine ⟨hsub, Set.disjoint_left.mpr fun x hx hxr => ?_⟩
  rw [Request.source, mem_span_of_le hsource] at hx
  have hapart : req.dest ∉ req.source := fun h => Set.disjoint_left.mp proper.apart h hdest
  rw [Request.source, mem_span_of_le hsource] at hapart
  simp only [Region.addresses, Set.mem_ofPred_eq] at hin hxr hfirst hbehind
  bv_omega

/-- A range that is in no device has nothing to do with any. -/
theorem Request.disjoint_iff (hpos : 0 < req.len) (r : Region) :
    Disjoint req.destination r.addresses ↔ ¬ req.Into r ∧ ¬ req.Across r := by
  have hdest := req.dest_mem hpos
  constructor
  · intro apart
    constructor
    · intro into
      exact Set.disjoint_left.mp apart hdest (into.1 hdest)
    · intro across
      exact across.1 apart
  · rintro ⟨hinto, hacross⟩
    by_contra hmeets
    apply hacross
    refine ⟨hmeets, ?_⟩
    by_contra hneither
    rw [not_or, not_not, not_not] at hneither
    exact hinto hneither

theorem Request.not_across_of_into {r : Region} (into : req.Into r) : ¬ req.Across r := by
  rintro ⟨-, houtside | hsource⟩
  · exact houtside into.1
  · exact hsource into.2

/-! ## The routes -/

theorem refused_rc : (1#32 : ULong) ≠ 0#32 := by decide

theorem truthful_flash (apart : board.Apart) (proper : req.Proper) (hpos : 0 < req.len)
    (hroute : board.route req = .flash) :
    Truthful board m req (copy board m req) ↔ RouteCopies board m req := by
  have hbank : req.dest ∈ bankAddresses board.flash_info := addr2info_known (route_flash hroute)
  have hcnt := proper.len_toNat
  rw [copy_eq, RouteCopies, hroute]
  simp only [routeOutcome, req.cnt_eq]
  have hfirst (name : Name) (r : Region) (hr : r ∈ board.region name) : ¬ req.Into r := by
    intro into
    exact Set.disjoint_left.mp (apart.banks name r hr) hbank (into.1 (req.dest_mem hpos))
  by_cases hsub : req.destination ⊆ bankAddresses board.flash_info
  · have htells := board.flash_write.tells m req.addr req.dest (BitVec.ofNat 32 req.len)
    rw [hcnt] at htells
    have htells := htells (by bv_omega) hsub proper.apart
    rw [Name.success] at htells
    refine iff_of_true ⟨?_, fun name r hr into => (hfirst name r hr into).elim, ?_⟩ (Or.inl hsub)
    · rw [← htells]
      simp
    · intro name r hr across
      exact (across.1 ((apart.banks name r hr).mono_left hsub)).elim
  · obtain ⟨hrc, hmemory⟩ := board.flash_write.refuses m req.addr req.dest
      (BitVec.ofNat 32 req.len) (by rw [hcnt]; exact hsub)
    rw [hmemory, if_pos hrc]
    constructor
    · intro truthful
      right
      intro same
      exact refused_rc (truthful.tells.mpr same)
    · rintro (h | hdiffer)
      · exact absurd h hsub
      · refine ⟨?_, fun name r hr into => (hfirst name r hr into).elim, ?_⟩
        · exact iff_of_false refused_rc hdiffer
        · intro name r _ _
          simp

theorem truthful_ram (proper : req.Proper) (hsize : UnitSize req.size) (hpos : 0 < req.len)
    (hroute : board.route req = .ram) :
    Truthful board m req (copy board m req) ↔ RouteCopies board m req := by
  have hlt := proper.len_lt
  rw [copy_eq, RouteCopies, hroute]
  simp only [routeOutcome]
  rw [copyUnits_eq hsize _ _ _ _ _ hlt.le proper.apart]
  change Truthful board m req ⟨0#32, copySpan board.ram req.dest req.addr req.len m, []⟩ ↔ _
  have hsame := sameBytes_copySpan board.ram m hlt.le proper.apart
  constructor
  · intro truthful
    constructor
    · intro name r hr
      rw [Request.disjoint_iff hpos]
      constructor
      · intro into
        exact absurd (truthful.written name r hr into) (by simp)
      · intro across
        exact (truthful.rejected name r hr across).1 rfl
    · exact hsame.mp (truthful.tells.mp rfl)
  · rintro ⟨hapart, hram⟩
    have hneither (name : Name) (r : Region) (hr : r ∈ board.region name) :=
      (Request.disjoint_iff hpos r).mp (hapart name r hr)
    refine ⟨iff_of_true rfl (hsame.mpr hram), ?_, ?_⟩
    · intro name r hr into
      exact absurd into (hneither name r hr).1
    · intro name r hr across
      exact absurd across (hneither name r hr).2

/-- A device of the board is not a flash bank. -/
theorem ne_flash_of_region {name : Name} {r : Region} (hr : board.region name = some r) :
    name ≠ .flash := by
  rintro rfl
  cases hr

/-- A copy that the block of a device refuses. -/
theorem truthful_refused {name : Name} {d : Device name} (hrefuses : ¬ req.passes d.toRegion = true) :
    Truthful board m req (deviceOutcome m req d) ↔ DeviceCopies board m req d := by
  rw [DeviceCopies, if_neg hrefuses, deviceOutcome, if_neg hrefuses]
  constructor
  · intro truthful
    constructor
    · intro same
      exact refused_rc (truthful.tells.mpr same)
    · intro name' r hr into
      exact absurd (truthful.written name' r hr into) (by simp)
  · rintro ⟨hdiffer, hinto⟩
    refine ⟨iff_of_false refused_rc hdiffer, ?_, ?_⟩
    · intro name' r hr into
      exact absurd into (hinto name' r hr)
    · intro name' r _ _
      exact ⟨refused_rc, rfl, by simp⟩

/-- A call of a driver that is as it should be is one for bytes, into its device. -/
theorem size_of_truthful {name : Name} {d : Device name} (proper : req.Proper)
    (hpos : 0 < req.len) (hd : board.region name = some d.toRegion)
    (passes : req.passes d.toRegion = true)
    (truthful : Truthful board m req (deviceOutcome m req d)) :
    req.size = 1 ∧ req.Into d.toRegion := by
  rw [deviceOutcome, if_pos passes] at truthful
  have hin : req.dest ∈ d.addresses := by
    rw [Request.passes, Bool.and_eq_true, Bool.and_eq_true, Bool.and_eq_true] at passes
    exact (Region.hasAddr_iff.mp passes.1.1.1).1
  by_cases into : req.Into d.toRegion
  · have hcalls := truthful.written name d.toRegion hd into
    have hcnt : req.count = BitVec.ofNat 32 req.len := by
      injection hcalls with hcall
      injection hcall
    have hlen : req.count.toNat = req.len := by rw [hcnt, proper.len_toNat]
    have hzero : 0 < req.count.toNat := by bv_omega
    refine ⟨?_, into⟩
    rw [Request.len] at hlen
    exact (Nat.mul_eq_left hzero.ne').mp hlen.symm
  · -- the destination begins in the device, so the copy had to be rejected
    exfalso
    have across : req.Across d.toRegion := by
      by_contra hacross
      have hapart := (Request.disjoint_iff hpos _).mpr ⟨into, hacross⟩
      exact Set.disjoint_left.mp hapart (req.dest_mem hpos) hin
    have hcalls := (truthful.rejected name d.toRegion hd across).2.2
    exact ne_flash_of_region hd (hcalls _ (List.mem_singleton.mpr rfl))

/-- A copy that the block of a device passes on. -/
theorem truthful_passed {name : Name} {d : Device name} (apart : board.Apart)
    (proper : req.Proper) (hcount : req.count ≠ 0#32) (hpos : 0 < req.len)
    (hd : board.region name = some d.toRegion) (passes : req.passes d.toRegion = true) :
    Truthful board m req (deviceOutcome m req d) ↔ DeviceCopies board m req d := by
  have htells := d.driver.tells m req.addr req.dest req.count hcount
  rw [DeviceCopies, if_pos passes]
  constructor
  · intro truthful
    obtain ⟨hsize, into⟩ := size_of_truthful proper hpos hd passes truthful
    have hlen : req.count.toNat = req.len := by rw [Request.len, hsize, Nat.mul_one]
    rw [hlen] at htells
    refine ⟨hsize, into.1, ?_⟩
    rintro rfl
    have hsame := truthful.tells
    rw [deviceOutcome, if_pos passes, ← htells into.1 proper.apart, Name.success] at hsame
    constructor
    · intro hrc
      exact hcount ((hsame.mp hrc).symm.trans hrc)
    · intro hrc
      exact hcount (hrc.symm.trans (hsame.mpr hrc))
  · rintro ⟨hsize, hsub, henvm⟩
    have hlen : req.count.toNat = req.len := by rw [Request.len, hsize, Nat.mul_one]
    have into := req.into_of_passes proper hlen hpos passes hsub
    rw [hlen] at htells
    have htells := htells hsub proper.apart
    rw [deviceOutcome, if_pos passes]
    have hother (name' : Name) (r : Region) (hr : r ∈ board.region name')
        (hmeets : ¬ Disjoint req.destination r.addresses) : name' = name ∧ r = d.toRegion := by
      by_cases hname : name' = name
      · subst hname
        exact ⟨rfl, Option.some.inj (hr.symm.trans hd)⟩
      · exact absurd ((apart.devices name name' (Ne.symm hname) _ hd r hr).mono_left hsub) hmeets
    refine ⟨?_, ?_, ?_⟩
    · rw [← htells]
      cases name with
      | flash => exact absurd rfl (ne_flash_of_region hd)
      | spifi => rfl
      | envm => exact iff_of_false (henvm rfl).1 (henvm rfl).2
    · intro name' r hr into'
      obtain ⟨rfl, -⟩ := hother name' r hr fun h =>
        Set.disjoint_left.mp h (req.dest_mem hpos) (into'.1 (req.dest_mem hpos))
      rw [← hlen, BitVec.ofNat_toNat, BitVec.setWidth_eq]
    · intro name' r hr across
      obtain ⟨rfl, rfl⟩ := hother name' r hr across.1
      exact absurd across (Request.not_across_of_into into)

end Requests

/-! ## The command -/

/-- The arguments ask for units that have a suffix. -/
theorem request_size {base_address : ULong} {argv : List CString} {req : Request}
    (h : request base_address argv = some req) : UnitSize req.size ∧ req.count ≠ 0#32 := by
  unfold request at h
  split at h
  · next name _ _ _ =>
      have hsize : cmd_get_data_size name.val 4 < 0 ∨
          UnitSize (cmd_get_data_size name.val 4).toNat := by
        unfold cmd_get_data_size UnitSize
        repeat' split
        all_goals decide
      simp only at h
      split at h
      · cases h
      · next hneg =>
          split at h
          · cases h
          · next hcount =>
              cases h
              exact ⟨hsize.resolve_left hneg, hcount⟩
  · cases h

/-- The copies of which the command tells the truth, and which it makes as it should. -/
theorem do_mem_cp_truthful (board : Board) (argv : List CString) (m : Memory) (req : Request)
    (hreq : request board.base_address argv = some req) (apart : board.Apart)
    (proper : req.Proper) :
    Truthful board m req (do_mem_cp board argv m) ↔ RouteCopies board m req := by
  obtain ⟨hsize, hcount⟩ := request_size hreq
  have hpos : 0 < req.len := by
    have hzero : 0 < req.count.toNat := by bv_omega
    apply Nat.mul_pos hzero
    obtain h | h | h := hsize <;> omega
  rw [do_mem_cp, hreq]
  change Truthful board m req (copy board m req) ↔ _
  cases hroute : board.route req with
  | flash => exact truthful_flash apart proper hpos hroute
  | ram => exact truthful_ram proper hsize hpos hroute
  | device name d =>
      obtain ⟨hd, -⟩ := route_device hroute
      rw [copy_eq, RouteCopies, hroute]
      by_cases passes : req.passes d.toRegion = true
      · exact truthful_passed apart proper hcount hpos hd passes
      · exact truthful_refused passes

/-! ## A board -/

/-- A driver that writes what it is told to. -/
def copyDriver (name : Name) (addresses : Set ULong) : Driver name addresses where
  write m src dst cnt := (name.success cnt, copySpan (fun _ => true) dst src cnt.toNat m)
  frame m src dst cnt x hx := by
    change copySpan (fun _ => true) dst src cnt.toNat m x = m x
    exact copySpan_of_notMem hx
  tells _ _ _ cnt _ _ apart :=
    iff_of_true rfl ((sameBytes_copySpan _ _ cnt.isLt.le apart).mpr fun _ _ h => by cases h)

/-- No banks. -/
def noFlash : FlashDriver [] where
  write m _ _ cnt := (if cnt = 0#32 then 0#32 else 8#32, m)
  frame _ _ _ _ _ _ := rfl
  tells _ _ dst _ hcnt hsub _ := by
    have hmem : dst ∈ bankAddresses [] := hsub (by rw [mem_span, sub_self]; bv_omega)
    obtain ⟨_, h, _⟩ := hmem
    cases h
  refuses _ _ _ cnt hsub := by
    refine ⟨?_, rfl⟩
    rintro h
    apply hsub
    intro x hx
    have hcnt : cnt = 0#32 := by
      by_contra hcnt
      rw [if_neg hcnt] at h
      cases h
    subst hcnt
    exact absurd hx (by simp)

/-- 128 KB of RAM, and the internal eNVM of 1 MB at 0. -/
def kinetis : Board where
  base_address := 0#32
  ram a := decide (0x1fff0000#32 ≤ a) && decide (a < 0x20010000#32)
  flash_info := []
  flash_write := noFlash
  spifi := none
  envm := some ⟨⟨0#32, 0x100000#32, by decide⟩, copyDriver .envm _⟩

theorem apart_kinetis : kinetis.Apart where
  banks := by
    rintro name r -
    rw [Set.disjoint_left]
    rintro x ⟨_, h, _⟩
    cases h
  devices := by
    intro name name' hne r hr r' hr'
    cases name with
    | flash => cases hr
    | spifi => cases hr
    | envm => cases name' <;> first | exact absurd rfl hne | cases hr'

/-- The arguments of a copy. -/
def arguments (name addr dest count : String)
    (h : ∀ s ∈ [name, addr, dest, count], 0#8 ∉ ascii s) : List CString :=
  [⟨ascii name, h _ (by simp)⟩, ⟨ascii addr, h _ (by simp)⟩, ⟨ascii dest, h _ (by simp)⟩,
    ⟨ascii count, h _ (by simp)⟩]

/-- An address of RAM is not in the eNVM. -/
theorem kinetis_region {name : Name} {r : Region} (hr : r ∈ kinetis.region name) :
    name = .envm ∧ r.addresses = { x | x.toNat < 0x100000 } := by
  cases name with
  | flash => cases hr
  | spifi => cases hr
  | envm =>
      cases hr
      refine ⟨rfl, Set.ext fun x => ?_⟩
      simp [Region.addresses]

/-- `cp.b 20000000 20001000 10` -/
theorem do_mem_cp_truthful_ram :
    Truthful kinetis (fun a => a.setWidth 8) ⟨0x20000000#32, 0x20001000#32, 0x10#32, 1⟩
      (do_mem_cp kinetis (arguments "cp.b" "20000000" "20001000" "10" (by decide))
        fun a => a.setWidth 8) := by
  apply (do_mem_cp_truthful _ _ _ _ (by decide) apart_kinetis ⟨by decide, by decide, ?_⟩).mpr
  · constructor
    · intro name r hr
      rw [(kinetis_region hr).2, Set.disjoint_left]
      intro x hx
      rw [Request.destination, mem_span_of_le (by decide)] at hx
      simp only [Request.len] at hx
      rw [Set.mem_ofPred_eq]
      bv_omega
    · decide
  · rw [Set.disjoint_left]
    intro x hsource hdestination
    rw [Request.source, mem_span_of_le (by decide)] at hsource
    rw [Request.destination, mem_span_of_le (by decide)] at hdestination
    simp only [Request.len] at hsource hdestination
    bv_omega

/-- `cp 20000000 8000 40` into the eNVM: 0x40 words are to be copied, and the driver is told
to write 0x40 bytes. -/
theorem not_do_mem_cp_truthful :
    let req : Request := ⟨0x20000000#32, 0x8000#32, 0x40#32, 4⟩
    let argv := arguments "cp" "20000000" "8000" "40" (by decide)
    request kinetis.base_address argv = some req ∧ kinetis.Apart ∧ req.Proper ∧
      ¬ Truthful kinetis (fun a => a.setWidth 8) req
        (do_mem_cp kinetis argv fun a => a.setWidth 8) := by
  have inside : span 0x8000#32 0x100 ⊆ { x : ULong | x.toNat < 0x100000 } := by
    intro x hx
    rw [mem_span_of_le (by decide)] at hx
    rw [Set.mem_ofPred_eq]
    bv_omega
  have outside : Disjoint (span 0x20000000#32 0x100) { x : ULong | x.toNat < 0x100000 } := by
    rw [Set.disjoint_left]
    intro x hx
    rw [mem_span_of_le (by decide)] at hx
    rw [Set.mem_ofPred_eq]
    bv_omega
  refine ⟨by decide, apart_kinetis, ⟨by decide, by decide, outside.mono_right inside⟩, ?_⟩
  intro truthful
  obtain ⟨r, hr⟩ : ∃ r, r ∈ kinetis.region .envm := ⟨_, rfl⟩
  have haddresses := (kinetis_region hr).2
  have hcalls := truthful.written .envm r hr
    ⟨by rw [haddresses]; exact inside, by rw [haddresses]; exact outside⟩
  exact absurd hcalls (by decide)

end UBoot.CmdMem
