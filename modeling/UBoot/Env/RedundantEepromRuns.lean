/-
# Runs of the redundant EEPROM environment

Boots and saves in any order, both writes of every save failing or losing power as
they like. Beside the machine the state records the contents last known to be good
and those of the later saves that did not return 0.

The invariant `Keeps` survives all of this but one step. A save that writes the second
copy returns 0 even if it could not mark the first one obsolete. Two valid copies are
then flagged active, and `env_init` prefers the first, which is the older one.
-/

import UBoot.Env.RedundantEeprom

namespace UBoot.Env.RedundantEeprom

open UBoot.Lib

variable {size : Nat}

/-- The machine and the record of its saves. `ram` is absent while the power is
off. -/
structure World (size : Nat) where
  eeprom : Store size
  ram : Option (Ram size)
  saved : Vector Byte size
  later : List (Vector Byte size)

/-- A machine that has not booted yet. What is known to be good is what the first boot
will load. -/
def World.initial (default_environment : Vector Byte size) (eeprom : Store size) : World size :=
  ⟨eeprom, none, (boot default_environment eeprom).env_ptr.data, []⟩

/-- A boot, or a save of an environment whose checksum `env_crc_update` has brought up
to date. -/
inductive Event (size : Nat)
  | boot
  | saveenv (data : Vector Byte size) (ops : SaveOps size)

/-- The RAM with the environment to be saved. -/
def Ram.edit (ram : Ram size) (data : Vector Byte size) : Ram size :=
  { ram with env_ptr := .sealed ram.env_ptr.flags data }

/-- One event. A save needs a running machine. -/
def World.step (default_environment : Vector Byte size) (w : World size) :
    Event size → Option (World size)
  | .boot => some { w with ram := some (boot default_environment w.eeprom) }
  | .saveenv data ops => do
      let ram ← w.ram
      match saveenv ops (ram.edit data) w.eeprom with
      | .ok (rc, ram') eeprom =>
          if rc = 0 then some ⟨eeprom, some ram', data, []⟩
          else some ⟨eeprom, some ram', w.saved, data :: w.later⟩
      | .error _ eeprom => some ⟨eeprom, none, w.saved, data :: w.later⟩

/-- What is in the EEPROM after a save, whether it returned or not. -/
def eepromAfter (ops : SaveOps size) (ram : Ram size) (eeprom : Store size) : Store size :=
  match saveenv ops ram eeprom with
  | .ok _ after => after
  | .error _ after => after

/-- What a boot loads, and what a save leaves alone. -/
structure World.LoadsRecent (default_environment : Vector Byte size) (w : World size) : Prop where
  selected : ∃ a, (env_init w.eeprom).env_addr = some a ∧ (env_init w.eeprom).env_valid ≠ 0 ∧
    (w.eeprom a).CrcOk ∧ (w.eeprom a).data ∈ w.saved :: w.later
  loaded : (boot default_environment w.eeprom).env_ptr.CrcOk ∧
    (boot default_environment w.eeprom).env_ptr.data ∈ w.saved :: w.later
  exact : w.later = [] → (boot default_environment w.eeprom).env_ptr.data = w.saved
  spared : ∀ ram, w.ram = some ram → ∃ a, (w.eeprom a).CrcOk ∧
    (w.eeprom a).data ∈ w.saved :: w.later ∧
    ∀ data ops, (eepromAfter ops (ram.edit data) w.eeprom a).crc = (w.eeprom a).crc ∧
      (eepromAfter ops (ram.edit data) w.eeprom a).data = (w.eeprom a).data

/-- The steps that keep away from the defect: a save that writes the second copy
manages to mark the first one obsolete, unless it is so marked already or the save does
not return 0. -/
def World.SafeStep (w : World size) : Event size → Prop
  | .boot => True
  | .saveenv _ ops => ∀ ram, w.ram = some ram → ram.env_valid = 1 → ops.copy = .ok →
      (∃ code, ops.flag = .err code false) → (w.eeprom .env).flags = OBSOLETE_FLAG

/-! ## Saving -/

section Saving

variable {recent : Set (Vector Byte size)} {own : Area} {data : Vector Byte size}
  {eeprom after : Store size}

/-- A save that did not return 0: the copy in use is still there, and what is in the
other area, if it is valid, is what was there or new. -/
theorem Unfinished.keeps (effect : Unfinished own data eeprom after) (h : Keeps recent own eeprom) :
    Keeps (insert data recent) own after := by
  have hmono := h.mono (Set.subset_insert data recent)
  cases effect with
  | untouched same => exact same ▸ hmono
  | torn same bad => exact ⟨same ▸ hmono.inUse, fun ok => absurd ok bad⟩
  | written copy same =>
      have hcopy : (after own.other).data ∈ insert data recent := by
        rw [copy]
        exact Set.mem_insert data recent
      refine ⟨?_, fun _ => .inl hcopy⟩
      rcases same with same | same
      · exact same ▸ hmono.inUse
      · rw [same]
        exact ⟨hmono.inUse.crcOk, hmono.inUse.mem⟩

/-- After a save that returned 0 only its own contents can be loaded. -/
theorem Finished.keeps {ops : SaveOps size} (effect : Finished ops own data eeprom after)
    (safe : own = .env → (∃ code, ops.flag = .err code false) →
      (eeprom own).flags = OBSOLETE_FLAG) : Keeps {data} own.other after := by
  have hok : (after own.other).CrcOk := effect.copy ▸ EnvT.sealed_crcOk _ _
  have hactive : (after own.other).flags = ACTIVE_FLAG := effect.copy ▸ EnvT.sealed_flags _ _
  have hdata : (after own.other).data = data := effect.copy ▸ EnvT.sealed_data _ _
  refine ⟨⟨hok, by simp [hdata]⟩, fun _ => .inr ?_⟩
  -- it remains to see which copy is selected, by what became of the flag
  have obsolete (h : (after own).flags = OBSOLETE_FLAG) :
      (env_init after).env_addr = some own.other :=
    env_init_of_flags hok hactive (by rw [Area.other_other]; exact h)
  rcases effect.own with same | ⟨same, hflag⟩
  · exact obsolete (by rw [same])
  · cases own with
    | env => exact obsolete (by rw [same]; exact safe rfl hflag)
    | redund => exact env_init_of_first hok hactive

end Saving

/-- The copy in use keeps its checksum and its data. -/
theorem eepromAfter_own (ops : SaveOps size) (ram : Ram size) (eeprom : Store size)
    (hcrc : ram.env_ptr.CrcOk) :
    (eepromAfter ops ram eeprom ram.off_red).crc = (eeprom ram.off_red).crc ∧
      (eepromAfter ops ram eeprom ram.off_red).data = (eeprom ram.off_red).data := by
  have spec := saveenv_spec ops ram eeprom hcrc eeprom rfl
  have unfinished {s : Store size}
      (effect : Unfinished ram.off_red ram.env_ptr.data eeprom s) :
      (s ram.off_red).crc = (eeprom ram.off_red).crc ∧
        (s ram.off_red).data = (eeprom ram.off_red).data := by
    cases effect with
    | untouched same => exact ⟨by rw [same], by rw [same]⟩
    | torn same => exact ⟨by rw [same], by rw [same]⟩
    | written _ same => rcases same with same | same <;> exact ⟨by rw [same], by rw [same]⟩
  unfold eepromAfter
  cases hrun : saveenv ops ram eeprom with
  | ok r s =>
      rw [hrun] at spec
      rcases spec with ⟨-, -, effect⟩ | ⟨-, -, effect⟩
      · exact unfinished effect
      · show (s ram.off_red).crc = _ ∧ (s ram.off_red).data = _
        rcases effect.own with same | ⟨same, -⟩ <;> exact ⟨by rw [same], by rw [same]⟩
  | error _ s =>
      rw [hrun] at spec
      exact unfinished spec

/-! ## The invariant of a run -/

/-- The contents a boot may load. -/
def World.recent (w : World size) : Set (Vector Byte size) :=
  { x | x ∈ w.saved :: w.later }

/-- Some copy is recent, on a running machine the one its next save leaves alone. -/
def World.Inv (w : World size) : Prop :=
  ∃ own, Keeps w.recent own w.eeprom ∧ ∀ ram, w.ram = some ram → ram.off_red = own

theorem World.inv_initial (default_environment : Vector Byte size) {eeprom : Store size} {a : Area}
    (valid : (eeprom a).CrcOk) : (World.initial default_environment eeprom).Inv := by
  obtain ⟨own, haddr, hok, hvalid⟩ := env_init_selects valid
  have hboot : (boot default_environment eeprom).env_ptr = eeprom own := by
    cases own <;> simp [boot, hvalid, env_relocate_spec]
  refine ⟨own, ⟨⟨hok, ?_⟩, fun _ => .inr haddr⟩, fun ram h => by simp [initial] at h⟩
  simp [recent, initial, hboot]

theorem World.inv_boot {default_environment : Vector Byte size} {w w' : World size}
    (h : w.step default_environment .boot = some w') (inv : w.Inv) : w'.Inv := by
  obtain rfl := Option.some.inj h
  obtain ⟨own, hown, -⟩ := inv
  obtain ⟨a, ha, hred, -⟩ := boot_of_keeps default_environment hown
  exact ⟨a, ha, fun ram hram => Option.some.inj hram ▸ hred⟩

theorem World.inv_saveenv {default_environment : Vector Byte size} {data : Vector Byte size}
    {ops : SaveOps size} {w w' : World size}
    (h : w.step default_environment (.saveenv data ops) = some w')
    (safe : w.SafeStep (.saveenv data ops)) (inv : w.Inv) : w'.Inv := by
  simp only [step, Option.bind_eq_bind, Option.bind_eq_some_iff] at h
  obtain ⟨ram, hram, h⟩ := h
  obtain ⟨own, hown, huse⟩ := inv
  obtain rfl := huse ram hram
  have spec := saveenv_spec ops (ram.edit data) w.eeprom (EnvT.sealed_crcOk _ _) w.eeprom rfl
  have hred : (ram.edit data).off_red = ram.off_red := rfl
  have hrecent : insert data w.recent ⊆ { x | x ∈ w.saved :: data :: w.later } := by
    rintro x (rfl | hx)
    · simp
    · simp only [recent, List.mem_cons, Set.mem_ofPred_eq] at hx ⊢
      tauto
  cases hrun : saveenv ops (ram.edit data) w.eeprom with
  | ok r eeprom =>
      obtain ⟨rc, ram'⟩ := r
      rw [hrun] at h spec
      rcases spec with ⟨hrc, hvalid, effect⟩ | ⟨hrc, hvalid, effect⟩
      · simp only [show rc ≠ 0 from hrc, if_false] at h
        obtain rfl := Option.some.inj h
        refine ⟨ram.off_red, (effect.keeps hown).mono hrecent, fun r hr => ?_⟩
        obtain rfl := Option.some.inj hr
        change ram'.env_valid = ram.env_valid at hvalid
        simp [Ram.off_red, hvalid]
      · simp only [show rc = 0 from hrc, if_true] at h
        obtain rfl := Option.some.inj h
        refine ⟨ram.off_red.other, ?_, fun r hr => ?_⟩
        · have keeps : Keeps {data} ram.off_red.other eeprom := by
            refine Finished.keeps effect fun henv hflag => ?_
            have hone : ram.env_valid = 1 := by
              by_contra hne
              simp [Ram.off_red, hne] at henv
            have := safe ram hram hone effect.ok hflag
            rwa [henv]
          exact keeps.mono fun x hx => by simpa [recent] using hx
        · obtain rfl := Option.some.inj hr
          change ram'.env_valid = if ram.env_valid = 1 then 2 else 1 at hvalid
          by_cases hone : ram.env_valid = 1 <;> simp [Ram.off_red, hvalid, hone, Area.other]
  | error _ eeprom =>
      rw [hrun] at h spec
      obtain rfl := Option.some.inj h
      exact ⟨ram.off_red, (Unfinished.keeps spec hown).mono hrecent, fun r hr => by simp at hr⟩

/-- The invariant is what the next boot and the next save need. -/
theorem World.Inv.loadsRecent {w : World size} (default_environment : Vector Byte size)
    (inv : w.Inv) : w.LoadsRecent default_environment := by
  obtain ⟨own, hown, huse⟩ := inv
  obtain ⟨a, ha, -, hload⟩ := boot_of_keeps default_environment hown
  refine ⟨?_, ?_, fun hlater => ?_, fun ram hram => ?_⟩
  · obtain ⟨b, haddr, hvalid, hb⟩ := env_init_of_keeps hown
    refine ⟨b, haddr, ?_, hb.inUse.crcOk, hb.inUse.mem⟩
    rw [hvalid]
    split <;> decide
  · rw [hload]
    exact ⟨ha.inUse.crcOk, ha.inUse.mem⟩
  · rw [hload]
    simpa [recent, hlater] using ha.inUse.mem
  · obtain rfl := huse ram hram
    exact ⟨ram.off_red, hown.inUse.crcOk, hown.inUse.mem,
      fun data ops => eepromAfter_own ops (ram.edit data) w.eeprom (EnvT.sealed_crcOk _ _)⟩

/-- In every run that keeps away from the defect, every boot loads the environment saved
last or that of a later save, completely, and no save touches the copy it could be loaded
from. -/
theorem eeprom_loads_recent (default_environment : Vector Byte size) (eeprom : Store size)
    (valid : ∃ a, (eeprom a).CrcOk) (events : List (Event size)) (w : World size)
    (run : Run (fun w e w' => w.SafeStep e ∧ w.step default_environment e = some w')
      (World.initial default_environment eeprom) events w) :
    w.LoadsRecent default_environment := by
  obtain ⟨a, ha⟩ := valid
  refine World.Inv.loadsRecent default_environment
    (run.invariant (I := World.Inv) ?_ (World.inv_initial default_environment ha))
  rintro w (- | ⟨data, ops⟩) w' inv ⟨safe, taken⟩
  · exact World.inv_boot taken inv
  · exact World.inv_saveenv taken safe inv

/-! ## Concrete runs -/

/-- The first copy holds an environment and the second one is blank. -/
def exampleEeprom : Store 2
  | .env => .sealed ACTIVE_FLAG (.ofFn fun i => if i.val = 0 then 1 else 0)
  | .redund => erased

/-- A copy whose write has been stopped. -/
def exampleTorn : Torn 2 :=
  ⟨erased, by decide +kernel⟩

/-- Power is lost in the middle of the second save: the first one is still there. -/
theorem eeprom_loads_interrupted_save :
    ∃ w : World 2, w.saved = #v[2, 0] ∧ w.later = [#v[3, 0]] ∧ w.LoadsRecent #v[0, 0] := by
  -- only saves that are complete or cut off in the write of the copy
  let next (w : World 2) (e : Event 2) := match e with
    | .saveenv _ ⟨_, .err _ _⟩ => none
    | e => w.step #v[0, 0] e
  let events : List (Event 2) :=
    [.boot, .saveenv #v[2, 0] {}, .saveenv #v[3, 0] { copy := .cut (.torn exampleTorn) }]
  have result : (events.foldlM next (.initial #v[0, 0] exampleEeprom)).map
      (fun w => (w.saved, w.later)) = some (#v[2, 0], [#v[3, 0]]) := by decide
  obtain ⟨w, hw, hrecord⟩ := Option.map_eq_some_iff.mp result
  refine ⟨w, congrArg Prod.fst hrecord, congrArg Prod.snd hrecord,
    eeprom_loads_recent #v[0, 0] exampleEeprom ⟨.env, EnvT.sealed_crcOk _ _⟩ events w
      ((Run.of_foldlM hw).mono ?_)⟩
  rintro w (- | ⟨data, copy, - | ⟨code, written⟩ | written⟩) w' h
  · exact ⟨trivial, h⟩
  · exact ⟨fun _ _ _ _ ⟨_, hflag⟩ => by simp at hflag, h⟩
  · simp [next] at h
  · exact ⟨fun _ _ _ _ ⟨_, hflag⟩ => by simp at hflag, h⟩

set_option maxRecDepth 1000 in
/-- The defect: the save returns 0 although the first copy is still flagged active, and
the next boot loads that one. -/
theorem not_eeprom_loads_recent :
    ¬ ∀ (size : Nat) (default_environment : Vector Byte size) (eeprom : Store size),
      (∃ a, (eeprom a).CrcOk) → ∀ (events : List (Event size)) (w : World size),
        Run (fun w e w' => w.step default_environment e = some w')
          (World.initial default_environment eeprom) events w →
        w.LoadsRecent default_environment := by
  intro h
  let events : List (Event 2) :=
    [.boot, .saveenv #v[2, 0] { flag := .err ⟨1, by decide⟩ false }]
  have result : (events.foldlM (World.step #v[0, 0]) (.initial #v[0, 0] exampleEeprom)).map
      (fun w => (w.saved, w.later, (boot #v[0, 0] w.eeprom).env_ptr.data)) =
      some (#v[2, 0], [], #v[1, 0]) := by decide
  obtain ⟨w, hw, hrecord⟩ := Option.map_eq_some_iff.mp result
  simp only [Prod.mk.injEq] at hrecord
  obtain ⟨hsaved, hlater, hload⟩ := hrecord
  have recent := h 2 #v[0, 0] exampleEeprom ⟨.env, EnvT.sealed_crcOk _ _⟩ events w (Run.of_foldlM hw)
  have exact := recent.exact hlater
  rw [hload, hsaved] at exact
  exact absurd exact (by decide)

end UBoot.Env.RedundantEeprom
