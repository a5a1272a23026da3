/-
# The redundant environment in EEPROM

`common/env_eeprom.c` with `CONFIG_ENV_OFFSET_REDUND`. A save writes the whole copy
that is not in use, flagged active, and then marks the other one obsolete by a write
of one byte whose result nobody looks at. Which copy is in use is the one number
`gd->env_valid`.

A byte can be rewritten in EEPROM without an erase, so the copy in use loses nothing
but its flag. What has to be shown is that `env_init` does not come back to a valid
copy with older contents, whatever is left of the two flags.
-/

import UBoot.Env.Environment
import UBoot.Env.Envm

namespace UBoot.Env.RedundantEeprom

open UBoot.Lib

variable {size : Nat}

/-- `ACTIVE_FLAG` -/
def ACTIVE_FLAG : Byte := 1#8

/-- `OBSOLETE_FLAG` -/
def OBSOLETE_FLAG : Byte := 0#8

/-- The two fields of the global data that `env_init` fills in; the address is that of
a copy, or 0. -/
structure Gd where
  env_addr : Option Area
  env_valid : Nat
  deriving DecidableEq

/-- `gd->env_valid` and the environment in RAM. -/
structure Ram (size : Nat) where
  env_valid : Nat
  env_ptr : EnvT size

/-- `crc_ok[i]`; the data is read 64 bytes at a time. -/
def crc_ok (env : EnvT size) : Bool :=
  crcInPieces 0 env.data.toList size = env.crc

/-- `env_init` -/
def env_init (eeprom : Store size) : Gd :=
  let crc_ok0 := crc_ok (eeprom .env)
  let crc_ok1 := crc_ok (eeprom .redund)
  let flags0 := (eeprom .env).flags
  let flags1 := (eeprom .redund).flags
  if !crc_ok0 && !crc_ok1 then ⟨none, 0⟩
  else
    let env_valid :=
      if crc_ok0 && !crc_ok1 then 1
      else if !crc_ok0 && crc_ok1 then 2
      else if flags0 = ACTIVE_FLAG ∧ flags1 = OBSOLETE_FLAG then 1
      else if flags0 = OBSOLETE_FLAG ∧ flags1 = ACTIVE_FLAG then 2
      else if flags0 = 0xFF#8 ∧ flags1 = 0#8 then 2
      else if flags1 = 0xFF#8 ∧ flags0 = 0#8 then 1
      else 1
    ⟨if env_valid = 2 then some .redund else if env_valid = 1 then some .env else none, env_valid⟩

/-- `env_relocate_spec` -/
def env_relocate_spec (eeprom : Store size) (env_valid : Nat) : Ram size :=
  ⟨env_valid, if env_valid = 2 then eeprom .redund else eeprom .env⟩

/-- `set_default_env`, the default environment being no larger than `ENV_SIZE`. -/
def set_default_env (default_environment : Vector Byte size) : Ram size :=
  ⟨1, .sealed 0xFF#8 default_environment⟩

/-- One boot: `env_init`, then `env_relocate`. -/
def boot (default_environment : Vector Byte size) (eeprom : Store size) : Ram size :=
  let gd := env_init eeprom
  if gd.env_valid = 0 then set_default_env default_environment
  else env_relocate_spec eeprom gd.env_valid

/-! ## Saving -/

/-- How the two writes of a `saveenv` end. -/
structure SaveOps (size : Nat) where
  copy : OpEnd (Left size) := .ok
  flag : OpEnd Bool := .ok

/-- `eeprom_bus_write` of the flag byte. -/
def writeFlag (op : OpEnd Bool) (a : Area) (flag : Byte) : StoreM size Nat :=
  fun eeprom =>
    let leave (written : Bool) :=
      if written then Function.update eeprom a { eeprom a with flags := flag } else eeprom
    match op with
    | .ok => .ok 0 (leave true)
    | .err code written => .ok code.1 (leave written)
    | .cut written => .error .powerLoss (leave written)

/-- The copy a save leaves alone, but for its flag. -/
def Ram.off_red (ram : Ram size) : Area :=
  if ram.env_valid = 1 then .env else .redund

/-- `saveenv`: the return code, and what it leaves in RAM. -/
def saveenv (ops : SaveOps size) (ram : Ram size) : StoreM size (Nat × Ram size) := do
  let off : Area := if ram.env_valid = 1 then .redund else .env
  let ram := { ram with env_ptr := { ram.env_ptr with flags := ACTIVE_FLAG } }
  let rc ← areaOp ops.copy off fun _ => ram.env_ptr
  if rc ≠ 0 then return (rc, ram)
  -- the result of this write is dropped
  let _ ← writeFlag ops.flag ram.off_red OBSOLETE_FLAG
  return (0, { ram with env_valid := if ram.env_valid = 1 then 2 else 1 })

@[simp]
theorem crc_ok_iff (env : EnvT size) : crc_ok env = true ↔ env.CrcOk := by
  simp [crc_ok, crcInPieces_eq, EnvT.CrcOk]

theorem crc_ok_eq_false (env : EnvT size) : crc_ok env = false ↔ ¬ env.CrcOk := by
  rw [← crc_ok_iff, Bool.not_eq_true]

theorem Ram.off_eq (ram : Ram size) :
    (if ram.env_valid = 1 then Area.redund else .env) = ram.off_red.other := by
  unfold Ram.off_red
  split <;> rfl

/-! ## What a save can do to the EEPROM -/

/-- What a save of `data` that did not return 0 leaves, `own` being the copy in use:
the other copy is untouched, invalid or complete. -/
inductive Unfinished (own : Area) (data : Vector Byte size) (before after : Store size) : Prop
  | untouched (same : after = before)
  | torn (same : after own = before own) (bad : ¬ (after own.other).CrcOk)
  | written (copy : after own.other = .sealed ACTIVE_FLAG data)
      (same : after own = before own ∨
        after own = { before own with flags := OBSOLETE_FLAG })

/-- What a save that returned 0 leaves. -/
structure Finished (ops : SaveOps size) (own : Area) (data : Vector Byte size)
    (before after : Store size) : Prop where
  ok : ops.copy = .ok
  copy : after own.other = .sealed ACTIVE_FLAG data
  own : after own = { before own with flags := OBSOLETE_FLAG } ∨
    (after own = before own ∧ ∃ code, ops.flag = .err code false)

/-- Everything one save can do. -/
theorem saveenv_spec (ops : SaveOps size) (ram : Ram size) (eeprom : Store size)
    (hcrc : ram.env_ptr.CrcOk) :
    let unfinished := Unfinished ram.off_red ram.env_ptr.data eeprom
    Triple (fun s => s = eeprom) (saveenv ops ram)
      (fun r s => (r.1 ≠ 0 ∧ r.2.env_valid = ram.env_valid ∧ unfinished s) ∨
        (r.1 = 0 ∧ r.2.env_valid = (if ram.env_valid = 1 then 2 else 1) ∧
          Finished ops ram.off_red ram.env_ptr.data eeprom s))
      unfinished := by
  intro unfinished
  obtain ⟨v, env⟩ := ram
  set own := (Ram.mk v env).off_red with hown
  have hne : own ≠ own.other := own.ne_other
  have hseal : ({ env with flags := ACTIVE_FLAG } : EnvT size) = .sealed ACTIVE_FLAG env.data := by
    simp only [EnvT.sealed, EnvT.mk.injEq, and_true]
    exact hcrc.symm
  -- the EEPROM once the copy is written, and once the flag is
  let e₁ := Function.update eeprom own.other { env with flags := ACTIVE_FLAG }
  let e₂ := Function.update e₁ own { e₁ own with flags := OBSOLETE_FLAG }
  have own₁ : e₁ own = eeprom own := by simp [e₁, hne]
  have copy₁ : e₁ own.other = .sealed ACTIVE_FLAG env.data := by simp [e₁, hseal]
  have own₂ : e₂ own = { eeprom own with flags := OBSOLETE_FLAG } := by simp [e₂, own₁]
  have copy₂ : e₂ own.other = .sealed ACTIVE_FLAG env.data := by simp [e₂, hne.symm, copy₁]
  have done₁ : unfinished e₁ := .written copy₁ (.inl own₁)
  have done₂ : unfinished e₂ := .written copy₂ (.inr own₂)
  have hoff := Ram.off_eq (Ram.mk v env)
  unfold saveenv
  dsimp only at hoff ⊢
  rw [hoff]
  refine areaOp_step eeprom _ _ _ (fun l _ => ?_)
    (fun rc hrc s hs => .inl ⟨hrc, rfl, hs⟩) fun hok => ?_
  · cases l with
    | untouched => exact .untouched (by simp [Left.apply])
    | torn t => exact .torn (by simp [← hown, hne]) (by simpa [Left.apply, ← hown] using t.2)
    | complete => exact done₁
  · rintro s rfl
    have hred : (Ram.mk v { env with flags := ACTIVE_FLAG } : Ram size).off_red = own := rfl
    simp only [hred, ← hown, bind, EStateM.bind, writeFlag]
    cases hflag : ops.flag with
    | ok => exact .inr ⟨rfl, rfl, hok, copy₂, .inl own₂⟩
    | err code written =>
        cases written with
        | true => exact .inr ⟨rfl, rfl, hok, copy₂, .inl own₂⟩
        | false => exact .inr ⟨rfl, rfl, hok, copy₁, .inr ⟨own₁, code, hflag⟩⟩
    | cut written =>
        cases written with
        | true => exact done₂
        | false => exact done₁

/-! ## What the boot code can rely on -/

/-- A valid copy whose contents are among `recent`. -/
structure Recent (recent : Set (Vector Byte size)) (env : EnvT size) : Prop where
  crcOk : env.CrcOk
  mem : env.data ∈ recent

/-- The copy `own` is recent, and `env_init` does not select a valid copy in the other
area unless that one is recent too. -/
structure Keeps (recent : Set (Vector Byte size)) (own : Area) (eeprom : Store size) : Prop where
  inUse : Recent recent (eeprom own)
  spare : (eeprom own.other).CrcOk → (eeprom own.other).data ∈ recent ∨
    (env_init eeprom).env_addr = some own

theorem Recent.mono {recent larger : Set (Vector Byte size)} {env : EnvT size}
    (h : Recent recent env) (le : recent ⊆ larger) : Recent larger env :=
  ⟨h.crcOk, le h.mem⟩

theorem Keeps.mono {recent larger : Set (Vector Byte size)} {own : Area} {eeprom : Store size}
    (h : Keeps recent own eeprom) (le : recent ⊆ larger) : Keeps larger own eeprom :=
  ⟨h.inUse.mono le, fun ok => (h.spare ok).imp_left fun mem => le mem⟩

/-- With a valid copy in the EEPROM one is selected. -/
theorem env_init_selects {eeprom : Store size} {a : Area} (h : (eeprom a).CrcOk) :
    ∃ own, (env_init eeprom).env_addr = some own ∧ (eeprom own).CrcOk ∧
      (env_init eeprom).env_valid = (if own = .env then 1 else 2) := by
  have valid : (eeprom .env).CrcOk ∨ (eeprom .redund).CrcOk := by
    cases a with
    | env => exact .inl h
    | redund => exact .inr h
  by_cases h0 : (eeprom .env).CrcOk <;> by_cases h1 : (eeprom .redund).CrcOk
  · -- both are valid, so that either will do
    have both : ∀ own, (eeprom own).CrcOk := by
      intro own
      cases own with
      | env => exact h0
      | redund => exact h1
    have hv0 := (crc_ok_iff _).mpr h0
    have hv1 := (crc_ok_iff _).mpr h1
    simp only [env_init, hv0, hv1]
    split_ifs <;> simp_all
  · have hv0 := (crc_ok_iff _).mpr h0
    have hv1 := (crc_ok_eq_false _).mpr h1
    exact ⟨.env, by simp [env_init, hv0, hv1], h0, by simp [env_init, hv0, hv1]⟩
  · have hv0 := (crc_ok_eq_false _).mpr h0
    have hv1 := (crc_ok_iff _).mpr h1
    exact ⟨.redund, by simp [env_init, hv0, hv1], h1, by simp [env_init, hv0, hv1]⟩
  · exact absurd valid (by simp [h0, h1])

/-- The only valid copy is selected. -/
theorem env_init_of_single {eeprom : Store size} {own : Area} (h : (eeprom own).CrcOk)
    (bad : ¬ (eeprom own.other).CrcOk) : (env_init eeprom).env_addr = some own := by
  obtain ⟨a, haddr, hok, -⟩ := env_init_selects h
  rcases own.eq_or_eq_other a with rfl | rfl
  · exact haddr
  · exact absurd hok bad

/-- A copy flagged active is selected before one flagged obsolete. -/
theorem env_init_of_flags {eeprom : Store size} {own : Area} (h : (eeprom own).CrcOk)
    (active : (eeprom own).flags = ACTIVE_FLAG)
    (obsolete : (eeprom own.other).flags = OBSOLETE_FLAG) :
    (env_init eeprom).env_addr = some own := by
  by_cases hother : (eeprom own.other).CrcOk
  · cases own <;> simp only [Area.other] at * <;>
      simp [env_init, (crc_ok_iff _).mpr h, (crc_ok_iff _).mpr hother, active, obsolete,
        ACTIVE_FLAG, OBSOLETE_FLAG]
  · exact env_init_of_single h hother

/-- The first copy is selected when it is flagged active. -/
theorem env_init_of_first {eeprom : Store size} (h : (eeprom .env).CrcOk)
    (active : (eeprom .env).flags = ACTIVE_FLAG) : (env_init eeprom).env_addr = some .env := by
  by_cases hother : (eeprom .redund).CrcOk
  · simp [env_init, (crc_ok_iff _).mpr h, (crc_ok_iff _).mpr hother, active, ACTIVE_FLAG,
      OBSOLETE_FLAG]
  · exact env_init_of_single h hother

/-- Whichever copy is in use, `env_init` selects a recent one, which can take its
place. -/
theorem env_init_of_keeps {recent : Set (Vector Byte size)} {own : Area} {eeprom : Store size}
    (h : Keeps recent own eeprom) :
    ∃ a, (env_init eeprom).env_addr = some a ∧
      (env_init eeprom).env_valid = (if a = .env then 1 else 2) ∧ Keeps recent a eeprom := by
  obtain ⟨a, haddr, hok, hvalid⟩ := env_init_selects h.inUse.crcOk
  refine ⟨a, haddr, hvalid, ?_⟩
  rcases own.eq_or_eq_other a with rfl | rfl
  · exact h
  · have mem : (eeprom own.other).data ∈ recent := by
      rcases h.spare hok with mem | hown
      · exact mem
      · rw [haddr] at hown
        exact absurd (Option.some.inj hown) (Area.other_ne own)
    exact ⟨⟨hok, mem⟩, fun _ => .inl (by simpa using h.inUse.mem)⟩

/-- A boot loads the copy that is selected. -/
theorem boot_of_keeps {recent : Set (Vector Byte size)} {own : Area} {eeprom : Store size}
    (default_environment : Vector Byte size) (h : Keeps recent own eeprom) :
    ∃ a, Keeps recent a eeprom ∧ (boot default_environment eeprom).off_red = a ∧
      (boot default_environment eeprom).env_ptr = eeprom a := by
  obtain ⟨a, -, hvalid, ha⟩ := env_init_of_keeps h
  refine ⟨a, ha, ?_⟩
  cases a <;> simp [boot, hvalid, env_relocate_spec, Ram.off_red]

end UBoot.Env.RedundantEeprom
