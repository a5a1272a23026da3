/-
# The redundant environment in NOR flash

`common/env_flash.c` with `CONFIG_ENV_ADDR_REDUND`. A save erases the copy that
is not in use, writes data and checksum to it, marks the old copy obsolete and
the new one active, and only then swaps the two RAM pointers. Every one of these
operations may return an error or lose power; the boot code has to choose a copy
from what is left.

The invariant behind the choice is `Keeps`: the copy in use is valid and recent,
and a valid copy with older contents carries the obsolete flag while the copy in
use does not. It survives every cut, except after a save that reports success
although its pointers were not swapped, which happens when restoring the rest of
the sector fails.
-/

import UBoot.Env.Environment

namespace UBoot.Env.RedundantFlash

open UBoot.Lib

variable {size : Nat}

/-- `ACTIVE_FLAG` -/
def ACTIVE_FLAG : Byte := 1#8

/-- `OBSOLETE_FLAG` -/
def OBSOLETE_FLAG : Byte := 0#8

/-- `gd->env_addr`: not assigned since reset, `default_environment`, the data of
a flash copy, or the buffer `env_ptr` points to. -/
inductive EnvAddr
  | unset
  | default_environment
  | flash (a : Area)
  | ram
  deriving DecidableEq

/-- The two fields of the global data that `env_init` fills in. -/
structure Gd where
  env_addr : EnvAddr
  env_valid : Nat
  deriving DecidableEq

/-- The static variables of the module, and the environment in RAM. -/
structure Ram (size : Nat) where
  flash_addr : Area
  flash_addr_new : Area
  gd : Gd
  env_ptr : EnvT size

/-- What a build fixes: the default environment, and whether the sector of a
copy is larger than the copy (`CONFIG_ENV_SECT_SIZE > CONFIG_ENV_SIZE`), so that
a save has to carry the rest of the sector over. -/
structure Config (size : Nat) where
  default_environment : Vector Byte size
  restOfSector : Bool

/-- `env_init`. The pointers have their link-time values, and `gd` is clear, so
flag pairs that no branch names leave no environment selected. -/
def env_init (flash : Store size) : Gd :=
  let flag1 := (flash .env).flags
  let flag2 := (flash .redund).flags
  let crc1_ok := (flash .env).CrcOk
  let crc2_ok := (flash .redund).CrcOk
  if crc1_ok ∧ ¬ crc2_ok then ⟨.flash .env, 1⟩
  else if ¬ crc1_ok ∧ crc2_ok then ⟨.flash .redund, 1⟩
  else if ¬ crc1_ok ∧ ¬ crc2_ok then ⟨.default_environment, 0⟩
  else if flag1 = ACTIVE_FLAG ∧ flag2 = OBSOLETE_FLAG then ⟨.flash .env, 1⟩
  else if flag1 = OBSOLETE_FLAG ∧ flag2 = ACTIVE_FLAG then ⟨.flash .redund, 1⟩
  else if flag1 = flag2 then ⟨.flash .env, 2⟩
  else if flag1 = 0xFF#8 then ⟨.flash .env, 2⟩
  else if flag2 = 0xFF#8 then ⟨.flash .redund, 2⟩
  else ⟨.unset, 0⟩

/-! ## Flash operations -/

/-- `flash_sect_erase` -/
def flash_sect_erase (op : OpEnd (Left size)) (a : Area) : StoreM size Nat :=
  areaOp op a fun _ => erased

/-- `flash_write` of the data area of an erased copy. -/
def flash_write_data (op : OpEnd (Left size)) (a : Area) (data : Vector Byte size) :
    StoreM size Nat :=
  areaOp op a fun env => { env with data := data }

/-- `flash_write` of the checksum of an erased copy. -/
def flash_write_crc (op : OpEnd (Left size)) (a : Area) (crc : BitVec 32) : StoreM size Nat :=
  areaOp op a fun env => { env with crc := crc }

/-- `flash_write` of the flag byte. Writing flash only clears bits. -/
def flash_write_flags (op : OpEnd Bool) (a : Area) (flag : Byte) : StoreM size Nat :=
  fun flash =>
    let leave (written : Bool) :=
      if written then
        Function.update flash a { flash a with flags := (flash a).flags &&& flag }
      else flash
    match op with
    | .ok => .ok 0 (leave true)
    | .err code written => .ok code.1 (leave written)
    | .cut written => .error .powerLoss (leave written)

/-- An operation that leaves both copies alone: `flash_sect_protect`, `malloc`,
and everything done to the rest of the sector. -/
def elsewhere (op : OpEnd Unit) : StoreM size Nat := fun flash =>
  match op with
  | .ok => .ok 0 flash
  | .err code _ => .ok code.1 flash
  | .cut _ => .error .powerLoss flash

/-- The steps under `#if CONFIG_ENV_SECT_SIZE > CONFIG_ENV_SIZE`. -/
def restOfSector (cfg : Config size) (op : OpEnd Unit) : StoreM size Nat :=
  if cfg.restOfSector then elsewhere op else pure 0

/-! ## Saving and booting -/

/-- How each operation of one `saveenv` ends. -/
structure SaveOps (size : Nat) where
  protectOld : OpEnd Unit := .ok
  protectNew : OpEnd Unit := .ok
  malloc : OpEnd Unit := .ok
  erase : OpEnd (Left size) := .ok
  data : OpEnd (Left size) := .ok
  crc : OpEnd (Left size) := .ok
  oldFlag : OpEnd Bool := .ok
  newFlag : OpEnd Bool := .ok
  restore : OpEnd Unit := .ok

/-- `saveenv`: the return code, and the RAM pointers afterwards. Each `return`
with the pointers unchanged is a `goto Done`. -/
def saveenv (cfg : Config size) (ops : SaveOps size) (ram : Ram size) :
    StoreM size (Nat × Ram size) := do
  if (← elsewhere ops.protectOld) ≠ 0 then return (1, ram)
  if (← elsewhere ops.protectNew) ≠ 0 then return (1, ram)
  if (← restOfSector cfg ops.malloc) ≠ 0 then return (1, ram)
  if (← flash_sect_erase ops.erase ram.flash_addr_new) ≠ 0 then return (1, ram)
  let rc ← flash_write_data ops.data ram.flash_addr_new ram.env_ptr.data
  if rc ≠ 0 then return (rc, ram)
  let rc ← flash_write_crc ops.crc ram.flash_addr_new ram.env_ptr.crc
  if rc ≠ 0 then return (rc, ram)
  let rc ← flash_write_flags ops.oldFlag ram.flash_addr OBSOLETE_FLAG
  if rc ≠ 0 then return (rc, ram)
  let rc ← flash_write_flags ops.newFlag ram.flash_addr_new ACTIVE_FLAG
  if rc ≠ 0 then return (rc, ram)
  -- a failure here goes to `Done` with the `rc` of the last flag write, which is 0
  if (← restOfSector cfg ops.restore) ≠ 0 then return (rc, ram)
  return (0, { ram with flash_addr := ram.flash_addr_new, flash_addr_new := ram.flash_addr })

/-- How the two repair writes of one boot end. -/
structure BootOps where
  obsolete : OpEnd Bool := .ok
  active : OpEnd Bool := .ok

/-- A write of a flag byte under an `if`, whose result nobody looks at. -/
def repairFlag (needed : Bool) (op : OpEnd Bool) (a : Area) (flag : Byte) : StoreM size Unit :=
  if needed then discard (flash_write_flags op a flag) else pure ()

/-- `env_relocate_spec`. The protection changes around the repair writes have no
effect on the copies, and their results are ignored. -/
def env_relocate_spec (ops : BootOps) (ram : Ram size) : StoreM size (Ram size) := do
  let ram := if ram.gd.env_addr ≠ .flash ram.flash_addr then
    { ram with flash_addr := ram.flash_addr_new, flash_addr_new := ram.flash_addr } else ram
  let other := (← get) ram.flash_addr_new
  let repairOther := decide (other.flags ≠ OBSOLETE_FLAG ∧ other.CrcOk)
  repairFlag repairOther ops.obsolete ram.flash_addr_new OBSOLETE_FLAG
  let own := (← get) ram.flash_addr
  let repairOwn := decide (own.flags ≠ ACTIVE_FLAG ∧ own.flags &&& ACTIVE_FLAG = ACTIVE_FLAG)
  repairFlag repairOwn ops.active ram.flash_addr ACTIVE_FLAG
  let env_valid := if repairOther || repairOwn then 2 else ram.gd.env_valid
  return { ram with gd := ⟨ram.gd.env_addr, env_valid⟩, env_ptr := (← get) ram.flash_addr }

/-- `set_default_env`, the default environment being no larger than `ENV_SIZE`. -/
def set_default_env (cfg : Config size) (ram : Ram size) : Ram size :=
  { ram with
    gd := ⟨ram.gd.env_addr, 1⟩
    env_ptr := .sealed 0xFF#8 cfg.default_environment }

/-- One boot: `env_init` with the link-time pointers, then `env_relocate`. -/
def boot (cfg : Config size) (ops : BootOps) : StoreM size (Ram size) := do
  let gd := env_init (← get)
  let ram : Ram size := ⟨.env, .redund, gd, .sealed 0xFF#8 cfg.default_environment⟩
  let ram ← if gd.env_valid = 0 then pure (set_default_env cfg ram)
    else env_relocate_spec ops ram
  return { ram with gd := ⟨.ram, ram.gd.env_valid⟩ }

/-- The copy a save rewrites is either left alone or completely rewritten. What
remains are the saves that fail or lose power after the erase has changed the
copy and before data and checksum are both in place. -/
def SaveOps.SparesCopy (cfg : Config size) (ops : SaveOps size) : Prop :=
  ops.protectOld ≠ .ok ∨ ops.protectNew ≠ .ok ∨ (cfg.restOfSector ∧ ops.malloc ≠ .ok) ∨
    (∃ code, ops.erase = .err code .untouched) ∨ ops.erase = .cut .untouched ∨
    (ops.erase = .ok ∧ ops.data = .ok ∧
      (ops.crc = .ok ∨ (∃ code, ops.crc = .err code .complete) ∨ ops.crc = .cut .complete))

/-! ## What a save can do to the flash -/

/-- The state a save that did not succeed leaves, `own` being the copy the RAM
pointer `flash_addr` names. -/
inductive Unfinished (cfg : Config size) (ops : SaveOps size) (own : Area)
    (data : Vector Byte size) (before after : Store size) : Prop
  | untouched (same : after = before)
  | torn (exposed : ¬ ops.SparesCopy cfg) (same : after own = before own)
      (bad : ¬ (after own.other).CrcOk)
  | written (same : after own = before own ∨
        after own = { before own with flags := OBSOLETE_FLAG })
      (copy : after own.other = .sealed 0xFF#8 data ∨
        after own.other = .sealed ACTIVE_FLAG data)

/-- The state a save that succeeded leaves. -/
structure Finished (own : Area) (data : Vector Byte size) (before after : Store size) : Prop where
  obsolete : after own = { before own with flags := OBSOLETE_FLAG }
  active : after own.other = .sealed ACTIVE_FLAG data

/-! Each operation of a save is followed by a test of its result. The rules
below say what such a step needs when a failed or cut operation may leave any
state satisfying `C`. -/

section Steps

variable {α : Type} {R : α → Store size → Prop} {C : Store size → Prop} {leave : Nat → α}
  {k : Nat → StoreM size α} (flash : Store size)

theorem elsewhere_step (op : OpEnd Unit) (start : C flash)
    (stop : ∀ code, code ≠ 0 → ∀ s, C s → R (leave code) s)
    (rest : op = .ok → Triple (fun s => s = flash) (k 0) R C) :
    Triple (fun s => s = flash)
      (elsewhere op >>= fun code => if code ≠ 0 then pure (leave code) else k code) R C := by
  refine Triple.check (Q := fun code s => s = flash ∧ (code = 0 → op = .ok)) ?_ ?_ ?_
  · rintro _ rfl
    cases op with
    | ok => exact ⟨rfl, fun _ => rfl⟩
    | err code left => exact ⟨rfl, fun h => absurd h code.2⟩
    | cut left => exact start
  · rintro code hcode s ⟨rfl, -⟩
    exact stop code hcode _ start
  · exact (Triple.lift rest).pre fun s hs => ⟨hs.1, hs.2 rfl⟩

theorem restOfSector_step (cfg : Config size) (op : OpEnd Unit) (start : C flash)
    (stop : ∀ code, code ≠ 0 → ∀ s, C s → R (leave code) s)
    (rest : (cfg.restOfSector → op = .ok) → Triple (fun s => s = flash) (k 0) R C) :
    Triple (fun s => s = flash)
      (restOfSector cfg op >>= fun code => if code ≠ 0 then pure (leave code) else k code) R C := by
  unfold restOfSector
  cases hrest : cfg.restOfSector with
  | true => exact elsewhere_step flash op start stop fun hop => rest fun _ => hop
  | false =>
      refine Triple.check (Q := fun code s => s = flash ∧ code = 0) ?_ ?_ ?_
      · rintro _ rfl
        exact ⟨rfl, rfl⟩
      · rintro code hcode s ⟨-, hzero⟩
        exact absurd hzero hcode
      · exact (rest fun h => by simp [hrest] at h).pre fun s hs => hs.1

theorem flash_write_flags_step (op : OpEnd Bool) (a : Area) (flag : Byte) (start : C flash)
    (done : C (Function.update flash a { flash a with flags := (flash a).flags &&& flag }))
    (stop : ∀ code, code ≠ 0 → ∀ s, C s → R (leave code) s)
    (rest : Triple
      (fun s => s = Function.update flash a { flash a with flags := (flash a).flags &&& flag })
      (k 0) R C) :
    Triple (fun s => s = flash)
      (flash_write_flags op a flag >>= fun code => if code ≠ 0 then pure (leave code) else k code)
      R C := by
  refine Triple.check (Q := fun code s => (code ≠ 0 → C s) ∧ (code = 0 →
    s = Function.update flash a { flash a with flags := (flash a).flags &&& flag })) ?_ ?_ ?_
  · rintro _ rfl
    cases op with
    | ok => exact ⟨fun h => absurd rfl h, fun _ => rfl⟩
    | err code written =>
        refine ⟨fun _ => ?_, fun h => absurd h code.2⟩
        cases written with
        | false => exact start
        | true => exact done
    | cut written =>
        cases written with
        | false => exact start
        | true => exact done
  · exact fun code hcode s hs => stop code hcode s (hs.1 hcode)
  · exact rest.pre fun s hs => hs.2 rfl

end Steps

theorem restOfSector_keeps {P : Store size → Prop} (cfg : Config size) (op : OpEnd Unit) :
    Triple P (restOfSector cfg op) (fun _ s => P s) P := by
  refine Triple.ite (fun _ => ?_) fun _ => Triple.pure fun _ hs => hs
  intro flash hflash
  cases op <;> exact hflash

/-- Everything one save can do to the flash and to the RAM pointers. A save that
returns 0 has finished, but its pointers may be the old ones. -/
theorem saveenv_spec (hblank : ¬ (erased : EnvT size).CrcOk) (cfg : Config size)
    (ops : SaveOps size) (ram : Ram size) (flash : Store size)
    (hnew : ram.flash_addr_new = ram.flash_addr.other) (hcrc : ram.env_ptr.CrcOk) :
    let unfinished := Unfinished cfg ops ram.flash_addr ram.env_ptr.data flash
    Triple (fun s => s = flash) (saveenv cfg ops ram)
      (fun r s => (r.1 ≠ 0 ∧ r.2 = ram ∧ unfinished s) ∨
        (r.1 = 0 ∧ Finished ram.flash_addr ram.env_ptr.data flash s ∧
          (r.2 = ram ∨
            r.2 = { ram with
              flash_addr := ram.flash_addr_new, flash_addr_new := ram.flash_addr })))
      unfinished := by
  intro unfinished
  obtain ⟨own, new, gd, env⟩ := ram
  obtain rfl : new = own.other := hnew
  have hne : own ≠ own.other := own.ne_other
  have hseal : (⟨env.crc, 0xFF#8, env.data⟩ : EnvT size) = .sealed 0xFF#8 env.data := by
    simp only [EnvT.sealed, EnvT.mk.injEq, and_true]
    exact hcrc.symm
  -- the flash once the erase, the data, the checksum and the flags are written
  let f₁ := Function.update flash own.other erased
  let f₂ := Function.update f₁ own.other { f₁ own.other with data := env.data }
  let f₃ := Function.update f₂ own.other { f₂ own.other with crc := env.crc }
  let f₄ := Function.update f₃ own { f₃ own with flags := (f₃ own).flags &&& OBSOLETE_FLAG }
  let f₅ := Function.update f₄ own.other
    { f₄ own.other with flags := (f₄ own.other).flags &&& ACTIVE_FLAG }
  have own₃ : f₃ own = flash own := by simp [f₃, f₂, f₁, hne]
  have copy₃ : f₃ own.other = .sealed 0xFF#8 env.data := by simp [f₃, f₂, f₁, erased, hseal]
  have own₄ : f₄ own = { flash own with flags := OBSOLETE_FLAG } := by
    simp [f₄, own₃, OBSOLETE_FLAG]
  have copy₄ : f₄ own.other = .sealed 0xFF#8 env.data := by simp [f₄, hne.symm, copy₃]
  have own₅ : f₅ own = { flash own with flags := OBSOLETE_FLAG } := by simp [f₅, hne, own₄]
  have copy₅ : f₅ own.other = .sealed ACTIVE_FLAG env.data := by
    simp [f₅, copy₄, EnvT.sealed, ACTIVE_FLAG]
  have start : unfinished flash := .untouched rfl
  have done₃ : unfinished f₃ := .written (.inl own₃) (.inl copy₃)
  have done₄ : unfinished f₄ := .written (.inr own₄) (.inl copy₄)
  have done₅ : unfinished f₅ := .written (.inr own₅) (.inr copy₅)
  have finished : Finished own env.data flash f₅ := ⟨own₅, copy₅⟩
  unfold saveenv
  refine elsewhere_step _ _ start (fun _ _ s hs => .inl ⟨one_ne_zero, rfl, hs⟩) fun hold => ?_
  refine elsewhere_step _ _ start (fun _ _ s hs => .inl ⟨one_ne_zero, rfl, hs⟩) fun hnew => ?_
  refine restOfSector_step _ _ _ start (fun _ _ s hs => .inl ⟨one_ne_zero, rfl, hs⟩) fun hmem => ?_
  -- past these steps the copy is exposed, unless the erase does not touch it
  have exposed (f : Store size) (same : f own = flash own) (bad : ¬ (f own.other).CrcOk)
      (herase : ∀ code, ops.erase ≠ .err code .untouched ∧ ops.erase ≠ .cut .untouched)
      (hwrite : ¬ (ops.erase = .ok ∧ ops.data = .ok ∧
        (ops.crc = .ok ∨ (∃ code, ops.crc = .err code .complete) ∨ ops.crc = .cut .complete))) :
      unfinished f := by
    refine .torn ?_ same bad
    rintro (h | h | ⟨h, h'⟩ | ⟨code, h⟩ | h | h)
    · exact h hold
    · exact h hnew
    · exact h' (hmem h)
    · exact (herase code).1 h
    · exact (herase ⟨1, one_ne_zero⟩).2 h
    · exact hwrite h
  -- with the data but not the checksum in place, the copy is bad unless the
  -- checksum of the data happens to be that of erased flash
  have written₂ (herase : ops.erase = .ok)
      (hcrcOp : ¬ (ops.data = .ok ∧
        (ops.crc = .ok ∨ (∃ code, ops.crc = .err code .complete) ∨ ops.crc = .cut .complete))) :
      unfinished f₂ := by
    by_cases hok : (f₂ own.other).CrcOk
    · refine .written (.inl (by simp [f₂, f₁, hne])) (.inl ?_)
      have hcrc₂ : crc32 0 env.data.toList = 0xFFFFFFFF#32 := by
        simpa [f₂, f₁, erased, EnvT.CrcOk] using hok
      simp only [f₂, f₁, erased, EnvT.sealed, Function.update_self, EnvT.mk.injEq, and_true]
      exact hcrc₂.symm
    · exact exposed f₂ (by simp [f₂, f₁, hne]) hok (by simp [herase]) fun h => hcrcOp h.2
  refine areaOp_step _ _ _ _ (fun l hl => ?_) (fun _ _ s hs => .inl ⟨one_ne_zero, rfl, hs⟩)
    fun herase => ?_
  · have hnotOk : ops.erase ≠ .ok := by rcases hl with ⟨c, h⟩ | h <;> simp [h]
    cases l with
    | untouched => simpa [Left.apply] using start
    | torn t =>
        exact exposed _ (by simp [hne]) (by simpa [Left.apply] using t.2)
          (fun code => by rcases hl with ⟨c, h⟩ | h <;> simp [h]) fun h => hnotOk h.1
    | complete =>
        exact exposed _ (by simp [hne]) (by simpa [Left.apply] using hblank)
          (fun code => by rcases hl with ⟨c, h⟩ | h <;> simp [h]) fun h => hnotOk h.1
  refine areaOp_step f₁ _ _ _ (fun l hl => ?_)
    (fun rc hrc s hs => .inl ⟨hrc, rfl, hs⟩) fun hdata => ?_
  · have hnotOk : ops.data ≠ .ok := by rcases hl with ⟨c, h⟩ | h <;> simp [h]
    cases l with
    | untouched =>
        exact exposed _ (by simp [f₁, hne, Left.apply]) (by simpa [f₁, Left.apply] using hblank)
          (by simp [herase]) fun h => hnotOk h.2.1
    | torn t =>
        exact exposed _ (by simp [f₁, hne]) (by simpa [Left.apply] using t.2)
          (by simp [herase]) fun h => hnotOk h.2.1
    | complete => exact written₂ herase fun h => hnotOk h.1
  refine areaOp_step f₂ _ _ _ (fun l hl => ?_)
    (fun rc hrc s hs => .inl ⟨hrc, rfl, hs⟩) fun hcrcOp => ?_
  · cases l with
    | untouched =>
        have hcrcOp : ¬ (ops.data = .ok ∧
            (ops.crc = .ok ∨ (∃ code, ops.crc = .err code .complete) ∨ ops.crc = .cut .complete)) := by
          rcases hl with ⟨c, h⟩ | h <;> simp [h]
        simpa [Left.apply] using written₂ herase hcrcOp
    | torn t =>
        exact exposed _ (by simp [f₂, f₁, hne]) (by simpa [Left.apply] using t.2)
          (by simp [herase]) (by rcases hl with ⟨c, h⟩ | h <;> simp [h])
    | complete => exact done₃
  refine flash_write_flags_step f₃ _ _ _ done₃ done₄
    (fun rc hrc s hs => .inl ⟨hrc, rfl, hs⟩) ?_
  refine flash_write_flags_step f₄ _ _ _ done₄ done₅
    (fun rc hrc s hs => .inl ⟨hrc, rfl, hs⟩) ?_
  -- the restore fails with the return code 0 of the last flag write
  refine Triple.check ((restOfSector_keeps cfg _ (P := fun s => s = f₅)).conseq (fun _ h => h)
    (fun _ _ h => h) fun s hs => by rw [hs]; exact done₅) ?_ ?_
  · rintro code - s rfl
    exact .inr ⟨rfl, finished, .inl rfl⟩
  · rintro s rfl
    exact .inr ⟨rfl, finished, .inr rfl⟩

/-! ## What the boot code can rely on -/

/-- A valid copy whose contents are among `recent`, with a flag the code writes. -/
structure Recent (recent : Set (Vector Byte size)) (env : EnvT size) : Prop where
  crcOk : env.CrcOk
  mem : env.data ∈ recent
  flags : env.flags = OBSOLETE_FLAG ∨ env.flags = ACTIVE_FLAG ∨ env.flags = 0xFF#8

/-- The copy `own` is recent. A valid copy in the other area is recent too, or
it is marked obsolete and `own` is not. -/
structure Keeps (recent : Set (Vector Byte size)) (own : Area) (flash : Store size) : Prop where
  inUse : Recent recent (flash own)
  spare : (flash own.other).CrcOk → Recent recent (flash own.other) ∨
    ((flash own.other).flags = OBSOLETE_FLAG ∧ (flash own).flags ≠ OBSOLETE_FLAG)

theorem Recent.mono {recent larger : Set (Vector Byte size)} {env : EnvT size}
    (h : Recent recent env) (le : recent ⊆ larger) : Recent larger env :=
  ⟨h.crcOk, le h.mem, h.flags⟩

theorem Keeps.mono {recent larger : Set (Vector Byte size)} {own : Area} {flash : Store size}
    (h : Keeps recent own flash) (le : recent ⊆ larger) : Keeps larger own flash :=
  ⟨h.inUse.mono le, fun ok => (h.spare ok).imp_left fun r => r.mono le⟩

/-- Whichever copy is in use, `env_init` selects a recent one, and that copy can
take the place of the one in use. -/
theorem env_init_of_keeps {recent : Set (Vector Byte size)} {own : Area} {flash : Store size}
    (h : Keeps recent own flash) :
    ∃ a v, env_init flash = ⟨.flash a, v⟩ ∧ v ≠ 0 ∧ Keeps recent a flash := by
  have hown := h.inUse.crcOk
  by_cases hother : (flash own.other).CrcOk
  · rcases h.spare hother with hrecent | ⟨hobsolete, hlive⟩
    · -- both copies are recent: any choice will do, and one is made
      have swap : Keeps recent own.other flash := ⟨hrecent, fun _ => .inl (by simpa using h.inUse)⟩
      have hf := h.inUse.flags
      have hf' := hrecent.flags
      cases own <;> simp only [Area.other] at * <;> unfold env_init <;>
        rcases hf with hf | hf | hf <;> rcases hf' with hf' | hf' | hf' <;>
        simp [hown, hother, hf, hf', ACTIVE_FLAG, OBSOLETE_FLAG, h, swap]
    · have hf := h.inUse.flags
      cases own <;> simp only [Area.other] at * <;> unfold env_init <;>
        rcases hf with hf | hf | hf <;>
        simp_all [ACTIVE_FLAG, OBSOLETE_FLAG]
  · cases own <;> simp only [Area.other] at * <;> unfold env_init <;> simp [hown, hother, h]

end UBoot.Env.RedundantFlash
