/-
# U-Boot and the environment tools on the same store

U-Boot saves and `fw_setenv` writes take turns. When the size of a `long` on the host is 4,
both sides compute the same checksums, and both select the copy written last. When it is 8,
the tools leave the last 4 bytes of the data out of the checksum, and this is so only when
the checksum happens to be the same.
-/

import UBoot.Tools.FwEnv
import UBoot.Env.RedundantFlashRuns

namespace UBoot.Tools

open UBoot.Env UBoot.Lib

variable {size : Nat} {host : Host}

/-! ## Both writers -/

/-- What a board fixes. `CONFIG_ENV_RANGE` holds an environment. -/
structure Board (size : Nat) where
  flag_scheme : FlagScheme
  default_environment : Vector Byte size
  tool_default : List Byte
  restOfSector : Bool
  env_range : Nat
  fits : RedundantNand.env_size size ≤ env_range

namespace Board

variable (b : Board size)

/-- The build for NOR flash. -/
def flashConfig : RedundantFlash.Config size := ⟨b.default_environment, b.restOfSector⟩

/-- The build for NAND flash. -/
def nandConfig : RedundantNand.Config size := ⟨b.default_environment, b.env_range⟩

/-- U-Boot boots, the environment is changed to `data`, and saved: the area that is written,
and both areas afterwards. Every operation succeeds. -/
def saveenv (data : Vector Byte size) (store : Store size) : Option (Env.Area × Store size) :=
  match b.flag_scheme with
  | .boolean =>
      match RedundantFlash.boot b.flashConfig {} store with
      | .error _ _ => none
      | .ok ram store =>
          let ram := { ram with env_ptr := .sealed ram.env_ptr.flags data }
          match RedundantFlash.saveenv b.flashConfig {} ram store with
          | .error _ _ => none
          | .ok (rc, ram) store => if rc = 0 then some (ram.flash_addr, store) else none
  | .incremental =>
      let ram := (RedundantNand.env_relocate_spec b.nandConfig store).edit data
      match RedundantNand.saveenv b.nandConfig {} ram store with
      | .error _ _ => none
      | .ok (rc, _) store => if rc = 0 then some (ram.target, store) else none

/-- U-Boot selects an area, and loads it. -/
def UBootSelects (store : Store size) (a : Env.Area) : Prop :=
  match b.flag_scheme with
  | .boolean => (RedundantFlash.env_init store).env_addr = .flash a ∧
      ∃ ram store', RedundantFlash.boot b.flashConfig {} store = .ok ram store' ∧
        ram.env_ptr = store a
  | .incremental => ∃ v, RedundantNand.area v = a ∧
      RedundantNand.env_relocate_spec b.nandConfig store = ⟨v, store a⟩

/-- The tools select an area, and load it. -/
def ToolSelects (host : Host) (store : Store size) (a : Env.Area) : Prop :=
  fw_env_open host b.flag_scheme b.tool_default store = ⟨a, store a⟩

end Board

/-- Both areas, and what was written last where. -/
structure Shared (size : Nat) where
  store : Store size
  last : Option (Env.Area × Vector Byte size)

/-- A save, or a write, of an environment. -/
inductive Writing (size : Nat)
  | saveenv (data : Vector Byte size)
  | fw_setenv (data : Vector Byte size)

/-- The environment that is written. -/
def Writing.data : Writing size → Vector Byte size
  | .saveenv data => data
  | .fw_setenv data => data

/-- One of both writes. -/
def Shared.step (b : Board size) (host : Host) (w : Shared size) :
    Writing size → Option (Shared size)
  | .saveenv data => (b.saveenv data w.store).map fun r => ⟨r.2, some (r.1, data)⟩
  | .fw_setenv data =>
      let r := UBoot.Tools.fw_setenv host b.flag_scheme b.tool_default data w.store
      some ⟨r.2, some (r.1, data)⟩

/-- The condition: the checksum of both sides is the same for what is written, and it is
right for both sides or for none in what is there. -/
def Shared.Agreeing (host : Host) (w : Shared size) (e : Writing size) : Prop :=
  dataCrc host true e.data = crc32 0 e.data.toList ∧
    ∀ a, (w.store a).CrcOk ↔ ToolCrcOk host (w.store a)

/-- With a `long` of 4 bytes the checksums are always the same. -/
theorem dataCrc_long4 (redundant : Bool) (data : Vector Byte size) :
    dataCrc .long4 redundant data = crc32 0 data.toList := by
  have all : getenvsize .long4 (size + ENV_HEADER_SIZE redundant) redundant = size := by
    cases redundant <;> simp [getenvsize, ENV_HEADER_SIZE, Host.sizeof_long]
  rw [dataCrc, all, List.take_of_length_le (by simp)]

theorem agreeing_long4 (w : Shared size) (e : Writing size) : w.Agreeing .long4 e :=
  ⟨dataCrc_long4 _ _, fun _ => by rw [EnvT.CrcOk, ToolCrcOk, dataCrc_long4]⟩

/-! ## The copy written last -/

/-- A copy that both sides find valid, and newer than the other one. -/
structure Newest (host : Host) (flag_scheme : FlagScheme) (a : Env.Area) (data : Vector Byte size)
    (store : Store size) : Prop where
  data : (store a).data = data
  uboot : (store a).CrcOk
  tool : ToolCrcOk host (store a)
  boolean : flag_scheme = .boolean →
    (store a).flags = active_flag ∧ (store a.other).flags = obsolete_flag
  incremental : flag_scheme = .incremental →
    (store a.other).CrcOk ∨ ToolCrcOk host (store a.other) →
      (store a).flags = (store a.other).flags + 1#8

theorem newestDevice_succ (flags : Byte) :
    newestDevice .incremental (flags + 1#8) flags = .env ∧
      newestDevice .incremental flags (flags + 1#8) = .redund := by
  simp only [newestDevice]
  constructor
  · split_ifs with h h'
    · bv_omega
    · rfl
    · rw [not_or] at h'
      bv_omega
  · split_ifs with h h'
    · rfl
    · bv_omega
    · rfl

/-- The copy with the newer flags is selected of two valid ones. -/
theorem newestDevice_of_newer {flag_scheme : FlagScheme} {a : Env.Area} {store : Store size}
    (boolean : flag_scheme = .boolean →
      (store a).flags = active_flag ∧ (store a.other).flags = obsolete_flag)
    (incremental : flag_scheme = .incremental →
      (store a).flags = (store a.other).flags + 1#8) :
    newestDevice flag_scheme (store .env).flags (store .redund).flags = a := by
  cases flag_scheme with
  | boolean =>
      obtain ⟨active, obsolete⟩ := boolean rfl
      cases a <;> simp only [Area.other] at obsolete <;>
        simp [newestDevice, active, obsolete, active_flag, obsolete_flag]
  | incremental =>
      have succ := incremental rfl
      cases a with
      | env => rw [succ]; exact (newestDevice_succ _).1
      | redund => rw [succ]; exact (newestDevice_succ _).2

/-- The tools select it. -/
theorem Newest.toolSelects {b : Board size} {a : Env.Area} {data : Vector Byte size}
    {store : Store size} (h : Newest host b.flag_scheme a data store) :
    b.ToolSelects host store a := by
  have valid := h.tool
  rw [Board.ToolSelects]
  by_cases other : ToolCrcOk host (store a.other)
  · have newest : newestDevice b.flag_scheme (store .env).flags (store .redund).flags = a :=
      newestDevice_of_newer h.boolean fun scheme => h.incremental scheme (.inr other)
    cases a <;> simp only [Area.other] at other <;> simp [fw_env_open, valid, other, newest]
  · cases a <;> simp only [Area.other] at other <;> simp [fw_env_open, valid, other]

/-- With the flags of a save, nothing is repaired when U-Boot boots. -/
theorem boot_of_newest (cfg : RedundantFlash.Config size) {a : Env.Area} {store : Store size}
    (selected : RedundantFlash.env_init store = ⟨.flash a, 1⟩)
    (active : (store a).flags = active_flag) (obsolete : (store a.other).flags = obsolete_flag) :
    ∃ ram, RedundantFlash.boot cfg {} store = .ok ram store ∧ ram.env_ptr = store a := by
  cases a <;> simp only [Area.other] at obsolete <;>
    simp [RedundantFlash.boot, RedundantFlash.env_relocate_spec, RedundantFlash.repairFlag, bind,
      EStateM.bind, get, getThe, MonadStateOf.get, EStateM.get, pure, EStateM.pure, selected,
      active, obsolete, active_flag, obsolete_flag, RedundantFlash.ACTIVE_FLAG,
      RedundantFlash.OBSOLETE_FLAG]

/-- U-Boot selects it. -/
theorem Newest.ubootSelects {b : Board size} {a : Env.Area} {data : Vector Byte size}
    {store : Store size} (h : Newest host b.flag_scheme a data store) :
    b.UBootSelects store a := by
  have valid := h.uboot
  rw [Board.UBootSelects]
  cases scheme : b.flag_scheme with
  | boolean =>
      obtain ⟨active, obsolete⟩ := h.boolean scheme
      have selected : RedundantFlash.env_init store = ⟨.flash a, 1⟩ := by
        by_cases other : (store a.other).CrcOk <;>
          cases a <;> simp only [Area.other] at other obsolete <;>
          simp [RedundantFlash.env_init, valid, other, active, obsolete, active_flag, obsolete_flag,
            RedundantFlash.ACTIVE_FLAG, RedundantFlash.OBSOLETE_FLAG]
      obtain ⟨ram, boot, loaded⟩ := boot_of_newest b.flashConfig selected active obsolete
      exact ⟨by rw [selected], ram, store, boot, loaded⟩
  | incremental =>
      obtain ⟨v, -, selected, loaded⟩ := RedundantNand.env_relocate_spec_of_newer b.nandConfig
        valid fun other => RedundantNand.newer_of_succ (h.incremental scheme (.inl other))
      exact ⟨v, selected, loaded⟩

/-! ## One write -/

/-- An operation that succeeds. -/
theorem checked {α : Type} {m : StoreM size Nat} {k : Nat → StoreM size α} {leave : Nat → α}
    {s s' : Store size} (h : m s = .ok 0 s') :
    (m >>= fun code => if code ≠ 0 then pure (leave code) else k code) s = k 0 s' := by
  show EStateM.bind _ _ _ = _
  rw [EStateM.bind, h]
  rfl

theorem restOfSector_ok (cfg : RedundantFlash.Config size) (s : Store size) :
    RedundantFlash.restOfSector cfg .ok s = .ok 0 s := by
  rw [RedundantFlash.restOfSector]
  split <;> rfl

/-- A save that succeeds, in NOR flash. -/
theorem flash_saveenv_ok (cfg : RedundantFlash.Config size) (ram : RedundantFlash.Ram size)
    (pointers : ram.flash_addr_new = ram.flash_addr.other) (crc : ram.env_ptr.CrcOk)
    (store : Store size) :
    ∃ ram' store', RedundantFlash.saveenv cfg {} ram store = .ok (0, ram') store' ∧
      ram'.flash_addr = ram.flash_addr.other ∧
      store' ram.flash_addr.other = .sealed active_flag ram.env_ptr.data ∧
      store' ram.flash_addr = { store ram.flash_addr with flags := obsolete_flag } := by
  obtain ⟨own, new, gd, env⟩ := ram
  obtain rfl : new = own.other := pointers
  let f₁ := Function.update store own.other erased
  let f₂ := Function.update f₁ own.other { f₁ own.other with data := env.data }
  let f₃ := Function.update f₂ own.other { f₂ own.other with crc := env.crc }
  let f₄ := Function.update f₃ own
    { f₃ own with flags := (f₃ own).flags &&& RedundantFlash.OBSOLETE_FLAG }
  let f₅ := Function.update f₄ own.other
    { f₄ own.other with flags := (f₄ own.other).flags &&& RedundantFlash.ACTIVE_FLAG }
  have run : RedundantFlash.saveenv cfg {} ⟨own, own.other, gd, env⟩ store =
      .ok (0, ⟨own.other, own, gd, env⟩) f₅ := by
    refine (checked (by rfl)).trans ((checked (by rfl)).trans ?_)
    refine (checked (restOfSector_ok _ _)).trans ?_
    refine (checked (by rfl)).trans ((checked (by rfl)).trans ((checked (by rfl)).trans ?_))
    refine (checked (by rfl)).trans ((checked (by rfl)).trans ?_)
    exact (checked (restOfSector_ok _ _)).trans rfl
  refine ⟨_, f₅, run, rfl, ?_, ?_⟩
  · simp only [EnvT.sealed]
    rw [show crc32 0 env.data.toList = env.crc from crc]
    simp [f₅, f₄, f₃, f₂, f₁, erased, active_flag, RedundantFlash.ACTIVE_FLAG]
  · simp [f₅, f₄, f₃, f₂, f₁, obsolete_flag, RedundantFlash.OBSOLETE_FLAG]

/-- A save that succeeds, in NAND flash. -/
theorem nand_saveenv_ok (cfg : RedundantNand.Config size)
    (fits : RedundantNand.env_size size ≤ cfg.env_range) (ram : RedundantNand.Ram size)
    (store : Store size) :
    ∃ ram', RedundantNand.saveenv cfg {} ram store =
      .ok (0, ram') (Function.update store ram.target ram.incFlags.env_ptr) := by
  rw [RedundantNand.saveenv, if_neg (not_lt.mpr fits)]
  refine ⟨{ ram.incFlags with env_valid := if ram.incFlags.env_valid = 2 then 1 else 2 },
    (checked (by rfl)).trans ((checked (by rfl)).trans ?_)⟩
  show EStateM.Result.ok _ (Function.update (Function.update store ram.target erased) ram.target
    ram.incFlags.env_ptr) = _
  rw [Function.update_idem]

/-- A copy with the checksum of U-Boot, when the tools compute the same. -/
theorem toolCrcOk_sealed {data : Vector Byte size} {flags : Byte}
    (agree : dataCrc host true data = crc32 0 data.toList) :
    ToolCrcOk host (EnvT.sealed flags data) := agree

/-- With a valid copy, NAND flash is what is loaded. -/
theorem nand_loaded (cfg : RedundantNand.Config size) {store : Store size} {a : Env.Area}
    (valid : (store a).CrcOk) :
    (RedundantNand.env_relocate_spec cfg store).env_ptr =
      store (RedundantNand.area (RedundantNand.env_relocate_spec cfg store).env_valid) := by
  have some_valid : ¬ (¬ (store .env).CrcOk ∧ ¬ (store .redund).CrcOk) := by
    rintro ⟨env, redund⟩
    cases a
    · exact env valid
    · exact redund valid
  simp only [RedundantNand.env_relocate_spec, if_neg some_valid, RedundantNand.area]
  rw [apply_ite store]

/-- U-Boot saves. -/
theorem newest_saveenv {b : Board size} {data : Vector Byte size} {store store' : Store size}
    {a : Env.Area} (agree : dataCrc host true data = crc32 0 data.toList)
    (same : ∀ a, (store a).CrcOk ↔ ToolCrcOk host (store a))
    (h : b.saveenv data store = some (a, store')) : Newest host b.flag_scheme a data store' := by
  rw [Board.saveenv] at h
  cases scheme : b.flag_scheme with
  | boolean =>
      rw [scheme] at h
      simp only [] at h
      have pointers := RedundantFlash.boot_pointers b.flashConfig {} store trivial
      cases boot : RedundantFlash.boot b.flashConfig {} store with
      | error e s => rw [boot] at h; simp at h
      | ok ram booted =>
          rw [boot] at h pointers
          obtain ⟨ram', after, run, written, active, obsolete⟩ := flash_saveenv_ok b.flashConfig
            { ram with env_ptr := .sealed ram.env_ptr.flags data } pointers
            (EnvT.sealed_crcOk _ _) booted
          simp only [run, if_true, Option.some.injEq, Prod.mk.injEq] at h
          obtain ⟨rfl, rfl⟩ := h
          rw [EnvT.sealed_data] at active
          rw [written]
          refine ⟨by rw [active]; rfl, by rw [active]; rfl, by rw [active]; exact agree, ?_, by simp⟩
          intro _
          rw [Area.other_other, active, obsolete]
          exact ⟨rfl, rfl⟩
  | incremental =>
      rw [scheme] at h
      simp only [] at h
      set ram := RedundantNand.env_relocate_spec b.nandConfig store with hram
      obtain ⟨ram', run⟩ := nand_saveenv_ok b.nandConfig b.fits (ram.edit data) store
      rw [run] at h
      simp only [if_true, Option.some.injEq, Prod.mk.injEq] at h
      obtain ⟨rfl, rfl⟩ := h
      rw [RedundantNand.Ram.edit_target, RedundantNand.Ram.edit_incFlags_env_ptr]
      refine ⟨by simp, by simp [EnvT.sealed_crcOk], by simpa using toolCrcOk_sealed agree,
        by simp, ?_⟩
      intro _ valid
      have other : ram.target.other ≠ ram.target := Area.other_ne _
      rw [Function.update_of_ne other] at valid
      rw [Function.update_self, Function.update_of_ne other, EnvT.sealed_flags]
      have crc : (store ram.target.other).CrcOk := valid.elim id (same _).mpr
      rw [nand_loaded b.nandConfig crc, RedundantNand.Ram.target_eq, Area.other_other]

/-- `fw_setenv` writes a copy with newer flags than the one it opened. -/
theorem fw_setenv_copies (host : Host) (flag_scheme : FlagScheme) (tool_default : List Byte)
    (data : Vector Byte size) (store : Store size) :
    ∃ a flags, (fw_setenv host flag_scheme tool_default data store).1 = a ∧
      (fw_setenv host flag_scheme tool_default data store).2 a =
        ⟨dataCrc host true data, flags, data⟩ ∧
      (flag_scheme = .boolean → flags = active_flag ∧
        ((fw_setenv host flag_scheme tool_default data store).2 a.other).flags = obsolete_flag) ∧
      (flag_scheme = .incremental → flags =
        ((fw_setenv host flag_scheme tool_default data store).2 a.other).flags + 1#8) := by
  have flags : (fw_env_open host flag_scheme tool_default store).image.flags =
      (store (fw_env_open host flag_scheme tool_default store).dev_current).flags := by
    simp only [fw_env_open, withDefault]
    split_ifs <;> rfl
  set environment := fw_env_open host flag_scheme tool_default store with henv
  have apart : environment.dev_current.other ≠ environment.dev_current := Area.other_ne _
  refine ⟨environment.dev_current.other, ?_⟩
  cases flag_scheme with
  | boolean =>
      refine ⟨active_flag, rfl, ?_, fun _ => ⟨rfl, ?_⟩, by simp⟩
      · simp only [fw_setenv, fw_env_close, flash_write, ← henv]
        rw [Function.update_of_ne apart, Function.update_self]
      · simp only [fw_setenv, fw_env_close, flash_write, ← henv, Area.other_other]
        rw [Function.update_self]
        simp [obsolete_flag]
  | incremental =>
      refine ⟨environment.image.flags + 1#8, rfl, ?_, by simp, fun _ => ?_⟩
      · simp only [fw_setenv, fw_env_close, flash_write, ← henv]
        rw [Function.update_self]
      · simp only [fw_setenv, fw_env_close, flash_write, ← henv, Area.other_other]
        rw [Function.update_of_ne apart.symm, flags]

/-- `fw_setenv` writes. -/
theorem newest_fw_setenv {flag_scheme : FlagScheme} {tool_default : List Byte}
    {data : Vector Byte size} {store : Store size}
    (agree : dataCrc host true data = crc32 0 data.toList) :
    Newest host flag_scheme (fw_setenv host flag_scheme tool_default data store).1 data
      (fw_setenv host flag_scheme tool_default data store).2 := by
  obtain ⟨a, flags, ha, written, boolean, incremental⟩ :=
    fw_setenv_copies host flag_scheme tool_default data store
  rw [ha]
  refine ⟨?_, ?_, ?_, fun scheme => ?_, fun scheme _ => ?_⟩
  · rw [written]
  · rw [written]
    exact agree.symm
  · rw [written]
    rfl
  · rw [written]
    exact boolean scheme
  · rw [written]
    exact incremental scheme

/-! ## Runs -/

/-- One write, of either side. -/
theorem newest_step {b : Board size} {w w' : Shared size} {e : Writing size}
    (agreeing : w.Agreeing host e) (h : w.step b host e = some w') {a : Env.Area}
    {data : Vector Byte size} (last : w'.last = some (a, data)) :
    Newest host b.flag_scheme a data w'.store := by
  cases e with
  | saveenv new =>
      rw [Shared.step, Option.map_eq_some_iff] at h
      obtain ⟨r, run, rfl⟩ := h
      obtain ⟨rfl, rfl⟩ : r.1 = a ∧ new = data := by simpa using last
      exact newest_saveenv agreeing.1 agreeing.2 run
  | fw_setenv new =>
      rw [Shared.step] at h
      obtain rfl := Option.some.inj h
      obtain ⟨rfl, rfl⟩ : (UBoot.Tools.fw_setenv host b.flag_scheme b.tool_default new
          w.store).1 = a ∧ new = data := by simpa using last
      exact newest_fw_setenv agreeing.1

/-- A board with NAND flash. -/
def exampleBoard : Board 4 :=
  ⟨.incremental, #v[0, 0, 0, 0], [], false, 9, by decide⟩

end UBoot.Tools
