/-
# What `saveenv` says about the internal flash

`saveenv` of `common/env_envm.c` returns what the driver returns, a number of bytes, and
`do_saveenv` of `common/cmd_nvedit.c` takes every number but 0 for an error. The driver is a
parameter. It tells how many bytes of the buffer are in the area, or returns something negative;
the drivers for STM32, Kinetis and SmartFusion do that.
-/

import UBoot.A2f.EnvmPages
import UBoot.Env.Envm
import UBoot.Kinetis.EnvmWrite
import UBoot.Stm32.EnvmRuns

namespace UBoot.EnvEnvm

open UBoot.Lib UBoot.Env

/-- `u32` -/
abbrev U32 := BitVec 32

/-- A driver: `envm_write`, and the flash as memory. -/
structure Driver (σ : Type) where
  envm_write : U32 → List Byte → U32 → σ → U32 × σ
  memory : σ → Nat → Byte

variable {σ : Type} (driver : Driver σ) (CONFIG_ENV_ADDR : U32)

/-- The flash at `CONFIG_ENV_ADDR`, as many bytes as `CONFIG_ENV_SIZE` says. -/
def Driver.area (CONFIG_ENV_SIZE : Nat) (f : σ) : List Byte :=
  slice (driver.memory f) CONFIG_ENV_ADDR.toNat CONFIG_ENV_SIZE

/-- The call of the driver, with a copy of what `env_ptr` points to. -/
def writeTemp (env : EnvRam) (f : σ) : U32 × σ :=
  let temp := Env.saveenv env
  driver.envm_write CONFIG_ENV_ADDR temp (BitVec.ofNat 32 temp.length) f

/-- `saveenv`: the number is returned as an `int`. -/
def saveenv (env : EnvRam) (f : σ) : Int × σ :=
  let (rv, f) := writeTemp driver CONFIG_ENV_ADDR env f
  (rv.toInt, f)

/-- `do_saveenv` -/
def do_saveenv (env : EnvRam) (f : σ) : Int × σ :=
  let (rv, f) := saveenv driver CONFIG_ENV_ADDR env f
  (if rv ≠ 0 then 1 else 0, f)

/-- `env_relocate_spec`: what is copied to `env_ptr`. -/
def env_relocate_spec (image : List Byte) : List Byte := image

/-- The next boot accepts an image, and loads the variables of an environment from it. -/
structure Loads (env : EnvRam) (image : List Byte) : Prop where
  accepted : ∀ addr, env_init image (addr, 0) = (.data, 1)
  loaded : (env_relocate_spec image).drop 4 = env.data

/-- What a driver returns, for a buffer and with what the area holds then: all of the buffer, a part
or nothing of it has been written, as many bytes as the number says, or the number is negative. -/
structure Reported (buf : List Byte) (rv : U32) (area : List Byte) : Prop where
  length : area.length = buf.length
  counted : 0 ≤ rv.toInt → rv.toNat ≤ buf.length ∧ area.take rv.toNat = buf.take rv.toNat

/-- Nothing was written, and the area holds the image nevertheless; or something else than the whole
size was returned, and the area does not hold it. -/
def Agrees (image : List Byte) (rv : U32) (area : List Byte) : Prop :=
  (rv = 0#32 ∧ area = image) ∨ (rv ≠ 0#32 ∧ rv.toNat ≠ image.length ∧ area ≠ image)

/-! ## The next boot -/

theorem storeWord_loadWord (a b c d : Byte) : storeWord (Crc32.loadWord a b c d) = [a, b, c, d] := by
  simp only [storeWord, Crc32.loadWord, List.cons.injEq, and_true]
  refine ⟨?_, ?_, ?_, ?_⟩
  · ext i hi
    simp
  all_goals
    ext i hi
    simp
    grind

/-- The first four bytes of an image are its checksum. -/
theorem storeWord_readCrc {image : List Byte} (h : 4 ≤ image.length) :
    storeWord (readCrc image) ++ image.drop 4 = image := by
  match image, h with
  | a :: b :: c :: d :: rest, _ => simp [readCrc, storeWord_loadWord]

/-- With a valid environment only its own image is loaded as that environment. -/
theorem loads_iff {env : EnvRam} (valid : env.CrcOk) {image : List Byte}
    (h : image.length = (Env.saveenv env).length) : Loads env image ↔ image = Env.saveenv env := by
  constructor
  · rintro ⟨haccepted, hloaded⟩
    have hdata : image.drop 4 = env.data := hloaded
    have hinit := haccepted .data
    rw [env_init, if_pos rfl, crcInPieces_eq _ _ _ le_rfl, hdata, ← show env.crc = _ from valid]
      at hinit
    have hcrc : readCrc image = env.crc := by
      by_contra hne
      rw [if_neg hne] at hinit
      cases hinit
    have hlen : 4 ≤ image.length := by
      rw [h, Env.saveenv, List.length_append]
      exact Nat.le_add_right _ _
    rw [← storeWord_readCrc hlen, hdata, hcrc, Env.saveenv]
  · rintro rfl
    exact ⟨env_init_saveenv valid, rfl⟩

/-! ## The status -/

theorem toInt_eq_zero_iff (rv : U32) : rv.toInt = 0 ↔ rv = 0#32 := by
  constructor
  · intro h
    exact BitVec.eq_of_toInt_eq h
  · rintro rfl
    rfl

/-- A count of the whole size says that the area holds the image. -/
theorem Reported.eq_of_whole {buf area : List Byte} {rv : U32} (h : Reported buf rv area)
    (small : buf.length < 2 ^ 31) (hrv : rv.toNat = buf.length) : area = buf := by
  have hpos : 0 ≤ rv.toInt := by
    rw [BitVec.toInt_eq_toNat_cond]
    split <;> omega
  have htake := (h.counted hpos).2
  rw [hrv, List.take_length, ← h.length, List.take_length] at htake
  exact htake

/-- Nothing is said to be written. -/
theorem reported_zero {buf area : List Byte} (h : area.length = buf.length) :
    Reported buf 0#32 area :=
  ⟨h, fun _ => ⟨Nat.zero_le _, rfl⟩⟩

/-- All of the buffer is in the area. -/
theorem reported_whole {buf : List Byte} {rv : U32} (h : rv.toNat = buf.length) :
    Reported buf rv buf :=
  ⟨rfl, fun _ => ⟨h.le, rfl⟩⟩

/-- The bytes of a call for an STM32 that begins where a block begins or is refused, as
`CONFIG_ENV_ADDR` does. -/
theorem stm32_reported {chip : Stm32.Chip} {f : Stm32.Flash} {c : Stm32.Call}
    (ready : f.busy = false)
    (bank : chip = .STM32F43X → Stm32.secondBank f.cr → ¬ c.ErasesFirst chip)
    (nowrap : ¬ c.Wraps chip) :
    ∃ f' rv, Stm32.envm_write chip c.offset c.buf c.size f = (f', .returns rv) ∧
      Reported ((List.range c.size.toNat).map fun k => c.buf (BitVec.ofNat 32 k)) rv
        (slice f'.nvm c.offset.toNat c.size.toNat) := by
  by_cases haccepted : c.Accepted chip
  · obtain ⟨f', -, -, hrun, -, -, hsource, -⟩ :=
      Stm32.envm_write_accepted ready bank haccepted
    refine ⟨f', c.size, hrun, ?_⟩
    have harea : slice f'.nvm c.offset.toNat c.size.toNat =
        (List.range c.size.toNat).map fun k => c.buf (BitVec.ofNat 32 k) :=
      List.map_congr_left fun k hk => hsource k (List.mem_range.mp hk)
    rw [harea]
    exact reported_whole (by simp)
  · refine ⟨f, 0#32, Stm32.envm_write_rejected nowrap haccepted, reported_zero (by simp)⟩

/-- Those of a call inside a Kinetis flash, whatever commands fail. -/
theorem kinetis_reported {part : Kinetis.Part} {faults : Kinetis.Faults} {buf : U32 → Byte}
    {offset size : U32} (h : Kinetis.InFlash part offset size)
    (open_mcu : Kinetis.securesMcu offset size buf = false) (f : Kinetis.Flash) :
    ∃ f' rv, Kinetis.envm_write part faults offset buf size f = (f', .returns rv) ∧
      Reported (Kinetis.bytes buf 0#32 size.toNat) rv
        (slice f'.nvm offset.toNat size.toNat) := by
  classical
  by_cases hok : ∀ k < 2 * (Kinetis.lastSect part offset size + 1 - Kinetis.firstSect part offset),
      faults (f.commands.length + k) = none
  · obtain ⟨accel, hrun⟩ := Kinetis.envm_write_overlay h open_mcu f hok
    refine ⟨_, size, hrun, ?_⟩
    rw [slice_store_same (Kinetis.length_bytes _ _)]
    exact reported_whole (Kinetis.length_bytes _ _).symm
  · -- the first command that fails ends the call
    push Not at hok
    obtain ⟨hk, hfault⟩ := Nat.find_spec hok
    have hbefore : ∀ j < Nat.find hok, faults (f.commands.length + j) = none := by
      intro j hj
      by_contra hne
      exact Nat.find_min hok hj ⟨hj.trans hk, hne⟩
    obtain ⟨f', hrun, -⟩ := Kinetis.envm_write_fail h open_mcu f hk hbefore hfault
    exact ⟨f', 0#32, hrun, reported_zero (by simp)⟩

/-- Those of a call inside the SmartFusion eNVM. -/
theorem a2f_reported (status : Nat → U32) (array buf : Nat → Byte) {offset size : U32}
    (h : offset.toNat + size.toNat ≤ A2f.MSS_ENVM_FLASH_SIZE.toNat) :
    Reported (A2f.sent buf size.toNat)
      (BitVec.ofNat 32 (A2f.envm_write status buf (A2f.Envm.idle array) offset size).1)
      (slice (A2f.envm_write status buf (A2f.Envm.idle array) offset size).2.array offset.toNat
        size.toNat) := by
  have hpart := A2f.envm_write_writesPart array buf (.inr h) status
  generalize A2f.envm_write status buf (A2f.Envm.idle array) offset size = result at hpart ⊢
  have hle := hpart.le
  have hrv : (BitVec.ofNat 32 result.1).toNat = result.1 := by
    rw [BitVec.toNat_ofNat]
    omega
  refine ⟨by simp [A2f.sent], fun _ => ?_⟩
  rw [hrv]
  refine ⟨by simpa [A2f.sent] using hle, ?_⟩
  apply List.ext_getElem
  · simp [A2f.sent]
  · intro k hk _
    rw [List.length_take] at hk
    simpa [A2f.sent, slice] using hpart.written k (by omega)

/-! ## Two calls -/

/-- A driver that stores everything, and one that stores nothing. -/
def storing : Driver (Nat → Byte) where
  envm_write offset buf _ f := (BitVec.ofNat 32 buf.length, store f offset.toNat buf)
  memory := id
def idle : Driver (Nat → Byte) where
  envm_write _ _ _ f := (0#32, f)
  memory := id

end UBoot.EnvEnvm
