/-
# The environment in an SPI flash

`saveenv` and `env_relocate_spec` of `common/env_sf.c`. Whole sectors are erased. When the
environment is smaller than a sector, what is behind it in the sector is read before and written
back; when it is larger, the rest of its last sector is not.
-/

import UBoot.Env.Envm
import UBoot.Lib.EraseRounds
import UBoot.Spi.Commands

namespace UBoot.EnvSf

open UBoot.Lib UBoot.Env UBoot.Spi

/-- `CONFIG_ENV_OFFSET`, `CONFIG_ENV_SIZE` and `CONFIG_ENV_SECT_SIZE` -/
structure Config where
  offset : Nat
  env_size : Nat
  sect_size : Nat
  sect_pos : 0 < sect_size
  aligned : sect_size ∣ offset

/-- The cells of the flash. -/
structure Flash where
  mem : Nat → Byte

instance : HasCells Flash := ⟨Flash.mem⟩

/-- An environment with a valid checksum, of the size that is saved. -/
def Image (c : Config) : Type :=
  { env : EnvRam // env.CrcOk ∧ (Env.saveenv env).length = c.env_size }

/-- How `saveenv` ends: whether it returns 0, and whether it has come to the erase. -/
structure Saved where
  zero : Bool
  erasing : Bool
  run : Run Flash

section Source

variable (c : Config) (bus : Bus Flash)

/-- `spi_flash_erase` of whole sectors -/
def spi_flash_erase (offset len : Nat) (f : Flash) : Flash := ⟨eraseCells offset len f.mem⟩

/-- `spi_flash_write`: bits are cleared -/
def spi_flash_write (offset : Nat) (buf : List Byte) (f : Flash) : Flash :=
  ⟨blend (· &&& ·) f.mem offset buf⟩

/-- `saved_offset` and `saved_size` -/
def Config.saved_offset : Nat := c.offset + c.env_size
def Config.saved_size : Nat := c.sect_size - c.env_size

/-- `sector` -/
def Config.sector : Nat :=
  if c.env_size > c.sect_size then
    if c.env_size % c.sect_size ≠ 0 then c.env_size / c.sect_size + 1
    else c.env_size / c.sect_size
  else 1

/-- From the erase on. -/
def eraseAndWrite (env : List Byte) (saved_buffer : List Byte) (r : Run Flash) : Bool × Run Flash :=
  andThen (bus.send (spi_flash_erase c.offset (c.sector * c.sect_size)) r) fun r =>
    andThen (bus.send (spi_flash_write c.offset env) r) fun r =>
      if c.sect_size > c.env_size then bus.send (spi_flash_write c.saved_offset saved_buffer) r
      else (true, r)

/-- `saveenv`: `env_flash` is whether there is a flash, and `malloc` whether there is memory for the
rest of a sector. -/
def saveenv (env_flash malloc : Bool) (env : List Byte) (r : Run Flash) : Saved :=
  if ¬env_flash then ⟨false, false, r⟩
  else if c.sect_size > c.env_size then
    if ¬malloc then ⟨false, false, r⟩
    else
      let saved_buffer := slice r.chip.mem c.saved_offset c.saved_size
      let (ok, r) := bus.send id r
      if ¬ok then ⟨false, false, r⟩
      else
        let (ok, r) := eraseAndWrite c bus env saved_buffer r
        ⟨ok, true, r⟩
  else
    let (ok, r) := eraseAndWrite c bus env [] r
    ⟨ok, true, r⟩

/-- `env_relocate_spec`: the image that is loaded, if it is not the default one. -/
def env_relocate_spec (probed : Bool) (r : Run Flash) : Option (List Byte) :=
  let image := slice r.chip.mem c.offset c.env_size
  if probed ∧ bus.answers r.count ∧ crc32 0 (image.drop 4) = readCrc image then some image
  else none

end Source

/-! ## What is expected -/

/-- A call that returns 0 has saved the environment and changed nothing else, and one that fails
before it erases has changed nothing. -/
structure Preserves (c : Config) (env : Image c) (mem : Nat → Byte) : Prop where
  loads : ∀ (bus : Bus Flash) env_flash malloc n,
    (saveenv c bus env_flash malloc (Env.saveenv env.1) ⟨⟨mem⟩, n⟩).zero = true →
    ∀ bus' : Bus Flash, bus'.Sound →
      env_relocate_spec c bus' true
        (saveenv c bus env_flash malloc (Env.saveenv env.1) ⟨⟨mem⟩, n⟩).run =
          some (Env.saveenv env.1)
  frame : ∀ (bus : Bus Flash) env_flash malloc n,
    (saveenv c bus env_flash malloc (Env.saveenv env.1) ⟨⟨mem⟩, n⟩).zero = true →
    ∀ a, a < c.offset ∨ c.offset + c.env_size ≤ a →
      (saveenv c bus env_flash malloc (Env.saveenv env.1) ⟨⟨mem⟩, n⟩).run.chip.mem a = mem a
  early : ∀ (bus : Bus Flash) env_flash malloc n,
    (saveenv c bus env_flash malloc (Env.saveenv env.1) ⟨⟨mem⟩, n⟩).zero = false →
    (saveenv c bus env_flash malloc (Env.saveenv env.1) ⟨⟨mem⟩, n⟩).erasing = false →
    ∀ a, (saveenv c bus env_flash malloc (Env.saveenv env.1) ⟨⟨mem⟩, n⟩).run.chip.mem a = mem a

/-! ## Sectors -/

variable {c : Config} {bus : Bus Flash}

/-- The erased sectors cover the environment, and no more than its last sector behind it. -/
theorem env_le_sectors (c : Config) : c.env_size ≤ c.sector * c.sect_size := by
  have hpos := c.sect_pos
  have hdiv := Nat.div_add_mod' c.env_size c.sect_size
  have hlt := Nat.mod_lt c.env_size hpos
  rw [Config.sector]
  split
  · split
    · rw [Nat.succ_mul]
      omega
    · omega
  · omega

theorem sector_of_le (h : ¬c.env_size > c.sect_size) : c.sector * c.sect_size = c.sect_size := by
  rw [Config.sector, if_neg h, Nat.one_mul]

/-! ## What is written -/

theorem erased_cell {offset len a : Nat} {f : Flash} (h : offset ≤ a ∧ a < offset + len) :
    (spi_flash_erase offset len f).mem a = BitVec.allOnes 8 := if_pos h

theorem kept_cell {offset len a : Nat} {f : Flash} (h : ¬(offset ≤ a ∧ a < offset + len)) :
    (spi_flash_erase offset len f).mem a = f.mem a := if_neg h

theorem write_outside {offset a : Nat} {buf : List Byte} {f : Flash}
    (h : a < offset ∨ offset + buf.length ≤ a) : (spi_flash_write offset buf f).mem a = f.mem a :=
  blend_outside (f := fun x y => x &&& y) h

/-- A byte is written to an erased cell. -/
theorem write_erased {offset i : Nat} {buf : List Byte} {f : Flash} (hi : i < buf.length)
    (h : f.mem (offset + i) = BitVec.allOnes 8) :
    (spi_flash_write offset buf f).mem (offset + i) = buf[i] := by
  change blend (· &&& ·) f.mem offset buf (offset + i) = _
  rw [blend_inside (List.getElem?_eq_getElem hi), h, BitVec.allOnes_and]

/-- The flash after a call that has returned 0. -/
structure Done (c : Config) (env : List Byte) (mem mem' : Nat → Byte) : Prop where
  env : ∀ i (hi : i < env.length), mem' (c.offset + i) = env[i]
  before : ∀ a < c.offset, mem' a = mem a
  behind : ∀ a, c.offset + c.sector * c.sect_size ≤ a → mem' a = mem a
  rest : ∀ a, c.offset + c.env_size ≤ a → a < c.offset + c.sector * c.sect_size →
    mem' a = if c.sect_size > c.env_size then mem a else BitVec.allOnes 8

theorem eraseAndWrite_done {env : List Byte} {r : Run Flash} (henv : env.length = c.env_size)
    {saved_buffer : List Byte}
    (hsaved : c.sect_size > c.env_size →
      saved_buffer = slice r.chip.mem c.saved_offset c.saved_size)
    (h : (eraseAndWrite c bus env saved_buffer r).1 = true) :
    Done c env r.chip.mem (eraseAndWrite c bus env saved_buffer r).2.chip.mem := by
  have hcover := env_le_sectors c
  rw [eraseAndWrite] at h ⊢
  have hfirst := andThen_ok h
  rw [hfirst] at h ⊢
  have hsecond := andThen_ok h
  rw [hsecond] at h ⊢
  generalize hf : spi_flash_erase c.offset (c.sector * c.sect_size) r.chip = f at h ⊢
  have herased (a : Nat) (ha : c.offset ≤ a ∧ a < c.offset + c.sector * c.sect_size) :
      f.mem a = BitVec.allOnes 8 := hf ▸ erased_cell ha
  have hkept (a : Nat) (ha : ¬(c.offset ≤ a ∧ a < c.offset + c.sector * c.sect_size)) :
      f.mem a = r.chip.mem a := hf ▸ kept_cell ha
  have houtside (a : Nat) (ha : a < c.offset ∨ c.offset + env.length ≤ a) :
      (spi_flash_write c.offset env f).mem a = f.mem a := write_outside ha
  have hinside (i : Nat) (hi : i < env.length) :
      (spi_flash_write c.offset env f).mem (c.offset + i) = env[i] :=
    write_erased hi (herased _ (by omega))
  by_cases hsmall : c.sect_size > c.env_size
  · rw [if_pos hsmall] at h ⊢
    rw [send_ok h]
    have hsectors := sector_of_le (Nat.not_lt.mpr hsmall.le)
    have hbuffer := hsaved hsmall
    have hlength : saved_buffer.length = c.sect_size - c.env_size := by
      rw [hbuffer, length_slice, Config.saved_size]
    have hrest (a : Nat) (ha : a < c.saved_offset ∨ c.saved_offset + saved_buffer.length ≤ a) :
        (spi_flash_write c.saved_offset saved_buffer (spi_flash_write c.offset env f)).mem a =
          (spi_flash_write c.offset env f).mem a := write_outside ha
    rw [hlength] at hrest
    have hoffset : c.saved_offset = c.offset + c.env_size := rfl
    refine ⟨fun i hi => ?_, fun a ha => ?_, fun a ha => ?_, fun a hle hlt => ?_⟩
    · exact (hrest _ (by omega)).trans (hinside i hi)
    · exact (hrest _ (by omega)).trans ((houtside _ (by omega)).trans (hkept _ (by omega)))
    · exact (hrest _ (by omega)).trans ((houtside _ (by omega)).trans (hkept _ (by omega)))
    · obtain ⟨i, rfl⟩ := Nat.exists_eq_add_of_le hle
      have hi : i < saved_buffer.length := by omega
      have hblank : (spi_flash_write c.offset env f).mem (c.saved_offset + i) =
          BitVec.allOnes 8 := (houtside _ (by omega)).trans (herased _ (by omega))
      rw [if_pos hsmall]
      refine (write_erased hi hblank).trans ?_
      simp only [hbuffer, slice, List.getElem_map, List.getElem_range]
      rfl
  · rw [if_neg hsmall] at h ⊢
    refine ⟨hinside, fun a ha => ?_, fun a ha => ?_, fun a hle hlt => ?_⟩
    · exact (houtside _ (by omega)).trans (hkept _ (by omega))
    · exact (houtside _ (by omega)).trans (hkept _ (by omega))
    · rw [if_neg hsmall]
      exact (houtside _ (by omega)).trans (herased _ (by omega))

/-! ## Calls -/

/-- A call that comes to the erase has read what is behind the environment in its sector. -/
theorem saveenv_cases (c : Config) (bus : Bus Flash) (env_flash malloc : Bool)
    (env : List Byte) (mem : Nat → Byte) (n : Nat) :
    (∃ r, saveenv c bus env_flash malloc env ⟨⟨mem⟩, n⟩ = ⟨false, false, r⟩ ∧
        ∀ a, r.chip.mem a = mem a) ∨
      ∃ k saved_buffer, (c.sect_size > c.env_size →
          saved_buffer = slice mem c.saved_offset c.saved_size) ∧
        saveenv c bus env_flash malloc env ⟨⟨mem⟩, n⟩ =
          ⟨(eraseAndWrite c bus env saved_buffer ⟨⟨mem⟩, k⟩).1, true,
            (eraseAndWrite c bus env saved_buffer ⟨⟨mem⟩, k⟩).2⟩ := by
  rw [saveenv]
  split
  · exact .inl ⟨_, rfl, fun _ => rfl⟩
  · split
    · split
      · exact .inl ⟨_, rfl, fun _ => rfl⟩
      · rw [Bus.send]
        by_cases hok : bus.answers n = true
        · rw [if_pos hok]
          exact .inr ⟨n + 1, _, fun _ => rfl, rfl⟩
        · rw [if_neg hok]
          exact .inl ⟨_, rfl, fun a => bus.broken_eq n ⟨mem⟩ ⟨mem⟩ a rfl⟩
    · next hlarge => exact .inr ⟨n, [], fun h => absurd h hlarge, rfl⟩

theorem saveenv_done {env_flash malloc : Bool} {env : List Byte} {mem : Nat → Byte} {n : Nat}
    (henv : env.length = c.env_size)
    (h : (saveenv c bus env_flash malloc env ⟨⟨mem⟩, n⟩).zero = true) :
    Done c env mem (saveenv c bus env_flash malloc env ⟨⟨mem⟩, n⟩).run.chip.mem := by
  obtain ⟨r, heq, -⟩ | ⟨k, saved_buffer, hsaved, heq⟩ :=
    saveenv_cases c bus env_flash malloc env mem n
  · rw [heq] at h
    exact absurd h Bool.false_ne_true
  · rw [heq] at h ⊢
    exact eraseAndWrite_done henv hsaved h

theorem loads_of_done (env : Image c) {mem : Nat → Byte} {r : Spi.Run Flash}
    (h : Done c (Env.saveenv env.1) mem r.chip.mem) {bus : Bus Flash} (hbus : bus.Sound) :
    env_relocate_spec c bus true r = some (Env.saveenv env.1) := by
  have himage : slice r.chip.mem c.offset c.env_size = Env.saveenv env.1 := by
    refine List.ext_getElem (by rw [length_slice, env.2.2]) fun i hi hi' => ?_
    simp only [slice, List.getElem_map, List.getElem_range]
    exact h.env i hi'
  have hcrc : crc32 0 ((Env.saveenv env.1).drop 4) = readCrc (Env.saveenv env.1) := by
    rw [Env.saveenv, readCrc_storeWord]
    exact env.2.1.symm
  rw [env_relocate_spec, himage, if_pos ⟨rfl, hbus _, hcrc⟩]

/-- Every command succeeds. -/
def soundBus : Bus Flash := ⟨fun _ => true, fun _ before _ => before, fun _ _ _ _ _ => rfl⟩

theorem soundBus_sound : soundBus.Sound := fun _ => rfl

theorem saveenv_soundBus (env : List Byte) (mem : Nat → Byte) :
    (saveenv c soundBus true true env ⟨⟨mem⟩, 0⟩).zero = true := by
  have hwrite (saved_buffer : List Byte) (r : Spi.Run Flash) :
      (eraseAndWrite c soundBus env saved_buffer r).1 = true := by
    rw [eraseAndWrite, soundBus_sound.andThen, soundBus_sound.andThen]
    split <;> rfl
  rw [saveenv, if_neg (by decide)]
  split
  · exact hwrite _ _
  · exact hwrite _ _

/-- Nothing but the environment is changed if it is not larger than a sector, or if there is nothing
in the rest of its last sector. -/
theorem preserves_iff (c : Config) (env : Image c) (mem : Nat → Byte) :
    Preserves c env mem ↔ c.env_size ≤ c.sect_size ∨
      ∀ a, c.offset + c.env_size ≤ a → a < c.offset + c.sector * c.sect_size →
        mem a = BitVec.allOnes 8 := by
  constructor
  · intro h
    by_cases hlarge : c.env_size ≤ c.sect_size
    · exact .inl hlarge
    · refine .inr fun a hle hlt => ?_
      have hzero := saveenv_soundBus (c := c) (Env.saveenv env.1) mem
      have hframe := h.frame soundBus true true 0 hzero a (.inr hle)
      have herased := (saveenv_done env.2.2 hzero).rest a hle hlt
      rw [if_neg (by omega)] at herased
      exact hframe.symm.trans herased
  · intro h
    refine ⟨fun bus env_flash malloc n hzero bus' hbus' => ?_,
      fun bus env_flash malloc n hzero a ha => ?_,
      fun bus env_flash malloc n hfail hearly => ?_⟩
    · exact loads_of_done env (saveenv_done env.2.2 hzero) hbus'
    · have hdone := saveenv_done env.2.2 hzero
      obtain hbefore | hbehind := ha
      · exact hdone.before a hbefore
      · by_cases hlt : a < c.offset + c.sector * c.sect_size
        · have hrest := hdone.rest a hbehind hlt
          split at hrest
          · exact hrest
          · next hnot =>
              obtain hle | hblank := h
              · have hsectors := sector_of_le (Nat.not_lt.mpr hle)
                omega
              · exact hrest.trans (hblank a hbehind hlt).symm
        · exact hdone.behind a (Nat.le_of_not_lt hlt)
    · obtain ⟨r, heq, hkept⟩ | ⟨k, saved_buffer, -, heq⟩ :=
        saveenv_cases c bus env_flash malloc (Env.saveenv env.1) mem n
      · rw [heq]
        exact hkept
      · rw [heq] at hearly
        exact absurd (show true = false from hearly) (by decide)

/-- An environment of 12 bytes in sectors of 8. -/
def twelveInEight : Config := ⟨0, 12, 8, by decide, by decide⟩

/-- Eight bytes of data with their checksum. -/
def eightBytes : Image twelveInEight :=
  ⟨⟨crc32 0 (List.replicate 8 0), List.replicate 8 0, 0, 0, 0, 0, []⟩, rfl, rfl⟩

/-- What is behind the environment in its second sector is lost. -/
theorem not_preserves : ¬∀ (c : Config) (env : Image c) (mem : Nat → Byte), Preserves c env mem := by
  intro h
  have hzero := saveenv_soundBus (c := twelveInEight) (Env.saveenv eightBytes.1) fun _ => 0
  have hframe := (h twelveInEight eightBytes fun _ => 0).frame soundBus true true 0 hzero 12
    (.inr (by decide))
  have herased := (saveenv_done (c := twelveInEight) eightBytes.2.2 hzero).rest 12
    (by decide) (by decide)
  rw [if_neg (by decide), hframe] at herased
  exact absurd herased (by decide)

end UBoot.EnvSf
