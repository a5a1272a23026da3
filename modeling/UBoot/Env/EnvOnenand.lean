/-
# The environment in OneNAND

`common/env_onenand.c` reads, checks and writes `ONENAND_MAX_ENV_SIZE` bytes, where the buffer has
`CONFIG_ENV_SIZE` bytes and the default environment as many as it needs. A computation ends in a
`Fault` where one of the two is left. Variables are set by `_do_setenv` in between, and what the
buffer holds before it is loaded is arbitrary.
-/

import UBoot.Env.Envm
import UBoot.Env.SetenvRefines

namespace UBoot.EnvOnenand

open UBoot.Lib UBoot.Env

def ONENAND_MAX_ENV_SIZE : Nat := 4096
def ENV_HEADER_SIZE : Nat := 4
def ONENAND_ENV_SIZE : Nat := ONENAND_MAX_ENV_SIZE - ENV_HEADER_SIZE
def MAX_ONENAND_PAGESIZE : Nat := 4096 + 128

/-- What is read and written at once. -/
abbrev Image := { image : List Byte // image.length = ONENAND_MAX_ENV_SIZE }

/-- What a build fixes. The default environment is a table of variables, and has room. -/
structure Build where
  CONFIG_ENV_SIZE : Nat
  CONFIG_ENV_ADDR : Nat
  /-- `CONFIG_ENV_ADDR_FLEX` and `CONFIG_ENV_SIZE_FLEX` -/
  flex : Option (Nat × { size : Nat // 0 < size })
  default_environment : List Byte
  defaults : EnvMap
  holds : Holds default_environment defaults
  fits : default_environment.length ≤ CONFIG_ENV_SIZE - ENV_HEADER_SIZE

/-- `ENV_SIZE` -/
def Build.ENV_SIZE (b : Build) : Nat := b.CONFIG_ENV_SIZE - ENV_HEADER_SIZE

/-- The fields of `onenand_mtd` and `onenand_chip` that are used. -/
structure Mtd where
  writesize : Nat
  FLEXONENAND : Bool
  /-- `eraseregions[0].numblocks` -/
  numblocks : Nat

/-- The driver, over the state of the chip. A read may fail and leave the buffer as it is. What is
written to an erased area is what is read from it. -/
structure Driver (σ : Type) where
  read : Nat → σ → Option Image
  erase : Nat → Nat → σ → Int × σ
  write : Nat → Image → σ → Int × σ
  read_write : ∀ addr len image s, 0 < len → (erase addr len s).1 = 0 →
    (write addr image (erase addr len s).2).1 = 0 →
    read addr (write addr image (erase addr len s).2).2 = some image

variable (b : Build) (mtd : Mtd) {σ : Type} (driver : Driver σ)

/-- `env_addr` -/
def env_addr : Nat :=
  match b.flex with
  | some (CONFIG_ENV_ADDR_FLEX, _) =>
      if mtd.FLEXONENAND then CONFIG_ENV_ADDR_FLEX else b.CONFIG_ENV_ADDR
  | none => b.CONFIG_ENV_ADDR

/-- `instr.len` -/
def instr_len : Nat :=
  match b.flex with
  | some (_, CONFIG_ENV_SIZE_FLEX) =>
      if mtd.FLEXONENAND then CONFIG_ENV_SIZE_FLEX.1 <<< (if mtd.numblocks = 1 then 1 else 0)
      else b.CONFIG_ENV_SIZE
  | none => b.CONFIG_ENV_SIZE

/-! ## Loading -/

/-- The buffer with another checksum, and data that replace as many bytes as an image has. -/
def fill (env : EnvRam) (crc : BitVec 32) (data : List Byte) : EnvRam :=
  { env with crc := crc, data := data ++ env.data.drop ONENAND_ENV_SIZE }

/-- An image is read to `env_ptr`. -/
def readImage (image : Image) (env : EnvRam) : Checked EnvRam :=
  if ONENAND_ENV_SIZE ≤ env.ENV_SIZE then
    .ok (fill env (readCrc image.1) (image.1.drop ENV_HEADER_SIZE))
  else .error .outOfBuffer

/-- `Check OneNAND exist` -/
def readEnv (s : σ) (env : EnvRam) : Checked (Mtd × EnvRam) :=
  if mtd.writesize ≠ 0 then
    match driver.read (env_addr b mtd) s with
    | some image => (readImage image env).map (mtd, ·)
    | none => .ok (mtd, env)
  else .ok ({ mtd with writesize := MAX_ONENAND_PAGESIZE }, env)

/-- `crc32(0, env_ptr->data, ONENAND_ENV_SIZE(mtd))` -/
def dataCrc (env : EnvRam) : Checked (BitVec 32) :=
  if ONENAND_ENV_SIZE ≤ env.ENV_SIZE then .ok (crc32 0 (env.data.take ONENAND_ENV_SIZE))
  else .error .outOfBuffer

/-- `memcpy(env_ptr->data, default_environment, ONENAND_ENV_SIZE(mtd))` -/
def copyDefault (env : EnvRam) : Checked EnvRam :=
  if ONENAND_ENV_SIZE ≤ b.default_environment.length ∧ ONENAND_ENV_SIZE ≤ env.ENV_SIZE then
    .ok (fill env env.crc (b.default_environment.take ONENAND_ENV_SIZE))
  else .error .outOfBuffer

/-- `env_relocate_spec` -/
def env_relocate_spec (s : σ) (env : EnvRam) : Checked (Mtd × EnvRam) := do
  let (mtd, env) ← readEnv b mtd driver s env
  if (← dataCrc env) ≠ env.crc then
    let env ← copyDefault b env
    return (mtd, { env with crc := ← dataCrc env })
  return (mtd, env)

/-- `set_default_env` -/
def set_default_env (env : EnvRam) : EnvRam :=
  if b.default_environment.length > env.ENV_SIZE then env
  else env_crc_update { env with
    data := b.default_environment ++
      List.replicate (env.ENV_SIZE - b.default_environment.length) 0#8 }

/-- `env_init`: `gd->env_valid`. -/
def env_init : Nat := 1

/-- `env_relocate`, with the buffer at `env_ptr`. -/
def env_relocate (env_valid : Nat) (s : σ) (env : EnvRam) : Checked (Mtd × EnvRam) :=
  if env_valid = 0 then .ok (mtd, set_default_env b env)
  else env_relocate_spec b mtd driver s env

/-! ## Saving -/

/-- The first bytes of what `env_ptr` points to. -/
def imageOf (env : EnvRam) : Checked Image :=
  if h : ONENAND_ENV_SIZE ≤ env.ENV_SIZE then
    .ok ⟨storeWord env.crc ++ env.data.take ONENAND_ENV_SIZE, by
      rw [List.length_append, List.length_take_of_le h]
      rfl⟩
  else .error .outOfBuffer

/-- `saveenv` -/
def saveenv (s : σ) (env : EnvRam) : Checked (Int × EnvRam × σ) := do
  let (ret, s) := driver.erase (env_addr b mtd) (instr_len b mtd) s
  if ret ≠ 0 then return (1, env, s)
  let env := { env with crc := ← dataCrc env }
  let (ret, s) := driver.write (env_addr b mtd) (← imageOf env) s
  if ret ≠ 0 then return (2, env, s)
  return (0, env, s)

/-! ## What should hold -/

/-- What `env_ptr` points to when it is allocated, and the variables beside it. -/
abbrev Buffer := { env : EnvRam // env.ENV_SIZE = b.ENV_SIZE }

/-- The checksum of an image matches. -/
def Accepted (image : Image) : Prop :=
  crc32 0 (image.1.drop ENV_HEADER_SIZE) = readCrc image.1

/-- The device holds an image with a checksum that matches. -/
def Stored (s : σ) (image : Image) : Prop :=
  mtd.writesize ≠ 0 ∧ driver.read (env_addr b mtd) s = some image ∧ Accepted image

/-- A call of `_do_setenv` that reads no missing argument, on the variables. -/
def Sets (cfg : Config) (m : EnvMap) (args : Args) (m' : EnvMap) : Prop :=
  SafeArgs cfg m args ∧ m' = m.setenv cfg b.ENV_SIZE args

/-- The next boot accepts the stored image, and loads the variables. -/
def Loads (s : σ) (heap : Buffer b) (m : EnvMap) : Prop :=
  (∃ image, Stored b mtd driver s image) ∧
    ∃ mtd' env, env_relocate b mtd driver env_init s heap.1 = .ok (mtd', env) ∧ Holds env.data m

/-- A save stays inside of the buffer, and if it reports success the variables are loaded. -/
def Saves (mtd' : Mtd) (s : σ) (env : EnvRam) (heap : Buffer b) (m : EnvMap) : Prop :=
  ∃ ret env' s', saveenv b mtd' driver s env = .ok (ret, env', s') ∧
    (ret = 0 → Loads b mtd driver s' heap m)

/-- A boot stays inside of the buffer and of the default environment, which it takes unless an image
is stored. What `_do_setenv` makes of the variables is saved. -/
def Boots (cfg : Config) (calls : List Args) (s : σ) (heap heap' : Buffer b) : Prop :=
  ∃ mtd' env, env_relocate b mtd driver env_init s heap.1 = .ok (mtd', env) ∧
    ((¬∃ image, Stored b mtd driver s image) →
      Holds env.data b.defaults ∧ env.crc = crc32 0 (env.data.take ONENAND_ENV_SIZE)) ∧
    ∀ m m', Holds env.data m → Run (Sets b cfg) m calls m' →
      ∃ env', setenvAll cfg calls env = .ok env' ∧ Holds env'.data m' ∧
        Saves b mtd driver mtd' s env' heap' m'

/-- The environment keeps its variables, whatever driver delivers what is found on the device, and
whatever the buffer holds before. -/
def EnvRight (cfg : Config) (calls : List Args) (found : Option Image) : Prop :=
  ∀ (σ : Type) (driver : Driver σ) (s : σ), driver.read (env_addr b mtd) s = found →
    ∀ heap heap' : Buffer b, Boots b mtd driver cfg calls s heap heap'

/-- The size of the variables with their end. -/
def used (m : EnvMap) : Nat := (encode m.entries).length

/-- What a boot copies to the buffer. -/
def loaded (image : Image) : List Byte :=
  if crc32 0 (image.1.drop ENV_HEADER_SIZE) = readCrc image.1 then image.1.drop ENV_HEADER_SIZE
  else b.default_environment.take ONENAND_ENV_SIZE

/-- The buffer has room for an image, and one can be read. The default environment, where it is
needed, is as long as what is copied, and its variables end in that. All variables that are reached
fit into an image. -/
structure Suits (cfg : Config) (calls : List Args) (found : Option Image) : Prop where
  room : ONENAND_MAX_ENV_SIZE ≤ b.CONFIG_ENV_SIZE
  present : mtd.writesize ≠ 0
  image : ∃ image, found = some image ∧
    (¬Accepted image →
      ONENAND_ENV_SIZE ≤ b.default_environment.length ∧ used b.defaults ≤ ONENAND_ENV_SIZE) ∧
    ∀ rest m m', rest.length = b.CONFIG_ENV_SIZE - ONENAND_MAX_ENV_SIZE →
      Holds (loaded b image ++ rest) m → Run (Sets b cfg) m calls m' → used m' ≤ ONENAND_ENV_SIZE

/-! ## Tables and sizes -/

theorem onenand_env_size_eq : ONENAND_ENV_SIZE = 4092 := rfl

/-- The end of a table is a NUL. -/
theorem exists_encode_eq_append_nul (vars : List Var) : ∃ front, encode vars = front ++ [0#8] := by
  unfold encode
  split
  · exact ⟨terminated 0#8 (vars.map Var.bytes) ++ [0#8], by simp⟩
  · exact ⟨_, rfl⟩

/-- With no NUL behind a part of the buffer, the variables end in that part. -/
theorem used_le_of_holds {part rest : List Byte} {m : EnvMap} (hrest : 0#8 ∉ rest)
    (h : Holds (part ++ rest) m) : used m ≤ part.length := by
  rcases List.prefix_or_prefix_of_prefix h (List.prefix_append part rest) with hpart | hpart
  · exact hpart.length_le
  · obtain ⟨front, hfront⟩ := exists_encode_eq_append_nul m.entries
    obtain ⟨more, hmore⟩ := hpart
    have hinit : more <+: rest := by
      rw [Holds, ← hmore] at h
      exact (List.prefix_append_right_inj part).mp h
    rcases List.eq_nil_or_concat more with rfl | ⟨init, last, rfl⟩
    · rw [used, ← hmore, List.append_nil]
    · rw [hfront, List.concat_eq_append, ← List.append_assoc] at hmore
      have hlast : last = 0#8 := by simpa using (List.append_inj' hmore rfl).2
      exact absurd (hinit.subset (by simp [hlast])) hrest

/-- A part of the buffer in which the variables end holds them. -/
theorem holds_take {data rest : List Byte} {m : EnvMap} {n : Nat} (h : Holds data m)
    (hused : used m ≤ n) : Holds (data.take n ++ rest) m :=
  (List.prefix_take_iff.mpr ⟨h, hused⟩).trans (List.prefix_append _ _)

section Boot

variable {b mtd driver} {s : σ} {image : Image}

theorem size_of_room (hroom : ONENAND_MAX_ENV_SIZE ≤ b.CONFIG_ENV_SIZE) (heap : Buffer b) :
    ONENAND_ENV_SIZE ≤ heap.1.ENV_SIZE := by
  rw [heap.2]
  exact Nat.sub_le_sub_right hroom _

theorem room_eq (hroom : ONENAND_MAX_ENV_SIZE ≤ b.CONFIG_ENV_SIZE) :
    ONENAND_ENV_SIZE + (b.CONFIG_ENV_SIZE - ONENAND_MAX_ENV_SIZE) = b.ENV_SIZE := by
  rw [ONENAND_MAX_ENV_SIZE] at *
  rw [onenand_env_size_eq, Build.ENV_SIZE, ENV_HEADER_SIZE]
  omega

/-- The bytes of an image that are not the checksum. -/
theorem length_image (image : Image) : (image.1.drop ENV_HEADER_SIZE).length = ONENAND_ENV_SIZE := by
  rw [List.length_drop, image.2]
  rfl

theorem size_fill {data : List Byte} (hlen : data.length = ONENAND_ENV_SIZE) (env : EnvRam)
    (crc : BitVec 32) : ONENAND_ENV_SIZE ≤ (fill env crc data).ENV_SIZE := by
  rw [EnvRam.ENV_SIZE, fill, List.length_append, hlen]
  exact Nat.le_add_right _ _

theorem fill_size (hroom : ONENAND_MAX_ENV_SIZE ≤ b.CONFIG_ENV_SIZE) {data : List Byte}
    (hlen : data.length = ONENAND_ENV_SIZE) (heap : Buffer b) (crc : BitVec 32) :
    (fill heap.1 crc data).ENV_SIZE = b.ENV_SIZE := by
  have hsize := size_of_room hroom heap
  rw [EnvRam.ENV_SIZE] at hsize
  rw [EnvRam.ENV_SIZE, fill, List.length_append, List.length_drop, hlen,
    Nat.add_sub_cancel' hsize]
  exact heap.2

/-- The checksum that is computed is that of what was filled in. -/
theorem dataCrc_fill {data : List Byte} (hlen : data.length = ONENAND_ENV_SIZE) (env : EnvRam)
    (crc : BitVec 32) : dataCrc (fill env crc data) = .ok (crc32 0 data) := by
  rw [dataCrc, if_pos (size_fill hlen env crc), fill, List.take_left' hlen]

theorem fill_fill {data : List Byte} (hlen : data.length = ONENAND_ENV_SIZE) (env : EnvRam)
    (crc crc' : BitVec 32) (data' : List Byte) :
    fill (fill env crc data) crc' data' = fill env crc' data' := by
  simp only [fill, List.drop_left' hlen]

/-- With an image to read, it is filled in and checked. -/
theorem boot_read (hroom : ONENAND_MAX_ENV_SIZE ≤ b.CONFIG_ENV_SIZE)
    (hpresent : mtd.writesize ≠ 0) (hread : driver.read (env_addr b mtd) s = some image)
    (heap : Buffer b) :
    env_relocate b mtd driver env_init s heap.1 =
      if crc32 0 (image.1.drop ENV_HEADER_SIZE) ≠ readCrc image.1 then do
        let env ← copyDefault b
          (fill heap.1 (readCrc image.1) (image.1.drop ENV_HEADER_SIZE))
        return (mtd, { env with crc := ← dataCrc env })
      else .ok (mtd, fill heap.1 (readCrc image.1) (image.1.drop ENV_HEADER_SIZE)) := by
  rw [env_relocate, if_neg (by decide), env_relocate_spec, readEnv, if_pos hpresent, hread]
  simp only [readImage, if_pos (size_of_room hroom heap), Except.map, ok_bind,
    dataCrc_fill (length_image image)]
  rfl

/-- An image that is accepted is loaded. -/
theorem boot_accepted (hroom : ONENAND_MAX_ENV_SIZE ≤ b.CONFIG_ENV_SIZE)
    (hpresent : mtd.writesize ≠ 0) (hread : driver.read (env_addr b mtd) s = some image)
    (haccepted : Accepted image) (heap : Buffer b) :
    env_relocate b mtd driver env_init s heap.1 =
      .ok (mtd, fill heap.1 (readCrc image.1) (image.1.drop ENV_HEADER_SIZE)) := by
  rw [Accepted] at haccepted
  rw [boot_read hroom hpresent hread, if_neg (not_not.mpr haccepted)]

/-- For any other image the default environment is copied, if it is long enough. -/
theorem boot_default (hroom : ONENAND_MAX_ENV_SIZE ≤ b.CONFIG_ENV_SIZE)
    (hpresent : mtd.writesize ≠ 0) (hread : driver.read (env_addr b mtd) s = some image)
    (haccepted : ¬Accepted image) (hlong : ONENAND_ENV_SIZE ≤ b.default_environment.length)
    (heap : Buffer b) :
    env_relocate b mtd driver env_init s heap.1 =
      .ok (mtd, fill heap.1 (crc32 0 (b.default_environment.take ONENAND_ENV_SIZE))
        (b.default_environment.take ONENAND_ENV_SIZE)) := by
  have hlen := length_image image
  rw [Accepted] at haccepted
  rw [boot_read hroom hpresent hread, if_pos haccepted, copyDefault,
    if_pos ⟨hlong, size_fill hlen _ _⟩, fill_fill hlen]
  simp only [ok_bind, dataCrc_fill (List.length_take_of_le hlong)]
  rfl

/-- If it is shorter, what is behind it is read. -/
theorem boot_short_default (hroom : ONENAND_MAX_ENV_SIZE ≤ b.CONFIG_ENV_SIZE)
    (hpresent : mtd.writesize ≠ 0) (hread : driver.read (env_addr b mtd) s = some image)
    (haccepted : ¬Accepted image) (hshort : ¬ONENAND_ENV_SIZE ≤ b.default_environment.length)
    (heap : Buffer b) : env_relocate b mtd driver env_init s heap.1 = .error .outOfBuffer := by
  rw [Accepted] at haccepted
  rw [boot_read hroom hpresent hread, if_pos haccepted, copyDefault, if_neg fun h => hshort h.1]
  rfl

/-- With nothing to read, what is in the buffer is taken if its checksum matches. -/
theorem boot_nothing (driver : Driver σ) (hroom : ONENAND_MAX_ENV_SIZE ≤ b.CONFIG_ENV_SIZE)
    (hnothing : mtd.writesize ≠ 0 → driver.read (env_addr b mtd) s = none) (heap : Buffer b)
    (hcrc : heap.1.crc = crc32 0 (heap.1.data.take ONENAND_ENV_SIZE)) :
    ∃ mtd', env_relocate b mtd driver env_init s heap.1 = .ok (mtd', heap.1) := by
  obtain ⟨mtd', hread⟩ : ∃ mtd', readEnv b mtd driver s heap.1 = .ok (mtd', heap.1) := by
    by_cases hpresent : mtd.writesize ≠ 0
    · exact ⟨mtd, by rw [readEnv, if_pos hpresent, hnothing hpresent]⟩
    · exact ⟨_, by rw [readEnv, if_neg hpresent]⟩
  refine ⟨mtd', ?_⟩
  rw [env_relocate, if_neg (by decide), env_relocate_spec, hread]
  simp only [ok_bind, dataCrc, if_pos (size_of_room hroom heap)]
  rw [if_neg (not_not.mpr hcrc.symm)]
  rfl

/-- A smaller buffer is left. -/
theorem boot_small (hsmall : ¬ONENAND_MAX_ENV_SIZE ≤ b.CONFIG_ENV_SIZE) (heap : Buffer b) :
    env_relocate b mtd driver env_init s heap.1 = .error .outOfBuffer := by
  have hsize : ¬ONENAND_ENV_SIZE ≤ heap.1.ENV_SIZE := by
    rw [heap.2, Build.ENV_SIZE, onenand_env_size_eq, ENV_HEADER_SIZE]
    rw [ONENAND_MAX_ENV_SIZE] at hsmall
    omega
  rw [env_relocate, if_neg (by decide), env_relocate_spec, readEnv]
  by_cases hpresent : mtd.writesize ≠ 0
  · rw [if_pos hpresent]
    cases driver.read (env_addr b mtd) s with
    | some image =>
        simp only [readImage, if_neg hsize]
        rfl
    | none =>
        simp only [ok_bind, dataCrc, if_neg hsize]
        rfl
  · simp only [if_neg hpresent, ok_bind, dataCrc, if_neg hsize]
    rfl

theorem loaded_of_accepted (haccepted : Accepted image) :
    loaded b image = image.1.drop ENV_HEADER_SIZE := if_pos haccepted

theorem loaded_of_not_accepted (haccepted : ¬Accepted image) :
    loaded b image = b.default_environment.take ONENAND_ENV_SIZE := if_neg haccepted

/-- What is copied, where the default environment is not too short. -/
theorem boot_loaded (hroom : ONENAND_MAX_ENV_SIZE ≤ b.CONFIG_ENV_SIZE)
    (hpresent : mtd.writesize ≠ 0) (hread : driver.read (env_addr b mtd) s = some image)
    (hlong : ¬Accepted image → ONENAND_ENV_SIZE ≤ b.default_environment.length) (heap : Buffer b) :
    (loaded b image).length = ONENAND_ENV_SIZE ∧
      env_relocate b mtd driver env_init s heap.1 =
        .ok (mtd, fill heap.1 (crc32 0 (loaded b image)) (loaded b image)) := by
  by_cases haccepted : Accepted image
  · have hcrc : crc32 0 (image.1.drop ENV_HEADER_SIZE) = readCrc image.1 := haccepted
    rw [loaded_of_accepted haccepted, boot_accepted hroom hpresent hread haccepted heap, hcrc]
    exact ⟨length_image image, rfl⟩
  · rw [loaded_of_not_accepted haccepted,
      boot_default hroom hpresent hread haccepted (hlong haccepted) heap]
    exact ⟨List.length_take_of_le (hlong haccepted), rfl⟩

end Boot

section Save

variable {b mtd driver} {s : σ} {env : EnvRam}

/-- The image of the first bytes of a buffer. -/
def sealedImage (env : EnvRam) (hsize : ONENAND_ENV_SIZE ≤ env.ENV_SIZE) : Image :=
  ⟨storeWord (crc32 0 (env.data.take ONENAND_ENV_SIZE)) ++ env.data.take ONENAND_ENV_SIZE, by
    rw [List.length_append, List.length_take_of_le hsize]
    rfl⟩

theorem drop_sealedImage (hsize : ONENAND_ENV_SIZE ≤ env.ENV_SIZE) :
    (sealedImage env hsize).1.drop ENV_HEADER_SIZE = env.data.take ONENAND_ENV_SIZE :=
  List.drop_left' rfl

/-- What is saved is accepted. -/
theorem accepted_sealedImage (hsize : ONENAND_ENV_SIZE ≤ env.ENV_SIZE) :
    Accepted (sealedImage env hsize) := by
  rw [Accepted, drop_sealedImage, sealedImage, readCrc_storeWord]

theorem instr_len_pos (hroom : ONENAND_MAX_ENV_SIZE ≤ b.CONFIG_ENV_SIZE) : 0 < instr_len b mtd := by
  have hpos : 0 < b.CONFIG_ENV_SIZE := Nat.lt_of_lt_of_le (by decide) hroom
  unfold instr_len
  split
  · next size _ =>
      split
      · rw [Nat.shiftLeft_eq]
        exact Nat.mul_pos size.2 (Nat.pow_pos (by decide))
      · exact hpos
  · exact hpos

/-- A save writes the image, unless the area cannot be erased. -/
theorem saveenv_eq (b : Build) (mtd : Mtd) (driver : Driver σ) (s : σ)
    (hsize : ONENAND_ENV_SIZE ≤ env.ENV_SIZE) :
    ∃ ret env' s', saveenv b mtd driver s env = .ok (ret, env', s') ∧
      (ret = 0 ↔ (driver.erase (env_addr b mtd) (instr_len b mtd) s).1 = 0 ∧
        (driver.write (env_addr b mtd) (sealedImage env hsize)
          (driver.erase (env_addr b mtd) (instr_len b mtd) s).2).1 = 0) ∧
      (ret = 0 → s' = (driver.write (env_addr b mtd) (sealedImage env hsize)
        (driver.erase (env_addr b mtd) (instr_len b mtd) s).2).2) := by
  unfold saveenv
  by_cases herase : (driver.erase (env_addr b mtd) (instr_len b mtd) s).1 = 0
  · have himage : imageOf { env with crc := crc32 0 (env.data.take ONENAND_ENV_SIZE) } =
        .ok (sealedImage env hsize) := dif_pos hsize
    simp only [herase, dataCrc, if_pos hsize, ok_bind, himage]
    by_cases hwrite : (driver.write (env_addr b mtd) (sealedImage env hsize)
        (driver.erase (env_addr b mtd) (instr_len b mtd) s).2).1 = 0
    · simp only [hwrite]
      exact ⟨_, _, _, rfl, by simp, fun _ => rfl⟩
    · simp only [ne_eq, hwrite, not_false_eq_true, if_true]
      exact ⟨_, _, _, rfl, by simp, by simp⟩
  · simp only [ne_eq, herase, not_false_eq_true, if_true]
    exact ⟨_, _, _, rfl, by simp, by simp⟩

/-- The next boot loads the bytes that were written, and behind them is what the buffer holds. -/
theorem loads_sealedImage (hroom : ONENAND_MAX_ENV_SIZE ≤ b.CONFIG_ENV_SIZE)
    (hpresent : mtd.writesize ≠ 0) (hsize : ONENAND_ENV_SIZE ≤ env.ENV_SIZE)
    (hread : driver.read (env_addr b mtd) s = some (sealedImage env hsize)) (heap : Buffer b)
    (m : EnvMap) : Loads b mtd driver s heap m ↔
      Holds (env.data.take ONENAND_ENV_SIZE ++ heap.1.data.drop ONENAND_ENV_SIZE) m := by
  have haccepted := accepted_sealedImage hsize
  rw [Loads, boot_accepted hroom hpresent hread haccepted heap, drop_sealedImage]
  constructor
  · rintro ⟨-, mtd', env', hboot, hholds⟩
    cases hboot
    exact hholds
  · exact fun hholds => ⟨⟨_, hpresent, hread, haccepted⟩, _, _, rfl, hholds⟩

end Save

/-- A chip that stores what is written. -/
def chip : Driver (Option Image) where
  read _ s := s
  erase _ _ _ := (0, none)
  write _ image _ := (0, some image)
  read_write _ _ _ _ _ _ _ := rfl

/-- A buffer with no NUL in it, and the checksum of what it holds. -/
def marked : Buffer b :=
  ⟨⟨crc32 0 ((List.replicate b.ENV_SIZE 1#8).take ONENAND_ENV_SIZE),
    List.replicate b.ENV_SIZE 1#8, 1, 0, 0, 0, []⟩, List.length_replicate⟩

theorem nul_notMem_drop_marked (n : Nat) : 0#8 ∉ (marked b).1.data.drop n := fun h => by
  have h := List.eq_of_mem_replicate (List.mem_of_mem_drop h)
  exact absurd h (by decide)

theorem used_pos (m : EnvMap) : 0 < used m := by
  obtain ⟨front, hfront⟩ := exists_encode_eq_append_nul m.entries
  rw [used, hfront, List.length_append]
  exact Nat.lt_of_lt_of_le Nat.zero_lt_one (Nat.le_add_left _ _)

section Right

variable {b mtd} {cfg : Config} {calls : List Args} {found : Option Image}

/-- In a suitable build every boot, every sequence of calls and every save is right. -/
theorem envRight_of_suits (suits : Suits b mtd cfg calls found) : EnvRight b mtd cfg calls found := by
  intro σ driver s hfound heap heap'
  obtain ⟨hroom, hpresent, image, rfl, hdefault, hfits⟩ := suits
  obtain ⟨hlen, hboot⟩ := boot_loaded hroom hpresent hfound (fun h => (hdefault h).1) heap
  have hsize := size_fill hlen heap.1 (crc32 0 (loaded b image))
  have hENV_SIZE := fill_size hroom hlen heap (crc32 0 (loaded b image))
  refine ⟨mtd, _, hboot, fun hstored => ?_, fun m m' hholds hrun => ?_⟩
  · have haccepted : ¬Accepted image := fun h => hstored ⟨image, hpresent, hfound, h⟩
    constructor
    · rw [fill, loaded_of_not_accepted haccepted]
      exact holds_take b.holds (hdefault haccepted).2
    · rw [fill, List.take_left' hlen]
  · have hused : used m' ≤ ONENAND_ENV_SIZE := by
      refine hfits (heap.1.data.drop ONENAND_ENV_SIZE) m m' ?_ hholds hrun
      rw [List.length_drop, ← EnvRam.ENV_SIZE, heap.2, Build.ENV_SIZE, Nat.sub_sub]
      rfl
    obtain ⟨env', hset, hagrees⟩ := setenv_refines_map cfg _ m m' calls hholds (by
      rw [hENV_SIZE]
      exact hrun)
    have hsize' : ONENAND_ENV_SIZE ≤ env'.ENV_SIZE := hagrees.size_eq ▸ hsize
    obtain ⟨ret, env₁, s', hsave, hret, hstate⟩ := saveenv_eq b mtd driver s hsize'
    refine ⟨env', hset, hagrees.holds, ret, env₁, s', hsave, fun hzero => ?_⟩
    obtain ⟨herase, hwrite⟩ := hret.mp hzero
    have hread := driver.read_write _ _ _ _ (instr_len_pos hroom) herase hwrite
    rw [← hstate hzero] at hread
    rw [loads_sealedImage hroom hpresent hsize' hread]
    exact holds_take hagrees.holds hused

/-- Where the chip stores what is written, a save is followed by the boot of what was saved. -/
theorem used_le_of_saves (hroom : ONENAND_MAX_ENV_SIZE ≤ b.CONFIG_ENV_SIZE)
    (hpresent : mtd.writesize ≠ 0) {env : EnvRam} (hsize : ONENAND_ENV_SIZE ≤ env.ENV_SIZE)
    {s : Option Image} {m : EnvMap} (hsaves : Saves b mtd chip mtd s env (marked b) m) :
    used m ≤ ONENAND_ENV_SIZE := by
  obtain ⟨ret, env', s', hsave, hloads⟩ := hsaves
  obtain ⟨ret', env'', s'', hsave', hret, hstate⟩ := saveenv_eq b mtd chip s hsize
  rw [hsave] at hsave'
  cases hsave'
  have hzero : ret = 0 := hret.mpr ⟨rfl, rfl⟩
  have hread : chip.read (env_addr b mtd) s' = some (sealedImage env hsize) := hstate hzero
  have hholds := (loads_sealedImage hroom hpresent hsize hread _ m).mp (hloads hzero)
  have hused := used_le_of_holds (nul_notMem_drop_marked b _) hholds
  rwa [List.length_take_of_le hsize] at hused

/-- With nothing to read, the marked buffer would be taken for the default environment. -/
theorem delivers_of_boots (hroom : ONENAND_MAX_ENV_SIZE ≤ b.CONFIG_ENV_SIZE)
    (hboots : Boots b mtd chip cfg calls found (marked b) (marked b)) :
    mtd.writesize ≠ 0 ∧ ∃ image, found = some image := by
  by_contra hnothing
  have hnone : mtd.writesize ≠ 0 → found = none := fun hpresent =>
    Option.eq_none_iff_forall_ne_some.mpr fun image himage => hnothing ⟨hpresent, image, himage⟩
  obtain ⟨mtd', env, hboot, hdefault, -⟩ := hboots
  obtain ⟨mtd'', hboot'⟩ := boot_nothing chip hroom hnone (marked b) rfl
  rw [hboot'] at hboot
  cases hboot
  have hholds := (hdefault fun ⟨image, hpresent, hread, _⟩ => hnothing ⟨hpresent, image, hread⟩).1
  have hused : used b.defaults ≤ ([] : List Byte).length :=
    used_le_of_holds (nul_notMem_drop_marked b 0) hholds
  exact absurd hused (Nat.not_le_of_lt (used_pos _))

/-- Where the default environment is taken, it is as long as what is copied, and ends in that. -/
theorem default_of_boots {image : Image} (hroom : ONENAND_MAX_ENV_SIZE ≤ b.CONFIG_ENV_SIZE)
    (hpresent : mtd.writesize ≠ 0) (haccepted : ¬Accepted image)
    (hboots : Boots b mtd chip cfg calls (some image) (marked b) (marked b)) :
    ONENAND_ENV_SIZE ≤ b.default_environment.length ∧ used b.defaults ≤ ONENAND_ENV_SIZE := by
  obtain ⟨mtd', env, hboot, hdefault, -⟩ := hboots
  have hlong : ONENAND_ENV_SIZE ≤ b.default_environment.length := by
    by_contra hshort
    rw [boot_short_default hroom hpresent rfl haccepted hshort] at hboot
    cases hboot
  rw [boot_default hroom hpresent rfl haccepted hlong] at hboot
  cases hboot
  have hnotStored : ¬∃ image', Stored b mtd chip (some image) image' := by
    rintro ⟨image', -, hread, h⟩
    cases hread
    exact haccepted h
  have hused := used_le_of_holds (nul_notMem_drop_marked b _) (hdefault hnotStored).1
  rw [List.length_take_of_le hlong] at hused
  exact ⟨hlong, hused⟩

/-- A buffer that ends in these bytes. -/
def ending (hroom : ONENAND_MAX_ENV_SIZE ≤ b.CONFIG_ENV_SIZE) (rest : List Byte)
    (hrest : rest.length = b.CONFIG_ENV_SIZE - ONENAND_MAX_ENV_SIZE) : Buffer b :=
  ⟨⟨0, List.replicate ONENAND_ENV_SIZE 0#8 ++ rest, 1, 0, 0, 0, []⟩, by
    rw [EnvRam.ENV_SIZE, List.length_append, List.length_replicate, hrest]
    exact room_eq hroom⟩

/-- What is right for every buffer and every driver is so in a suitable build. -/
theorem suits_of_envRight (hright : EnvRight b mtd cfg calls found) : Suits b mtd cfg calls found := by
  have hboots := hright (Option Image) chip found rfl
  have hroom : ONENAND_MAX_ENV_SIZE ≤ b.CONFIG_ENV_SIZE := by
    by_contra hsmall
    obtain ⟨mtd', env, hboot, -⟩ := hboots (marked b) (marked b)
    rw [boot_small hsmall] at hboot
    cases hboot
  obtain ⟨hpresent, image, rfl⟩ := delivers_of_boots hroom (hboots (marked b) (marked b))
  have hdefault (haccepted : ¬Accepted image) :=
    default_of_boots hroom hpresent haccepted (hboots (marked b) (marked b))
  refine ⟨hroom, hpresent, image, rfl, hdefault, fun rest m m' hrest hholds hrun => ?_⟩
  let heap := ending hroom rest hrest
  have hread : chip.read (env_addr b mtd) (some image) = some image := rfl
  obtain ⟨hlen, hboot'⟩ := boot_loaded hroom hpresent hread (fun h => (hdefault h).1) heap
  obtain ⟨mtd', env, hboot, -, hsets⟩ := hboots heap (marked b)
  rw [hboot'] at hboot
  cases hboot
  have hdata : heap.1.data.drop ONENAND_ENV_SIZE = rest := List.drop_left' List.length_replicate
  have hholds' : Holds (fill heap.1 (crc32 0 (loaded b image)) (loaded b image)).data m := by
    rwa [fill, hdata]
  have hENV_SIZE := fill_size hroom hlen heap (crc32 0 (loaded b image))
  obtain ⟨env', hset, -, hsaves⟩ := hsets m m' hholds' hrun
  obtain ⟨env'', hset', hagrees⟩ := setenv_refines_map cfg _ m m' calls hholds' (by
    rw [hENV_SIZE]
    exact hrun)
  rw [hset] at hset'
  cases hset'
  have hsize : ONENAND_ENV_SIZE ≤ env'.ENV_SIZE := hagrees.size_eq ▸ size_fill hlen _ _
  exact used_le_of_saves hroom hpresent hsize hsaves

end Right

/-- The environment keeps its variables exactly in a suitable build. -/
theorem envRight_iff (cfg : Config) (calls : List Args) (found : Option Image) :
    EnvRight b mtd cfg calls found ↔ Suits b mtd cfg calls found :=
  ⟨suits_of_envRight, envRight_of_suits⟩

/-! ## A build for which it does not hold -/

/-- A default environment of one variable, and room for 128 KiB. -/
def smallBuild : Build where
  CONFIG_ENV_SIZE := 0x20000
  CONFIG_ENV_ADDR := 0x260000
  flex := none
  default_environment := ascii "bootdelay=3" ++ [0#8, 0#8, 0#8]
  defaults := AList.singleton ⟨ascii "bootdelay", by decide⟩ ⟨ascii "3", by decide⟩
  holds := ⟨[0#8], by decide⟩
  fits := by decide

/-- An image whose checksum is one too large. -/
def wrongImage : Image :=
  ⟨storeWord (crc32 0 (List.replicate ONENAND_ENV_SIZE 0xff#8) + 1) ++
    List.replicate ONENAND_ENV_SIZE 0xff#8, by
      rw [List.length_append, List.length_replicate]
      rfl⟩

theorem not_accepted_wrongImage : ¬Accepted wrongImage := by
  have hdrop (crc : BitVec 32) (data : List Byte) :
      (storeWord crc ++ data).drop ENV_HEADER_SIZE = data := List.drop_left' rfl
  rw [Accepted, wrongImage, hdrop, readCrc_storeWord]
  simp

/-- The default environment is read past its end. -/
theorem not_envRight : ¬EnvRight smallBuild ⟨2048, false, 0⟩ exampleBuild [] (some wrongImage) := by
  intro hright
  have hboots := hright (Option Image) chip (some wrongImage) rfl
  have hlong := (default_of_boots (by decide) (by decide) not_accepted_wrongImage
    (hboots (marked smallBuild) (marked smallBuild))).1
  exact absurd hlong (by decide)

end UBoot.EnvOnenand
