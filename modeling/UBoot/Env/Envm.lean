/-
# The checksum of the environment in RAM

`_do_setenv` changes the data in two steps, the deletion of the old definition
and the append of the new one, and calls `env_crc_update` behind them. One exit lies
between: a new definition that does not fit is reported after the deletion, and
the checksum stays that of the data before it.

`common/env_envm.c` writes the RAM copy as it is and checks it at the next boot 64
bytes at a time, so that an image saved after such a call is thrown away.
-/

import UBoot.Env.CmdNvedit
import UBoot.Lib.Run

namespace UBoot.Env

open UBoot.Lib

/-- The checksum matches the data. -/
def EnvRam.CrcOk (env : EnvRam) : Prop :=
  env.crc = crc32 0 env.data

instance EnvRam.decidableCrcOk (env : EnvRam) : Decidable env.CrcOk :=
  inferInstanceAs (Decidable (_ = _))

/-! ## `env_envm.c` -/

/-- The bytes of a word in memory. -/
def storeWord (w : BitVec 32) : List Byte :=
  [w.setWidth 8, (w >>> 8).setWidth 8, (w >>> 16).setWidth 8, (w >>> 24).setWidth 8]

/-- `memcpy(&crc, CONFIG_ENV_ADDR + offsetof(env_t, crc), sizeof(ulong))` -/
def readCrc (image : List Byte) : BitVec 32 :=
  Crc32.loadWord (image.getD 0 0) (image.getD 1 0) (image.getD 2 0) (image.getD 3 0)

/-- `saveenv`, when `envm_write` succeeds: the `env_t` at `CONFIG_ENV_ADDR`. -/
def saveenv (env : EnvRam) : List Byte :=
  storeWord env.crc ++ env.data

/-- The loop of `env_init`; a round takes as many bytes as `buf` has. -/
def crcInPieces (new : BitVec 32) (data : List Byte) : Nat → BitVec 32
  | 0 => new
  | fuel + 1 =>
      if data = [] then new else crcInPieces (crc32 new (data.take 64)) (data.drop 64) fuel

/-- `gd->env_addr`: `offsetof(env_t, data)` or `default_environment`. -/
inductive EnvmAddr
  | data
  | default_environment
  deriving DecidableEq

/-- `env_init` on the stored image: `gd->env_addr` and `gd->env_valid`, which are
left alone if an environment is known to be valid already. -/
def env_init (image : List Byte) (gd : EnvmAddr × Nat) : EnvmAddr × Nat :=
  if gd.2 = 0 then
    if readCrc image = crcInPieces 0 (image.drop 4) (image.drop 4).length then (.data, 1)
    else (.default_environment, 0)
  else gd

theorem readCrc_storeWord (crc : BitVec 32) (data : List Byte) :
    readCrc (storeWord crc ++ data) = crc := by
  simp only [readCrc, storeWord, List.cons_append, List.nil_append, List.getD_cons_zero,
    List.getD_cons_succ, Crc32.loadWord]
  ext i hi
  simp
  grind

/-- Checking in pieces is checking at once. -/
theorem crcInPieces_eq (new : BitVec 32) (data : List Byte) (fuel : Nat)
    (h : data.length ≤ fuel) : crcInPieces new data fuel = crc32 new data := by
  have nil_eq : ∀ crc, crc32 crc [] = crc := fun crc => by
    simp [crc32, Crc32.crc32NoComp_eq_foldl]
  induction fuel generalizing new data with
  | zero =>
      obtain rfl : data = [] := List.eq_nil_of_length_eq_zero (Nat.le_zero.mp h)
      exact (nil_eq new).symm
  | succ fuel ih =>
      rw [crcInPieces]
      split
      · next hnil => rw [hnil, nil_eq]
      · next hne =>
          have hpos := List.length_pos_of_ne_nil hne
          rw [ih _ _ (by rw [List.length_drop]; omega), ← crc32_append, List.take_append_drop]

/-- An image whose checksum matches is accepted at the next boot. -/
theorem env_init_saveenv {env : EnvRam} (h : env.CrcOk) (addr : EnvmAddr) :
    env_init (saveenv env) (addr, 0) = (.data, 1) := by
  simp only [env_init, if_true, saveenv, readCrc_storeWord, crcInPieces_eq _ _ _ le_rfl]
  exact if_pos h

/-! ## The exits of `_do_setenv` -/

/-- The new definition does not fit behind the table. -/
def Overflows (args : Args) (data : List Byte) : Prop :=
  3 ≤ args.argc ∧ args.word 0 ≠ none ∧ ∃ at_end vals, endOfVars data = .ok at_end ∧
    args.vals = .ok vals ∧ data.length - at_end < defLength args.name vals

/-- The branch that goes wrong: a definition that exists has been deleted, and the
new one does not fit. -/
def LateOverflow (cfg : Config) (env : EnvRam) (args : Args) : Prop :=
  ∃ old env₁, findOld env.data args.name = .ok (some old) ∧
    removeOld cfg args { env with env_id := env.env_id + 1 } old = .ok (none, env₁) ∧
    Overflows args env₁.data

theorem bind_eq_ok {α β : Type} {m : Checked α} {k : α → Checked β} {b : β} :
    m >>= k = .ok b ↔ ∃ a, m = .ok a ∧ k a = .ok b := by
  cases m with
  | error e =>
      refine ⟨fun h => (nomatch h), ?_⟩
      rintro ⟨a, h, -⟩
      cases h
  | ok a =>
      refine ⟨fun h => ⟨a, rfl, h⟩, ?_⟩
      rintro ⟨_, h, hk⟩
      cases h
      exact hk

theorem followChange_crcOk (cfg : Config) (name val : CString) {env : EnvRam} (h : env.CrcOk) :
    (followChange cfg name val env).CrcOk := by
  unfold followChange
  split_ifs <;> exact h

/-- The end of a call leaves the checksum right, or it overflows and leaves the
environment as it was. -/
theorem define_crc {cfg : Config} {args : Args} {env env' : EnvRam} {rc : Nat}
    (h : define cfg args env = .ok (rc, env')) :
    env'.CrcOk ∨ (env' = env ∧ Overflows args env.data) := by
  unfold define at h
  cases hword : args.word 0 with
  | none =>
      simp only [hword] at h
      cases h
      exact .inl rfl
  | some val =>
      simp only [hword] at h
      split at h
      · cases h
        exact .inl rfl
      · next hargc =>
          obtain ⟨at_end, hend, h⟩ := bind_eq_ok.mp h
          obtain ⟨vals, hvals, h⟩ := bind_eq_ok.mp h
          split at h
          · next hfull =>
              cases h
              exact .inr ⟨rfl, by omega, by simp [hword], at_end, vals, hend, hvals, hfull⟩
          · obtain ⟨data, -, h⟩ := bind_eq_ok.mp h
            cases h
            exact .inl (followChange_crcOk _ _ _ rfl)

/-- A call that ends before the deletion leaves the environment as it was. -/
theorem removeOld_stop {cfg : Config} {args : Args} {env env' : EnvRam} {old : Found} {rc : Nat}
    (h : removeOld cfg args env old = .ok (some rc, env')) : env' = env := by
  unfold removeOld at h
  obtain ⟨cant, -, h⟩ := bind_eq_ok.mp h
  split at h
  · cases h
    rfl
  · obtain ⟨switched, -, h⟩ := bind_eq_ok.mp h
    cases switched with
    | none =>
        cases h
        rfl
    | some env₁ =>
        obtain ⟨data, -, h⟩ := bind_eq_ok.mp h
        cases h

/-- A call that returns keeps the checksum right, unless it takes that branch. -/
theorem _do_setenv_crcOk {cfg : Config} {args : Args} {env env' : EnvRam} {rc : Nat}
    (h : _do_setenv cfg args env = .ok (rc, env')) (hcrc : env.CrcOk)
    (hlate : ¬ LateOverflow cfg env args) : env'.CrcOk := by
  have counted : EnvRam.CrcOk { env with env_id := env.env_id + 1 } := hcrc
  unfold _do_setenv at h
  split at h
  · cases h
    exact hcrc
  · obtain ⟨old, hfind, h⟩ := bind_eq_ok.mp h
    obtain ⟨console, -, h⟩ := bind_eq_ok.mp h
    cases console with
    | some rc =>
        cases h
        exact counted
    | none =>
        cases old with
        | none =>
            rcases define_crc h with hok | ⟨rfl, -⟩
            · exact hok
            · exact counted
        | some old =>
            obtain ⟨⟨stop, env₁⟩, hremove, h⟩ := bind_eq_ok.mp h
            cases stop with
            | some rc =>
                cases h
                rw [removeOld_stop hremove]
                exact counted
            | none =>
                rcases define_crc h with hok | ⟨-, hfull⟩
                · exact hok
                · exact absurd ⟨old, env₁, hfind, hremove, hfull⟩ hlate

/-! ## Sequences of calls -/

/-- In every sequence of calls that return, none of which overflows after a
deletion, the checksum is right after each call, and the image that would be saved
then is accepted by the next boot. -/
theorem setenv_keeps_crc (cfg : Config) (env env' : EnvRam) (calls : List Args)
    (hcrc : env.CrcOk)
    (run : Run (fun env args env' => ¬ LateOverflow cfg env args ∧
      ∃ rc, _do_setenv cfg args env = .ok (rc, env')) env calls env') :
    env'.CrcOk ∧ ∀ addr, env_init (saveenv env') (addr, 0) = (.data, 1) := by
  have kept : env'.CrcOk := by
    refine run.invariant (I := EnvRam.CrcOk) ?_ hcrc
    rintro env args env' h ⟨safe, rc, taken⟩
    exact _do_setenv_crcOk taken h safe
  exact ⟨kept, env_init_saveenv kept⟩

/-! ## Concrete calls -/

/-- A build without protected variables, and a buffer of 8 bytes that holds `a=b`. -/
def smallBuild : Config := ⟨true, false, none, false, false, []⟩

/-- The RAM copy of that buffer. -/
def smallRam : EnvRam :=
  env_crc_update ⟨0, ascii "a=b" ++ List.replicate 5 0#8, 1, 0, 0, 0, []⟩

/-- `setenv a` followed by one value. -/
def setA (value : CString) : Args := ⟨0, 3, ⟨ascii "a", by decide⟩, [some value], 0⟩

/-- A value that fits. -/
theorem setenv_keeps_crc_fitting : ∃ env', (∃ rc, _do_setenv smallBuild
      (setA ⟨ascii "cde", by decide⟩) smallRam = .ok (rc, env')) ∧
    env'.CrcOk ∧ ∀ addr, env_init (saveenv env') (addr, 0) = (.data, 1) := by
  let deleted : List Byte := 0#8 :: 0#8 :: 0x62#8 :: List.replicate 5 0#8
  let after := env_crc_update { smallRam with
    data := ascii "a=cde" ++ List.replicate 3 0#8, env_id := 2 }
  have run : _do_setenv smallBuild (setA ⟨ascii "cde", by decide⟩) smallRam = .ok (0, after) := by
    rfl
  refine ⟨after, ⟨0, run⟩, setenv_keeps_crc smallBuild smallRam after
    [setA ⟨ascii "cde", by decide⟩] rfl (.cons ⟨?_, 0, run⟩ (.nil _))⟩
  rintro ⟨old, env₁, hfind, hremove, -, -, at_end, vals, hend, hvals, hfull⟩
  have found : findOld smallRam.data ⟨ascii "a", by decide⟩ = .ok (some ⟨0, 3, 2⟩) := by rfl
  obtain rfl : ⟨0, 3, 2⟩ = old := by
    have := found.symm.trans hfind
    simpa using this
  have removed : removeOld smallBuild (setA ⟨ascii "cde", by decide⟩)
      { smallRam with env_id := smallRam.env_id + 1 } ⟨0, 3, 2⟩ =
      .ok (none, { smallRam with env_id := 2, data := deleted }) := by rfl
  have hdata : env₁.data = deleted := by
    have := removed.symm.trans hremove
    simp only [Except.ok.injEq, Prod.mk.injEq, true_and] at this
    rw [← this]
  rw [hdata] at hend hfull
  have hend' : endOfVars deleted = .ok 0 := by rfl
  have hvals' : (setA ⟨ascii "cde", by decide⟩).vals = .ok [⟨ascii "cde", by decide⟩] := by rfl
  obtain rfl : 0 = at_end := by simpa using hend'.symm.trans hend
  obtain rfl : [⟨ascii "cde", by decide⟩] = vals := by simpa using hvals'.symm.trans hvals
  exact absurd hfull (by decide)

/-- The defect: a value of five bytes does not fit, the old definition is gone, and
the checksum is still that of the buffer with it. -/
theorem not_setenv_keeps_crc :
    ¬ ∀ (cfg : Config) (env env' : EnvRam) (calls : List Args), env.CrcOk →
      Run (fun env args env' => ∃ rc, _do_setenv cfg args env = .ok (rc, env')) env calls env' →
      env'.CrcOk ∧ ∀ addr, env_init (saveenv env') (addr, 0) = (.data, 1) := by
  intro h
  let late : EnvRam :=
    { smallRam with data := 0#8 :: 0#8 :: 0x62#8 :: List.replicate 5 0#8, env_id := 2 }
  have run : _do_setenv smallBuild (setA ⟨ascii "cdefg", by decide⟩) smallRam = .ok (1, late) := by
    rfl
  have kept := (h smallBuild smallRam late _ rfl (.cons ⟨1, run⟩ (.nil _))).1
  exact absurd kept (by decide +kernel)

end UBoot.Env
