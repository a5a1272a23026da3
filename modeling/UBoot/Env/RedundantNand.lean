/-
# The redundant environment in NAND flash

`common/env_nand.c` with `CONFIG_ENV_OFFSET_REDUND`. The flag byte of a copy is a
serial number. A save increments the serial of the environment in RAM, erases the
copy that is not in use and writes the RAM copy there; a boot takes the copy with
the newer serial.

One increment always makes the newer serial, at the wrap from 255 to 0 as well
(`newest_succ`). The save increments before the erase and the write, however, and
does not take the increment back when one of them fails. A save after failed ones
is then several increments ahead of the copy in use, and over the wrap that is
read as older.
-/

import UBoot.Env.Environment

namespace UBoot.Env.RedundantNand

open UBoot.Lib

variable {size : Nat}

/-- `gd->env_valid`, the number of the copy in use once a boot has run, and the
environment `env_ptr` points to. -/
structure Ram (size : Nat) where
  env_valid : Nat
  env_ptr : EnvT size
  deriving DecidableEq

/-- What a build fixes: the default environment, and `CONFIG_ENV_RANGE`. -/
structure Config (size : Nat) where
  default_environment : Vector Byte size
  env_range : Nat

/-- `CONFIG_ENV_SIZE`: the data, the checksum and the flag byte. -/
def env_size (size : Nat) : Nat := size + 5

/-- The area a value of `env_valid` stands for. -/
def area (env_valid : Nat) : Area :=
  if env_valid = 1 then .env else .redund

/-! ## Booting -/

/-- The comparison of the serials of two valid copies. -/
def newest (flags1 flags2 : Byte) : Nat :=
  if flags1 = 255#8 ∧ flags2 = 0#8 then 2
  else if flags2 = 255#8 ∧ flags1 = 0#8 then 1
  else if flags1 > flags2 then 1
  else if flags2 > flags1 then 2
  else 1

/-- `use_default` -/
def use_default (cfg : Config size) : Ram size :=
  ⟨1, .sealed 0xFF#8 cfg.default_environment⟩

/-- `env_relocate_spec`, both areas being readable. -/
def env_relocate_spec (cfg : Config size) (store : Store size) : Ram size :=
  let tmp_env1 := store .env
  let tmp_env2 := store .redund
  if ¬ tmp_env1.CrcOk ∧ ¬ tmp_env2.CrcOk then use_default cfg
  else
    let env_valid :=
      if tmp_env1.CrcOk ∧ ¬ tmp_env2.CrcOk then 1
      else if ¬ tmp_env1.CrcOk ∧ tmp_env2.CrcOk then 2
      else newest tmp_env1.flags tmp_env2.flags
    ⟨env_valid, if env_valid = 1 then tmp_env1 else tmp_env2⟩

/-- The reader of two valid copies takes the one in `a`. -/
def Newer (a : Area) (store : Store size) : Prop :=
  area (newest (store .env).flags (store .redund).flags) = a

instance (a : Area) (store : Store size) : Decidable (Newer a store) :=
  inferInstanceAs (Decidable (_ = _))

theorem newest_eq_one_or_two (flags1 flags2 : Byte) :
    newest flags1 flags2 = 1 ∨ newest flags1 flags2 = 2 := by
  unfold newest
  split_ifs <;> simp

/-- A serial incremented once is the newer one, whatever it was. -/
theorem newest_succ (flags : Byte) :
    newest (flags + 1#8) flags = 1 ∧ newest flags (flags + 1#8) = 2 := by
  unfold newest
  constructor <;> split_ifs <;> bv_omega

theorem newer_of_succ {a : Area} {store : Store size}
    (h : (store a).flags = (store a.other).flags + 1#8) : Newer a store := by
  unfold Newer
  cases a with
  | env =>
      rw [h]
      exact congrArg area (newest_succ (store .redund).flags).1
  | redund =>
      rw [h]
      exact congrArg area (newest_succ (store .env).flags).2

/-- A boot loads the only valid copy, or the newer of two. -/
theorem env_relocate_spec_of_newer (cfg : Config size) {a : Area} {store : Store size}
    (valid : (store a).CrcOk) (newer : (store a.other).CrcOk → Newer a store) :
    ∃ v, (v = 1 ∨ v = 2) ∧ area v = a ∧ env_relocate_spec cfg store = ⟨v, store a⟩ := by
  by_cases hother : (store a.other).CrcOk
  · have hnewer := newer hother
    have hboth : (store .env).CrcOk ∧ (store .redund).CrcOk := by
      cases a <;> simp only [Area.other] at hother <;> exact ⟨by assumption, by assumption⟩
    refine ⟨_, newest_eq_one_or_two _ _, hnewer, ?_⟩
    unfold Newer area at hnewer
    simp only [env_relocate_spec, hboth, not_true, and_true, and_false, if_false]
    split_ifs at hnewer ⊢ <;> rw [← hnewer]
  · cases a with
    | env =>
        refine ⟨1, .inl rfl, rfl, ?_⟩
        simp only [Area.other] at hother
        simp [env_relocate_spec, valid, hother]
    | redund =>
        refine ⟨2, .inr rfl, rfl, ?_⟩
        simp only [Area.other] at hother
        simp [env_relocate_spec, valid, hother]

theorem env_relocate_spec_env_valid (cfg : Config size) (store : Store size) :
    (env_relocate_spec cfg store).env_valid = 1 ∨ (env_relocate_spec cfg store).env_valid = 2 := by
  dsimp only [env_relocate_spec, use_default]
  split_ifs <;> simp [newest_eq_one_or_two]

/-! ## Saving -/

/-- How the two operations of one `saveenv` end. -/
structure SaveOps (size : Nat) where
  erase : OpEnd (Left size) := .ok
  write : OpEnd (Left size) := .ok

/-- `nand_erase_opts` of the range of a copy. -/
def nand_erase_opts (op : OpEnd (Left size)) (a : Area) : StoreM size Nat :=
  areaOp op a fun _ => erased

/-- `writeenv` -/
def writeenv (op : OpEnd (Left size)) (a : Area) (env : EnvT size) : StoreM size Nat :=
  areaOp op a fun _ => env

/-- `env_ptr->flags++` -/
def Ram.incFlags (ram : Ram size) : Ram size :=
  { ram with env_ptr := { ram.env_ptr with flags := ram.env_ptr.flags + 1#8 } }

@[simp]
theorem Ram.incFlags_env_valid (ram : Ram size) : ram.incFlags.env_valid = ram.env_valid := rfl

/-- The area the next save writes. -/
def Ram.target (ram : Ram size) : Area :=
  if ram.env_valid = 1 then .redund else .env

theorem Ram.target_eq (ram : Ram size) : ram.target = (area ram.env_valid).other := by
  unfold target area
  split_ifs <;> rfl

/-- `saveenv`: the return code and the environment in RAM. -/
def saveenv (cfg : Config size) (ops : SaveOps size) (ram : Ram size) :
    StoreM size (Nat × Ram size) := do
  let ram := ram.incFlags
  if cfg.env_range < env_size size then return (1, ram)
  if (← nand_erase_opts ops.erase ram.target) ≠ 0 then return (1, ram)
  if (← writeenv ops.write ram.target ram.env_ptr) ≠ 0 then return (1, ram)
  return (0, { ram with env_valid := if ram.env_valid = 2 then 1 else 2 })

/-- The store after a save that did not succeed: the area it was to write is as it
was, or not valid, or written nevertheless. -/
structure Unfinished (target : Area) (env : EnvT size) (before after : Store size) : Prop where
  same : after target.other = before target.other
  copy : after target = before target ∨ ¬ (after target).CrcOk ∨ after target = env

/-- Everything one save can do. -/
theorem saveenv_spec (hblank : ¬ (erased : EnvT size).CrcOk) (cfg : Config size)
    (ops : SaveOps size) (ram : Ram size) (store : Store size) :
    let env := ram.incFlags.env_ptr
    let unfinished := Unfinished ram.target env store
    Triple (fun s => s = store) (saveenv cfg ops ram)
      (fun r s => (r.1 ≠ 0 ∧ r.2 = ram.incFlags ∧ unfinished s) ∨
        (r.1 = 0 ∧ s = Function.update store ram.target env ∧ ops.erase = .ok ∧ ops.write = .ok ∧
          r.2 = { ram.incFlags with env_valid := if ram.env_valid = 2 then 1 else 2 }))
      unfinished := by
  intro env unfinished
  have hne : ram.target.other ≠ ram.target := Area.other_ne _
  have start : unfinished store := ⟨rfl, .inl rfl⟩
  have leaves (copy : EnvT size)
      (h : copy = store ram.target ∨ ¬ copy.CrcOk ∨ copy = env) :
      unfinished (Function.update store ram.target copy) :=
    ⟨by simp [hne], by simpa using h⟩
  have stop : ∀ code : Nat, code ≠ 0 → ∀ s, unfinished s →
      ((1, ram.incFlags).1 ≠ 0 ∧ (1, ram.incFlags).2 = ram.incFlags ∧ unfinished s) ∨
      ((1, ram.incFlags).1 = 0 ∧ s = Function.update store ram.target env ∧
        ops.erase = .ok ∧ ops.write = .ok ∧ (1, ram.incFlags).2 =
          { ram.incFlags with env_valid := if ram.env_valid = 2 then 1 else 2 }) :=
    fun _ _ s hs => .inl ⟨one_ne_zero, rfl, hs⟩
  unfold saveenv
  refine Triple.ite (fun _ => Triple.pure ?_) fun _ => ?_
  · rintro s rfl
    exact stop 1 one_ne_zero s start
  refine areaOp_step _ _ _ _ (fun l _ => leaves _ ?_) stop fun herase => ?_
  · cases l with
    | untouched => exact .inl rfl
    | torn t => exact .inr (.inl t.2)
    | complete => exact .inr (.inl hblank)
  refine areaOp_step _ _ _ _ (fun l _ => ?_) stop fun hwrite => ?_
  · rw [Function.update_idem]
    refine leaves _ ?_
    cases l with
    | untouched => exact .inr (.inl (by simpa [Left.apply, Ram.target] using hblank))
    | torn t => exact .inr (.inl t.2)
    | complete => exact .inr (.inr rfl)
  · rw [Function.update_idem]
    refine Triple.pure ?_
    rintro s rfl
    exact .inr ⟨rfl, rfl, herase, hwrite, rfl⟩

/-! ## Runs -/

/-- The machine and the record of its saves: the last environment saved, and those
of later attempts that did not return 0. `ram` is absent while the power is off. -/
structure World (size : Nat) where
  store : Store size
  ram : Option (Ram size)
  saved : Option (Vector Byte size)
  later : List (Vector Byte size)

/-- A machine that has not booted yet. If a copy is valid, what counts as saved is
the environment its first boot loads. -/
def World.initial (cfg : Config size) (store : Store size) : World size :=
  { store := store
    ram := none
    saved := if (store .env).CrcOk ∨ (store .redund).CrcOk then
        some (env_relocate_spec cfg store).env_ptr.data else none
    later := [] }

/-- A boot, or a save of an environment whose checksum `env_crc_update` has
brought up to date. -/
inductive Event (size : Nat)
  | boot
  | saveenv (data : Vector Byte size) (ops : SaveOps size)

/-- The RAM copy once the user has changed its data. -/
def Ram.edit (ram : Ram size) (data : Vector Byte size) : Ram size :=
  { ram with env_ptr := .sealed ram.env_ptr.flags data }

@[simp]
theorem Ram.edit_target (ram : Ram size) (data : Vector Byte size) :
    (ram.edit data).target = ram.target := rfl

@[simp]
theorem Ram.edit_incFlags_env_ptr (ram : Ram size) (data : Vector Byte size) :
    (ram.edit data).incFlags.env_ptr = .sealed (ram.env_ptr.flags + 1#8) data := rfl

/-- One event. A save needs a running machine. -/
def World.step (cfg : Config size) (w : World size) : Event size → Option (World size)
  | .boot => some { w with ram := some (env_relocate_spec cfg w.store) }
  | .saveenv data ops => do
      let ram ← w.ram
      match saveenv cfg ops (ram.edit data) w.store with
      | .ok (rc, ram') store =>
          if rc = 0 then some ⟨store, some ram', some data, []⟩
          else some { w with store := store, ram := some ram', later := data :: w.later }
      | .error _ store => some { w with store := store, ram := none, later := data :: w.later }

/-- The next boot loads a valid copy holding the last saved environment or that of
a later attempt. -/
def World.LoadsRecent (cfg : Config size) (w : World size) : Prop :=
  ∀ data, w.saved = some data → (env_relocate_spec cfg w.store).env_ptr.CrcOk ∧
    (env_relocate_spec cfg w.store).env_ptr.data ∈ data :: w.later

/-- The steps that keep away from the defect: a save that erases and writes its
copy without an error gives it a serial that is read as newer than that of the
copy in use. -/
def World.SafeStep (w : World size) : Event size → Prop
  | .boot => True
  | .saveenv data ops => ∀ ram, w.ram = some ram → ops.erase = .ok → ops.write = .ok →
      (w.store ram.target.other).CrcOk →
      Newer ram.target (Function.update w.store ram.target (ram.edit data).incFlags.env_ptr)

/-- The copy in `own` is valid and recent; if the other one is valid too, it is
recent or read as older. -/
structure Keeps (recent : Set (Vector Byte size)) (own : Area) (store : Store size) : Prop where
  crcOk : (store own).CrcOk
  mem : (store own).data ∈ recent
  other : (store own.other).CrcOk → (store own.other).data ∈ recent ∨ Newer own store

theorem Keeps.mono {recent larger : Set (Vector Byte size)} {own : Area} {store : Store size}
    (h : Keeps recent own store) (le : recent ⊆ larger) : Keeps larger own store :=
  ⟨h.crcOk, le h.mem, fun ok => (h.other ok).imp_left fun mem => le mem⟩

/-- One of two areas is read as the newer. -/
theorem newer_or_newer_other (a : Area) (store : Store size) :
    Newer a store ∨ Newer a.other store :=
  (a.eq_or_eq_other _).imp id id

/-- A boot takes a copy that is recent and can stay in use. -/
theorem env_relocate_spec_of_keeps (cfg : Config size) {recent : Set (Vector Byte size)}
    {own : Area} {store : Store size} (h : Keeps recent own store) :
    ∃ v a, (v = 1 ∨ v = 2) ∧ area v = a ∧ env_relocate_spec cfg store = ⟨v, store a⟩ ∧
      Keeps recent a store := by
  by_cases newer : (store own.other).CrcOk → Newer own store
  · obtain ⟨v, hv, ha, hrun⟩ := env_relocate_spec_of_newer cfg h.crcOk newer
    exact ⟨v, own, hv, ha, hrun, h⟩
  · obtain ⟨ok, older⟩ := Classical.not_imp.mp newer
    have mem := (h.other ok).resolve_right older
    have newer' := (newer_or_newer_other own store).resolve_left older
    obtain ⟨v, hv, ha, hrun⟩ := env_relocate_spec_of_newer cfg ok fun _ => newer'
    refine ⟨v, own.other, hv, ha, hrun, ok, mem, fun _ => .inl ?_⟩
    simpa using h.mem

/-- A save that did not succeed leaves the copy in use alone, and what it may have
put beside it is new. -/
theorem Unfinished.keeps {recent : Set (Vector Byte size)} {own : Area} {env : EnvT size}
    {before after : Store size} (effect : Unfinished own.other env before after)
    (h : Keeps recent own before) : Keeps (insert env.data recent) own after := by
  have same : after own = before own := by simpa using effect.same
  refine ⟨same ▸ h.crcOk, .inr (same ▸ h.mem), fun ok => ?_⟩
  rcases effect.copy with copy | bad | copy
  · rw [copy] at ok ⊢
    refine (h.other ok).imp .inr fun newer => ?_
    have : after = before := funext fun a => by
      rcases own.eq_or_eq_other a with rfl | rfl
      · exact same
      · exact copy
    exact this ▸ newer
  · exact absurd ok bad
  · exact .inl (by simp [copy])

/-- What every state of a run satisfies: a running machine knows which copy is in
use, and that copy is as `Keeps` says. -/
structure World.Inv (w : World size) : Prop where
  env_valid : ∀ ram, w.ram = some ram → ram.env_valid = 1 ∨ ram.env_valid = 2
  keeps : ∀ data, w.saved = some data → ∃ own, Keeps {x | x ∈ data :: w.later} own w.store ∧
    ∀ ram, w.ram = some ram → own = area ram.env_valid

theorem World.inv_initial (cfg : Config size) (store : Store size) :
    (World.initial cfg store).Inv := by
  refine ⟨fun _ h => by simp [initial] at h, fun data hdata => ?_⟩
  obtain ⟨valid, hload⟩ : ((store .env).CrcOk ∨ (store .redund).CrcOk) ∧
      (env_relocate_spec cfg store).env_ptr.data = data := by
    simpa [initial] using hdata
  obtain ⟨own, hown⟩ : ∃ own, (store own).CrcOk :=
    valid.elim (fun h => ⟨.env, h⟩) fun h => ⟨.redund, h⟩
  -- the copy the first boot takes
  obtain ⟨a, ha, newer⟩ : ∃ a, (store a).CrcOk ∧ ((store a.other).CrcOk → Newer a store) := by
    by_cases hother : (store own.other).CrcOk
    · rcases newer_or_newer_other own store with h | h
      · exact ⟨own, hown, fun _ => h⟩
      · exact ⟨own.other, hother, fun _ => h⟩
    · exact ⟨own, hown, fun h => absurd h hother⟩
  obtain ⟨v, -, -, hrun⟩ := env_relocate_spec_of_newer cfg ha newer
  rw [hrun] at hload
  refine ⟨a, ⟨ha, by simp [← hload, initial], fun ok => .inr (newer ok)⟩, fun _ h => ?_⟩
  simp [initial] at h

theorem World.inv_boot {cfg : Config size} {w w' : World size}
    (h : w.step cfg .boot = some w') (inv : w.Inv) : w'.Inv := by
  obtain rfl := Option.some.inj h
  refine ⟨fun ram hram => ?_, fun data hdata => ?_⟩
  · obtain rfl := Option.some.inj hram
    exact env_relocate_spec_env_valid cfg w.store
  · obtain ⟨own, hown, -⟩ := inv.keeps data hdata
    obtain ⟨v, a, -, ha, hrun, hkeep⟩ := env_relocate_spec_of_keeps cfg hown
    refine ⟨a, hkeep, fun ram hram => ?_⟩
    rw [← Option.some.inj hram, hrun, ha]

theorem World.inv_saveenv (hblank : ¬ (erased : EnvT size).CrcOk) {cfg : Config size}
    {data : Vector Byte size} {ops : SaveOps size} {w w' : World size}
    (h : w.step cfg (.saveenv data ops) = some w') (safe : w.SafeStep (.saveenv data ops))
    (inv : w.Inv) : w'.Inv := by
  simp only [step, Option.bind_eq_bind, Option.bind_eq_some_iff] at h
  obtain ⟨ram, hram, h⟩ := h
  have hsave := saveenv_spec hblank cfg ops (ram.edit data) w.store w.store rfl
  have hvalid := inv.env_valid ram hram
  have unfinished (store : Store size)
      (effect : Unfinished ram.target (ram.edit data).incFlags.env_ptr w.store store)
      (d : Vector Byte size) (hd : w.saved = some d) :
      Keeps {x | x ∈ d :: data :: w.later} (area ram.env_valid) store := by
    obtain ⟨own, hown, huse⟩ := inv.keeps d hd
    obtain rfl := huse ram hram
    rw [Ram.target_eq] at effect
    refine (effect.keeps hown).mono ?_
    rintro x (rfl | hx)
    · simp
    · simp only [List.mem_cons, Set.mem_ofPred_eq] at hx ⊢
      tauto
  cases hrun : saveenv cfg ops (ram.edit data) w.store with
  | ok r store =>
      obtain ⟨rc, ram'⟩ := r
      rw [hrun] at h hsave
      rcases hsave with ⟨hrc, hram', effect⟩ | ⟨hrc, hstore, herase, hwrite, hram'⟩
      · simp only [show rc ≠ 0 from hrc, if_false] at h
        obtain rfl := Option.some.inj h
        obtain rfl : ram' = _ := hram'
        exact ⟨fun _ hr => Option.some.inj hr ▸ hvalid, fun d hd =>
          ⟨area ram.env_valid, unfinished store effect d hd,
            fun _ hr => by rw [← Option.some.inj hr]; rfl⟩⟩
      · simp only [show rc = 0 from hrc, if_true] at h
        obtain rfl := Option.some.inj h
        obtain rfl : ram' = _ := hram'
        obtain rfl : store = _ := hstore
        have swap : area (if ram.env_valid = 2 then 1 else 2) = ram.target := by
          rcases hvalid with hv | hv <;> simp [hv, area, Ram.target]
        refine ⟨fun _ hr => ?_, fun d hd => ?_⟩
        · rw [← Option.some.inj hr]
          dsimp only
          split_ifs <;> simp
        · obtain rfl := Option.some.inj hd
          refine ⟨ram.target, ⟨?_, ?_, fun ok => .inr ?_⟩, fun _ hr => ?_⟩
          · simpa using EnvT.sealed_crcOk _ _
          · simp
          · exact safe ram hram herase hwrite (by simpa using ok)
          · rw [← Option.some.inj hr]
            exact swap.symm
  | error _ store =>
      rw [hrun] at h hsave
      obtain rfl := Option.some.inj h
      exact ⟨fun _ hr => by simp at hr, fun d hd =>
        ⟨_, unfinished store hsave d hd, fun _ hr => by simp at hr⟩⟩

/-- A save that is one increment ahead of the copy in use keeps away from the
defect. -/
theorem World.safeStep_of_flags_eq {w : World size} {data : Vector Byte size}
    {ops : SaveOps size}
    (h : ∀ ram, w.ram = some ram → (w.store ram.target.other).flags = ram.env_ptr.flags) :
    w.SafeStep (.saveenv data ops) := by
  intro ram hram _ _ _
  refine newer_of_succ ?_
  simp [h ram hram]

/-- A build whose range holds the environment. -/
def exampleConfig : Config 2 := ⟨.replicate 2 0, 7⟩

/-- A store with one valid copy, of the given serial. -/
def exampleStore (flags : Byte) : Store 2
  | .env => .sealed flags #v[1, 0]
  | .redund => erased

end UBoot.Env.RedundantNand
