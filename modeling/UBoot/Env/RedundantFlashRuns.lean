/-
# Runs of the redundant flash environment

Boots and saves in any order, every flash operation of which may fail or lose
power. Beside the machine the state records what has been saved: the contents of
the last save that returned 0, those of the later saves that did not, and whether
that last save left the RAM pointers as they were. The last item is the defect of
`saveenv`. After a failed restore of the rest of the sector the call returns 0,
but the next save of the same boot erases the copy just written.
-/

import UBoot.Env.RedundantFlash

namespace UBoot.Env.RedundantFlash

open UBoot.Lib

variable {size : Nat}

/-- The machine and the record of its saves. `ram` is absent while the power is
off. -/
structure World (size : Nat) where
  flash : Store size
  ram : Option (Ram size)
  saved : Option (Vector Byte size)
  later : List (Vector Byte size)
  unswapped : Bool

/-- A machine that has not booted yet. -/
def World.initial (flash : Store size) : World size :=
  ⟨flash, none, none, [], false⟩

/-- A boot, or a save of an environment whose checksum `env_crc_update` has
brought up to date. -/
inductive Event (size : Nat)
  | boot (ops : BootOps)
  | saveenv (data : Vector Byte size) (ops : SaveOps size)

/-- One event. A save needs a running machine. -/
def World.step (cfg : Config size) (w : World size) : Event size → Option (World size)
  | .boot ops =>
      match boot cfg ops w.flash with
      | .ok ram flash => some { w with flash := flash, ram := some ram, unswapped := false }
      | .error _ flash => some { w with flash := flash, ram := none, unswapped := false }
  | .saveenv data ops => do
      let ram ← w.ram
      let ram := { ram with env_ptr := .sealed ram.env_ptr.flags data }
      match saveenv cfg ops ram w.flash with
      | .ok (rc, ram') flash =>
          if rc = 0 then
            some ⟨flash, some ram', some data, [], decide (ram'.flash_addr = ram.flash_addr)⟩
          else some { w with flash := flash, ram := some ram', later := data :: w.later }
      | .error _ flash =>
          some { w with flash := flash, ram := none, later := data :: w.later, unswapped := false }

/-- What the next boot finds. `env_init` selects a valid copy holding the last
saved environment or that of a later save, `env_relocate` loads that environment
into RAM, and without a later save it is the saved one. -/
structure World.LoadsRecent (cfg : Config size) (w : World size) : Prop where
  selected : ∀ data, w.saved = some data → ∃ a v, env_init w.flash = ⟨.flash a, v⟩ ∧ v ≠ 0 ∧
    (w.flash a).CrcOk ∧ (w.flash a).data ∈ data :: w.later
  loaded : ∀ data, w.saved = some data → ∀ ops ram flash, boot cfg ops w.flash = .ok ram flash →
    ram.env_ptr.CrcOk ∧ ram.env_ptr.data ∈ data :: w.later
  exact : ∀ data, w.saved = some data → w.later = [] → ∀ ops ram flash,
    boot cfg ops w.flash = .ok ram flash → ram.env_ptr.data = data

/-- The steps that keep away from the defect: while the RAM pointers are those of
before a save that returned 0, a further save leaves the copy it rewrites either
alone or complete. -/
def World.SafeStep (cfg : Config size) (w : World size) : Event size → Prop
  | .boot _ => True
  | .saveenv _ ops => w.unswapped = true → ops.SparesCopy cfg

/-! ## Booting -/

theorem Keeps.obsolete_other {recent : Set (Vector Byte size)} {own : Area} {flash : Store size}
    (h : Keeps recent own flash) :
    Keeps recent own (Function.update flash own.other
      { flash own.other with flags := (flash own.other).flags &&& OBSOLETE_FLAG }) := by
  refine ⟨by simpa using h.inUse, fun ok => ?_⟩
  have ok' : (flash own.other).CrcOk := by simpa using ok
  rcases h.spare ok' with r | ⟨-, live⟩
  · exact .inl (by simpa [OBSOLETE_FLAG] using ⟨r.crcOk, r.mem, .inl rfl⟩)
  · exact .inr (by simpa [OBSOLETE_FLAG] using live)

theorem Keeps.activate {recent : Set (Vector Byte size)} {own : Area} {flash : Store size}
    (h : Keeps recent own flash) (bit : (flash own).flags &&& ACTIVE_FLAG = ACTIVE_FLAG) :
    Keeps recent own (Function.update flash own
      { flash own with flags := (flash own).flags &&& ACTIVE_FLAG }) := by
  refine ⟨by simpa [bit] using ⟨h.inUse.crcOk, h.inUse.mem, .inr (.inl rfl)⟩, fun ok => ?_⟩
  rcases h.spare (by simpa using ok) with r | ⟨obsolete, -⟩
  · exact .inl (by simpa using r)
  · exact .inr ⟨by simpa using obsolete, by simp only [Function.update_self, bit]; decide⟩

theorem repairFlag_spec {C : Store size → Prop} {flash : Store size} (needed : Bool)
    (op : OpEnd Bool) (a : Area) (flag : Byte) (start : C flash)
    (done : needed = true →
      C (Function.update flash a { flash a with flags := (flash a).flags &&& flag })) :
    Triple (fun s => s = flash) (repairFlag needed op a flag) (fun _ s => C s) C := by
  refine Triple.ite (fun hneeded => ?_) fun _ => ?_
  · rintro _ rfl
    rcases op with - | ⟨code, - | -⟩ | - | - <;> first | exact start | exact done hneeded
  · exact Triple.pure fun s hs => hs ▸ start

/-- Relocation takes the selected copy into use and loads it. Its repair writes
preserve whatever they preserve one by one. -/
theorem env_relocate_spec_spec {P : Store size → Prop} (own : Area) (ops : BootOps)
    (ram : Ram size) (haddr : ram.gd.env_addr = .flash own)
    (hnew : ram.flash_addr_new = ram.flash_addr.other)
    (obsolete : ∀ flash, P flash → P (Function.update flash own.other
      { flash own.other with flags := (flash own.other).flags &&& OBSOLETE_FLAG }))
    (active : ∀ flash, P flash → (flash own).flags &&& ACTIVE_FLAG = ACTIVE_FLAG →
      P (Function.update flash own
        { flash own with flags := (flash own).flags &&& ACTIVE_FLAG })) :
    Triple P (env_relocate_spec ops ram)
      (fun r s => P s ∧ r.flash_addr = own ∧ r.flash_addr_new = own.other ∧ r.env_ptr = s own)
      P := by
  have swap : (if ram.gd.env_addr ≠ .flash ram.flash_addr then
      { ram with flash_addr := ram.flash_addr_new, flash_addr_new := ram.flash_addr } else ram) =
      { ram with flash_addr := own, flash_addr_new := own.other } := by
    rcases ram.flash_addr.eq_or_eq_other own with h | h
    · simp [haddr, h, ← hnew]
    · simp [haddr, h, hnew]
  unfold env_relocate_spec
  rw [swap]
  refine Triple.get fun flash hflash => ?_
  refine (repairFlag_spec (C := P) _ _ _ _ hflash fun _ => obsolete flash hflash).bind
    fun _ => Triple.get fun flash hflash => ?_
  refine (repairFlag_spec (C := P) _ _ _ _ hflash fun hc => ?_).bind
    fun _ => Triple.get fun flash hflash => ?_
  · exact active flash hflash (of_decide_eq_true hc).2
  · refine Triple.pure ?_
    rintro _ rfl
    exact ⟨hflash, rfl, rfl, rfl⟩

/-- Booting from a flash with a recent copy loads a recent one, and being cut in
the repair writes loses none. -/
theorem boot_spec {recent : Set (Vector Byte size)} {own : Area} {flash : Store size}
    (cfg : Config size) (ops : BootOps) (h : Keeps recent own flash) :
    Triple (fun s => s = flash) (boot cfg ops)
      (fun ram s => Keeps recent ram.flash_addr s ∧ ram.env_ptr = s ram.flash_addr)
      (fun s => ∃ a, Keeps recent a s) := by
  obtain ⟨a, v, hinit, hv, ha⟩ := env_init_of_keeps h
  unfold boot
  refine Triple.get ?_
  rintro s rfl
  rw [hinit]
  simp only [hv, if_false]
  refine Triple.bind ((env_relocate_spec_spec (P := Keeps recent a) a ops _ rfl rfl
    (fun _ hk => hk.obsolete_other) fun _ hk => hk.activate).conseq (fun _ hs => hs ▸ ha)
    (fun _ _ hr => hr) fun _ hs => ⟨a, hs⟩) fun ram => ?_
  refine Triple.pure ?_
  rintro s ⟨hk, rfl, -, hload⟩
  exact ⟨hk, hload⟩

theorem env_init_addr (flash : Store size) :
    (env_init flash).env_valid = 0 ∨ ∃ a, (env_init flash).env_addr = .flash a := by
  dsimp only [env_init]
  split_ifs <;> simp

/-- Whatever is in the flash, the two RAM pointers name the two areas. -/
theorem boot_pointers (cfg : Config size) (ops : BootOps) :
    Triple (fun _ => True) (boot cfg ops)
      (fun ram _ => ram.flash_addr_new = ram.flash_addr.other) (fun _ => True) := by
  unfold boot
  refine Triple.get fun flash _ => ?_
  refine Triple.ite (fun _ => Triple.pure fun _ _ => by rfl) fun hvalid => ?_
  obtain ⟨a, haddr⟩ := (env_init_addr flash).resolve_left hvalid
  refine Triple.bind ((env_relocate_spec_spec (P := fun _ => True) a ops _ haddr rfl
    (fun _ _ => trivial) fun _ _ _ => trivial).pre fun _ _ => trivial) fun ram => ?_
  refine Triple.pure ?_
  rintro s ⟨-, rfl, hnew, -⟩
  exact hnew

/-! ## Saving -/

section Saving

variable {recent : Set (Vector Byte size)} {cfg : Config size} {ops : SaveOps size} {own : Area}
  {data : Vector Byte size} {flash after : Store size}

theorem recent_sealed (mem : data ∈ recent) {flags : Byte}
    (h : flags = ACTIVE_FLAG ∨ flags = 0xFF#8) : Recent recent (.sealed flags data) :=
  ⟨EnvT.sealed_crcOk _ _, mem, .inr h⟩

theorem Recent.obsolete {env : EnvT size} (h : Recent recent env) :
    Recent recent { env with flags := OBSOLETE_FLAG } :=
  ⟨h.crcOk, h.mem, .inl rfl⟩

/-- A save that did not succeed, with the pointers in place: the copy in use is
still there, and what is in the other area, if it is valid, is new. -/
theorem Unfinished.keeps (effect : Unfinished cfg ops own data flash after)
    (h : Keeps recent own flash) : Keeps (insert data recent) own after := by
  have hmono := h.mono (Set.subset_insert data recent)
  rcases effect with same | ⟨-, same, bad⟩ | ⟨same, copy⟩
  · exact same ▸ hmono
  · exact ⟨same ▸ hmono.inUse, fun ok => absurd ok bad⟩
  · have hcopy : Recent (insert data recent) (after own.other) := by
      rcases copy with copy | copy
      · exact copy ▸ recent_sealed (Set.mem_insert _ _) (.inr rfl)
      · exact copy ▸ recent_sealed (Set.mem_insert _ _) (.inl rfl)
    refine ⟨?_, fun _ => .inl hcopy⟩
    rcases same with same | same
    · exact same ▸ hmono.inUse
    · exact same ▸ hmono.inUse.obsolete

/-- The same with the pointers of before the last save: the copy being rewritten
is the one in use, so it must not be exposed. -/
theorem Unfinished.keeps_unswapped (effect : Unfinished cfg ops own data flash after)
    (spares : ops.SparesCopy cfg) (h : Keeps recent own.other flash) :
    Keeps (insert data recent) own.other after := by
  have hmono := h.mono (Set.subset_insert data recent)
  rcases effect with same | ⟨exposed, -, -⟩ | ⟨same, copy⟩
  · exact same ▸ hmono
  · exact absurd spares exposed
  · have hcopy : Recent (insert data recent) (after own.other) ∧
        (after own.other).flags ≠ OBSOLETE_FLAG := by
      rcases copy with copy | copy
      · exact copy ▸ ⟨recent_sealed (Set.mem_insert _ _) (.inr rfl),
          by simp [EnvT.sealed, OBSOLETE_FLAG]⟩
      · exact copy ▸ ⟨recent_sealed (Set.mem_insert _ _) (.inl rfl),
          by simp [EnvT.sealed, OBSOLETE_FLAG, ACTIVE_FLAG]⟩
    refine ⟨hcopy.1, fun ok => ?_⟩
    rw [Area.other_other] at ok ⊢
    rcases same with same | same
    · rw [same] at ok ⊢
      have spare := hmono.spare
      rw [Area.other_other] at spare
      exact (spare ok).imp_right fun stale => ⟨stale.1, hcopy.2⟩
    · rw [same]
      exact .inr ⟨rfl, hcopy.2⟩

/-- After a save that succeeded only its own contents can be loaded, whatever was
in the flash before. -/
theorem Finished.keeps (effect : Finished own data flash after) :
    Keeps {data} own.other after := by
  refine ⟨effect.active ▸ recent_sealed (Set.mem_singleton _) (.inl rfl), fun _ => .inr ?_⟩
  rw [Area.other_other, effect.obsolete, effect.active]
  exact ⟨rfl, by simp [EnvT.sealed, OBSOLETE_FLAG, ACTIVE_FLAG]⟩

end Saving

/-! ## The invariant of a run -/

/-- The area whose copy a running machine depends on. -/
def World.inUse (w : World size) (ram : Ram size) : Area :=
  if w.unswapped then ram.flash_addr.other else ram.flash_addr

/-- The contents a boot may load. -/
def World.recent (w : World size) (data : Vector Byte size) : Set (Vector Byte size) :=
  { x | x ∈ data :: w.later }

structure World.Inv (w : World size) : Prop where
  pointers : ∀ ram, w.ram = some ram → ram.flash_addr_new = ram.flash_addr.other
  keeps : ∀ data, w.saved = some data → ∃ own, Keeps (w.recent data) own w.flash ∧
    ∀ ram, w.ram = some ram → own = w.inUse ram

theorem World.inv_initial (flash : Store size) : (World.initial flash).Inv :=
  ⟨fun _ h => by simp [initial] at h, fun _ h => by simp [initial] at h⟩

theorem World.inv_boot {cfg : Config size} {ops : BootOps} {w w' : World size}
    (h : w.step cfg (.boot ops) = some w') (inv : w.Inv) : w'.Inv := by
  have hpointers := boot_pointers cfg ops w.flash trivial
  have hkeeps : ∀ data, w.saved = some data → ∃ own, Keeps (w.recent data) own w.flash :=
    fun data hdata => (inv.keeps data hdata).imp fun _ hk => hk.1
  simp only [step] at h
  cases hrun : boot cfg ops w.flash with
  | ok ram flash =>
      rw [hrun] at h hpointers
      obtain rfl := Option.some.inj h
      refine ⟨fun _ hram => Option.some.inj hram ▸ hpointers, fun data hdata => ?_⟩
      obtain ⟨own, hown⟩ := hkeeps data hdata
      have hboot := boot_spec cfg ops hown w.flash rfl
      rw [hrun] at hboot
      exact ⟨ram.flash_addr, hboot.1, fun _ hram => by simp [inUse, Option.some.inj hram]⟩
  | error _ flash =>
      rw [hrun] at h
      obtain rfl := Option.some.inj h
      refine ⟨fun _ hram => by simp at hram, fun data hdata => ?_⟩
      obtain ⟨own, hown⟩ := hkeeps data hdata
      have hboot := boot_spec cfg ops hown w.flash rfl
      rw [hrun] at hboot
      exact hboot.imp fun a ha => ⟨ha, fun _ hram => by simp at hram⟩

theorem World.inv_saveenv (hblank : ¬ (erased : EnvT size).CrcOk) {cfg : Config size}
    {data : Vector Byte size} {ops : SaveOps size} {w w' : World size}
    (h : w.step cfg (.saveenv data ops) = some w') (safe : w.SafeStep cfg (.saveenv data ops))
    (inv : w.Inv) : w'.Inv := by
  simp only [step, Option.bind_eq_bind, Option.bind_eq_some_iff] at h
  obtain ⟨ram, hram, h⟩ := h
  have hnew := inv.pointers ram hram
  have hsave := saveenv_spec hblank cfg ops
    { ram with env_ptr := .sealed ram.env_ptr.flags data } w.flash hnew
    (EnvT.sealed_crcOk _ _) w.flash rfl
  -- what an unfinished save preserves, whichever pointers it started from
  have unfinished (flash : Store size)
      (effect : Unfinished cfg ops ram.flash_addr data w.flash flash) (d : Vector Byte size)
      (hd : w.saved = some d) : Keeps (insert data (w.recent d)) (w.inUse ram) flash := by
    obtain ⟨own, hown, huse⟩ := inv.keeps d hd
    obtain rfl := huse ram hram
    cases hswap : w.unswapped with
    | false =>
        simp only [inUse, hswap] at hown ⊢
        exact effect.keeps hown
    | true =>
        simp only [inUse, hswap, if_true] at hown ⊢
        exact effect.keeps_unswapped (safe hswap) hown
  have hrecent (d : Vector Byte size) :
      insert data (w.recent d) ⊆ { x | x ∈ d :: data :: w.later } := by
    rintro x (rfl | hx)
    · simp
    · simp only [recent, List.mem_cons, Set.mem_ofPred_eq] at hx ⊢
      tauto
  cases hrun : saveenv cfg ops { ram with env_ptr := .sealed ram.env_ptr.flags data } w.flash with
  | ok r flash =>
      obtain ⟨rc, ram'⟩ := r
      rw [hrun] at h hsave
      rcases hsave with ⟨hrc, hram', effect⟩ | ⟨hrc, effect, hram'⟩
      · simp only [show rc ≠ 0 from hrc, if_false] at h
        obtain rfl := Option.some.inj h
        obtain rfl : ram' = _ := hram'
        refine ⟨fun _ hr => Option.some.inj hr ▸ hnew, fun d hd => ?_⟩
        exact ⟨w.inUse ram, (unfinished flash effect d hd).mono (hrecent d),
          fun _ hr => by rw [← Option.some.inj hr]; rfl⟩
      · simp only [show rc = 0 from hrc, if_true] at h
        obtain rfl := Option.some.inj h
        have hkeep : Keeps {data} ram.flash_addr.other flash := effect.keeps
        replace hkeep : Keeps {x | x ∈ [data]} ram.flash_addr.other flash := by
          simpa using hkeep
        rcases hram' with hram' | hram' <;> obtain rfl : ram' = _ := hram'
        · refine ⟨fun _ hr => Option.some.inj hr ▸ hnew, fun d hd => ?_⟩
          obtain rfl := Option.some.inj hd
          exact ⟨_, hkeep, fun _ hr => by rw [← Option.some.inj hr]; simp [inUse]⟩
        · refine ⟨fun _ hr => by rw [← Option.some.inj hr]; simp [hnew], fun d hd => ?_⟩
          obtain rfl := Option.some.inj hd
          exact ⟨_, hkeep, fun _ hr => by rw [← Option.some.inj hr]; simp [inUse, hnew]⟩
  | error _ flash =>
      rw [hrun] at h hsave
      obtain rfl := Option.some.inj h
      refine ⟨fun _ hr => by simp at hr, fun d hd => ?_⟩
      exact ⟨w.inUse ram, (unfinished flash hsave d hd).mono (hrecent d),
        fun _ hr => by simp at hr⟩

/-- The invariant is what the next boot needs. -/
theorem World.Inv.loadsRecent {w : World size} (cfg : Config size) (inv : w.Inv) :
    w.LoadsRecent cfg := by
  have loaded : ∀ data, w.saved = some data → ∀ ops ram flash,
      boot cfg ops w.flash = .ok ram flash →
      ram.env_ptr.CrcOk ∧ ram.env_ptr.data ∈ data :: w.later := by
    intro data hdata ops ram flash hrun
    obtain ⟨own, hown, -⟩ := inv.keeps data hdata
    have hboot := boot_spec cfg ops hown w.flash rfl
    rw [hrun] at hboot
    rw [hboot.2]
    exact ⟨hboot.1.inUse.crcOk, hboot.1.inUse.mem⟩
  refine ⟨fun data hdata => ?_, loaded, fun data hdata hlater ops ram flash hrun => ?_⟩
  · obtain ⟨own, hown, -⟩ := inv.keeps data hdata
    obtain ⟨a, v, hinit, hv, ha⟩ := env_init_of_keeps hown
    exact ⟨a, v, hinit, hv, ha.inUse.crcOk, ha.inUse.mem⟩
  · simpa [hlater] using (loaded data hdata ops ram flash hrun).2

/-- In every run that keeps away from the defect, every boot after a successful
save loads the environment saved last or that of a later save, completely. -/
theorem flash_loads_recent (hblank : ¬ (erased : EnvT size).CrcOk) (cfg : Config size)
    (flash : Store size) (events : List (Event size)) (w : World size)
    (run : Run (fun w e w' => w.SafeStep cfg e ∧ w.step cfg e = some w')
      (World.initial flash) events w) : w.LoadsRecent cfg := by
  refine World.Inv.loadsRecent cfg (run.invariant (I := World.Inv) ?_ (World.inv_initial flash))
  rintro w (ops | ⟨data, ops⟩) w' inv ⟨safe, taken⟩
  · exact World.inv_boot taken inv
  · exact World.inv_saveenv hblank taken safe inv

/-! ## Concrete runs

The sector is larger than the copy, the flash starts blank, and each run begins
with a boot and a save. -/

/-- A build whose saves restore the rest of the sector. -/
def exampleConfig : Config 2 := ⟨#v[0, 0], true⟩

/-- The data a boot loads. -/
def bootData (w : World 2) : Option (Vector Byte 2) :=
  match boot exampleConfig {} w.flash with
  | .ok ram _ => some ram.env_ptr.data
  | .error _ _ => none

set_option maxRecDepth 1000 in
/-- Power is lost in the erase of a second save: the first one is still there. -/
theorem flash_loads_interrupted_save :
    ∃ w : World 2, w.saved = some #v[1, 0] ∧ w.later = [#v[2, 0]] ∧
      w.LoadsRecent exampleConfig := by
  let next (w : World 2) (e : Event 2) := if w.unswapped then none else w.step exampleConfig e
  let events : List (Event 2) :=
    [.boot {}, .saveenv #v[1, 0] {}, .saveenv #v[2, 0] { erase := .cut .complete }]
  have result : (events.foldlM next (.initial fun _ => erased)).map
      (fun w => (w.saved, w.later)) = some (some #v[1, 0], [#v[2, 0]]) := by decide
  obtain ⟨w, hw, hsaved⟩ := Option.map_eq_some_iff.mp result
  have hblank : ¬ (erased : EnvT 2).CrcOk := by decide
  refine ⟨w, congrArg Prod.fst hsaved, congrArg Prod.snd hsaved,
    flash_loads_recent hblank exampleConfig _ events w ((Run.of_foldlM hw).mono ?_)⟩
  intro w e w' h
  obtain ⟨hswap, h⟩ : ¬ w.unswapped = true ∧ w.step exampleConfig e = some w' := by
    simpa [next] using h
  cases e with
  | boot => exact ⟨trivial, h⟩
  | saveenv => exact ⟨fun hs => absurd hs hswap, h⟩

set_option maxRecDepth 1000 in
/-- The defect: the second save returns 0 although it could not restore the rest
of the sector, and the erase of the third destroys what it wrote. The next boot
loads the first environment. -/
theorem not_flash_loads_recent :
    ¬ ∀ (size : Nat), ¬ (erased : EnvT size).CrcOk →
      ∀ (cfg : Config size) (flash : Store size) (events : List (Event size)) (w : World size),
        Run (fun w e w' => w.step cfg e = some w') (World.initial flash) events w →
        w.LoadsRecent cfg := by
  intro h
  let events : List (Event 2) :=
    [.boot {}, .saveenv #v[1, 0] {}, .saveenv #v[2, 0] { restore := .err ⟨1, by decide⟩ () },
      .saveenv #v[3, 0] { erase := .cut .complete }]
  have result : (events.foldlM (World.step exampleConfig) (.initial fun _ => erased)).map
      (fun w => (w.saved, w.later, bootData w)) =
      some (some #v[2, 0], [#v[3, 0]], some #v[1, 0]) := by decide
  obtain ⟨w, hw, hresult⟩ := Option.map_eq_some_iff.mp result
  obtain ⟨hsaved, hlater, hboot⟩ :
      w.saved = some #v[2, 0] ∧ w.later = [#v[3, 0]] ∧ bootData w = some #v[1, 0] := by
    simpa using hresult
  have recent := h 2 (by decide) exampleConfig _ events w (Run.of_foldlM hw)
  unfold bootData at hboot
  split at hboot
  · next ram flash hrun =>
      have mem := (recent.loaded _ hsaved _ _ _ hrun).2
      rw [hlater, Option.some.inj hboot] at mem
      exact absurd mem (by decide)
  · simp at hboot

end UBoot.Env.RedundantFlash
