/-
# What `fw_setenv` answers

`fw_setenv` ignores what `fw_env_write` returns: it writes the flash and returns 0 when
nothing was set, and also when the old definition is gone and the new one did not fit.
The contract of `fw_setenv` holds where `fw_env_write` succeeds and the name is looked
up again as it was set.
-/

import UBoot.Tools.FwEnvRuns
import UBoot.Tools.FwSetenvStrings

namespace UBoot.Tools

open UBoot.Lib UBoot.Env

variable {size : Nat}

/-! ## The flash -/

theorem Flash.ENV_SIZE_le (setup : Setup) (flash : Flash size) : flash.ENV_SIZE setup ≤ size := by
  unfold Flash.ENV_SIZE getenvsize ENV_HEADER_SIZE Host.sizeof_long
  cases flash.haveRedundEnv <;> cases setup.host <;> simp only [if_true, Bool.false_eq_true,
    if_false] <;> omega

theorem Flash.ENV_SIZE_write (setup : Setup) (data : Vector Byte size) (flash : Flash size) :
    (flash.write setup data).ENV_SIZE setup = flash.ENV_SIZE setup := by
  cases flash <;> rfl

theorem toList_ofBytes {bytes : List Byte} (h : bytes.length = size) :
    (ofBytes bytes : Vector Byte size).toList = bytes := by
  subst h
  apply List.ext_getElem
  · simp
  · intro i hi hi'
    simp [ofBytes]

/-- The tools open what they wrote, with two devices. -/
theorem fw_env_open_fw_setenv (host : Host) (flag_scheme : FlagScheme)
    (default_environment : List Byte) (data : Vector Byte size) (store : Store size) :
    (fw_env_open host flag_scheme default_environment
      (fw_setenv host flag_scheme default_environment data store).2).image.data = data := by
  obtain ⟨a, flags, -, written, boolean, incremental⟩ :=
    fw_setenv_copies host flag_scheme default_environment data store
  generalize (fw_setenv host flag_scheme default_environment data store).2 = store' at *
  have data_eq : (store' a).data = data := by rw [written]
  have valid : ToolCrcOk host (store' a) := by
    rw [written]
    rfl
  have newest : newestDevice flag_scheme (store' .env).flags (store' .redund).flags = a := by
    apply newestDevice_of_newer
    · rw [written]
      exact boolean
    · rw [written]
      exact incremental
  unfold fw_env_open
  by_cases other : ToolCrcOk host (store' a.other)
  · cases a <;> simp only [Area.other] at other <;> simp [valid, other, newest, data_eq]
  · cases a <;> simp only [Area.other] at other <;> simp [valid, other, data_eq]

/-- The tools open what they wrote. -/
theorem Flash.data_write (setup : Setup) (data : Vector Byte size) (flash : Flash size) :
    (flash.write setup data).data setup = data := by
  cases flash with
  | single image =>
      simp only [Flash.write, Flash.data, toolImage, if_true]
  | redundant flag_scheme store => exact fw_env_open_fw_setenv _ _ _ _ _

/-! ## Lengths -/

theorem strcpy_length {data data' : List Byte} {i : Nat} {s : List Byte}
    (h : strcpy data i s = .ok data') : data'.length = data.length := by
  unfold strcpy at h
  split at h
  · cases h
    simp only [List.length_append, List.length_take, List.length_cons, List.length_drop]
    omega
  · cases h

@[simp]
theorem error_bind {α β : Type} (e : Fault) (k : α → Checked β) :
    (Except.error e >>= k) = Except.error e := rfl

theorem moveDown_length {fuel : Nat} {data data' : List Byte} {env env' nxt : Nat}
    (h : Env.moveDown fuel data env nxt = .ok (data', env')) : data'.length = data.length := by
  induction fuel generalizing data env nxt with
  | zero => cases h
  | succ fuel ih =>
      unfold Env.moveDown at h
      obtain ⟨c, -, h⟩ := bind_ok h
      obtain ⟨moved, hmoved, h⟩ := bind_ok h
      rw [← store_length hmoved]
      split at h
      · obtain ⟨d, -, h⟩ := bind_ok h
        split at h
        · cases h
          rfl
        · exact ih h
      · exact ih h

theorem deleteDefinition_length {data data' : List Byte} {old : Found}
    (h : deleteDefinition data old = .ok data') : data'.length = data.length := by
  unfold deleteDefinition at h
  obtain ⟨c, -, h⟩ := bind_ok h
  obtain ⟨⟨moved, env⟩, hmoved, h⟩ := bind_ok h
  rw [store_length h]
  unfold dropDefinition at hmoved
  split at hmoved
  · obtain ⟨stored, hstored, hmoved⟩ := bind_ok hmoved
    cases hmoved
    exact store_length hstored
  · exact moveDown_length hmoved

theorem putDefinition_length {data data' : List Byte} {env : Nat} {name value : List Byte}
    (h : putDefinition data env name value = .ok data') : data'.length = data.length := by
  unfold putDefinition at h
  obtain ⟨d₁, h₁, h⟩ := bind_ok h
  obtain ⟨d₂, h₂, h⟩ := bind_ok h
  obtain ⟨d₃, h₃, h⟩ := bind_ok h
  rw [store_length h, strcpy_length h₃, store_length h₂, strcpy_length h₁]

theorem appendDefinition_ok {ENV_SIZE : Nat} {data data' : List Byte} {name value : List Byte}
    {rc : Int} (h : appendDefinition ENV_SIZE data name value = .ok (rc, data')) :
    data'.length = data.length ∧ (rc = 0 ∨ rc = -1) := by
  unfold appendDefinition at h
  obtain ⟨env, -, h⟩ := bind_ok h
  split at h
  · cases h
    exact ⟨rfl, .inr rfl⟩
  · obtain ⟨put, hput, h⟩ := bind_ok h
    cases h
    exact ⟨putDefinition_length hput, .inl rfl⟩

/-- `fw_env_write` returns 0 or -1 and keeps the length of the environment. -/
theorem fw_env_write_ok {setup : Setup} {ENV_SIZE : Nat} {data data' : List Byte}
    {name : CString} {value : List Byte} {rc : Int}
    (h : fw_env_write setup ENV_SIZE data name value = .ok (rc, data')) :
    data'.length = data.length ∧ (rc = 0 ∨ rc = -1) := by
  unfold fw_env_write at h
  obtain ⟨result, -, h⟩ := bind_ok h
  cases result with
  | notTerminated =>
      cases h
      exact ⟨rfl, .inr rfl⟩
  | absent =>
      dsimp only at h
      split at h
      · cases h
        exact ⟨rfl, .inl rfl⟩
      · exact appendDefinition_ok h
  | found old =>
      obtain ⟨oldval, -, h⟩ := bind_ok h
      split at h
      · cases h
        exact ⟨rfl, .inr rfl⟩
      · obtain ⟨deleted, hdeleted, h⟩ := bind_ok h
        rw [← deleteDefinition_length hdeleted]
        split at h
        · cases h
          exact ⟨rfl, .inl rfl⟩
        · exact appendDefinition_ok h

/-! ## The contract -/

/-- What the claim about a call says a later `fw_getenv` returns: the words, or nothing. -/
def asSet (value : List Byte) : Option (List Byte) :=
  if value = [] then none else some value

/-- A call of `fw_setenv` with a name and words: where `fw_env_write` fails it returns -1
and every variable in flash is as before, and where it returns 0 the name is read as it was
set. -/
def Contract (setup : Setup) (flash : Flash size) (name : CString) (words : List CString) :
    Prop :=
  ∃ rc data ret flash',
    fw_env_write setup (flash.ENV_SIZE setup) (flash.data setup).toList name (joinWords words) =
      .ok (rc, data) ∧
    flash.fw_setenv setup (name :: words) = .ok (ret, flash') ∧
    (rc ≠ 0 → ret = -1 ∧
      ∀ other, flash'.fw_getenv setup other = flash.fw_getenv setup other) ∧
    (ret = 0 → flash'.fw_getenv setup name = .ok (asSet (joinWords words)))

/-- `fw_env_write` sets what is read back. -/
def Served (setup : Setup) (ENV_SIZE : Nat) (data : List Byte) (name : CString)
    (value : List Byte) : Prop :=
  ∃ data', fw_env_write setup ENV_SIZE data name value = .ok (0, data') ∧
    getenvIn ENV_SIZE data' name = .ok (asSet value)

/-- As `fw_setenv` returns 0 whenever it gets through `fw_env_write`, only a call that
serves meets its contract. -/
theorem contract_iff_served (setup : Setup) (flash : Flash size) (name : CString)
    (words : List CString) :
    Contract setup flash name words ↔
      Served setup (flash.ENV_SIZE setup) (flash.data setup).toList name (joinWords words) := by
  have reopened {data' : List Byte} {rc : Int}
      (h : fw_env_write setup (flash.ENV_SIZE setup) (flash.data setup).toList name
        (joinWords words) = .ok (rc, data')) :
      (flash.write setup (ofBytes data')).fw_getenv setup name =
        getenvIn (flash.ENV_SIZE setup) data' name := by
    have hlen := (fw_env_write_ok h).1
    rw [Vector.length_toList] at hlen
    rw [Flash.fw_getenv, Flash.ENV_SIZE_write, Flash.data_write, toList_ofBytes hlen]
  constructor
  · rintro ⟨rc, data', ret, flash', hwrite, hset, hfailed, hread⟩
    simp only [Flash.fw_setenv, hwrite, ok_bind, pure_eq_ok, Except.ok.injEq, Prod.mk.injEq] at hset
    obtain ⟨rfl, rfl⟩ := hset
    have hrc : rc = 0 := by
      by_contra hne
      have := (hfailed hne).1
      omega
    subst hrc
    refine ⟨data', hwrite, ?_⟩
    rw [← reopened hwrite]
    exact hread rfl
  · rintro ⟨data', hwrite, hread⟩
    refine ⟨0, data', 0, flash.write setup (ofBytes data'), hwrite, ?_, by simp, ?_⟩
    · simp only [Flash.fw_setenv, hwrite, ok_bind]
      rfl
    · intro _
      rw [reopened hwrite]
      exact hread

/-! ## The condition -/

/-- The variables that stay, as `fw_getenv` reads the name among them: nothing after a
deletion; and after a definition, which has to fit, nothing before it but the same value. -/
def ReadsBack (ENV_SIZE : Nat) (name value : List Byte) (kept : List (List Byte)) : Prop :=
  if value = [] then
    lookup ENV_SIZE name [] kept = .absent ∨ lookup ENV_SIZE name [] kept = .notTerminated
  else
    Fits ENV_SIZE kept name value ∧
      match lookup ENV_SIZE name [] kept with
      | .absent => equals ∉ name
      | .found _ _ v _ => v = value
      | _ => False

/-- The condition on the environment and the arguments: the environment ends in an empty
string, what stays of it lets the name be read back, and the definition that goes is not
one that is set once only. -/
def Settable (setup : Setup) (ENV_SIZE : Nat) (data name value : List Byte) : Prop :=
  ∃ strings, Holding data strings ∧
    match lookup ENV_SIZE name [] strings with
    | .absent => (value ≠ [] → Table data strings) ∧ ReadsBack ENV_SIZE name value strings
    | .found before _ v after =>
        setOnlyOnce setup name v = false ∧ ReadsBack ENV_SIZE name value (before ++ after)
    | _ => False

variable {ENV_SIZE : Nat}

/-- Behind strings that fit, a new definition is looked up where it is the first one. -/
theorem lookup_concat {name value : List Byte} (before : List (List Byte))
    {kept : List (List Byte)}
    (hfits : Fits ENV_SIZE (before ++ kept) name value) :
    lookup ENV_SIZE name before (kept ++ [name ++ equals :: value]) =
      match lookup ENV_SIZE name before kept with
      | .absent =>
          match matchString name (name ++ equals :: value) with
          | .value v => .found (before ++ kept) (name ++ equals :: value) v []
          | .other => .absent
          | .overrun => .overrun
      | .found b s v a => .found b s v (a ++ [name ++ equals :: value])
      | r => r := by
  induction kept generalizing before with
  | nil =>
      unfold Fits at hfits
      rw [List.append_nil] at hfits
      rw [List.nil_append, lookup, lookup, if_neg, List.append_nil]
      · rfl
      · simp only [List.length_append, List.length_cons]
        omega
  | cons s kept ih =>
      have step := ih (before ++ [s]) (by simpa using hfits)
      rw [List.append_assoc, List.singleton_append] at step
      rw [List.cons_append, lookup, lookup]
      split
      · rfl
      · cases matchString name s with
        | value v => rfl
        | overrun => rfl
        | other => exact step

/-- What is left to do behind the search and the deletion. -/
def finish (ENV_SIZE : Nat) (data name value : List Byte) : Checked (Int × List Byte) :=
  if value = [] then return (0, data) else appendDefinition ENV_SIZE data name value

theorem finish_iff {data : List Byte} {kept : List (List Byte)} (name : CString)
    {value : List Byte} (hvalue : 0#8 ∉ value) (h : Holding data kept)
    (htable : value ≠ [] → Table data kept) (hsize : ENV_SIZE ≤ data.length) :
    (∃ data', finish ENV_SIZE data name.1 value = .ok (0, data') ∧
      getenvIn ENV_SIZE data' name = .ok (asSet value)) ↔
      ReadsBack ENV_SIZE name.1 value kept := by
  unfold finish ReadsBack asSet
  by_cases hnil : value = []
  · simp only [hnil, if_true, pure_eq_ok, Except.ok.injEq, Prod.mk.injEq, true_and,
      exists_eq_left']
    rw [getenvIn_holding ENV_SIZE h]
    cases lookup ENV_SIZE name.1 [] kept <;> simp
  · simp only [hnil, if_false]
    have append := appendDefinition_strings (htable hnil) hsize name.2 hvalue
    by_cases hfits : Fits ENV_SIZE kept name.1 value
    · rw [if_pos hfits] at append
      obtain ⟨data', happend, -, table'⟩ := append
      have hread := getenvIn_holding ENV_SIZE table'.holding name
      rw [lookup_concat [] hfits] at hread
      obtain ⟨v, hv, hiff⟩ := matchString_self name.1 value
      simp only [happend, Except.ok.injEq, Prod.mk.injEq, true_and, exists_eq_left', hfits]
      rw [hread]
      cases lookup ENV_SIZE name.1 [] kept with
      | absent => simpa [hv] using hiff
      | overrun => simp
      | notTerminated => simp
      | found b s w a => simp
    · rw [if_neg hfits] at append
      simp [append, hfits]

theorem store_head? {data data' : List Byte} {i : Nat} {b : Byte} (hi : 0 < i)
    (h : Env.store data i b = .ok data') : data'.head? = data.head? := by
  unfold Env.store at h
  split at h
  · cases h
    obtain ⟨i, rfl⟩ := Nat.exists_eq_succ_of_ne_zero hi.ne'
    cases data <;> rfl
  · cases h

theorem strcpy_head? {data data' : List Byte} {i : Nat} {s : List Byte} (hi : 0 < i)
    (h : strcpy data i s = .ok data') : data'.head? = data.head? := by
  unfold strcpy at h
  split at h
  · cases h
    obtain ⟨i, rfl⟩ := Nat.exists_eq_succ_of_ne_zero hi.ne'
    cases data with
    | nil => simp at *
    | cons c data => simp
  · cases h

theorem putDefinition_head? {data data' : List Byte} {env : Nat} {name value : List Byte}
    (henv : 0 < env) (h : putDefinition data env name value = .ok data') :
    data'.head? = data.head? := by
  unfold putDefinition at h
  obtain ⟨d₁, h₁, h⟩ := bind_ok h
  obtain ⟨d₂, h₂, h⟩ := bind_ok h
  obtain ⟨d₃, h₃, h⟩ := bind_ok h
  rw [store_head? (by omega) h, strcpy_head? (by omega) h₃, store_head? (by omega) h₂,
    strcpy_head? henv h₁]

/-- With an empty string first and no NUL behind it, a new definition goes where no search
comes. -/
theorem getenvIn_of_append {rest data' : List Byte} (hrest : rest.head? ≠ some 0#8)
    {name value : List Byte} {rc : Int}
    (h : appendDefinition ENV_SIZE (0#8 :: rest) name value = .ok (rc, data'))
    (other : CString) : getenvIn ENV_SIZE data' other = .ok none := by
  have first : data'.head? = some 0#8 := by
    unfold appendDefinition at h
    obtain ⟨env, hend, h⟩ := bind_ok h
    have henv : 0 < env := by
      unfold endOfVars at hend
      obtain ⟨k, hk, hend⟩ := bind_ok hend
      cases rest with
      | nil => cases hk
      | cons b rest =>
          have hb : b ≠ 0#8 := fun hb => hrest (by simp [hb])
          rw [doubleNul, if_neg (by simp [hb])] at hk
          obtain ⟨j, -, hk⟩ := bind_ok hk
          cases hk
          cases hend
          simp
    split at h
    · cases h
      rfl
    · obtain ⟨put, hput, h⟩ := bind_ok h
      cases h
      exact putDefinition_head? henv hput
  obtain ⟨others, rfl⟩ : ∃ others, data' = 0#8 :: others := List.head?_eq_some_iff.mp first
  rfl

/-- A call serves where its condition holds. -/
theorem served_iff_settable (setup : Setup) {data : List Byte} (hsize : ENV_SIZE ≤ data.length)
    (name : CString) {value : List Byte} (hvalue : 0#8 ∉ value) :
    Served setup ENV_SIZE data name value ↔ Settable setup ENV_SIZE data name.1 value := by
  -- on the strings of the environment, the call searches, deletes and finishes
  have cases_holding {strings : List (List Byte)} (h : Holding data strings) :
      Served setup ENV_SIZE data name value ↔
        match lookup ENV_SIZE name.1 [] strings with
        | .absent => ∃ data', finish ENV_SIZE data name.1 value = .ok (0, data') ∧
            getenvIn ENV_SIZE data' name = .ok (asSet value)
        | .found before _ v after =>
            setOnlyOnce setup name.1 v = false ∧ ReadsBack ENV_SIZE name.1 value (before ++ after)
        | _ => False := by
    unfold Served fw_env_write
    rw [search_holding h]
    cases hlookup : lookup ENV_SIZE name.1 [] strings with
    | overrun => simp
    | notTerminated => simp
    | absent => rfl
    | found b s v a =>
        obtain ⟨rest, hs, hne, hothers, hv, hdata⟩ := h.exists_found hlookup
        obtain ⟨data', hdelete, hlen, htable⟩ := deleteDefinition_strings hne hothers hdata
          ((terminated 0#8 b).length + s.length - v.length)
        have hstring : stringAt data ((terminated 0#8 b).length + s.length - v.length) = .ok v := by
          rw [hdata]
          exact stringAt_value hs hv _ _
        simp only [ok_bind, hstring, hdelete]
        cases setOnlyOnce setup name.1 v with
        | true => simp
        | false =>
            simp only [Bool.false_eq_true, if_false, true_and]
            exact finish_iff name hvalue htable.holding (fun _ => htable) (by rw [hlen]; exact hsize)
  constructor
  · intro served
    obtain ⟨strings, tail, hstrings, rfl, hend | hopen⟩ := exists_strings data
    · obtain ⟨rest, rfl⟩ := List.head?_eq_some_iff.mp hend
      have h : Holding (terminated 0#8 strings ++ 0#8 :: rest) strings :=
        ⟨hstrings, rest, by simp⟩
      refine ⟨strings, h, ?_⟩
      rw [cases_holding h] at served
      cases hlookup : lookup ENV_SIZE name.1 [] strings with
      | overrun => simp [hlookup] at served
      | notTerminated => simp [hlookup] at served
      | found b s v a =>
          rw [hlookup] at served
          exact served
      | absent =>
          rw [hlookup] at served
          have htable : value ≠ [] → Table (terminated 0#8 strings ++ 0#8 :: rest) strings := by
            intro hne
            by_cases hnil : strings = []
            · subst hnil
              obtain ⟨data', hfinish, hread⟩ := served
              rw [finish, if_neg hne] at hfinish
              -- a definition written behind the empty string is never read
              by_contra htable
              have hrest : rest.head? ≠ some 0#8 := by
                intro hrest
                obtain ⟨rest', rfl⟩ := List.head?_eq_some_iff.mp hrest
                exact htable ⟨hstrings, rest', rfl⟩
              rw [getenvIn_of_append hrest hfinish] at hread
              simp [asSet, hne] at hread
            · exact h.table hnil
          exact ⟨htable, (finish_iff name hvalue h htable hsize).mp served⟩
    · obtain ⟨data', hwrite, -⟩ := served
      have := fw_env_write_of_open setup hstrings hopen name value hwrite
      omega
  · rintro ⟨strings, h, hcondition⟩
    rw [cases_holding h]
    cases hlookup : lookup ENV_SIZE name.1 [] strings with
    | overrun =>
        rw [hlookup] at hcondition
        exact hcondition
    | notTerminated =>
        rw [hlookup] at hcondition
        exact hcondition
    | found b s v a =>
        rw [hlookup] at hcondition
        exact hcondition
    | absent =>
        rw [hlookup] at hcondition
        exact (finish_iff name hvalue h hcondition.1 hsize).mpr hcondition.2

/-- A call of `fw_setenv` meets its contract exactly when its condition holds, for every
environment in flash, name and words. -/
theorem fw_setenv_contract (setup : Setup) (flash : Flash size) (name : CString)
    (words : List CString) :
    Contract setup flash name words ↔
      Settable setup (flash.ENV_SIZE setup) (flash.data setup).toList name.1 (joinWords words) := by
  rw [contract_iff_served]
  apply served_iff_settable
  · rw [Vector.length_toList]
    exact flash.ENV_SIZE_le setup
  · exact nul_notMem_joinWords words

/-- A host with a `long` of 4 bytes and a build that protects `serial#` and `ethaddr`. -/
def exampleSetup : Setup := ⟨.long4, [], false, none⟩

/-- An environment of 12 bytes with `a=1`. -/
def exampleData : Vector Byte 12 := #v[0x61, 0x3D, 0x31, 0, 0, 0, 0, 0, 0, 0, 0, 0]

def exampleFlash : Flash 12 := .single (toolImage .long4 false exampleData)

/-- A value that does not fit costs the variable, and the call returns 0. -/
theorem not_fw_setenv_contract :
    ¬ ∀ (setup : Setup) (size : Nat) (flash : Flash size) (name : CString)
      (words : List CString), Contract setup flash name words := by
  intro contract
  obtain ⟨rc, data, ret, flash', hwrite, hset, hfailed, -⟩ := contract exampleSetup 12 exampleFlash
    ⟨ascii "a", by decide⟩ [⟨ascii "0123456789", by decide⟩]
  have hdata : exampleFlash.data exampleSetup = exampleData := by
    simp only [exampleFlash, Flash.data, toolImage, exampleSetup, if_true]
  have refused : fw_env_write exampleSetup 12 exampleData.toList ⟨ascii "a", by decide⟩
      (ascii "0123456789") = .ok (-1, 0 :: 0 :: 0x31 :: List.replicate 9 0) := by decide
  have hrc : rc = -1 := by
    rw [hdata] at hwrite
    cases hwrite.symm.trans refused
    rfl
  have hret : ret = 0 := by
    simp only [Flash.fw_setenv, hwrite, ok_bind, pure_eq_ok, Except.ok.injEq, Prod.mk.injEq] at hset
    exact hset.1.symm
  have := (hfailed (by omega)).1
  omega

end UBoot.Tools
