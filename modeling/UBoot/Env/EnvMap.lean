/-
# The environment as an ordered map

What the environment is for: a finite map from names to strings that remembers
the order in which its variables were last set. `encode` is its layout in the
buffer, and `EnvMap.setenv` is what a call of `_do_setenv` should do to it.
-/

import Mathlib.Data.List.AList
import UBoot.Env.CmdNvedit
import UBoot.Lib.StringTable

namespace UBoot.Env

open UBoot.Lib

/-- A variable name: a string without `=`. -/
abbrev VarName := { s : List Byte // 0#8 ∉ s ∧ equals ∉ s }

/-- A definition. -/
abbrev Var := Sigma fun _ : VarName => CString

/-- The variables in their order, with distinct names. -/
abbrev EnvMap := AList fun _ : VarName => CString

/-- `name=value` -/
def Var.bytes (v : Var) : List Byte :=
  v.1.1 ++ equals :: v.2.1

/-- The layout of a list of variables: each with its NUL, and one more NUL at the
end. With no variable the end is marked by two. -/
def encode (vars : List Var) : List Byte :=
  terminated 0#8 (vars.map Var.bytes) ++ if vars = [] then [0#8, 0#8] else [0#8]

/-- The buffer holds the map; what follows its end is arbitrary. -/
def Holds (data : List Byte) (m : EnvMap) : Prop :=
  encode m.entries <+: data

/-- The words joined by blanks. -/
def joinWords (vals : List CString) : List Byte :=
  [0x20#8].intercalate (vals.map (·.1))

theorem nul_notMem_joinWords (vals : List CString) : 0#8 ∉ joinWords vals := by
  unfold joinWords
  induction vals with
  | nil => simp
  | cons v vals ih =>
      cases vals with
      | nil => simpa using v.2
      | cons w vals =>
          simp only [List.map_cons, List.intercalate_cons_cons] at ih ⊢
          simp only [List.mem_append, List.mem_singleton, not_or]
          exact ⟨⟨v.2, by decide⟩, ih⟩

/-- A variable set anew goes to the end. -/
def EnvMap.put (m : EnvMap) (name : VarName) (val : CString) : EnvMap :=
  m.erase name ∪ AList.singleton name val

/-- `argv[1]` as the name of a variable. -/
def Args.varName (args : Args) : Option VarName :=
  if h : equals ∈ args.name.1 then none else some ⟨args.name.1, args.name.2, h⟩

/-- The words of the new value. -/
def Args.valueWords (args : Args) : List CString :=
  (List.range (args.argc - 2)).filterMap args.word

/-- The new value. -/
def Args.value (args : Args) : CString :=
  ⟨joinWords args.valueWords, nul_notMem_joinWords _⟩

/-- A call that only deletes. -/
def Args.deletesOnly (args : Args) : Bool :=
  args.argc < 3 || (args.word 0).isNone

/-- The console cannot be redirected. -/
def consoleRefused (cfg : Config) (args : Args) : Bool :=
  isConsole args.name &&
    (args.argc < 3 || (cfg.consoleMux && (args.word 0).isNone) || args.assigned ≠ 0)

/-- A variable that is set once only, and has been set to `old`. -/
def setOnce (cfg : Config) (args : Args) (old : CString) : Bool :=
  !cfg.envOverwrite &&
    ((args.name.1 = ascii "serial#" && !(cfg.hasUid && args.flag = 0xdeaf4add#32)) ||
      (args.name.1 = ascii "ethaddr" && cfg.ethaddrOnce ≠ some old))

/-- A baudrate that is not in the table. -/
def unsupportedBaudrate (cfg : Config) (args : Args) : Bool :=
  args.name.1 = ascii "baudrate" &&
    (args.word 0).all fun val => (simple_strtoul val.1 10).1 ∉ cfg.baudrate_table

/-- The call is rejected before the definition that exists is deleted. -/
def rejected (cfg : Config) (m : EnvMap) (args : Args) : Bool :=
  match args.varName with
  | none => true
  | some name => consoleRefused cfg args ||
      (m.lookup name).any fun old => setOnce cfg args old || unsupportedBaudrate cfg args

/-- What a call does: nothing if it is rejected; otherwise the old definition goes,
and the new one is appended if the buffer has room for it. -/
def EnvMap.setenv (cfg : Config) (size : Nat) (m : EnvMap) (args : Args) : EnvMap :=
  if rejected cfg m args then m
  else match args.varName with
    | none => m
    | some name =>
        if args.deletesOnly then m.erase name
        else if (encode (m.put name args.value).entries).length ≤ size then m.put name args.value
        else m.erase name

/-! ## The map -/

theorem EnvMap.put_entries (m : EnvMap) (name : VarName) (val : CString) :
    (m.put name val).entries = (m.erase name).entries ++ [⟨name, val⟩] := by
  have absent : name ∉ (m.erase name).entries.keys := List.notMem_keys_kerase _ m.nodupKeys
  show List.kunion (m.erase name).entries [⟨name, val⟩] = _
  generalize (m.erase name).entries = vars at absent ⊢
  induction vars with
  | nil => rfl
  | cons v vars ih =>
      simp only [List.keys_cons, List.mem_cons, not_or] at absent
      rw [List.kunion_cons, List.kerase_cons_ne (Ne.symm absent.1), List.kerase_nil, ih absent.2,
        List.cons_append]

@[simp]
theorem EnvMap.lookup_put (m : EnvMap) (name : VarName) (val : CString) :
    (m.put name val).lookup name = some val := by
  rw [put, AList.lookup_union_right (by simp [AList.mem_erase])]
  simp [AList.lookup, AList.singleton]

/-- The other variables keep their values. -/
theorem EnvMap.lookup_put_of_ne (m : EnvMap) {name other : VarName} (val : CString)
    (h : other ≠ name) : (m.put name val).lookup other = m.lookup other := by
  have absent : List.dlookup other [(⟨name, val⟩ : Var)] = none := by
    simpa [List.dlookup_eq_none] using h
  rw [AList.lookup, put_entries, List.dlookup_append, ← AList.lookup, AList.lookup_erase_ne h,
    absent, Option.or_none]

/-- What a call does to the map, variable by variable. -/
structure SetenvEffect (cfg : Config) (size : Nat) (m : EnvMap) (args : Args) (m' : EnvMap) :
    Prop where
  rejected : rejected cfg m args = true → m' = m
  set : ∀ name, args.varName = some name → UBoot.Env.rejected cfg m args = false →
    m'.lookup name = if args.deletesOnly ∨ size < (encode (m.put name args.value).entries).length
      then none else some args.value
  others : ∀ name, args.varName ≠ some name → m'.lookup name = m.lookup name
  order : ∀ name, args.varName = some name →
    (m'.erase name).entries = (m.erase name).entries

theorem EnvMap.erase_erase (m : EnvMap) (name : VarName) :
    ((m.erase name).erase name).entries = (m.erase name).entries :=
  List.kerase_of_notMem_keys (List.notMem_keys_kerase _ m.nodupKeys)

theorem EnvMap.erase_put (m : EnvMap) (name : VarName) (val : CString) :
    ((m.put name val).erase name).entries = (m.erase name).entries := by
  have absent : name ∉ (m.erase name).entries.keys := List.notMem_keys_kerase _ m.nodupKeys
  show List.kerase name (m.put name val).entries = _
  have removed : List.kerase name [(⟨name, val⟩ : Var)] = [] := List.kerase_cons_eq rfl
  rw [put_entries, List.kerase_append_right absent, removed, List.append_nil]

theorem EnvMap.setenv_effect (cfg : Config) (size : Nat) (m : EnvMap) (args : Args) :
    SetenvEffect cfg size m args (m.setenv cfg size args) := by
  unfold setenv
  cases hvar : args.varName with
  | none =>
      exact ⟨fun h => by simp, fun _ h => by simp [hvar] at h, fun _ _ => by simp,
        fun _ h => by simp [hvar] at h⟩
  | some name =>
      cases hrej : UBoot.Env.rejected cfg m args with
      | true => exact ⟨fun _ => rfl, fun _ _ h => by simp [hrej] at h, fun _ _ => rfl, fun _ _ => rfl⟩
      | false =>
          simp only [Bool.false_eq_true, if_false]
          refine ⟨fun h => by simp [hrej] at h, fun other h _ => ?_, fun other h => ?_,
            fun other h => ?_⟩
          · obtain rfl : name = other := Option.some.inj (hvar.symm.trans h)
            split_ifs with h₁ h₂ h₃ h₄ h₅ <;> simp_all [AList.lookup_erase]
            omega
          · have hne : other ≠ name := fun h' => h (h' ▸ hvar)
            split_ifs
            · exact AList.lookup_erase_ne hne
            · exact m.lookup_put_of_ne _ hne
            · exact AList.lookup_erase_ne hne
          · obtain rfl : name = other := Option.some.inj (hvar.symm.trans h)
            split_ifs
            · exact m.erase_erase name
            · exact m.erase_put name _
            · exact m.erase_erase name

/-! ## The layout -/

theorem Var.nul_notMem_bytes (v : Var) : 0#8 ∉ v.bytes := by
  simp only [bytes, List.mem_append, List.mem_cons, not_or]
  exact ⟨v.1.2.1, by decide, v.2.2⟩

theorem Var.bytes_ne_nil (v : Var) : v.bytes ≠ [] := by
  simp [bytes]

@[simp]
theorem encode_nil : encode [] = [0#8, 0#8] := rfl

theorem encode_of_ne_nil {vars : List Var} (h : vars ≠ []) :
    encode vars = terminated 0#8 (vars.map Var.bytes) ++ [0#8] := by
  simp [encode, h]

/-- The table of any list of variables, and a NUL behind it. -/
theorem exists_encode_eq (vars : List Var) :
    ∃ rest, encode vars = terminated 0#8 (vars.map Var.bytes) ++ 0#8 :: rest := by
  unfold encode
  split <;> exact ⟨_, rfl⟩

end UBoot.Env
