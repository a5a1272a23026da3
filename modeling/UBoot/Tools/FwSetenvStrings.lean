/-
# The environment of the host as strings

What `fw_env_write` and `fw_getenv` do on a buffer that starts with strings and an
empty string. The strings need not be definitions, a name may be defined twice, and
one may end behind `ENV_SIZE`.
-/

import UBoot.Env.SetenvRefines
import UBoot.Tools.FwEnv

namespace UBoot.Tools

open UBoot.Lib UBoot.Env

/-! ## One string -/

/-- What `envmatch` makes of a string: a definition with its value, something else, or
the bare name, with which it runs past the end of both. -/
inductive Matching
  | value (v : List Byte)
  | other
  | overrun
  deriving DecidableEq

/-- `envmatch` of a name on a string of the environment. -/
def matchString : List Byte → List Byte → Matching
  | [], [] => .overrun
  | [], c :: s => if c = equals then .value s else .other
  | _ :: _, [] => .other
  | a :: name, c :: s =>
      if a = c then if a = equals then .value s else matchString name s else .other

theorem matchString_nil (c : Byte) (s : List Byte) :
    matchString [] (c :: s) = if c = equals then .value s else .other := rfl

theorem matchString_cons (a c : Byte) (name s : List Byte) :
    matchString (a :: name) (c :: s) =
      if a = c then if a = equals then .value s else matchString name s else .other := rfl

/-- The value is what follows an equals sign of the string. -/
theorem matchString_value {name s v : List Byte} (h : matchString name s = .value v) :
    ∃ p, s = p ++ equals :: v := by
  induction name generalizing s with
  | nil =>
      cases s with
      | nil => cases h
      | cons c s =>
          rw [matchString_nil] at h
          split at h
          · rename_i hc
            cases h
            exact ⟨[], by rw [hc, List.nil_append]⟩
          · cases h
  | cons a name ih =>
      cases s with
      | nil => cases h
      | cons c s =>
          rw [matchString_cons] at h
          split at h
          · rename_i hac
            split at h
            · rename_i ha
              cases h
              exact ⟨[], by rw [← hac, ha, List.nil_append]⟩
            · obtain ⟨p, rfl⟩ := ih h
              exact ⟨c :: p, rfl⟩
          · cases h

/-- A new definition is found under its name, with its value if there is no equals sign in
the name. -/
theorem matchString_self (name value : List Byte) :
    ∃ v, matchString name (name ++ equals :: value) = .value v ∧
      (v = value ↔ equals ∉ name) := by
  induction name with
  | nil => exact ⟨value, if_pos rfl, by simp⟩
  | cons a name ih =>
      by_cases ha : a = equals
      · refine ⟨name ++ equals :: value, (if_pos rfl).trans (if_pos ha), ?_⟩
        constructor
        · intro h
          have := congrArg List.length h
          simp only [List.length_append, List.length_cons] at this
          omega
        · intro h
          simp [ha] at h
      · obtain ⟨v, hv, hiff⟩ := ih
        refine ⟨v, ?_, ?_⟩
        · exact (if_pos rfl).trans ((if_neg ha).trans hv)
        · simpa [Ne.symm ha] using hiff

/-- `envmatch` on a string in the buffer. -/
theorem envmatch_string {name s : List Byte} (hname : 0#8 ∉ name) (hs : 0#8 ∉ s)
    (A B : List Byte) :
    envmatch (A ++ (s ++ 0#8 :: B)) name A.length =
      match matchString name s with
      | .value v => .ok (some (A.length + s.length - v.length))
      | .other => .ok none
      | .overrun => .error .outOfBuffer := by
  induction s generalizing name A with
  | nil =>
      cases name with
      | nil => simp [envmatch, matchString]
      | cons a name =>
          have ha : a ≠ 0#8 := fun h => hname (by simp [h])
          simp [envmatch, matchString, ha]
  | cons c s ih =>
      simp only [List.mem_cons, not_or] at hs
      cases name with
      | nil =>
          by_cases hc : c = equals
          · simp [envmatch, matchString, hc, equals]
            omega
          · simp [envmatch, matchString, Ne.symm hs.1, hc]
      | cons a name =>
          simp only [List.mem_cons, not_or] at hname
          by_cases hac : a = c
          · subst hac
            by_cases ha : a = equals
            · simp [envmatch, matchString, ha]
              omega
            · have step := ih hname.2 hs.2 (A ++ [a])
              simp only [List.append_assoc, List.singleton_append, List.length_append,
                List.length_singleton] at step
              simp only [envmatch, matchString, List.cons_append, load_append, ok_bind, if_true,
                ha, if_false, step, List.length_cons]
              cases matchString name s with
              | value v =>
                  simp only
                  rw [show A.length + 1 + s.length - v.length =
                    A.length + (s.length + 1) - v.length by omega]
              | other => rfl
              | overrun => rfl
          · simp [envmatch, matchString, hac]

/-! ## The search -/

/-- What the search comes to on strings; `before` are those it has passed. -/
inductive Lookup
  | overrun
  | notTerminated
  | absent
  | found (before : List (List Byte)) (s v : List Byte) (after : List (List Byte))
  deriving DecidableEq

/-- The search in `strings`, behind `before`. -/
def lookup (ENV_SIZE : Nat) (name : List Byte) (before : List (List Byte)) :
    List (List Byte) → Lookup
  | [] => .absent
  | s :: strings =>
      if ENV_SIZE < (terminated 0#8 before).length + s.length then .notTerminated
      else
        match matchString name s with
        | .value v => .found before s v strings
        | .other => lookup ENV_SIZE name (before ++ [s]) strings
        | .overrun => .overrun

/-- What the strings of an environment are. -/
def Strings (strings : List (List Byte)) : Prop :=
  ∀ s ∈ strings, 0#8 ∉ s ∧ s ≠ []

variable {ENV_SIZE : Nat}

theorem strendWithin_string {s : List Byte} (hs : 0#8 ∉ s) (A B : List Byte) (fuel : Nat)
    (hfuel : s.length < fuel) :
    strendWithin ENV_SIZE (A ++ (s ++ 0#8 :: B)) fuel A.length =
      .ok (if s = [] ∨ A.length + s.length ≤ ENV_SIZE then some (A.length + s.length)
        else none) := by
  induction s generalizing A fuel with
  | nil =>
      obtain ⟨fuel, rfl⟩ := Nat.exists_eq_succ_of_ne_zero (Nat.ne_zero_of_lt hfuel)
      simp [strendWithin]
  | cons c s ih =>
      obtain ⟨fuel, rfl⟩ := Nat.exists_eq_succ_of_ne_zero (Nat.ne_zero_of_lt hfuel)
      simp only [List.mem_cons, not_or] at hs
      simp only [List.length_cons] at hfuel
      have step := ih hs.2 (A ++ [c]) fuel (by omega)
      simp only [List.append_assoc, List.singleton_append, List.length_append,
        List.length_singleton] at step
      rw [strendWithin, List.cons_append, load_append, ok_bind, if_neg (Ne.symm hs.1)]
      by_cases hend : A.length ≥ ENV_SIZE
      · rw [if_pos hend, pure_eq_ok, if_neg]
        simp only [List.length_cons, reduceCtorEq, false_or]
        omega
      · rw [if_neg hend, step]
        by_cases hnil : s = []
        · subst hnil
          rw [if_pos (.inl rfl), if_pos]
          · rfl
          · simp only [List.length_cons, List.length_nil]
            omega
        · simp only [hnil, List.length_cons, reduceCtorEq, false_or]
          rw [show A.length + 1 + s.length = A.length + (s.length + 1) by omega]

/-- The loop over the strings of a buffer does what `lookup` says, and goes on behind them
when none is a definition. -/
theorem searchFrom_strings (ENV_SIZE : Nat) (name : CString) {strings : List (List Byte)}
    (h : Strings strings) (before : List (List Byte)) (tail : List Byte) (fuel : Nat) :
    searchFrom ENV_SIZE (terminated 0#8 before ++ (terminated 0#8 strings ++ tail)) name
        (fuel + strings.length) (terminated 0#8 before).length =
      match lookup ENV_SIZE name.1 before strings with
      | .overrun => .error .outOfBuffer
      | .notTerminated => .ok .notTerminated
      | .found b s v _ =>
          .ok (.found ⟨(terminated 0#8 b).length, (terminated 0#8 b).length + s.length,
            (terminated 0#8 b).length + s.length - v.length⟩)
      | .absent =>
          searchFrom ENV_SIZE (terminated 0#8 before ++ (terminated 0#8 strings ++ tail)) name fuel
            (terminated 0#8 (before ++ strings)).length := by
  induction strings generalizing before with
  | nil => simp [lookup]
  | cons s strings ih =>
      obtain ⟨hs, hne⟩ := h s List.mem_cons_self
      have step := ih (fun t ht => h t (List.mem_cons_of_mem _ ht)) (before ++ [s])
      generalize hT : terminated 0#8 before = T at step ⊢
      obtain ⟨c, cs, hcs⟩ := List.exists_cons_of_ne_nil hne
      have first : load (T ++ (s ++ 0#8 :: (terminated 0#8 strings ++ tail))) T.length = .ok c := by
        simp [hcs]
      have hc : c ≠ 0#8 := fun h => hs (by simp [hcs, h])
      have layout : T ++ (terminated 0#8 (s :: strings) ++ tail) =
          T ++ (s ++ 0#8 :: (terminated 0#8 strings ++ tail)) := by
        simp
      have next : terminated 0#8 (before ++ [s]) ++ (terminated 0#8 strings ++ tail) =
          T ++ (s ++ 0#8 :: (terminated 0#8 strings ++ tail)) := by
        simp [hT]
      have length_next : (terminated 0#8 (before ++ [s])).length = T.length + s.length + 1 := by
        simp [hT, Nat.add_assoc]
      rw [next, length_next, List.append_assoc, List.singleton_append] at step
      rw [layout, List.length_cons, ← Nat.add_assoc, searchFrom, first, ok_bind, if_neg hc,
        strendWithin_string hs T _ _ (by simp; omega)]
      unfold lookup
      rw [hT]
      by_cases hlong : ENV_SIZE < T.length + s.length
      · rw [if_pos hlong, if_neg (by simp only [hne, false_or]; omega)]
        rfl
      · rw [if_neg hlong, if_pos (.inr (by omega))]
        simp only [ok_bind, envmatch_string name.2 hs]
        cases matchString name.1 s with
        | value v => simp only [ok_bind, pure_eq_ok, hT]
        | overrun => rfl
        | other => exact step

theorem length_le_terminated (strings : List (List Byte)) :
    strings.length ≤ (terminated 0#8 strings).length := by
  induction strings with
  | nil => simp
  | cons s strings ih =>
      simp only [terminated_cons, List.length_append, List.length_cons]
      omega

/-- The search in a whole buffer, with what follows the strings left open. -/
theorem search_strings (ENV_SIZE : Nat) (name : CString) {strings : List (List Byte)}
    (h : Strings strings) (tail : List Byte) :
    ∃ fuel, search ENV_SIZE (terminated 0#8 strings ++ tail) name =
      match lookup ENV_SIZE name.1 [] strings with
      | .overrun => .error .outOfBuffer
      | .notTerminated => .ok .notTerminated
      | .found b s v _ =>
          .ok (.found ⟨(terminated 0#8 b).length, (terminated 0#8 b).length + s.length,
            (terminated 0#8 b).length + s.length - v.length⟩)
      | .absent =>
          searchFrom ENV_SIZE (terminated 0#8 strings ++ tail) name (fuel + 1)
            (terminated 0#8 strings).length := by
  have hlen := length_le_terminated strings
  obtain ⟨fuel, hfuel⟩ : ∃ fuel,
      (terminated 0#8 strings ++ tail).length + 1 = (fuel + 1) + strings.length :=
    ⟨(terminated 0#8 strings ++ tail).length - strings.length, by
      rw [List.length_append]
      omega⟩
  have all := searchFrom_strings ENV_SIZE name h [] tail (fuel + 1)
  rw [terminated_nil, List.nil_append, List.length_nil, List.nil_append] at all
  exact ⟨fuel, by rw [search, hfuel, all]⟩

/-- The strings a buffer starts with, and the empty string behind them. -/
def Holding (data : List Byte) (strings : List (List Byte)) : Prop :=
  Strings strings ∧ terminated 0#8 strings ++ [0#8] <+: data

theorem search_holding {data : List Byte} {strings : List (List Byte)}
    (h : Holding data strings) (name : CString) :
    search ENV_SIZE data name =
      match lookup ENV_SIZE name.1 [] strings with
      | .overrun => .error .outOfBuffer
      | .notTerminated => .ok .notTerminated
      | .found b s v _ =>
          .ok (.found ⟨(terminated 0#8 b).length, (terminated 0#8 b).length + s.length,
            (terminated 0#8 b).length + s.length - v.length⟩)
      | .absent => .ok .absent := by
  obtain ⟨hs, rest, rfl⟩ := h
  obtain ⟨fuel, hsearch⟩ := search_strings ENV_SIZE name hs (0#8 :: rest)
  rw [List.append_assoc, List.singleton_append, hsearch]
  cases lookup ENV_SIZE name.1 [] strings with
  | absent => simp [searchFrom]
  | overrun => rfl
  | notTerminated => rfl
  | found b s v a => rfl

/-- What a lookup finds is one of the strings. -/
theorem lookup_found {name : List Byte} {before strings b a : List (List Byte)}
    {s v : List Byte} (h : lookup ENV_SIZE name before strings = .found b s v a) :
    before ++ strings = b ++ s :: a ∧ matchString name s = .value v := by
  induction strings generalizing before with
  | nil => cases h
  | cons t strings ih =>
      unfold lookup at h
      split at h
      · cases h
      · split at h
        · rename_i v' hv
          cases h
          exact ⟨rfl, hv⟩
        · obtain ⟨hsplit, hv⟩ := ih h
          exact ⟨by simpa using hsplit, hv⟩
        · cases h

/-- The value of a definition in a buffer. -/
theorem stringAt_value {name s v : List Byte} (hs : 0#8 ∉ s) (hv : matchString name s = .value v)
    (A B : List Byte) :
    stringAt (A ++ (s ++ 0#8 :: B)) (A.length + s.length - v.length) = .ok v := by
  obtain ⟨p, rfl⟩ := matchString_value hv
  have hv' : 0#8 ∉ v := fun h => hs (by simp [h])
  have string := stringAt_append (A ++ p ++ [equals]) B hv'
  have length : A.length + (p ++ equals :: v).length - v.length = (A ++ p ++ [equals]).length := by
    simp only [List.length_append, List.length_cons, List.length_nil]
    omega
  rw [length]
  simpa using string

/-- A definition that a lookup finds, in its buffer. -/
theorem Holding.exists_found {data : List Byte} {strings : List (List Byte)}
    (h : Holding data strings) {name : List Byte} {b a : List (List Byte)} {s v : List Byte}
    (hfound : lookup ENV_SIZE name [] strings = .found b s v a) :
    ∃ rest, 0#8 ∉ s ∧ s ≠ [] ∧ Strings (b ++ a) ∧ matchString name s = .value v ∧
      data = terminated 0#8 b ++ (s ++ 0#8 :: (terminated 0#8 a ++ 0#8 :: rest)) := by
  obtain ⟨hs, rest, rfl⟩ := h
  obtain ⟨hsplit, hv⟩ := lookup_found hfound
  rw [List.nil_append] at hsplit
  subst hsplit
  obtain ⟨hmem, hne⟩ := hs s (by simp)
  refine ⟨rest, hmem, hne, ?_, hv, by simp⟩
  intro t ht
  apply hs t
  rw [List.mem_append] at ht
  rw [List.mem_append, List.mem_cons]
  exact ht.imp id .inr

/-- `fw_getenv` on the strings of a buffer. -/
theorem getenvIn_holding (ENV_SIZE : Nat) {data : List Byte} {strings : List (List Byte)}
    (h : Holding data strings) (name : CString) :
    getenvIn ENV_SIZE data name =
      match lookup ENV_SIZE name.1 [] strings with
      | .overrun => .error .outOfBuffer
      | .found _ _ v _ => .ok (some v)
      | _ => .ok none := by
  unfold getenvIn
  rw [search_holding h]
  cases hlookup : lookup ENV_SIZE name.1 [] strings with
  | absent => rfl
  | overrun => rfl
  | notTerminated => rfl
  | found b s v a =>
      obtain ⟨rest, hs, -, -, hv, rfl⟩ := h.exists_found hlookup
      simp only [ok_bind, stringAt_value hs hv]
      rfl

/-! ## Deleting and appending -/

/-- A table as `fw_env_write` leaves it: two NULs end one without strings. -/
def Table (data : List Byte) (strings : List (List Byte)) : Prop :=
  Strings strings ∧
    terminated 0#8 strings ++ (if strings = [] then [0#8, 0#8] else [0#8]) <+: data

theorem Table.holding {data : List Byte} {strings : List (List Byte)} (h : Table data strings) :
    Holding data strings := by
  obtain ⟨hs, rest, rfl⟩ := h
  refine ⟨hs, ?_⟩
  by_cases hnil : strings = []
  · subst hnil
    exact ⟨0#8 :: rest, rfl⟩
  · rw [if_neg hnil]
    exact ⟨rest, rfl⟩

theorem Holding.table {data : List Byte} {strings : List (List Byte)} (h : Holding data strings)
    (hne : strings ≠ []) : Table data strings := by
  refine ⟨h.1, ?_⟩
  rw [if_neg hne]
  exact h.2

/-- Deleting a string leaves a table of the others. -/
theorem deleteDefinition_strings {before after : List (List Byte)} {s : List Byte}
    (hs : s ≠ []) (hothers : Strings (before ++ after)) {rest data : List Byte}
    (hdata : data = terminated 0#8 before ++
      (s ++ 0#8 :: (terminated 0#8 after ++ 0#8 :: rest))) (oldval : Nat) :
    ∃ data', deleteDefinition data ⟨(terminated 0#8 before).length,
        (terminated 0#8 before).length + s.length, oldval⟩ = .ok data' ∧
      data'.length = data.length ∧ Table data' (before ++ after) := by
  generalize hT : terminated 0#8 before = T at hdata ⊢
  unfold deleteDefinition Table
  by_cases hafter : after = []
  · subst hafter
    -- the last string: two NULs are written over it
    obtain ⟨c, cs, rfl⟩ := List.exists_cons_of_ne_nil hs
    have next : load data (T.length + (c :: cs).length + 1) = .ok 0#8 :=
      load_of_eq (T ++ (c :: cs) ++ [0#8]) rest _ (by simp [hdata]) (by simp; omega)
    obtain ⟨d, ds, hd⟩ := List.exists_cons_of_ne_nil
      (show cs ++ 0#8 :: 0#8 :: rest ≠ [] by simp)
    have first : Env.store data T.length 0#8 = .ok (T ++ 0#8 :: (d :: ds)) :=
      store_of_eq T _ c _ (by simp [hdata, ← hd]) rfl
    have second : Env.store (T ++ 0#8 :: (d :: ds)) (T.length + 1) 0#8 =
        .ok (T ++ [0#8] ++ 0#8 :: ds) :=
      store_of_eq (T ++ [0#8]) ds d _ (by simp) (by simp)
    refine ⟨T ++ [0#8] ++ 0#8 :: ds, ?_, ?_, hothers, ?_⟩
    · simp only [next, dropDefinition, if_true, first, ok_bind, pure_eq_ok, second]
    · have := congrArg List.length hd
      simp only [List.length_append, List.length_cons] at this
      simp only [hdata, terminated_nil, List.length_append, List.length_cons, List.length_nil]
      omega
    · rw [List.append_nil, hT]
      split
      · exact ⟨ds, by simp⟩
      · exact ⟨0#8 :: ds, by simp⟩
  · -- others behind it are moved down
    have strings : Strings after := fun t ht => hothers t (List.mem_append_right _ ht)
    obtain ⟨e, data₁, env, rest', next, he, moved, closed, hlen⟩ :=
      moveDown_strings strings hafter T s rest data hdata
    refine ⟨T ++ terminated 0#8 after ++ 0#8 :: rest', ?_, hlen, hothers, ?_⟩
    · simp only [next, dropDefinition, ok_bind, he, if_false, moved, closed]
    · rw [if_neg (by simp [hafter]), terminated_append, hT]
      exact ⟨rest', by simp⟩

/-- Whether a new definition fits behind the strings. -/
def Fits (ENV_SIZE : Nat) (strings : List (List Byte)) (name value : List Byte) : Prop :=
  (terminated 0#8 strings).length + name.length + value.length + 3 ≤ ENV_SIZE

instance (strings : List (List Byte)) (name value : List Byte) :
    Decidable (Fits ENV_SIZE strings name value) :=
  inferInstanceAs (Decidable (_ ≤ _))

theorem putDefinition_strings {strings : List (List Byte)} {data : List Byte}
    (h : Table data strings) {name value : List Byte} (hname : 0#8 ∉ name) (hvalue : 0#8 ∉ value)
    (hfits : Fits data.length strings name value) :
    ∃ data', putDefinition data (terminated 0#8 strings).length name value = .ok data' ∧
      data'.length = data.length ∧ Table data' (strings ++ [name ++ equals :: value]) := by
  obtain ⟨hs, table⟩ := h
  have prefix_data : terminated 0#8 strings <+: data :=
    (List.prefix_append _ _).trans table
  obtain ⟨gap, rfl⟩ := prefix_data
  generalize hT : terminated 0#8 strings = T at hfits table ⊢
  unfold Fits at hfits
  rw [hT, List.length_append] at hfits
  -- what the stores overwrite: the name, the value with its NUL, and the last NUL
  obtain ⟨first, second, z, rest, rfl, hfirst, hsecond⟩ : ∃ first second z rest,
      gap = first ++ (second ++ z :: rest) ∧ first.length = name.length + 1 ∧
      second.length = value.length + 1 := by
    have hz : (gap.drop (name.length + 1)).drop (value.length + 1) ≠ [] := by
      intro h
      have := congrArg List.length h
      simp only [List.length_drop, List.length_nil] at this
      omega
    obtain ⟨z, rest, hz⟩ := List.exists_cons_of_ne_nil hz
    refine ⟨gap.take (name.length + 1), (gap.drop (name.length + 1)).take (value.length + 1),
      z, rest, ?_, ?_, ?_⟩
    · rw [← hz, List.take_append_drop, List.take_append_drop]
    · rw [List.length_take]
      omega
    · rw [List.length_take, List.length_drop]
      omega
  have named := strcpy_append T (second ++ z :: rest) (s := name) hfirst
  have marked :
      Env.store (T ++ name ++ 0#8 :: (second ++ z :: rest)) (T.length + name.length) equals =
        .ok (T ++ name ++ equals :: (second ++ z :: rest)) :=
    store_of_eq _ _ 0#8 _ rfl (by simp)
  have valued := strcpy_append (T ++ name ++ [equals]) (z :: rest) (s := value) hsecond
  have closed : Env.store (T ++ name ++ [equals] ++ value ++ 0#8 :: z :: rest)
      (T.length + name.length + 1 + value.length + 1) 0#8 =
      .ok (T ++ name ++ [equals] ++ value ++ [0#8] ++ 0#8 :: rest) :=
    store_of_eq _ _ z _ (by simp) (by simp; omega)
  have length_marked : T.length + name.length + 1 = (T ++ name ++ [equals]).length := by
    simp
    omega
  have marked_eq : T ++ name ++ equals :: (second ++ z :: rest) =
      T ++ name ++ [equals] ++ (second ++ z :: rest) := by simp
  refine ⟨T ++ name ++ [equals] ++ value ++ [0#8] ++ 0#8 :: rest, ?_, ?_, ?_, ?_⟩
  · unfold putDefinition
    rw [named, ok_bind]
    simp only [marked, ok_bind]
    rw [marked_eq, length_marked, valued, ok_bind, ← length_marked, closed]
  · simp only [List.length_append, List.length_cons, List.length_nil]
    omega
  · intro t ht
    rw [List.mem_append, List.mem_singleton] at ht
    obtain ht | rfl := ht
    · exact hs t ht
    · refine ⟨?_, by simp⟩
      simp [hname, hvalue, equals]
  · rw [if_neg (by simp), terminated_append, hT]
    exact ⟨rest, by simp⟩

/-- Appending a definition to a table, or refusing to. -/
theorem appendDefinition_strings {strings : List (List Byte)} {data : List Byte}
    (h : Table data strings) (hsize : ENV_SIZE ≤ data.length) {name value : List Byte}
    (hname : 0#8 ∉ name) (hvalue : 0#8 ∉ value) :
    if Fits ENV_SIZE strings name value then
      ∃ data', appendDefinition ENV_SIZE data name value = .ok (0, data') ∧
        data'.length = data.length ∧ Table data' (strings ++ [name ++ equals :: value])
    else appendDefinition ENV_SIZE data name value = .ok (-1, data) := by
  have at_end := endOfVars_of_strings h.1 h.2
  unfold appendDefinition
  rw [at_end]
  split
  · rename_i hfits
    have room : Fits data.length strings name value := Nat.le_trans hfits hsize
    obtain ⟨data', hput, hlen, htable⟩ := putDefinition_strings h hname hvalue room
    refine ⟨data', ?_, hlen, htable⟩
    unfold Fits at hfits
    rw [ok_bind, if_neg (by omega), hput]
    rfl
  · rename_i hfits
    unfold Fits at hfits
    rw [ok_bind, if_pos (by omega)]
    rfl

/-! ## Buffers without an end -/

/-- The strings of any buffer, and what follows them: an empty string, or bytes that are no
string any more. -/
theorem exists_strings (data : List Byte) :
    ∃ strings tail, Strings strings ∧ data = terminated 0#8 strings ++ tail ∧
      (tail.head? = some 0#8 ∨ 0#8 ∉ tail) := by
  induction hlen : data.length using Nat.strong_induction_on generalizing data with
  | _ n ih =>
      by_cases hmem : 0#8 ∈ data
      · obtain ⟨s, rest, rfl, hs⟩ := List.eq_append_cons_of_mem hmem
        by_cases hnil : s = []
        · exact ⟨[], s ++ 0#8 :: rest, by simp [Strings], rfl, .inl (by simp [hnil])⟩
        · obtain ⟨strings, tail, hstrings, rfl, htail⟩ :=
            ih rest.length (by simp only [← hlen, List.length_append, List.length_cons]; omega)
              rest rfl
          refine ⟨s :: strings, tail, ?_, by simp, htail⟩
          intro t ht
          rw [List.mem_cons] at ht
          obtain rfl | ht := ht
          · exact ⟨hs, hnil⟩
          · exact hstrings t ht
      · exact ⟨[], data, by simp [Strings], rfl, .inr hmem⟩

theorem store_length {data data' : List Byte} {i : Nat} {b : Byte}
    (h : Env.store data i b = .ok data') : data'.length = data.length := by
  unfold Env.store at h
  split at h
  · cases h
    exact List.length_set
  · cases h

/-- The loop that moves the table runs off a buffer in which no two NULs follow. -/
theorem moveDown_of_noPair {R : List Byte} (hR : NoPair 0#8 R) (fuel : Nat) (Y data : List Byte)
    (env nxt : Nat) (hdata : data = Y ++ R) (hnxt : nxt = Y.length) (henv : env < nxt) :
    Env.moveDown fuel data env nxt = .error .outOfBuffer := by
  induction R generalizing fuel Y data env nxt with
  | nil =>
      cases fuel with
      | zero => rfl
      | succ fuel =>
          have off : load data nxt = .error .outOfBuffer := by
            simp [load, hdata, hnxt]
          rw [Env.moveDown, off]
          rfl
  | cons r R ih =>
      cases fuel with
      | zero => rfl
      | succ fuel =>
          rw [NoPair, List.isChain_cons] at hR
          have here : load data nxt = .ok r := load_of_eq Y R r hdata hnxt
          have moved : Env.store data env r = .ok (Y.set env r ++ r :: R) := by
            rw [hnxt] at henv
            simp [Env.store, hdata, List.set_append_left, henv]
            omega
          have rest : Env.moveDown fuel (Y.set env r ++ r :: R) (env + 1) (nxt + 1) =
              .error .outOfBuffer := by
            apply ih hR.2 fuel (Y.set env r ++ [r])
            · simp
            · simp [hnxt]
            · omega
          rw [Env.moveDown, here]
          simp only [ok_bind, moved]
          split
          · cases R with
            | nil =>
                have off : load (Y.set env r ++ [r]) (nxt + 1) = .error .outOfBuffer := by
                  simp [load, hnxt]
                rw [off]
                rfl
            | cons q R =>
                have next : load (Y.set env r ++ r :: q :: R) (nxt + 1) = .ok q :=
                  load_of_eq (Y.set env r ++ [r]) R q (by simp) (by simp [hnxt])
                have hq : q ≠ 0#8 := by
                  intro hq
                  exact hR.1 q rfl ⟨‹_›, hq⟩
                rw [next, ok_bind, if_neg hq]
                exact rest
          · exact rest

/-- The loop over a string that no NUL ends. -/
theorem strendWithin_of_open (ENV_SIZE : Nat) {tail : List Byte} (htail : 0#8 ∉ tail)
    (fuel : Nat) (A data : List Byte) (hdata : data = A ++ tail) :
    strendWithin ENV_SIZE data fuel A.length = .ok none ∨
      strendWithin ENV_SIZE data fuel A.length = .error .outOfBuffer := by
  induction tail generalizing fuel A with
  | nil =>
      cases fuel with
      | zero => exact .inr rfl
      | succ fuel =>
          have off : load data A.length = .error .outOfBuffer := by simp [load, hdata]
          rw [strendWithin, off]
          exact .inr rfl
  | cons c tail ih =>
      cases fuel with
      | zero => exact .inr rfl
      | succ fuel =>
          simp only [List.mem_cons, not_or] at htail
          have here : load data A.length = .ok c := load_of_eq A tail c hdata rfl
          have rest := ih htail.2 fuel (A ++ [c]) (by simp [hdata])
          rw [List.length_append, List.length_singleton] at rest
          rw [strendWithin, here, ok_bind, if_neg (Ne.symm htail.1)]
          split
          · exact .inl rfl
          · exact rest

theorem noPair_open {strings : List (List Byte)} (hs : Strings strings) {tail : List Byte}
    (htail : 0#8 ∉ tail) : NoPair 0#8 (terminated 0#8 strings ++ tail) := by
  rw [NoPair, List.isChain_append]
  refine ⟨noPair_terminated hs, noPair_of_notMem htail, ?_⟩
  rintro x - y hy ⟨-, rfl⟩
  exact htail (List.mem_of_mem_head? hy)

theorem head?_open {strings : List (List Byte)} (hs : Strings strings) {tail : List Byte}
    (htail : 0#8 ∉ tail) : (terminated 0#8 strings ++ tail).head? ≠ some 0#8 := by
  intro hhead
  cases strings with
  | nil => exact htail (List.mem_of_mem_head? hhead)
  | cons s strings =>
      obtain ⟨hmem, hne⟩ := hs s List.mem_cons_self
      obtain ⟨c, cs, rfl⟩ := List.exists_cons_of_ne_nil hne
      apply hmem
      have : c = 0#8 := by simpa using hhead
      simp [this]

/-- A deletion runs off a buffer in which no empty string follows. -/
theorem deleteDefinition_of_open {X : List Byte} (hpair : NoPair 0#8 X)
    (hhead : X.head? ≠ some 0#8) (T s : List Byte) (oldval : Nat) :
    deleteDefinition (T ++ (s ++ 0#8 :: X)) ⟨T.length, T.length + s.length, oldval⟩ =
      .error .outOfBuffer := by
  have hnxt : T.length + s.length + 1 = (T ++ s ++ [0#8]).length := by
    simp only [List.length_append, List.length_singleton]
  unfold deleteDefinition
  cases X with
  | nil =>
      have off : load (T ++ (s ++ [0#8])) (T.length + s.length + 1) = .error .outOfBuffer := by
        rw [hnxt]
        simp [load]
      simp only [off]
      rfl
  | cons x X =>
      have hx : x ≠ 0#8 := fun h => hhead (by simp [h])
      have here : load (T ++ (s ++ 0#8 :: x :: X)) (T.length + s.length + 1) = .ok x :=
        load_of_eq (T ++ s ++ [0#8]) X x (by simp) hnxt
      have off := moveDown_of_noPair hpair (T ++ (s ++ 0#8 :: x :: X)).length (T ++ s ++ [0#8])
        (T ++ (s ++ 0#8 :: x :: X)) T.length (T.length + s.length + 1) (by simp) hnxt (by omega)
      simp only [here, dropDefinition, ok_bind, hx, if_false, off]
      rfl

/-- Without an empty string behind the strings, nothing is set or deleted. -/
theorem fw_env_write_of_open (setup : Setup) {strings : List (List Byte)} {tail : List Byte}
    (hs : Strings strings) (htail : 0#8 ∉ tail) (name : CString) (value : List Byte)
    {rc : Int} {data' : List Byte}
    (h : fw_env_write setup ENV_SIZE (terminated 0#8 strings ++ tail) name value =
      .ok (rc, data')) : rc = -1 := by
  obtain ⟨fuel, hsearch⟩ := search_strings ENV_SIZE name hs tail
  unfold fw_env_write at h
  rw [hsearch] at h
  cases hlookup : lookup ENV_SIZE name.1 [] strings with
  | overrun =>
      rw [hlookup] at h
      cases h
  | notTerminated =>
      rw [hlookup] at h
      cases h
      rfl
  | absent =>
      simp only [hlookup] at h
      unfold searchFrom at h
      cases tail with
      | nil =>
          have off : load (terminated 0#8 strings ++ []) (terminated 0#8 strings).length =
              .error .outOfBuffer := by simp [load]
          rw [off] at h
          cases h
      | cons c tail =>
          have hc : c ≠ 0#8 := fun hc => htail (by simp [hc])
          rw [load_append, ok_bind, if_neg hc] at h
          obtain hend | hend := strendWithin_of_open ENV_SIZE htail
            ((terminated 0#8 strings ++ c :: tail).length + 1) _ _ rfl
          · rw [hend] at h
            cases h
            rfl
          · rw [hend] at h
            cases h
  | found b s v a =>
      obtain ⟨hsplit, hv⟩ := lookup_found hlookup
      rw [List.nil_append] at hsplit
      subst hsplit
      have ha : Strings a := fun t ht => hs t (by simp [ht])
      have hmem : 0#8 ∉ s := (hs s (by simp)).1
      have layout : terminated 0#8 (b ++ s :: a) ++ tail =
          terminated 0#8 b ++ (s ++ 0#8 :: (terminated 0#8 a ++ tail)) := by simp
      simp only [hlookup, ok_bind, layout, stringAt_value hmem hv,
        deleteDefinition_of_open (noPair_open ha htail) (head?_open ha htail)] at h
      split at h
      · cases h
        rfl
      · cases h

end UBoot.Tools
