/-
# `_do_setenv` refines the ordered map

Each loop of `_do_setenv` is followed on a buffer cut where its indices stand:
`A` before the current index, then what the loop looks at, then the rest. The
search walks over definitions of other names; the deletion moves the table
behind the definition down by its length, whatever the bytes in between become;
the append overwrites the final NUL and bytes that do not matter.

A call that reads no missing argument does to the buffer what `EnvMap.setenv`
does to the map. Deleting `baudrate` without a value is a call that does.
-/

import UBoot.Env.EnvMap
import UBoot.Lib.Run

namespace UBoot.Env

open UBoot.Lib

/-! ## Access at a cut -/

section Access

variable {α β : Type}

@[simp]
theorem ok_bind (a : α) (k : α → Checked β) : (Except.ok a >>= k) = k a := rfl

/-- A step that comes to a result, and what is done with it. -/
theorem bind_ok {x : Checked α} {k : α → Checked β} {b : β} (h : x >>= k = .ok b) :
    ∃ a, x = .ok a ∧ k a = .ok b := by
  cases x with
  | error e => cases h
  | ok a => exact ⟨a, rfl, h⟩

@[simp]
theorem pure_eq_ok (a : α) : (pure a : Checked α) = .ok a := rfl

variable (A B : List Byte) (b c : Byte)

@[simp]
theorem load_append : load (A ++ b :: B) A.length = .ok b := by
  simp [load]

@[simp]
theorem store_append : store (A ++ b :: B) A.length c = .ok (A ++ c :: B) := by
  simp [store, List.set_append_right]

theorem load_of_eq {data : List Byte} {i : Nat} (hdata : data = A ++ b :: B) (hi : i = A.length) :
    load data i = .ok b := by
  rw [hdata, hi, load_append]

theorem store_of_eq {data : List Byte} {i : Nat} (hdata : data = A ++ b :: B) (hi : i = A.length) :
    store data i c = .ok (A ++ c :: B) := by
  rw [hdata, hi, store_append]

theorem strend_append {s : List Byte} (h : 0#8 ∉ s) :
    strend (A ++ (s ++ 0#8 :: B)) A.length = .ok (A.length + s.length) := by
  have found : (s ++ 0#8 :: B).findIdx? (· = 0#8) = some s.length := by
    rw [List.findIdx?_append, List.findIdx?_eq_none_iff.mpr]
    · simp [List.findIdx?_cons]
    · intro x hx
      have : x ≠ 0#8 := fun hzero => h (hzero ▸ hx)
      simpa using this
  simp [strend, found]

theorem stringAt_append {s : List Byte} (h : 0#8 ∉ s) :
    stringAt (A ++ (s ++ 0#8 :: B)) A.length = .ok s := by
  simp [stringAt, strend_append A B h]

theorem strcpy_append {s gap : List Byte} (h : gap.length = s.length + 1) :
    strcpy (A ++ (gap ++ B)) A.length s = .ok (A ++ s ++ 0#8 :: B) := by
  have fits : A.length + s.length < (A ++ (gap ++ B)).length := by
    simp only [List.length_append]
    omega
  have rest : (A ++ (gap ++ B)).drop (A.length + s.length + 1) = B := by
    rw [List.drop_append, List.drop_eq_nil_of_le (by omega), List.drop_append,
      List.drop_eq_nil_of_le (by omega)]
    simp [h, show A.length + s.length + 1 - A.length - (s.length + 1) = 0 by omega]
  simp only [strcpy, fits, if_true, rest, List.take_left]

end Access

/-! ## The search -/

/-- `envmatch` on a definition. -/
theorem envmatch_append {name n : List Byte} (hname : equals ∉ name) (hn : 0#8 ∉ n)
    (hn' : equals ∉ n) (A B : List Byte) :
    envmatch (A ++ (n ++ equals :: B)) name A.length =
      .ok (if name = n then some (A.length + n.length + 1) else none) := by
  induction n generalizing name A with
  | nil =>
      cases name with
      | nil => simp [envmatch, equals]
      | cons s name =>
          have : s ≠ equals := fun h => hname (by simp [h])
          simp [envmatch, this]
  | cons c n ih =>
      simp only [List.mem_cons, not_or] at hn hn'
      cases name with
      | nil => simp [envmatch, Ne.symm hn.1, Ne.symm hn'.1]
      | cons s name =>
          simp only [List.mem_cons, not_or] at hname
          by_cases h : s = c
          · have step := ih hname.2 hn.2 hn'.2 (A ++ [c])
            simp only [List.append_assoc, List.singleton_append, List.length_append,
              List.length_singleton] at step
            subst h
            simp only [envmatch, List.cons_append, load_append, ok_bind, if_true,
              Ne.symm hname.1, if_false, step, List.cons.injEq, true_and, List.length_cons]
            rw [show A.length + 1 + n.length + 1 = A.length + (n.length + 1) + 1 by omega]
          · simp [envmatch, h]

theorem envmatch_var (name : VarName) (v : Var) (A B : List Byte) :
    envmatch (A ++ (v.bytes ++ 0#8 :: B)) name.1 A.length =
      .ok (if name = v.1 then some (A.length + v.1.1.length + 1) else none) := by
  have match_bytes := envmatch_append name.2.2 v.1.2.1 v.1.2.2 A (v.2.1 ++ 0#8 :: B)
  simpa [Var.bytes, Subtype.ext_iff] using match_bytes

/-- The name of a variable as `argv[1]`. -/
def VarName.str (name : VarName) : CString := ⟨name.1, name.2.1⟩

theorem findFrom_succ (data : List Byte) (name : CString) (fuel env : Nat) :
    findFrom data name (fuel + 1) env = (do
      if (← load data env) = 0#8 then return none
      let nxt ← strend data env
      match ← envmatch data name.1 env with
      | some oldval => return some ⟨env, nxt, oldval⟩
      | none => findFrom data name fuel (nxt + 1)) := rfl

/-- A round of the search at a definition of another name. -/
theorem findFrom_skip {name : VarName} {v : Var} (h : name ≠ v.1) (fuel : Nat)
    (A B : List Byte) :
    findFrom (A ++ (v.bytes ++ 0#8 :: B)) name.str (fuel + 1) A.length =
      findFrom (A ++ (v.bytes ++ 0#8 :: B)) name.str fuel (A ++ (v.bytes ++ [0#8])).length := by
  have first : load (A ++ (v.bytes ++ 0#8 :: B)) A.length ≠ .ok 0#8 ∧
      ∃ c, load (A ++ (v.bytes ++ 0#8 :: B)) A.length = .ok c := by
    obtain ⟨c, rest, hv⟩ := List.exists_cons_of_ne_nil v.bytes_ne_nil
    have hc : c ≠ 0#8 := fun h => v.nul_notMem_bytes (by simp [hv, h])
    simp [hv, hc]
  obtain ⟨hne, c, hc⟩ := first
  have hc' : c ≠ 0#8 := fun h => hne (by rw [hc, h])
  have hmatch := envmatch_var name v A B
  rw [if_neg h] at hmatch
  rw [findFrom_succ]
  simp only [hc, ok_bind, hc', if_false, strend_append A B v.nul_notMem_bytes, VarName.str,
    hmatch]
  congr 1
  simp
  omega

/-- The search passes over definitions of other names. -/
theorem findFrom_append {name : VarName} {vars : List Var} (h : name ∉ vars.keys) (fuel : Nat)
    (A B : List Byte) :
    findFrom (A ++ (terminated 0#8 (vars.map Var.bytes) ++ B)) name.str (fuel + vars.length)
        A.length =
      findFrom (A ++ (terminated 0#8 (vars.map Var.bytes) ++ B)) name.str fuel
        (A ++ terminated 0#8 (vars.map Var.bytes)).length := by
  induction vars generalizing A with
  | nil => simp
  | cons v vars ih =>
      simp only [List.keys_cons, List.mem_cons, not_or] at h
      have step := ih h.2 (A ++ (v.bytes ++ [0#8]))
      have skip := findFrom_skip h.1 (fuel + vars.length) A
        (terminated 0#8 (vars.map Var.bytes) ++ B)
      simp only [List.append_assoc, List.singleton_append] at step skip
      simp only [List.map_cons, terminated_cons, List.append_assoc, List.cons_append,
        List.length_cons, ← Nat.add_assoc] at step ⊢
      rw [skip, step]

/-- The search at the NUL that ends the table. -/
theorem findFrom_end (name : CString) (fuel : Nat) (A B : List Byte) :
    findFrom (A ++ 0#8 :: B) name (fuel + 1) A.length = .ok none := by
  simp [findFrom_succ]

/-- The search at the definition it looks for. -/
theorem findFrom_found (v : Var) (fuel : Nat) (A B : List Byte) :
    findFrom (A ++ (v.bytes ++ 0#8 :: B)) (VarName.str v.1) (fuel + 1) A.length =
      .ok (some ⟨A.length, A.length + v.bytes.length, A.length + v.1.1.length + 1⟩) := by
  obtain ⟨c, rest, hv⟩ := List.exists_cons_of_ne_nil v.bytes_ne_nil
  have hc : c ≠ 0#8 := fun h => v.nul_notMem_bytes (by simp [hv, h])
  have first : load (A ++ (v.bytes ++ 0#8 :: B)) A.length = .ok c := by simp [hv]
  have hmatch := envmatch_var v.1 v A B
  rw [if_pos rfl] at hmatch
  rw [findFrom_succ]
  simp only [first, ok_bind, hc, if_false, strend_append A B v.nul_notMem_bytes, VarName.str,
    hmatch, pure_eq_ok]

/-- The two search loops are the same. -/
theorem getenvFrom_eq (data : List Byte) (name : CString) (fuel i : Nat) :
    getenvFrom data name fuel i =
      (findFrom data name fuel i).map (Option.map Found.oldval) := by
  induction fuel generalizing i with
  | zero => rfl
  | succ fuel ih =>
      rw [getenvFrom, findFrom_succ]
      cases load data i with
      | error e => rfl
      | ok c =>
          by_cases hc : c = 0#8
          · simp [hc, Except.map]
          · cases strend data i with
            | error e => simp [hc]; rfl
            | ok nxt =>
                simp only [ok_bind, hc, if_false]
                cases envmatch data name.1 i with
                | error e => rfl
                | ok r => cases r <;> simp [ih, Except.map]

theorem length_le_length_terminated (vars : List Var) :
    vars.length ≤ (terminated 0#8 (vars.map Var.bytes)).length := by
  induction vars with
  | nil => simp
  | cons v vars ih =>
      simp only [List.map_cons, terminated_cons, List.length_append, List.length_cons]
      omega

theorem Holds.exists_eq {data : List Byte} {m : EnvMap} (h : Holds data m) :
    ∃ rest, data = terminated 0#8 (m.entries.map Var.bytes) ++ 0#8 :: rest := by
  obtain ⟨rest, rfl⟩ := h
  obtain ⟨rest', h'⟩ := exists_encode_eq m.entries
  exact ⟨rest' ++ rest, by simp [h']⟩

theorem findOld_of_notMem {data : List Byte} {m : EnvMap} (h : Holds data m) {name : VarName}
    (absent : name ∉ m) : findOld data name.str = .ok none := by
  obtain ⟨rest, rfl⟩ := h.exists_eq
  have hlen := length_le_length_terminated m.entries
  obtain ⟨fuel, hfuel⟩ : ∃ fuel, (terminated 0#8 (m.entries.map Var.bytes) ++ 0#8 :: rest).length
      + 1 = (fuel + 1) + m.entries.length :=
    ⟨(terminated 0#8 (m.entries.map Var.bytes) ++ 0#8 :: rest).length - m.entries.length, by
      rw [List.length_append]
      omega⟩
  have skip := findFrom_append absent (fuel + 1) [] (0#8 :: rest)
  rw [List.nil_append, List.nil_append, List.length_nil] at skip
  rw [findOld, hfuel, skip]
  exact findFrom_end _ _ _ _

theorem findOld_of_split {data : List Byte} {before after : List Var} {v : Var}
    (absent : v.1 ∉ before.keys) (rest : List Byte)
    (hdata : data = terminated 0#8 (before.map Var.bytes) ++ (v.bytes ++ 0#8 ::
      (terminated 0#8 (after.map Var.bytes) ++ rest))) :
    findOld data (VarName.str v.1) = .ok (some
      ⟨(terminated 0#8 (before.map Var.bytes)).length,
        (terminated 0#8 (before.map Var.bytes)).length + v.bytes.length,
        (terminated 0#8 (before.map Var.bytes)).length + v.1.1.length + 1⟩) := by
  have hlen := length_le_length_terminated before
  obtain ⟨fuel, hfuel⟩ : ∃ fuel, data.length + 1 = (fuel + 1) + before.length := by
    refine ⟨data.length - before.length, ?_⟩
    have : before.length ≤ data.length := by
      rw [hdata, List.length_append]
      omega
    omega
  have skip := findFrom_append absent (fuel + 1) []
    (v.bytes ++ 0#8 :: (terminated 0#8 (after.map Var.bytes) ++ rest))
  simp only [List.nil_append, List.length_nil, ← hdata] at skip
  rw [findOld, hfuel, skip, hdata]
  exact findFrom_found v fuel _ _

/-- The definition of a variable of the map, and what is around it. -/
theorem Holds.exists_split {data : List Byte} {m : EnvMap} (h : Holds data m) {name : VarName}
    {val : CString} (hval : m.lookup name = some val) :
    ∃ before after rest, name ∉ List.keys before ∧
      m.entries = before ++ ⟨name, val⟩ :: after ∧
      (m.erase name).entries = before ++ after ∧
      data = terminated 0#8 (before.map Var.bytes) ++ (Var.bytes ⟨name, val⟩ ++ 0#8 ::
        (terminated 0#8 (after.map Var.bytes) ++ 0#8 :: rest)) := by
  have mem : name ∈ m.entries.keys := AList.lookup_isSome.mp (by simp [hval])
  obtain ⟨val', before, after, absent, hsplit, herase⟩ := List.exists_of_kerase mem
  have same : val' = val := by
    have hlookup : m.entries.dlookup name = some val := hval
    rw [hsplit, List.dlookup_append, List.dlookup_eq_none.mpr absent] at hlookup
    simpa using hlookup
  subst same
  obtain ⟨rest, rfl⟩ := h.exists_eq
  exact ⟨before, after, rest, absent, hsplit, herase, by simp [hsplit]⟩

/-- `getenv` is the lookup of the map. -/
theorem getenv_of_holds {data : List Byte} {m : EnvMap} (h : Holds data m) (name : VarName) :
    match m.lookup name with
    | none => getenv data name.str = .ok none
    | some val => ∃ i, getenv data name.str = .ok (some i) ∧ stringAt data i = .ok val.1 := by
  have hget : getenv data name.str = (findOld data name.str).map (Option.map Found.oldval) :=
    getenvFrom_eq _ _ _ _
  cases hval : m.lookup name with
  | none =>
      have absent : name ∉ m := AList.lookup_eq_none.mp hval
      rw [hget, findOld_of_notMem h absent]
      rfl
  | some val =>
      obtain ⟨before, after, rest, absent, -, -, hdata⟩ := h.exists_split hval
      have found := findOld_of_split (v := ⟨name, val⟩) absent (0#8 :: rest) hdata
      refine ⟨_, by rw [hget, found]; rfl, ?_⟩
      have string := stringAt_append (terminated 0#8 (before.map Var.bytes) ++ name.1 ++ [equals])
        (terminated 0#8 (after.map Var.bytes) ++ 0#8 :: rest) val.2
      rw [hdata]
      simpa [Var.bytes, Nat.add_assoc] using string

/-! ## The deletion -/

/-- The loop moves a table `P` down over `X`. -/
theorem moveDown_append {P T : List Byte} (hP : NoPair 0#8 (P ++ [0#8])) (fuel : Nat)
    (hfuel : P.length < fuel) (A X data : List Byte) (env nxt : Nat) (hX : X ≠ [])
    (hdata : data = A ++ (X ++ (P ++ 0#8 :: 0#8 :: T))) (henv : env = A.length)
    (hnxt : nxt = A.length + X.length) :
    ∃ G, G.length = X.length ∧ moveDown fuel data env nxt =
      .ok (A ++ (P ++ 0#8 :: (G ++ 0#8 :: T)), A.length + P.length) := by
  induction P generalizing fuel A X data env nxt with
  | nil =>
      obtain ⟨fuel, rfl⟩ := Nat.exists_eq_succ_of_ne_zero (Nat.ne_zero_of_lt hfuel)
      obtain ⟨x, X, rfl⟩ := List.exists_cons_of_ne_nil hX
      simp only [List.length_cons] at hnxt
      refine ⟨X ++ [0#8], by simp, ?_⟩
      have here : load data nxt = .ok 0#8 :=
        load_of_eq (A ++ x :: X) (0#8 :: T) _ (by simp [hdata]) (by simp [hnxt])
      have moved : store data env 0#8 = .ok (A ++ 0#8 :: (X ++ 0#8 :: 0#8 :: T)) :=
        store_of_eq A _ x _ (by simp [hdata]) henv
      have next : load (A ++ 0#8 :: (X ++ 0#8 :: 0#8 :: T)) (nxt + 1) = .ok 0#8 :=
        load_of_eq (A ++ 0#8 :: X ++ [0#8]) T _ (by simp) (by simp [hnxt]; omega)
      rw [moveDown, here]
      simp only [ok_bind, moved, if_true, next]
      simp [henv]
  | cons p P ih =>
      obtain ⟨fuel, rfl⟩ := Nat.exists_eq_succ_of_ne_zero (Nat.ne_zero_of_lt hfuel)
      obtain ⟨x, X, rfl⟩ := List.exists_cons_of_ne_nil hX
      simp only [List.length_cons] at hfuel hnxt
      rw [List.cons_append, NoPair, List.isChain_cons] at hP
      have here : load data nxt = .ok p :=
        load_of_eq (A ++ x :: X) (P ++ 0#8 :: 0#8 :: T) _ (by simp [hdata]) (by simp [hnxt])
      have moved : store data env p = .ok (A ++ p :: (X ++ p :: (P ++ 0#8 :: 0#8 :: T))) :=
        store_of_eq A _ x _ (by simp [hdata]) henv
      -- the byte moved joins `A`, and the gap keeps its length
      obtain ⟨G, hG, rest⟩ := ih hP.2 fuel (by omega) (A ++ [p]) (X ++ [p])
        (A ++ p :: (X ++ p :: (P ++ 0#8 :: 0#8 :: T))) (env + 1) (nxt + 1) (by simp) (by simp)
        (by simp [henv]) (by simp [hnxt]; omega)
      refine ⟨G, by simpa using hG, ?_⟩
      have done : (A ++ [p] ++ (P ++ 0#8 :: (G ++ 0#8 :: T)), (A ++ [p]).length + P.length) =
          (A ++ (p :: P ++ 0#8 :: (G ++ 0#8 :: T)), A.length + (p :: P).length) := by
        simp
        omega
      rw [moveDown, here]
      simp only [ok_bind, moved]
      rw [← done, ← rest]
      by_cases hp : p = 0#8
      · obtain ⟨q, Q, hQ⟩ := List.exists_cons_of_ne_nil (show P ++ [0#8] ≠ [] by simp)
        have hq : q ≠ 0#8 := fun h => hP.1 q (by simp [hQ]) ⟨hp, h⟩
        have next : load (A ++ p :: (X ++ p :: (P ++ 0#8 :: 0#8 :: T))) (nxt + 1) = .ok q := by
          refine load_of_eq (A ++ p :: X ++ [p]) (Q ++ 0#8 :: T) q ?_ (by simp [hnxt]; omega)
          have split : P ++ 0#8 :: 0#8 :: T = q :: (Q ++ 0#8 :: T) := by
            rw [← List.cons_append, ← hQ]
            simp
          simp [split]
        rw [if_pos hp, next, ok_bind, if_neg hq]
      · rw [if_neg hp]

/-- The strings behind the one at `T` are moved down to it, and the store behind the loop
ends the table. -/
theorem moveDown_strings {after : List (List Byte)} (strings : ∀ t ∈ after, 0#8 ∉ t ∧ t ≠ [])
    (hne : after ≠ []) (T s rest data : List Byte)
    (hdata : data = T ++ (s ++ 0#8 :: (terminated 0#8 after ++ 0#8 :: rest))) :
    ∃ e data' env rest', load data (T.length + s.length + 1) = .ok e ∧ e ≠ 0#8 ∧
      moveDown data.length data T.length (T.length + s.length + 1) = .ok (data', env) ∧
      store data' (env + 1) 0#8 = .ok (T ++ terminated 0#8 after ++ 0#8 :: rest') ∧
      (T ++ terminated 0#8 after ++ 0#8 :: rest').length = data.length := by
  obtain ⟨body, hbody⟩ := exists_terminated_eq_append 0#8 hne
  have hpair : NoPair 0#8 (body ++ [0#8]) := hbody ▸ noPair_terminated strings
  obtain ⟨w, others, hafter⟩ := List.exists_cons_of_ne_nil hne
  obtain ⟨hw, hwne⟩ := strings w (by simp [hafter])
  obtain ⟨e, es, hes⟩ := List.exists_cons_of_ne_nil hwne
  have he : e ≠ 0#8 := fun h => hw (by simp [hes, h])
  have next : load data (T.length + s.length + 1) = .ok e := by
    refine load_of_eq (T ++ s ++ [0#8])
      (es ++ 0#8 :: (terminated 0#8 others ++ 0#8 :: rest)) e ?_
      (by simp only [List.length_append, List.length_singleton])
    simp [hdata, hafter, hes]
  have hsplit : data = T ++ ((s ++ [0#8]) ++ (body ++ 0#8 :: 0#8 :: rest)) := by
    simp [hdata, hbody]
  obtain ⟨G, hG, moved⟩ := moveDown_append hpair data.length
    (by rw [hsplit]; simp only [List.length_append, List.length_cons]; omega)
    T (s ++ [0#8]) data T.length (T.length + s.length + 1) (by simp) hsplit rfl
    (by simp only [List.length_append, List.length_singleton]; omega)
  obtain ⟨g, gs, rfl⟩ := List.exists_cons_of_ne_nil
    (show G ≠ [] by rintro rfl; simp at hG)
  have closed : store (T ++ (body ++ 0#8 :: (g :: gs ++ 0#8 :: rest))) (T.length + body.length + 1)
      0#8 = .ok (T ++ terminated 0#8 after ++ 0#8 :: (gs ++ 0#8 :: rest)) := by
    rw [hbody]
    exact store_of_eq _ _ g _ (by simp) (by simp; omega)
  refine ⟨e, _, _, gs ++ 0#8 :: rest, next, he, moved, closed, ?_⟩
  have hlen : gs.length + 1 = s.length + 1 := by simpa using hG
  rw [hsplit, hbody]
  simp only [List.length_append, List.length_cons, List.length_nil]
  omega

/-- Deleting a definition leaves the layout of the others. -/
theorem deleteOld_append {before after : List Var} {v : Var} {data rest : List Byte}
    (hdata : data = terminated 0#8 (before.map Var.bytes) ++ (v.bytes ++ 0#8 ::
      (terminated 0#8 (after.map Var.bytes) ++ 0#8 :: rest))) (oldval : Nat) :
    ∃ data', deleteOld data ⟨(terminated 0#8 (before.map Var.bytes)).length,
        (terminated 0#8 (before.map Var.bytes)).length + v.bytes.length, oldval⟩ = .ok data' ∧
      data'.length = data.length ∧ encode (before ++ after) <+: data' := by
  generalize hT : terminated 0#8 (before.map Var.bytes) = T at hdata
  obtain ⟨c, cs, hv⟩ := List.exists_cons_of_ne_nil v.bytes_ne_nil
  rcases List.eq_nil_or_concat after with rfl | ⟨init, last, hafter⟩
  · have next : load data (T.length + v.bytes.length + 1) = .ok 0#8 :=
      load_of_eq (T ++ v.bytes ++ [0#8]) rest _ (by simp [hdata])
        (by simp only [List.length_append, List.length_singleton])
    rw [List.append_nil]
    rcases List.eq_nil_or_concat before with rfl | ⟨init, last, hbefore⟩
    · -- the only definition: both NULs are written
      obtain rfl : T = [] := hT.symm
      obtain ⟨d, ds, hd⟩ := List.exists_cons_of_ne_nil
        (show cs ++ 0#8 :: 0#8 :: rest ≠ [] by simp)
      have first : store data 0 0#8 = .ok (0#8 :: d :: ds) :=
        store_of_eq [] _ c _ (by simp [hdata, hv, ← hd]) rfl
      have second : store (0#8 :: d :: ds) 1 0#8 = .ok (0#8 :: 0#8 :: ds) :=
        store_of_eq [0#8] _ d _ rfl rfl
      refine ⟨0#8 :: 0#8 :: ds, ?_, ?_, ds, rfl⟩
      · simp only [List.length_nil, Nat.zero_add] at next
        simp [deleteOld, next, first, second]
      · simp [hdata, hv]
        have := congrArg List.length hd
        simp only [List.length_append, List.length_cons] at this
        omega
    · -- the last of several: the NUL of the one before is there
      have hne : before ≠ [] := by simp [hbefore]
      have hpos : T.length > 0 := by
        have := length_le_length_terminated before
        have := List.length_pos_of_ne_nil hne
        rw [hT] at *
        omega
      have closed : store data T.length 0#8 = .ok (T ++ 0#8 :: (cs ++ 0#8 :: 0#8 :: rest)) :=
        store_of_eq T _ c _ (by simp [hdata, hv]) rfl
      refine ⟨T ++ 0#8 :: (cs ++ 0#8 :: 0#8 :: rest), ?_, ?_, ?_⟩
      · rw [deleteOld]
        simp only [next, ok_bind, if_true, hpos, closed]
      · simp [hdata, hv]
      · rw [encode_of_ne_nil hne, hT]
        exact ⟨cs ++ 0#8 :: 0#8 :: rest, by simp⟩
  · -- others behind it: they are moved down
    have hne : after ≠ [] := by simp [hafter]
    have strings : ∀ t ∈ after.map Var.bytes, 0#8 ∉ t ∧ t ≠ [] := by
      intro t ht
      obtain ⟨w, -, rfl⟩ := List.mem_map.mp ht
      exact ⟨w.nul_notMem_bytes, w.bytes_ne_nil⟩
    obtain ⟨e, data₁, env, rest', next, he, moved, closed, hlen⟩ :=
      moveDown_strings strings (by simpa using hne) T v.bytes rest data hdata
    refine ⟨T ++ terminated 0#8 (after.map Var.bytes) ++ 0#8 :: rest', ?_, hlen, ?_⟩
    · rw [deleteOld]
      simp only [next, ok_bind, he, if_false, moved, closed]
    · rw [encode_of_ne_nil (by simp [hne]), List.map_append, terminated_append, hT]
      exact ⟨rest', by simp⟩

/-! ## The append -/

theorem doubleNul_append {P : List Byte} (hP : NoPair 0#8 (P ++ [0#8])) (T : List Byte) :
    doubleNul (P ++ 0#8 :: 0#8 :: T) = .ok P.length := by
  induction P with
  | nil => simp [doubleNul]
  | cons p P ih =>
      rw [List.cons_append, NoPair, List.isChain_cons] at hP
      obtain ⟨q, Q, hQ⟩ := List.exists_cons_of_ne_nil (show P ++ [0#8] ≠ [] by simp)
      have split : P ++ 0#8 :: 0#8 :: T = q :: (Q ++ 0#8 :: T) := by
        rw [← List.cons_append, ← hQ]
        simp
      have hpq : ¬ (p = 0#8 ∧ q = 0#8) := hP.1 q (by simp [hQ])
      have rest := ih hP.2
      rw [split] at rest
      rw [List.cons_append, split, doubleNul, if_neg hpq]
      simp [rest]

/-- A new definition goes where the final NUL is, or to the beginning. -/
theorem endOfVars_of_strings {strings : List (List Byte)} (h : ∀ s ∈ strings, 0#8 ∉ s ∧ s ≠ [])
    {data : List Byte}
    (hdata : terminated 0#8 strings ++ (if strings = [] then [0#8, 0#8] else [0#8]) <+: data) :
    endOfVars data = .ok (terminated 0#8 strings).length := by
  obtain ⟨rest, rfl⟩ := hdata
  by_cases hnil : strings = []
  · subst hnil
    have := doubleNul_append (P := []) (List.isChain_singleton _) rest
    simp only [List.nil_append, List.length_nil] at this
    simp [endOfVars, this]
  · obtain ⟨body, hbody⟩ := exists_terminated_eq_append 0#8 hnil
    have hpair : NoPair 0#8 (body ++ [0#8]) := hbody ▸ noPair_terminated h
    have hpos : body.length > 0 := by
      cases body with
      | cons b body => simp
      | nil =>
          obtain ⟨s, strings, rfl⟩ := List.exists_cons_of_ne_nil hnil
          have := congrArg List.length hbody
          have := List.length_pos_of_ne_nil (h s List.mem_cons_self).2
          simp only [terminated_cons, List.length_append, List.length_cons, List.length_nil] at *
          omega
    have scan := doubleNul_append hpair rest
    rw [if_neg hnil, hbody]
    have layout : body ++ [0#8] ++ [0#8] ++ rest = body ++ 0#8 :: 0#8 :: rest := by simp
    simp only [endOfVars, layout, scan, ok_bind, hpos, if_true, pure_eq_ok,
      List.length_append, List.length_singleton]

theorem endOfVars_of_prefix {data : List Byte} {vars : List Var} (h : encode vars <+: data) :
    endOfVars data = .ok (terminated 0#8 (vars.map Var.bytes)).length := by
  apply endOfVars_of_strings
  · intro s hs
    obtain ⟨v, -, rfl⟩ := List.mem_map.mp hs
    exact ⟨v.nul_notMem_bytes, v.bytes_ne_nil⟩
  · simpa [encode] using h

/-- The words with their separators. -/
def wordBytes (sep : Byte) : List CString → List Byte
  | [] => []
  | val :: vals => sep :: (val.1 ++ wordBytes 0x20#8 vals)

theorem length_wordBytes (sep : Byte) (vals : List CString) :
    (wordBytes sep vals).length = (vals.map (·.1.length + 1)).sum := by
  induction vals generalizing sep with
  | nil => rfl
  | cons val vals ih =>
      simp only [wordBytes, List.length_cons, List.length_append, ih, List.map_cons,
        List.sum_cons]
      omega

theorem wordBytes_eq {vals : List CString} (h : vals ≠ []) (sep : Byte) :
    wordBytes sep vals = sep :: joinWords vals := by
  induction vals generalizing sep with
  | nil => exact absurd rfl h
  | cons val vals ih =>
      cases vals with
      | nil => simp [wordBytes, joinWords]
      | cons w vals =>
          rw [wordBytes, ih (by simp)]
          simp [joinWords, List.intercalate_cons_cons]

/-- The loop over the words, starting on the NUL of the name. -/
theorem putWords_append (sep : Byte) (vals : List CString) (A gap B data : List Byte) (env : Nat)
    (hgap : gap.length = (wordBytes sep vals).length)
    (hdata : data = A ++ 0#8 :: (gap ++ B)) (henv : env = A.length) :
    putWords data env sep vals =
      .ok (A ++ wordBytes sep vals ++ 0#8 :: B, (A ++ wordBytes sep vals).length) := by
  induction vals generalizing sep A gap data env with
  | nil =>
      obtain rfl : gap = [] := List.eq_nil_of_length_eq_zero hgap
      simp [putWords, wordBytes, hdata, henv]
  | cons val vals ih =>
      simp only [wordBytes, List.length_cons, List.length_append] at hgap
      obtain ⟨first, second, rfl, hfirst⟩ : ∃ first second, gap = first ++ second ∧
          first.length = val.1.length + 1 :=
        ⟨gap.take (val.1.length + 1), gap.drop (val.1.length + 1), by simp,
          by rw [List.length_take]; omega⟩
      have sepWritten : store data env sep = .ok (A ++ sep :: (first ++ second ++ B)) :=
        store_of_eq A _ 0#8 _ hdata henv
      have copied : strcpy (A ++ sep :: (first ++ second ++ B)) (env + 1) val.1 =
          .ok (A ++ [sep] ++ val.1 ++ 0#8 :: (second ++ B)) := by
        have := strcpy_append (A ++ [sep]) (second ++ B) hfirst
        simpa [henv] using this
      have rest := ih 0x20#8 (A ++ [sep] ++ val.1) second
        (A ++ [sep] ++ val.1 ++ 0#8 :: (second ++ B)) (env + 1 + val.1.length)
        (by simp only [List.length_append] at hgap; omega) rfl (by simp [henv]; omega)
      rw [putWords]
      simp only [sepWritten, ok_bind, copied, rest]
      simp [wordBytes]

/-- The new definition, written over as many bytes of the rest. -/
theorem putVar_append (name : VarName) {vals : List CString} (hvals : vals ≠ []) (T gap : List Byte)
    (hgap : defLength name.str vals ≤ gap.length) :
    ∃ rest, putVar (T ++ gap) T.length name.str vals =
        .ok (T ++ (name.1 ++ equals :: joinWords vals) ++ 0#8 :: 0#8 :: rest) ∧
      (T ++ (name.1 ++ equals :: joinWords vals) ++ 0#8 :: 0#8 :: rest).length =
        (T ++ gap).length := by
  have hwords := length_wordBytes equals vals
  have hjoin := wordBytes_eq hvals equals
  simp only [defLength, VarName.str] at hgap
  obtain ⟨first, second, z, rest, rfl, hfirst, hsecond⟩ : ∃ first second z rest,
      gap = first ++ (second ++ z :: rest) ∧ first.length = name.1.length + 1 ∧
      second.length = (wordBytes equals vals).length := by
    have hz : ((gap.drop (name.1.length + 1)).drop (wordBytes equals vals).length) ≠ [] := by
      intro h
      have := congrArg List.length h
      simp only [List.length_drop, List.length_nil] at this
      omega
    obtain ⟨z, rest, hz⟩ := List.exists_cons_of_ne_nil hz
    refine ⟨gap.take (name.1.length + 1),
      (gap.drop (name.1.length + 1)).take (wordBytes equals vals).length, z, rest, ?_, ?_, ?_⟩
    · rw [← hz, List.take_append_drop, List.take_append_drop]
    · rw [List.length_take]
      omega
    · rw [List.length_take, List.length_drop]
      omega
  have named := strcpy_append T (second ++ z :: rest) (s := name.1) hfirst
  have worded := putWords_append equals vals (T ++ name.1) second (z :: rest)
    (T ++ name.1 ++ 0#8 :: (second ++ z :: rest)) (T.length + name.1.length) hsecond rfl
    (by simp)
  have closed : store (T ++ name.1 ++ wordBytes equals vals ++ 0#8 :: z :: rest)
      ((T ++ name.1 ++ wordBytes equals vals).length + 1) 0#8 =
      .ok (T ++ name.1 ++ wordBytes equals vals ++ [0#8] ++ 0#8 :: rest) :=
    store_of_eq _ _ z _ (by simp) (by simp only [List.length_append, List.length_singleton])
  refine ⟨rest, ?_, ?_⟩
  · rw [putVar]
    simp only [VarName.str, named, ok_bind, worded, closed]
    simp [hjoin]
  · rw [← hjoin]
    simp only [List.length_append, List.length_cons] at *
    omega

/-! ## One call -/

/-- A call that reads no missing argument. The device for a console is given where
it is looked up, the value where `baudrate` is defined, and once a new definition
is to be written, all its words are. -/
structure SafeArgs (cfg : Config) (m : EnvMap) (args : Args) : Prop where
  console : isConsole args.name → 3 ≤ args.argc → cfg.consoleMux = false → args.word 0 ≠ none
  baudrate : args.name.1 = ascii "baudrate" →
    (∃ name ∈ m, args.varName = some name) → args.word 0 ≠ none
  words : rejected cfg m args = false → 3 ≤ args.argc → args.word 0 ≠ none →
    ∀ i < args.argc - 2, args.word i ≠ none

theorem redirectConsole_eq {cfg : Config} {args : Args}
    (h : isConsole args.name → 3 ≤ args.argc → cfg.consoleMux = false → args.word 0 ≠ none) :
    (redirectConsole cfg args = .ok none ∧ consoleRefused cfg args = false) ∨
      ∃ rc ≠ 0, redirectConsole cfg args = .ok (some rc) ∧ consoleRefused cfg args = true := by
  unfold redirectConsole consoleRefused
  cases hconsole : isConsole args.name with
  | false => exact .inl (by simp)
  | true =>
      by_cases hargc : args.argc < 3
      · exact .inr ⟨1, by simp [hargc]⟩
      · cases hword : args.word 0 with
        | none =>
            cases hmux : cfg.consoleMux with
            | false => exact absurd hword (h hconsole (by omega) hmux)
            | true => exact .inr ⟨1, by simp [hargc]⟩
        | some val =>
            by_cases hassigned : args.assigned = 0
            · cases hmux : cfg.consoleMux <;> exact .inl (by simp [hargc, hassigned, deref])
            · cases hmux : cfg.consoleMux with
              | false => exact .inr ⟨1, by simp [hargc, hassigned, deref]⟩
              | true => exact .inr ⟨args.assigned, by simp [hargc, hassigned]⟩

theorem sameString_append {s old : List Byte} (hs : 0#8 ∉ s) (hold : 0#8 ∉ old) (A B : List Byte) :
    sameString (A ++ (old ++ 0#8 :: B)) A.length s = .ok (decide (s = old)) := by
  induction s generalizing A old with
  | nil =>
      cases old with
      | nil => simp [sameString]
      | cons c old => simp [sameString, Ne.symm (List.ne_of_not_mem_cons hold)]
  | cons a s ih =>
      simp only [List.mem_cons, not_or] at hs
      cases old with
      | nil => simp [sameString, hs.1]
      | cons c old =>
          simp only [List.mem_cons, not_or] at hold
          have step := ih hs.2 hold.2 (A ++ [c])
          simp only [List.append_assoc, List.singleton_append, List.length_append,
            List.length_singleton] at step
          by_cases h : c = a
          · simp [sameString, h, ← step]
          · simp [sameString, h, Ne.symm h]

theorem cantOverwrite_append (cfg : Config) (args : Args) (old : CString) (A B : List Byte) :
    cantOverwrite cfg args (A ++ (old.1 ++ 0#8 :: B)) A.length = .ok (setOnce cfg args old) := by
  have serial_ne : ascii "serial#" ≠ ascii "ethaddr" := by decide
  unfold cantOverwrite setOnce
  cases cfg.envOverwrite with
  | true => simp
  | false =>
      by_cases hserial : args.name.1 = ascii "serial#"
      · simp [hserial, serial_ne]
      · by_cases heth : args.name.1 = ascii "ethaddr"
        · cases honce : cfg.ethaddrOnce with
          | none => simp [heth, Ne.symm serial_ne]
          | some e =>
              simp [heth, Ne.symm serial_ne, sameString_append e.2 old.2, Subtype.ext_iff]
        · simp [hserial, heth]

theorem switchBaudrate_eq (cfg : Config) {args : Args} (env : EnvRam)
    (h : args.name.1 = ascii "baudrate" → args.word 0 ≠ none) :
    (unsupportedBaudrate cfg args = true ∧ switchBaudrate cfg args env = .ok none) ∨
      (unsupportedBaudrate cfg args = false ∧
        ∃ rate, switchBaudrate cfg args env = .ok (some { env with baudrate := rate })) := by
  unfold unsupportedBaudrate switchBaudrate
  by_cases hname : args.name.1 = ascii "baudrate"
  · obtain ⟨val, hval⟩ := Option.ne_none_iff_exists'.mp (h hname)
    by_cases hrate : (simple_strtoul val.1 10).1 ∈ cfg.baudrate_table
    · exact .inr ⟨by simp [hval, hrate], _, by simp [hname, hval, hrate, deref]; rfl⟩
    · exact .inl (by simp [hname, hval, hrate, deref])
  · exact .inr ⟨by simp [hname], env.baudrate, by simp [hname]⟩

theorem vals_eq {args : Args} (h : ∀ i < args.argc - 2, args.word i ≠ none) :
    args.vals = .ok args.valueWords := by
  have each : ∀ is : List Nat, (∀ i ∈ is, args.word i ≠ none) →
      is.mapM (fun i => deref (args.word i)) = .ok (is.filterMap args.word) := by
    intro is his
    induction is with
    | nil => rfl
    | cons i is ih =>
        obtain ⟨val, hval⟩ := Option.ne_none_iff_exists'.mp (his i List.mem_cons_self)
        rw [List.mapM_cons, ih fun j hj => his j (List.mem_cons_of_mem _ hj)]
        simp [hval, deref]
  exact each _ fun i hi => h i (List.mem_range.mp hi)

theorem followChange_data (cfg : Config) (name val : CString) (env : EnvRam) :
    (followChange cfg name val env).data = env.data := by
  unfold followChange
  split_ifs <;> rfl

/-- The end of a call, the old definition being gone. -/
theorem define_of_holds (cfg : Config) {args : Args} {env : EnvRam} {m : EnvMap} {name : VarName}
    (hname : args.name = name.str) (h : Holds env.data (m.erase name))
    (hwords : 3 ≤ args.argc → args.word 0 ≠ none → ∀ i < args.argc - 2, args.word i ≠ none) :
    ∃ rc env', define cfg args env = .ok (rc, env') ∧ env'.ENV_SIZE = env.ENV_SIZE ∧
      Holds env'.data
        (if args.deletesOnly then m.erase name
          else if (encode (m.put name args.value).entries).length ≤ env.ENV_SIZE then
            m.put name args.value
          else m.erase name) := by
  unfold define Args.deletesOnly
  cases hword : args.word 0 with
  | none => exact ⟨0, env_crc_update env, rfl, rfl, by simpa [env_crc_update] using h⟩
  | some val =>
      by_cases hargc : args.argc < 3
      · exact ⟨0, env_crc_update env, by simp [hargc], rfl, by simpa [hargc, env_crc_update] using h⟩
      · have hvals := vals_eq (hwords (by omega) (by simp [hword]))
        have hne : args.valueWords ≠ [] := by
          refine List.ne_nil_of_mem (a := val) (List.mem_filterMap.mpr ⟨0, ?_, hword⟩)
          simp only [List.mem_range]
          omega
        have hend := endOfVars_of_prefix h
        set T := terminated 0#8 ((m.erase name).entries.map Var.bytes) with hT
        have hput : encode (m.put name args.value).entries =
            T ++ (name.1 ++ equals :: joinWords args.valueWords) ++ [0#8, 0#8] := by
          rw [encode_of_ne_nil (by simp [EnvMap.put_entries]), EnvMap.put_entries]
          simp [Var.bytes, Args.value, hT]
        have hjoin := length_wordBytes equals args.valueWords
        rw [wordBytes_eq hne, List.length_cons] at hjoin
        obtain ⟨gap, hgap⟩ : ∃ gap, env.data = T ++ gap := by
          obtain ⟨rest, hrest⟩ := h.exists_eq
          exact ⟨_, hrest⟩
        have hsize : env.ENV_SIZE = T.length + gap.length := by
          rw [EnvRam.ENV_SIZE, hgap, List.length_append]
        have hroom : defLength args.name args.valueWords > env.ENV_SIZE - T.length ↔
            ¬ (encode (m.put name args.value).entries).length ≤ env.ENV_SIZE := by
          rw [hput, hname, hsize]
          simp only [defLength, VarName.str, List.length_append, List.length_cons, List.length_nil]
          omega
        simp only [hargc, decide_false, Option.isNone_some, Bool.or_false, Bool.false_eq_true,
          if_false, hend, ok_bind, hvals]
        by_cases hfits : (encode (m.put name args.value).entries).length ≤ env.ENV_SIZE
        · have hlen : defLength name.str args.valueWords ≤ gap.length := by
            have := mt hroom.mp (not_not.mpr hfits)
            rw [hname] at this
            omega
          obtain ⟨rest, hwritten, hlength⟩ := putVar_append name hne T gap hlen
          rw [if_neg (mt hroom.mp (not_not.mpr hfits)), if_pos hfits, hgap, hname, hwritten]
          refine ⟨_, _, rfl, ?_, ?_⟩
          · rw [EnvRam.ENV_SIZE, followChange_data, EnvRam.ENV_SIZE, hgap]
            exact hlength
          · rw [Holds, followChange_data, hput]
            exact ⟨rest, by simp [env_crc_update]⟩
        · rw [if_pos (hroom.mpr hfits), if_neg hfits]
          exact ⟨1, env, rfl, rfl, h⟩

/-- The definition that exists is deleted, or the call ends. -/
theorem removeOld_of_holds (cfg : Config) {args : Args} {env : EnvRam} {m : EnvMap}
    {name : VarName} {val : CString} (hname : args.name = name.str) (h : Holds env.data m)
    (hval : m.lookup name = some val)
    (hrate : args.name.1 = ascii "baudrate" → args.word 0 ≠ none) :
    ∃ old, findOld env.data args.name = .ok (some old) ∧
      (((setOnce cfg args val || unsupportedBaudrate cfg args) = true ∧
          removeOld cfg args env old = .ok (some 1, env)) ∨
        ((setOnce cfg args val || unsupportedBaudrate cfg args) = false ∧
          ∃ env', removeOld cfg args env old = .ok (none, env') ∧
            env'.ENV_SIZE = env.ENV_SIZE ∧ Holds env'.data (m.erase name))) := by
  obtain ⟨before, after, rest, absent, -, herase, hdata⟩ := h.exists_split hval
  have found := findOld_of_split (v := ⟨name, val⟩) absent (0#8 :: rest) hdata
  refine ⟨_, by rw [hname]; exact found, ?_⟩
  have hprotected := cantOverwrite_append cfg args val
    (terminated 0#8 (before.map Var.bytes) ++ name.1 ++ [equals])
    (terminated 0#8 (after.map Var.bytes) ++ 0#8 :: rest)
  have hprotected : cantOverwrite cfg args env.data
      ((terminated 0#8 (before.map Var.bytes)).length + name.1.length + 1) =
      .ok (setOnce cfg args val) := by
    rw [hdata]
    simpa [Var.bytes, Nat.add_assoc] using hprotected
  unfold removeOld
  rw [hprotected]
  cases hset : setOnce cfg args val with
  | true => exact .inl ⟨rfl, rfl⟩
  | false =>
      rcases switchBaudrate_eq cfg env hrate with ⟨hunsupported, hswitch⟩ | ⟨hsupported, rate, hswitch⟩
      · exact .inl ⟨by simp [hunsupported], by simp [hswitch]⟩
      · obtain ⟨data', hdelete, hlength, hencode⟩ := deleteOld_append hdata
          ((terminated 0#8 (before.map Var.bytes)).length + name.1.length + 1)
        refine .inr ⟨by simp [hsupported], { env with baudrate := rate, data := data' }, ?_,
          hlength, ?_⟩
        · simp [hswitch, hdelete]
        · show encode (m.erase name).entries <+: data'
          rw [herase]
          exact hencode

/-- One call does to the buffer what `EnvMap.setenv` does to the map. -/
theorem _do_setenv_of_holds {cfg : Config} {args : Args} {env : EnvRam} {m : EnvMap}
    (h : Holds env.data m) (safe : SafeArgs cfg m args) :
    ∃ rc env', _do_setenv cfg args env = .ok (rc, env') ∧ env'.ENV_SIZE = env.ENV_SIZE ∧
      Holds env'.data (m.setenv cfg env.ENV_SIZE args) ∧
      (rejected cfg m args = true → rc ≠ 0 ∧ env'.data = env.data) := by
  unfold _do_setenv
  by_cases hequals : equals ∈ args.name.1
  · have hrej : rejected cfg m args = true := by simp [rejected, Args.varName, hequals]
    exact ⟨1, env, by simp [hequals], rfl, by simpa [EnvMap.setenv, hrej] using h, by simp⟩
  let name : VarName := ⟨args.name.1, args.name.2, hequals⟩
  have hvar : args.varName = some name := by simp [Args.varName, hequals, name]
  have hname : args.name = name.str := rfl
  -- `env_id` is counted up, and nothing else looks at it
  generalize henv : { env with env_id := env.env_id + 1 } = env₁
  have hdata : env₁.data = env.data := by rw [← henv]
  have hsize : env₁.ENV_SIZE = env.ENV_SIZE := by rw [← henv]; rfl
  rw [← hdata] at h
  rw [← hdata, ← hsize]
  have hrej : rejected cfg m args = (consoleRefused cfg args ||
      (m.lookup name).any fun old => setOnce cfg args old || unsupportedBaudrate cfg args) := by
    simp [rejected, hvar]
  simp only [hequals, if_false]
  rcases redirectConsole_eq safe.console with ⟨hconsole, hrefused⟩ | ⟨rc, hrc, hconsole, hrefused⟩
  · cases hval : m.lookup name with
    | none =>
        have absent : name ∉ m := AList.lookup_eq_none.mp hval
        have hrej : rejected cfg m args = false := by rw [hrej, hrefused, hval]; rfl
        have herase : m.erase name = m := by
          ext1
          exact List.kerase_of_notMem_keys absent
        obtain ⟨rc, env', hrun, hlength, hholds⟩ := define_of_holds cfg hname
          (herase.symm ▸ h) (safe.words hrej)
        refine ⟨rc, env', ?_, hlength, ?_, by simp [hrej]⟩
        · simp only [hname, findOld_of_notMem h absent, ok_bind, hconsole]
          exact hrun
        · simpa [EnvMap.setenv, hrej, hvar] using hholds
    | some val =>
        obtain ⟨old, hfound, hstop | ⟨hgo, env₂, hremove, hlength₂, hholds₂⟩⟩ :=
          removeOld_of_holds cfg hname h hval fun hrate => safe.baudrate hrate
            ⟨name, AList.lookup_isSome.mp (by simp [hval]), hvar⟩
        · obtain ⟨hstop, hremove⟩ := hstop
          have hrej : rejected cfg m args = true := by
            rw [hrej, hval, Option.any_some, hstop, Bool.or_true]
          refine ⟨1, env₁, ?_, rfl, by simpa [EnvMap.setenv, hrej] using h, by simp⟩
          simp [hfound, hconsole, hremove]
        · have hrej : rejected cfg m args = false := by
            rw [hrej, hval, Option.any_some, hgo, hrefused]; rfl
          obtain ⟨rc, env', hrun, hlength, hholds⟩ := define_of_holds cfg hname
            hholds₂ (safe.words hrej)
          refine ⟨rc, env', ?_, hlength.trans hlength₂, ?_, by simp [hrej]⟩
          · simp only [hfound, ok_bind, hconsole, hremove]
            exact hrun
          · simpa [EnvMap.setenv, hrej, hvar, hlength₂] using hholds
  · have hrej : rejected cfg m args = true := by rw [hrej, hrefused, Bool.true_or]
    obtain ⟨old, hfound⟩ : ∃ old, findOld env₁.data args.name = .ok old := by
      cases hval : m.lookup name with
      | none => exact ⟨_, findOld_of_notMem h (AList.lookup_eq_none.mp hval)⟩
      | some val =>
          obtain ⟨before, after, rest, absent, -, -, hdata⟩ := h.exists_split hval
          exact ⟨_, findOld_of_split (v := ⟨name, val⟩) absent _ hdata⟩
    refine ⟨rc, env₁, ?_, rfl, by simpa [EnvMap.setenv, hrej] using h, fun _ => ⟨hrc, rfl⟩⟩
    simp [hfound, hconsole]

/-! ## Sequences of calls -/

/-- The calls in order, each return value dropped. -/
def setenvAll (cfg : Config) (calls : List Args) (env : EnvRam) : Checked EnvRam :=
  calls.foldlM (fun env args => do return (← _do_setenv cfg args env).2) env

/-- The buffer stands for the map: it holds it, `getenv` looks it up, and the next
call changes both alike. -/
structure Agrees (cfg : Config) (size : Nat) (env : EnvRam) (m : EnvMap) : Prop where
  size_eq : env.ENV_SIZE = size
  holds : Holds env.data m
  getenv : ∀ name : VarName, match m.lookup name with
    | none => getenv env.data name.str = .ok none
    | some val => ∃ i, UBoot.Env.getenv env.data name.str = .ok (some i) ∧
        stringAt env.data i = .ok val.1
  next : ∀ args, SafeArgs cfg m args → ∃ rc env', _do_setenv cfg args env = .ok (rc, env') ∧
    env'.ENV_SIZE = size ∧ Holds env'.data (m.setenv cfg size args) ∧
    SetenvEffect cfg size m args (m.setenv cfg size args) ∧
    (rejected cfg m args = true → rc ≠ 0 ∧ env'.data = env.data)

theorem agrees_of_holds {cfg : Config} {env : EnvRam} {m : EnvMap} (h : Holds env.data m) :
    Agrees cfg env.ENV_SIZE env m := by
  refine ⟨rfl, h, getenv_of_holds h, fun args safe => ?_⟩
  obtain ⟨rc, env', hrun, hsize, hholds, hrej⟩ := _do_setenv_of_holds h safe
  exact ⟨rc, env', hrun, hsize, hholds, m.setenv_effect cfg _ args, hrej⟩

/-- From any buffer that holds a map, every sequence of calls that read no missing
argument ends in a buffer that holds what the same calls make of the map. -/
theorem setenv_refines_map (cfg : Config) (env : EnvRam) (m m' : EnvMap) (calls : List Args)
    (h : Holds env.data m)
    (run : Run (fun m args m' => SafeArgs cfg m args ∧ m' = m.setenv cfg env.ENV_SIZE args)
      m calls m') :
    ∃ env', setenvAll cfg calls env = .ok env' ∧ Agrees cfg env.ENV_SIZE env' m' := by
  generalize hsize : env.ENV_SIZE = size at run
  induction run generalizing env with
  | nil m => exact ⟨env, rfl, hsize ▸ agrees_of_holds h⟩
  | cons taken _ ih =>
      obtain ⟨safe, rfl⟩ := taken
      obtain ⟨rc, env₁, hrun, hsize₁, hholds, -⟩ := _do_setenv_of_holds h safe
      obtain ⟨env', hrest, hagrees⟩ := ih env₁ (hsize ▸ hholds) (hsize₁.trans hsize)
      refine ⟨env', ?_, hagrees⟩
      rw [setenvAll, List.foldlM_cons, hrun]
      exact hrest

/-! ## Concrete calls -/

/-- A build that protects `serial#` and `ethaddr`. -/
def exampleBuild : Config where
  envOverwrite := false
  hasUid := false
  ethaddrOnce := none
  consoleMux := false
  cmdNet := true
  baudrate_table := [9600#32, 115200#32]

/-- A RAM copy with these bytes. -/
def exampleRam (data : List Byte) : EnvRam :=
  env_crc_update ⟨0, data, 1, 9600, 0, 0, []⟩

/-- `setenv a b c`, then `setenv a`, in a buffer of 16 bytes. -/
theorem setenv_refines_map_two_calls :
    let calls : List Args :=
      [⟨0, 4, ⟨ascii "a", by decide⟩, [some ⟨ascii "b", by decide⟩, some ⟨ascii "c", by decide⟩], 0⟩,
        ⟨0, 2, ⟨ascii "a", by decide⟩, [none], 0⟩]
    ∃ env', setenvAll exampleBuild calls (exampleRam (List.replicate 16 0)) = .ok env' ∧
      Agrees exampleBuild 16 env' (calls.foldl (EnvMap.setenv exampleBuild 16) ∅) := by
  have empty : Holds (exampleRam (List.replicate 16 0)).data ∅ := ⟨List.replicate 14 0, by decide⟩
  refine setenv_refines_map exampleBuild (exampleRam (List.replicate 16 0)) ∅ _ _ empty
    (.cons ⟨⟨?_, ?_, ?_⟩, rfl⟩ (.cons ⟨⟨?_, ?_, ?_⟩, rfl⟩ (.nil _)))
  · decide
  · exact fun h => absurd h (by decide)
  · exact fun _ _ _ => by decide
  · decide
  · exact fun h => absurd h (by decide)
  · exact fun _ h => absurd h (by decide)

/-- The defect: deleting `baudrate` converts the missing value to a number. -/
theorem not_setenv_refines_map :
    ¬ ∀ (cfg : Config) (env : EnvRam) (m m' : EnvMap) (calls : List Args), Holds env.data m →
      (∀ args ∈ calls, ∀ i < args.argc - 2, args.word i ≠ none) →
      Run (fun m args m' => m' = m.setenv cfg env.ENV_SIZE args) m calls m' →
      ∃ env', setenvAll cfg calls env = .ok env' ∧ Agrees cfg env.ENV_SIZE env' m' := by
  intro h
  let baudrate : VarName := ⟨ascii "baudrate", by decide⟩
  let env := exampleRam (ascii "baudrate=9600" ++ [0#8, 0#8])
  have holds : Holds env.data (AList.singleton baudrate ⟨ascii "9600", by decide⟩) := ⟨[], by decide⟩
  obtain ⟨env', hrun, -⟩ := h exampleBuild env _ _ [⟨0, 2, baudrate.str, [none], 0⟩] holds
    (by decide) (.cons rfl (.nil _))
  have fault : setenvAll exampleBuild [⟨0, 2, baudrate.str, [none], 0⟩] env =
      .error .missingArgument := by rfl
  exact nomatch fault.symm.trans hrun

end UBoot.Env
