/-
# Copying a value out

`getenv_r` of `common/cmd_nvedit.c`. The search is that of `getenv`; the copy writes to a
buffer from its begin on, and the bytes it writes are recorded in order. The value is delivered
in time only when it leaves room for one more byte than its NUL.
-/

import UBoot.Env.SetenvRefines

namespace UBoot.Env

/-- `while ((len > n++) && (*buf++ = env_get_char(val++)) != '\0')`, on the bytes from `val`
on: what is written, and `n` behind the loop. -/
def copyOut (len : Nat) : List Byte → Nat → Checked (List Byte × Nat)
  | [], n => if len > n then .error .outOfBuffer else .ok ([], n + 1)
  | c :: rest, n =>
      if len > n then
        if c ≠ 0#8 then do
          let (written, n) ← copyOut len rest (n + 1)
          return (c :: written, n)
        else .ok ([c], n + 1)
      else .ok ([], n + 1)

/-- `getenv_r`: the return value, and what is written to `buf` from its begin on. -/
def getenv_r (data : List Byte) (name : CString) (len : Nat) : Checked (Int × List Byte) := do
  match ← getenv data name with
  | none => return (-1, [])
  | some val =>
      let (written, n) ← copyOut len (data.drop val) 0
      return ((n : Int), if len = n then written ++ [0#8] else written)

/-- A buffer of `len` bytes is not left, and has the value with its NUL, or as much of it as
there is room for, whatever was in the buffer before. -/
def Delivers (len : Nat) (value written : List Byte) : Prop :=
  written.length ≤ len ∧
    ∀ old : List Byte, old.length = len →
      value.take (len - 1) ++ [0#8] <+: written ++ old.drop written.length

/-! ## The value -/

/-- A byte that is read is at its index. -/
theorem load_eq_ok {data : List Byte} {i : Nat} {b : Byte} :
    load data i = .ok b ↔ data[i]? = some b := by
  rw [load]
  cases data[i]? <;> simp

/-- The bytes in front of a value that is found are not the end of a string. -/
theorem envmatch_some {data name : List Byte} {i val : Nat} (hname : 0#8 ∉ name)
    (h : envmatch data name i = .ok (some val)) :
    i < val ∧ ∀ k, i ≤ k → k < val → ∃ c, data[k]? = some c ∧ c ≠ 0#8 := by
  induction name generalizing i with
  | nil =>
      rw [envmatch] at h
      obtain ⟨c, hload, h⟩ := bind_ok h
      by_cases hc : c = 0#8
      · simp [hc] at h
      · by_cases heq : c = equals
        · simp only [if_neg hc, if_pos heq, pure_eq_ok, Except.ok.injEq, Option.some.injEq] at h
          refine ⟨by omega, fun k hik hk => ⟨c, ?_, hc⟩⟩
          obtain rfl : k = i := by omega
          exact load_eq_ok.mp hload
        · simp [hc, heq] at h
  | cons s name ih =>
      rw [envmatch] at h
      obtain ⟨c, hload, h⟩ := bind_ok h
      have hs : s ≠ 0#8 := fun hzero => hname (hzero ▸ List.mem_cons_self)
      by_cases hsc : s = c
      · subst hsc
        rw [if_pos rfl] at h
        have hhere : data[i]? = some s := load_eq_ok.mp hload
        by_cases heq : s = equals
        · simp only [heq, if_true, pure_eq_ok, Except.ok.injEq, Option.some.injEq] at h
          refine ⟨by omega, fun k hik hk => ⟨s, ?_, hs⟩⟩
          obtain rfl : k = i := by omega
          exact hhere
        · rw [if_neg heq] at h
          obtain ⟨hlt, hbytes⟩ := ih (fun hmem => hname (List.mem_cons_of_mem s hmem)) h
          refine ⟨by omega, fun k hik hk => ?_⟩
          rcases Nat.eq_or_lt_of_le hik with rfl | hik
          · exact ⟨s, hhere, hs⟩
          · exact hbytes k hik hk
      · simp [hsc] at h

/-- What `strend` finds is the first NUL. -/
theorem strend_eq_ok {data : List Byte} {i nxt : Nat} (h : strend data i = .ok nxt) :
    i ≤ nxt ∧ data[nxt]? = some 0#8 ∧ ∀ k, i ≤ k → k < nxt → data[k]? ≠ some 0#8 := by
  rw [strend] at h
  cases hfind : (data.drop i).findIdx? (· = 0#8) with
  | none =>
      rw [hfind] at h
      cases h
  | some k =>
      rw [hfind] at h
      cases h
      obtain ⟨hlt, hzero, hbefore⟩ := List.findIdx?_eq_some_iff_getElem.mp hfind
      rw [List.length_drop] at hlt
      refine ⟨Nat.le_add_right i k, ?_, fun j hij hj hnul => ?_⟩
      · rw [List.getElem?_eq_getElem (by omega)]
        simpa using hzero
      · have hlt' := hbefore (j - i) (by omega)
        have hget : (data.drop i)[j - i]? = some 0#8 := by
          rw [List.getElem?_drop, Nat.add_sub_cancel' hij]
          exact hnul
        rw [List.getElem?_eq_some_iff] at hget
        obtain ⟨_, hget⟩ := hget
        rw [hget] at hlt'
        exact hlt' (by decide)

/-- A value that is found ends with a NUL. -/
theorem exists_value {data : List Byte} {name : CString} {fuel i val : Nat}
    (h : getenvFrom data name fuel i = .ok (some val)) :
    ∃ value rest, 0#8 ∉ value ∧ data.drop val = value ++ 0#8 :: rest := by
  induction fuel generalizing i with
  | zero => cases h
  | succ fuel ih =>
      rw [getenvFrom] at h
      obtain ⟨c, hload, h⟩ := bind_ok h
      by_cases hc : c = 0#8
      · simp [hc] at h
      · rw [if_neg hc] at h
        obtain ⟨nxt, hend, h⟩ := bind_ok h
        obtain ⟨found, hmatch, h⟩ := bind_ok h
        cases found with
        | none => exact ih h
        | some v =>
            simp only [pure_eq_ok, Except.ok.injEq, Option.some.injEq] at h
            subst h
            obtain ⟨hlt, hbytes⟩ := envmatch_some name.2 hmatch
            obtain ⟨hle, hnul, hfirst⟩ := strend_eq_ok hend
            -- the value begins in front of the NUL of its string
            have hval : v ≤ nxt := by
              by_contra hbehind
              obtain ⟨c', hc', hne⟩ := hbytes nxt hle (by omega)
              rw [hnul] at hc'
              cases hc'
              exact hne rfl
            have hsplit : data.drop nxt = 0#8 :: data.drop (nxt + 1) := by
              obtain ⟨hlt', hget⟩ := List.getElem?_eq_some_iff.mp hnul
              rw [List.drop_eq_getElem_cons hlt', hget]
            refine ⟨(data.drop v).take (nxt - v), data.drop (nxt + 1), ?_, ?_⟩
            · intro hmem
              obtain ⟨k, hk, hget⟩ := List.getElem_of_mem hmem
              rw [List.length_take] at hk
              apply hfirst (v + k) (by omega) (by omega)
              rw [List.getElem_take, List.getElem_drop] at hget
              rw [List.getElem?_eq_some_iff]
              exact ⟨_, hget⟩
            · rw [← hsplit]
              conv_rhs => rw [show nxt = v + (nxt - v) by omega, ← List.drop_drop]
              rw [show v + (nxt - v) - v = nxt - v by omega, List.take_append_drop]

/-! ## The copy -/

/-- The loop copies the value and its NUL, or as much as there is room for. -/
theorem copyOut_eq {value rest : List Byte} (h : 0#8 ∉ value) (len n : Nat) (hn : n ≤ len) :
    copyOut len (value ++ 0#8 :: rest) n =
      .ok (if n + value.length < len then (value ++ [0#8], n + value.length + 1)
        else (value.take (len - n), len + 1)) := by
  induction value generalizing n with
  | nil =>
      rw [List.nil_append, copyOut]
      by_cases hlt : n < len
      · simp [hlt]
      · obtain rfl : n = len := by omega
        simp
  | cons c value ih =>
      have hc : c ≠ 0#8 := fun hzero => h (hzero ▸ List.mem_cons_self)
      rw [List.cons_append, copyOut]
      by_cases hlt : n < len
      · rw [if_pos hlt, if_pos hc, ih (fun hmem => h (List.mem_cons_of_mem c hmem)) (n + 1) hlt, ok_bind]
        rw [List.length_cons]
        by_cases hfits : n + 1 + value.length < len
        · rw [if_pos hfits, if_pos (by omega)]
          simp [Nat.add_assoc, Nat.add_comm 1]
        · rw [if_neg hfits, if_neg (by omega)]
          obtain ⟨m, hm⟩ : ∃ m, len - n = m + 1 := ⟨len - n - 1, by omega⟩
          simp [hm, show len - (n + 1) = m by omega]
      · obtain rfl : n = len := by omega
        simp

/-- A buffer that gets all of the value and its NUL has it. -/
theorem delivers_of_lt {len : Nat} {value : List Byte} (h : value.length + 1 < len) :
    Delivers len value (value ++ [0#8]) := by
  constructor
  · rw [List.length_append, List.length_singleton]
    omega
  · intro old _
    rw [List.take_of_length_le (by omega)]
    exact List.prefix_append ..

/-- The NUL that ends a buffer is written behind it when the value and its own NUL fill it. -/
theorem not_delivers_of_eq {len : Nat} {value : List Byte} (h : value.length + 1 = len) :
    ¬ Delivers len value (value ++ [0#8] ++ [0#8]) := by
  rintro ⟨hle, -⟩
  simp only [List.length_append, List.length_singleton] at hle
  omega

/-- A buffer that is filled by the begin of the value has no NUL. -/
theorem not_delivers_of_le {len : Nat} {value : List Byte} (hnul : 0#8 ∉ value)
    (h : len ≤ value.length) : ¬ Delivers len value (value.take len) := by
  rintro ⟨-, hprefix⟩
  have hfull := hprefix (List.replicate len 0#8) List.length_replicate
  rw [List.length_take, Nat.min_eq_left h, List.drop_of_length_le (by simp), List.append_nil] at hfull
  apply hnul
  apply List.take_subset len value
  exact hfull.subset (List.mem_append_right _ (List.mem_singleton_self _))

/-- The value of a variable is delivered, exactly when it is shorter than the buffer by two
bytes at least. -/
theorem getenv_r_delivers {data : List Byte} {name : CString} {val len : Nat}
    (hfound : getenv data name = .ok (some val)) :
    ∃ value rc written, stringAt data val = .ok value ∧ getenv_r data name len = .ok (rc, written) ∧
      (Delivers len value written ↔ value.length + 1 < len) := by
  obtain ⟨value, rest, hnul, hdrop⟩ := exists_value hfound
  have hval : val ≤ data.length := by
    by_contra hbehind
    rw [List.drop_of_length_le (by omega)] at hdrop
    cases value <;> cases hdrop
  have hstring : stringAt data val = .ok value := by
    have hsplit := stringAt_append (data.take val) rest hnul
    rw [← hdrop, List.take_append_drop, List.length_take, Nat.min_eq_left hval] at hsplit
    exact hsplit
  rw [getenv_r, hfound, ok_bind]
  simp only [hdrop, copyOut_eq hnul len 0 (Nat.zero_le len), ok_bind, Nat.zero_add, Nat.sub_zero,
    pure_eq_ok]
  refine ⟨value, _, _, hstring, rfl, ?_⟩
  by_cases hfits : value.length < len
  · simp only [if_pos hfits]
    rcases Nat.eq_or_lt_of_le (Nat.succ_le_of_lt hfits) with heq | hlt
    · rw [if_pos heq.symm]
      exact iff_of_false (not_delivers_of_eq heq) (by omega)
    · rw [if_neg (Nat.ne_of_gt hlt)]
      exact iff_of_true (delivers_of_lt hlt) hlt
  · simp only [if_neg hfits]
    rw [if_neg (by omega)]
    exact iff_of_false (not_delivers_of_le hnul (by omega)) (by omega)

/-- The definition `a=bc`. -/
def exampleData : List Byte := ascii "a=bc" ++ [0#8, 0#8]

theorem nul_notMem_a : 0#8 ∉ ascii "a" := by decide

/-- The name `a`. -/
def exampleName : CString := ⟨ascii "a", nul_notMem_a⟩

theorem getenv_r_delivers_bc :
    ∃ value rc written, stringAt exampleData 2 = .ok value ∧
      getenv_r exampleData exampleName 4 = .ok (rc, written) ∧
      (Delivers 4 value written ↔ value.length + 1 < 4) :=
  getenv_r_delivers (by decide)

/-- A value that fills its buffer with its NUL is followed by another NUL. -/
theorem not_getenv_r_delivers :
    getenv exampleData exampleName = .ok (some 2) ∧ stringAt exampleData 2 = .ok (ascii "bc") ∧
      ∃ rc written, getenv_r exampleData exampleName 3 = .ok (rc, written) ∧
        ¬ Delivers 3 (ascii "bc") written := by
  refine ⟨by decide, by decide, 3, ascii "bc" ++ [0#8] ++ [0#8], by decide, ?_⟩
  exact not_delivers_of_eq rfl

end UBoot.Env
