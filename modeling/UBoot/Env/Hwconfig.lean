/-
# Hardware configuration

`hwconfig_parse` of `common/hwconfig.c`, and the queries that are made of it. A pointer into the
string is the part of the string from there on.
-/

import UBoot.LibGeneric.Crc32
import UBoot.Lib.Substrings

namespace UBoot.Hwconfig

open UBoot.Lib

def semicolon : Byte := 59#8
def colon : Byte := 58#8
def comma : Byte := 44#8
def equals : Byte := 61#8

/-- `strchr` -/
def strchr (s : List Byte) (c : Byte) : Option (List Byte) :=
  match s.dropWhile (· ≠ c) with
  | [] => none
  | rest => some rest

section Parse

variable (start : List Byte) (maxlen : Nat) (opt : List Byte) (stopch eqch : Byte)

/-- The loop of `hwconfig_parse` over `opts`: the place `str` that it takes, or `none` for NULL. An
empty `opt` that is not taken is found at the same place again, without end: then it is nothing. -/
def parseLoop (opts : List Byte) : Option (Option (List Byte)) :=
  match findSub opt opts with
  | none => some none
  | some (skipped, str) =>
      let behind := str.drop opt.length
      if maxlen < start.length - behind.length then some none
      else if (skipped = [] ∨ skipped.getLast? = some stopch) ∧
          (behind.head? = some stopch ∨ behind.head? = some eqch ∨ behind = []) then
        some (some str)
      else if behind.length < opts.length then parseLoop behind
      else none
termination_by opts.length
decreasing_by assumption

/-- `hwconfig_parse`, for a caller that wants `arglen` or not: the pointer and `*arglen`. No
difference here is below zero as long as `opt` has no `stopch`. -/
def hwconfig_parse (arglen : Bool) : Option (Option (List Byte × Nat)) :=
  (parseLoop start maxlen opt stopch eqch start).map fun found =>
    found.bind fun str =>
      let behind := str.drop opt.length
      if arglen = false then some (str, 0)
      else if behind.head? ≠ some eqch then none
      else
        match strchr str stopch with
        | none => some (behind.drop 1, min maxlen str.length - opt.length - 1)
        | some arg_end => some (behind.drop 1, behind.length - arg_end.length - 1)

end Parse

/-- Where the string comes from: the environment, the board, or the processor. -/
structure Sources where
  env_hwconfig : Option (List Byte)
  board_hwconfig : Option (List Byte)
  cpu_hwconfig : Option (List Byte)

section Queries

variable (s : Sources)

/-- `__hwconfig` -/
def Sources.query (opt : List Byte) (arglen : Bool) : Option (Option (List Byte × Nat)) :=
  match s.env_hwconfig, s.board_hwconfig, s.cpu_hwconfig with
  | some hwconfig, _, _ => hwconfig_parse hwconfig hwconfig.length opt semicolon colon arglen
  | none, some hwconfig, _ => hwconfig_parse hwconfig hwconfig.length opt semicolon colon arglen
  | none, none, some hwconfig =>
      hwconfig_parse hwconfig hwconfig.length opt semicolon colon arglen
  | none, none, none => some none

/-- `hwconfig` -/
def Sources.hwconfig (opt : List Byte) : Option Bool := (s.query opt false).map (·.isSome)

/-- `hwconfig_arg` -/
def Sources.hwconfig_arg (opt : List Byte) : Option (Option (List Byte × Nat)) := s.query opt true

/-- `hwconfig_sub` -/
def Sources.hwconfig_sub (opt subopt : List Byte) : Option Bool :=
  (s.query opt true).bind fun found =>
    match found with
    | none => some false
    | some (arg, arglen) => (hwconfig_parse arg arglen subopt comma equals false).map (·.isSome)

/-- `hwconfig_subarg` -/
def Sources.hwconfig_subarg (opt subopt : List Byte) : Option (Option (List Byte × Nat)) :=
  (s.query opt true).bind fun found =>
    match found with
    | none => some none
    | some (arg, arglen) => hwconfig_parse arg arglen subopt comma equals true

/-- `hwconfig_subarg_cmp` -/
def Sources.hwconfig_subarg_cmp (opt subopt subarg : List Byte) : Option Bool :=
  (s.hwconfig_subarg opt subopt).map fun found =>
    match found with
    | none => false
    | some (argstr, arglen) => arglen = subarg.length ∧ argstr.take arglen = subarg.take arglen

end Queries

end UBoot.Hwconfig

/-!
## What a query finds in a list of items

On both levels the string is a list of items, each of them a name that can have something behind it:
options with their arguments, and sub-options with theirs. The search for a name looks at the
character in front of a place, or at nothing when it goes on right behind a place that it has
passed over.
-/

namespace UBoot.Hwconfig

open UBoot.Lib

/-- A name, with what stands behind it. -/
abbrev Item := List Byte × Option (List Byte)

section Level

variable (stopch eqch : Byte)

def itemText : Item → List Byte
  | (name, none) => name
  | (name, some arg) => name ++ eqch :: arg

/-- Items, with the separator between them. -/
def itemsText : List Item → List Byte
  | [] => []
  | [item] => itemText eqch item
  | item :: items => itemText eqch item ++ stopch :: itemsText items

/-- A name or an argument has no separators of its level. -/
def Free (w : List Byte) : Prop := stopch ∉ w ∧ eqch ∉ w

end Level

/-! ## Places in a word -/

section Word

variable (opt : List Byte)

/-- Whether the last of the places of `opt` in `w`, taken from left to right, is at the end of `w`
and right behind the one before. Without one before, it depends on what is in front of `w`. -/
def endsIn (front : Bool) (w : List Byte) : Bool :=
  match findSub opt w with
  | none => false
  | some (skipped, str) =>
      let behind := str.drop opt.length
      if behind = [] then front && skipped.isEmpty
      else if behind.length < w.length then endsIn true behind
      else false
termination_by w.length
decreasing_by assumption

/-- A word that ends in `opt` twice. -/
def Doubled (w : List Byte) : Prop := endsIn opt false w = true

instance (w : List Byte) : Decidable (Doubled opt w) := inferInstanceAs (Decidable (_ = _))

end Word

/-! ## Places in the string -/

section Places

variable (opt : List Byte) (stopch eqch : Byte)

/-- The loop takes a place: what is in front of it and behind it is as it wants it. -/
def Taken (front : Bool) (skipped str : List Byte) : Prop :=
  (skipped = [] ∧ front = true ∨ skipped.getLast? = some stopch) ∧
    ((str.drop opt.length).head? = some stopch ∨ (str.drop opt.length).head? = some eqch ∨
      str.drop opt.length = [])

instance (front : Bool) (skipped str : List Byte) :
    Decidable (Taken opt stopch eqch front skipped str) := inferInstanceAs (Decidable (_ ∧ _))

/-- The place that the loop takes if the length is no matter, where the character in front of
`opts` can be a separator or not. -/
def place (front : Bool) (opts : List Byte) : Option (List Byte) :=
  match findSub opt opts with
  | none => none
  | some (skipped, str) =>
      if Taken opt stopch eqch front skipped str then some str
      else if (str.drop opt.length).length < opts.length then place true (str.drop opt.length)
      else none
termination_by opts.length
decreasing_by assumption

variable {opt stopch eqch} {c d : Byte} {front : Bool} {opts skipped str w t : List Byte}

theorem behind_length_lt (hopt : opt ≠ []) (h : findSub opt opts = some (skipped, str)) :
    (str.drop opt.length).length < opts.length := by
  obtain ⟨hsplit, hbegins⟩ := findSub_eq_some h
  have hle := hbegins.length_le
  have hpos := List.length_pos_iff.mpr hopt
  rw [hsplit, List.length_append, List.length_drop]
  dsimp only at hle ⊢
  omega

theorem place_found (hopt : opt ≠ []) (h : findSub opt opts = some (skipped, str)) :
    place opt stopch eqch front opts =
      if Taken opt stopch eqch front skipped str then some str
      else place opt stopch eqch true (str.drop opt.length) := by
  rw [place, h]
  dsimp only
  rw [if_pos (behind_length_lt hopt h)]

theorem endsIn_found (hopt : opt ≠ []) (h : findSub opt w = some (skipped, str)) :
    endsIn opt front w =
      if str.drop opt.length = [] then front && skipped.isEmpty
      else endsIn opt true (str.drop opt.length) := by
  rw [endsIn, h]
  dsimp only
  rw [if_pos (behind_length_lt hopt h)]

theorem place_length (hopt : opt ≠ []) (h : place opt stopch eqch front opts = some str) :
    str.length ≤ opts.length := by
  induction hlen : opts.length using Nat.strong_induction_on generalizing front opts with
  | _ n ih =>
      cases hfound : findSub opt opts with
      | none =>
          rw [place, hfound] at h
          cases h
      | some found =>
          obtain ⟨skipped, str'⟩ := found
          have hlt := behind_length_lt hopt hfound
          rw [place_found hopt hfound] at h
          split at h
          · cases h
            rw [← hlen, (findSub_eq_some hfound).1]
            exact (List.suffix_append skipped str).length_le
          · exact (ih _ (hlen ▸ hlt) h rfl).trans (hlen ▸ hlt).le

theorem place_none (h : findSub opt opts = none) : place opt stopch eqch front opts = none := by
  rw [place, h]

theorem endsIn_none (h : findSub opt w = none) : endsIn opt front w = false := by
  rw [endsIn, h]

/-- A word without the string is passed over. -/
theorem place_pass (hopt : opt ≠ []) (hc : c ∉ opt) (h : findSub opt w = none) (front : Bool)
    (t : List Byte) :
    place opt stopch eqch front (w ++ c :: t) = place opt stopch eqch (c = stopch) t := by
  have hwall := findSub_append_cons hopt hc w t
  rw [h] at hwall
  cases hfound : findSub opt t with
  | none =>
      rw [hfound] at hwall
      rw [place_none hwall, place_none hfound]
  | some found =>
      obtain ⟨skipped, str⟩ := found
      rw [hfound] at hwall
      have hlast : (w ++ c :: skipped).getLast? = some stopch ↔
          skipped = [] ∧ c = stopch ∨ skipped.getLast? = some stopch := by
        rw [List.getLast?_append_cons]
        cases skipped with
        | nil => simp
        | cons b skipped => simp
      have htaken : Taken opt stopch eqch front (w ++ c :: skipped) str ↔
          Taken opt stopch eqch (c = stopch) skipped str := by
        rw [Taken, Taken, hlast, decide_eq_true_eq]
        simp
      rw [place_found hopt hwall, place_found hopt hfound]
      exact if_congr htaken rfl rfl

/-- What is behind a word: the end, or a separator with more. -/
def Ends (stopch eqch : Byte) (x : List Byte) : Prop :=
  x = [] ∨ ∃ c t, x = c :: t ∧ (c = stopch ∨ c = eqch)

/-- The search goes on behind a separator. -/
def placeBehind (opt : List Byte) (stopch eqch : Byte) : List Byte → Option (List Byte)
  | [] => none
  | c :: t => place opt stopch eqch (c = stopch) t

theorem place_pass_ends (hopt : opt ≠ []) (hfree : Free stopch eqch opt) {x : List Byte}
    (hx : Ends stopch eqch x) (h : findSub opt w = none) (front : Bool) :
    place opt stopch eqch front (w ++ x) = placeBehind opt stopch eqch x := by
  obtain rfl | ⟨c, t, rfl, rfl | rfl⟩ := hx
  · rw [List.append_nil]
    exact place_none h
  · exact place_pass hopt hfree.1 h front t
  · exact place_pass hopt hfree.2 h front t

theorem findSub_append_ends (hopt : opt ≠ []) (hfree : Free stopch eqch opt) {x : List Byte}
    (hx : Ends stopch eqch x) (h : findSub opt w = some (skipped, str)) :
    findSub opt (w ++ x) = some (skipped, str ++ x) := by
  obtain rfl | ⟨c, t, rfl, rfl | rfl⟩ := hx
  · rw [List.append_nil, List.append_nil, h]
  · rw [findSub_append_cons hopt hfree.1, h]
  · rw [findSub_append_cons hopt hfree.2, h]

/-- In a word that ends there, the loop takes the last place or none. -/
theorem place_word (hopt : opt ≠ []) (hfree : Free stopch eqch opt) (hw : Free stopch eqch w)
    {x : List Byte} (hx : Ends stopch eqch x) (front : Bool) :
    place opt stopch eqch front (w ++ x) =
      if endsIn opt front w then some (opt ++ x) else placeBehind opt stopch eqch x := by
  induction hlen : w.length using Nat.strong_induction_on generalizing front w with
  | _ n ih =>
      cases hfound : findSub opt w with
      | none =>
          rw [endsIn_none hfound, if_neg Bool.false_ne_true]
          exact place_pass_ends hopt hfree hx hfound front
      | some found =>
          obtain ⟨skipped, str⟩ := found
          obtain ⟨hsplit, rest, hrest⟩ := findSub_eq_some hfound
          dsimp only at hsplit hrest
          have hbehind : (str ++ x).drop opt.length = rest ++ x := by
            rw [← hrest, List.append_assoc, List.drop_left]
          have hword : str.drop opt.length = rest := by rw [← hrest, List.drop_left]
          have hlast : skipped.getLast? ≠ some stopch := fun hstop =>
            hw.1 (hsplit ▸ List.mem_append_left _ (List.mem_of_getLast? hstop))
          rw [endsIn_found hopt hfound, place_found hopt (findSub_append_ends hopt hfree hx hfound),
            hbehind, hword]
          by_cases hend : rest = []
          · subst hend
            rw [List.append_nil] at hrest
            have htaken : Taken opt stopch eqch front skipped (str ++ x) ↔
                (front && skipped.isEmpty) = true := by
              have hclosed : x.head? = some stopch ∨ x.head? = some eqch ∨ x = [] := by
                obtain rfl | ⟨c, t, rfl, rfl | rfl⟩ := hx
                · exact .inr (.inr rfl)
                · exact .inl rfl
                · exact .inr (.inl rfl)
              rw [Taken, hbehind, List.nil_append, and_iff_left hclosed, or_iff_left hlast,
                Bool.and_eq_true, List.isEmpty_iff, and_comm]
            have hnext := place_pass_ends (w := []) hopt hfree hx (if_neg hopt) true
            rw [if_pos rfl, hnext, ← hrest]
            rw [← hrest] at htaken
            exact if_congr htaken rfl rfl
          · have hmem {b : Byte} (hb : b ∈ rest) : b ∈ w := by
              rw [hsplit, ← hrest]
              exact List.mem_append_right _ (List.mem_append_right _ hb)
            have hnot : ¬Taken opt stopch eqch front skipped (str ++ x) := by
              rw [Taken, hbehind]
              rintro ⟨-, hclosed⟩
              obtain ⟨b, rest, rfl⟩ := List.exists_cons_of_ne_nil hend
              obtain hstop | heq | hnil := hclosed
              · exact hw.1 (Option.some.inj hstop ▸ hmem List.mem_cons_self)
              · exact hw.2 (Option.some.inj heq ▸ hmem List.mem_cons_self)
              · cases hnil
            have hshort := behind_length_lt hopt hfound
            rw [hword, hlen] at hshort
            rw [if_neg hnot, if_neg hend]
            exact ih _ hshort ⟨fun hb => hw.1 (hmem hb), fun hb => hw.2 (hmem hb)⟩ true rfl

/-- A word that goes on behind another character has no place up to there. -/
theorem place_cut (hopt : opt ≠ []) (hw : Free stopch eqch w) (hd : d ≠ stopch ∧ d ≠ eqch)
    (hout : d ∉ opt) (front : Bool) (h : place opt stopch eqch front (w ++ d :: t) = some str) :
    str.length ≤ t.length := by
  induction hlen : w.length using Nat.strong_induction_on generalizing front w with
  | _ n ih =>
      cases hfound : findSub opt w with
      | none =>
          rw [place_pass hopt hout hfound] at h
          exact place_length hopt h
      | some found =>
          obtain ⟨skipped, str'⟩ := found
          obtain ⟨hsplit, rest, hrest⟩ := findSub_eq_some hfound
          dsimp only at hsplit hrest
          have hbehind : (str' ++ d :: t).drop opt.length = rest ++ d :: t := by
            rw [← hrest, List.append_assoc, List.drop_left]
          have hword : str'.drop opt.length = rest := by rw [← hrest, List.drop_left]
          have hmem {b : Byte} (hb : b ∈ rest) : b ∈ w := by
            rw [hsplit, ← hrest]
            exact List.mem_append_right _ (List.mem_append_right _ hb)
          have hwall := findSub_append_cons hopt hout w t
          rw [hfound] at hwall
          have hnot : ¬Taken opt stopch eqch front skipped (str' ++ d :: t) := by
            rw [Taken, hbehind]
            rintro ⟨-, hclosed⟩
            cases rest with
            | nil =>
                obtain hstop | heq | hnil := hclosed
                · exact hd.1 (Option.some.inj hstop)
                · exact hd.2 (Option.some.inj heq)
                · cases hnil
            | cons b rest =>
                obtain hstop | heq | hnil := hclosed
                · exact hw.1 (Option.some.inj hstop ▸ hmem List.mem_cons_self)
                · exact hw.2 (Option.some.inj heq ▸ hmem List.mem_cons_self)
                · cases hnil
          have hshort := behind_length_lt hopt hfound
          rw [hword, hlen] at hshort
          rw [place_found hopt hwall, if_neg hnot, hbehind] at h
          exact ih _ hshort ⟨fun hb => hw.1 (hmem hb), fun hb => hw.2 (hmem hb)⟩ true h rfl

theorem findSub_self (hopt : opt ≠ []) : findSub opt opt = some ([], opt) := by
  cases opt with
  | nil => exact absurd rfl hopt
  | cons b opt => exact if_pos (List.prefix_refl _)

/-- `opt` itself, or a word that ends in it twice. -/
theorem endsIn_true (hopt : opt ≠ []) : endsIn opt true w = true ↔ w = opt ∨ Doubled opt w := by
  cases hfound : findSub opt w with
  | none =>
      rw [Doubled, endsIn_none hfound, endsIn_none hfound]
      refine iff_of_false Bool.false_ne_true ?_
      rintro (rfl | hfalse)
      · exact absurd (hfound.symm.trans (findSub_self hopt)) (Option.some_ne_none _).symm
      · exact Bool.false_ne_true hfalse
  | some found =>
      obtain ⟨skipped, str⟩ := found
      obtain ⟨hsplit, rest, hrest⟩ := findSub_eq_some hfound
      dsimp only at hsplit hrest
      have hword : str.drop opt.length = rest := by rw [← hrest, List.drop_left]
      rw [Doubled, endsIn_found hopt hfound, endsIn_found hopt hfound, hword]
      by_cases hend : rest = []
      · subst hend
        rw [List.append_nil] at hrest
        rw [if_pos rfl, if_pos rfl, Bool.true_and, Bool.false_and, hsplit, ← hrest,
          List.isEmpty_iff, List.append_left_eq_self]
        simp
      · rw [if_neg hend, if_neg hend]
        refine (or_iff_right fun hself => hend ?_).symm
        rw [hself, findSub_self hopt] at hfound
        cases hfound
        rw [← hword, List.drop_length]

/-- The loop takes the place if it is not too far. -/
theorem parseLoop_eq (hopt : opt ≠ []) {start : List Byte} {maxlen : Nat}
    (hle : opts.length ≤ start.length) :
    parseLoop start maxlen opt stopch eqch opts =
      some ((place opt stopch eqch true opts).filter fun str =>
        start.length - (str.drop opt.length).length ≤ maxlen) := by
  induction hlen : opts.length using Nat.strong_induction_on generalizing opts with
  | _ n ih =>
      rw [parseLoop]
      cases hfound : findSub opt opts with
      | none => rw [place_none hfound]; rfl
      | some found =>
          obtain ⟨skipped, str⟩ := found
          have hlt := behind_length_lt hopt hfound
          rw [place_found hopt hfound]
          dsimp only
          split
          · next hfar =>
              -- What is behind a place that is too far is too far, too.
              refine congrArg some (Option.filter_eq_none_iff.mpr fun str' htaken => ?_).symm
              rw [decide_eq_true_eq, Nat.not_le]
              split at htaken
              · cases htaken
                exact hfar
              · have hshort := place_length hopt htaken
                have hdrop : (str'.drop opt.length).length ≤ str'.length := by
                  rw [List.length_drop]
                  exact Nat.sub_le _ _
                omega
          · next hnear =>
              have hsame : ((skipped = [] ∨ skipped.getLast? = some stopch) ∧
                    ((str.drop opt.length).head? = some stopch ∨
                      (str.drop opt.length).head? = some eqch ∨ str.drop opt.length = [])) ↔
                  Taken opt stopch eqch true skipped str := by
                rw [Taken, and_iff_left rfl]
              by_cases htaken : Taken opt stopch eqch true skipped str
              · rw [if_pos (hsame.mpr htaken), if_pos htaken]
                exact congrArg some (Option.filter_some_pos (by simpa using hnear)).symm
              · rw [if_neg (mt hsame.mp htaken), if_neg htaken]
                exact ih _ (hlen ▸ hlt) (hlt.le.trans hle) rfl

end Places

end UBoot.Hwconfig
