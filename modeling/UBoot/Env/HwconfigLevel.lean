/-
# When a query is right

A query for a name in a list of items is right exactly if it does not come to a word that ends in
the name twice before it comes to the name, and if it can see the end of the last item.
-/

import UBoot.Env.Hwconfig

namespace UBoot.Hwconfig

open UBoot.Lib

section Level

variable (opt : List Byte) (stopch eqch : Byte)

/-- The items behind an item, with their separator. -/
def restText : List Item → List Byte
  | [] => []
  | item :: items => stopch :: itemsText stopch eqch (item :: items)

/-- Some item has the name. -/
def hasItem (items : List Item) : Bool := items.any (·.1 == opt)

/-- What is behind the first item that has the name, up to the end of the string, and its length. -/
def argOf (x : List Byte) : List Item → Option (List Byte × Nat)
  | [] => none
  | item :: items =>
      if item.1 = opt then
        item.2.map fun arg => (arg ++ (restText stopch eqch items ++ x), arg.length)
      else argOf x items

/-- The queries for a name in items that have `x` behind them: whether there is one, and for what is
behind it. -/
def QueryRight (x : List Byte) (items : List Item) : Prop :=
  (hwconfig_parse (itemsText stopch eqch items ++ x) (itemsText stopch eqch items).length opt stopch
    eqch false).map (·.isSome) = some (hasItem opt items) ∧
  hwconfig_parse (itemsText stopch eqch items ++ x) (itemsText stopch eqch items).length opt stopch
    eqch true = some (argOf opt stopch eqch x items)

/-- A place is taken in an item that does not have the name: its name, or its argument, ends in it
twice. At the end of the items, the last word can be taken only if the string ends there. -/
def Stray (x : List Byte) (items : List Item) (item : Item) : Prop :=
  match item.2 with
  | none => Doubled opt item.1 ∧ (items ≠ [] ∨ x = [])
  | some arg => Doubled opt item.1 ∨ Doubled opt arg ∧ (items ≠ [] ∨ x = [])

/-- The items up to the first one that has the name are in order. The last item needs the end of the
string behind it, or else an argument, no item in front of it, and no separator in what follows.
A stray place does no harm if the name comes later, and neither of them has an argument. -/
def ItemsOk (x : List Byte) (first : Bool) : List Item → Prop
  | [] => True
  | item :: items =>
      if item.1 = opt then
        items ≠ [] ∨ x = [] ∨ item.2.isSome ∧ first = true ∧ stopch ∉ x
      else
        ¬Stray opt x items item ∧ ItemsOk x false items ∨
        Stray opt x items item ∧ ¬(Doubled opt item.1 ∧ item.2.isSome) ∧
          ∃ named, items.find? (·.1 == opt) = some named ∧ named.2 = none

end Level

section Found

variable {opt : List Byte} {stopch eqch : Byte} {x : List Byte} {items : List Item}

/-- Behind items there is nothing of them: the end, or a character that is no separator. -/
def Behind (opt : List Byte) (stopch eqch : Byte) (x : List Byte) : Prop :=
  x = [] ∨ ∃ d t, x = d :: t ∧ d ≠ stopch ∧ d ≠ eqch ∧ d ∉ opt

/-- The place that is taken and not too far. -/
def found (opt : List Byte) (stopch eqch : Byte) (x : List Byte) (front : Bool) (w : List Byte) :
    Option (List Byte) :=
  (place opt stopch eqch front (w ++ x)).filter fun str =>
    x.length ≤ (str.drop opt.length).length

theorem itemsText_cons (stopch eqch : Byte) (item : Item) (items : List Item) :
    itemsText stopch eqch (item :: items) =
      itemText eqch item ++ restText stopch eqch items := by
  cases items with
  | nil => exact (List.append_nil _).symm
  | cons other items => rfl

/-- Behind the items nothing is found. -/
theorem found_nil (hopt : opt ≠ []) (hx : Behind opt stopch eqch x) (front : Bool) :
    found opt stopch eqch x front [] = none := by
  rw [found, List.nil_append, Option.filter_eq_none_iff]
  intro str htaken
  obtain rfl | ⟨d, t, rfl, hstop, heq, hout⟩ := hx
  · have hnone : findSub opt ([] : List Byte) = none := if_neg hopt
    rw [place_none hnone] at htaken
    cases htaken
  · have hfree : Free stopch eqch ([] : List Byte) := ⟨List.not_mem_nil, List.not_mem_nil⟩
    have hshort := place_cut (w := []) hopt hfree ⟨hstop, heq⟩ hout front htaken
    rw [decide_eq_true_eq, Nat.not_le, List.length_drop, List.length_cons]
    omega

theorem filter_near (rest : List Byte) :
    (some (opt ++ (rest ++ x))).filter (fun str => x.length ≤ (str.drop opt.length).length) =
      some (opt ++ (rest ++ x)) := by
  refine Option.filter_some_pos ?_
  rw [decide_eq_true_eq, List.drop_left, List.length_append]
  exact Nat.le_add_left _ _

/-- A word at the end of an item. -/
theorem found_word (hopt : opt ≠ []) (hfree : Free stopch eqch opt)
    (hx : Behind opt stopch eqch x) {w : List Byte} (hw : Free stopch eqch w) (front : Bool) :
    found opt stopch eqch x front (w ++ restText stopch eqch items) =
      if endsIn opt front w = true ∧ (items ≠ [] ∨ x = []) then
        some (opt ++ (restText stopch eqch items ++ x))
      else found opt stopch eqch x true (itemsText stopch eqch items) := by
  by_cases hopen : items ≠ [] ∨ x = []
  · have hends : Ends stopch eqch (restText stopch eqch items ++ x) := by
      cases items with
      | nil => exact .inl (hopen.resolve_left (fun h => h rfl))
      | cons item items => exact .inr ⟨stopch, _, rfl, .inl rfl⟩
    rw [found, List.append_assoc, place_word hopt hfree hw hends]
    by_cases htaken : endsIn opt front w = true
    · rw [if_pos htaken, if_pos ⟨htaken, hopen⟩, filter_near]
    · rw [if_neg htaken, if_neg (fun h => htaken h.1)]
      cases items with
      | nil =>
          obtain rfl := hopen.resolve_left (fun h => h rfl)
          exact (found_nil hopt hx true).symm
      | cons item items =>
          change Option.filter _ (place opt stopch eqch (stopch = stopch) _) = _
          rw [decide_eq_true rfl]
          rfl
  · rw [not_or, not_not] at hopen
    obtain ⟨rfl, hne⟩ := hopen
    obtain ⟨d, t, rfl, hstop, heq, hout⟩ := hx.resolve_left hne
    rw [if_neg (fun h => h.2.elim (fun h => h rfl) hne)]
    refine Eq.trans ?_ (found_nil hopt hx true).symm
    rw [found, Option.filter_eq_none_iff]
    intro str htaken
    have hshort := place_cut hopt hw ⟨hstop, heq⟩ hout front
      (by simpa only [restText, List.append_nil] using htaken)
    rw [decide_eq_true_eq, Nat.not_le, List.length_drop, List.length_cons]
    omega

/-- A name in front of an argument. -/
theorem found_name (hopt : opt ≠ []) (hfree : Free stopch eqch opt) (hne : eqch ≠ stopch)
    {w t : List Byte} (hw : Free stopch eqch w) :
    found opt stopch eqch x true (w ++ eqch :: t) =
      if endsIn opt true w = true then some (opt ++ (eqch :: t ++ x))
      else found opt stopch eqch x false t := by
  have hword := place_word hopt hfree hw (.inr ⟨eqch, t ++ x, rfl, .inr rfl⟩) true
  rw [found, List.append_assoc, List.cons_append, hword]
  split
  · exact filter_near (eqch :: t)
  · rw [placeBehind, decide_eq_false hne]
    rfl

/-! ## The results -/

/-- What the query for an argument returns for a place. -/
def resultAt (opt : List Byte) (stopch eqch : Byte) (maxlen : Nat) (str : List Byte) :
    Option (List Byte × Nat) :=
  if (str.drop opt.length).head? ≠ some eqch then none
  else
    match strchr str stopch with
    | none => some ((str.drop opt.length).drop 1, min maxlen str.length - opt.length - 1)
    | some arg_end => some ((str.drop opt.length).drop 1,
        (str.drop opt.length).length - arg_end.length - 1)

/-- Behind an item without an argument there is nothing to return. -/
theorem resultAt_plain (hne : eqch ≠ stopch) (hx : Behind opt stopch eqch x) (maxlen : Nat) :
    resultAt opt stopch eqch maxlen (opt ++ (restText stopch eqch items ++ x)) = none := by
  rw [resultAt, List.drop_left, if_pos]
  cases items with
  | nil =>
      obtain rfl | ⟨d, t, rfl, -, heq, -⟩ := hx
      · simp [restText]
      · simpa [restText] using heq
  | cons item items => simpa [restText] using hne.symm

theorem strchr_append {w t : List Byte} {c : Byte} (h : c ∉ w) : strchr (w ++ t) c = strchr t c := by
  rw [strchr, strchr, List.dropWhile_append_of_pos]
  intro b hb
  exact decide_eq_true fun hbc => h (hbc ▸ hb)

theorem strchr_none {w : List Byte} {c : Byte} (h : c ∉ w) : strchr w c = none := by
  rw [← List.append_nil w, strchr_append h]
  rfl

/-- A separator that is there is found, and what begins there is no longer than the string. -/
theorem strchr_mem {w : List Byte} {c : Byte} (h : c ∈ w) :
    ∃ t, strchr w c = some t ∧ t.length ≤ w.length := by
  have hne : w.dropWhile (· ≠ c) ≠ [] := by
    rw [ne_eq, List.dropWhile_eq_nil_iff]
    exact fun hall => of_decide_eq_true (hall c h) rfl
  refine ⟨w.dropWhile (· ≠ c), ?_, (List.dropWhile_suffix _).length_le⟩
  rw [strchr]
  split
  · next hnil => exact absurd hnil hne
  · rfl

/-- The length is right if the argument has a separator behind it, or is at the end of the string,
or if the name is the first one and there is no separator in what follows. -/
theorem resultAt_arg (hfree : Free stopch eqch opt) (hne : eqch ≠ stopch)
    (hx : Behind opt stopch eqch x) {arg : List Byte} (harg : Free stopch eqch arg) {maxlen : Nat}
    (hmax : opt.length + 1 + arg.length ≤ maxlen) :
    resultAt opt stopch eqch maxlen (opt ++ (eqch :: (arg ++ restText stopch eqch items) ++ x)) =
        some (arg ++ (restText stopch eqch items ++ x), arg.length) ↔
      items ≠ [] ∨ x = [] ∨ maxlen = opt.length + 1 + arg.length ∧ stopch ∉ x := by
  have hword : stopch ∉ opt ++ eqch :: arg := by
    rw [List.mem_append, List.mem_cons, not_or, not_or]
    exact ⟨hfree.1, hne.symm, harg.1⟩
  have hstr : opt ++ (eqch :: (arg ++ restText stopch eqch items) ++ x) =
      (opt ++ eqch :: arg) ++ (restText stopch eqch items ++ x) := by
    simp only [List.append_assoc, List.cons_append]
  have hend : strchr (opt ++ (eqch :: (arg ++ restText stopch eqch items) ++ x)) stopch =
      strchr (restText stopch eqch items ++ x) stopch := by
    rw [hstr, strchr_append hword]
  rw [resultAt, List.drop_left, hend, if_neg (fun h => h rfl)]
  cases items with
  | cons item items =>
      have hfound : strchr (restText stopch eqch (item :: items) ++ x) stopch =
          some (restText stopch eqch (item :: items) ++ x) := by
        rw [restText, List.cons_append, strchr, List.dropWhile_cons_of_neg (by simp)]
      rw [hfound]
      refine iff_of_true ?_ (.inl (List.cons_ne_nil _ _))
      simp only [List.cons_append, List.drop_one, List.tail_cons, List.append_assoc,
        List.length_cons, List.length_append, Option.some.injEq, Prod.mk.injEq, true_and]
      omega
  | nil =>
      rw [restText, List.append_nil, List.nil_append]
      obtain rfl | ⟨d, t, rfl, hstop, -, -⟩ := hx
      · rw [strchr_none List.not_mem_nil]
        refine iff_of_true ?_ (.inr (.inl rfl))
        simp only [List.append_nil, List.drop_one, List.tail_cons, List.length_append,
          List.length_cons, Option.some.injEq, Prod.mk.injEq, true_and]
        omega
      · have hskip : strchr (d :: t) stopch = strchr t stopch :=
          strchr_append (w := [d]) (fun h => hstop (List.mem_singleton.mp h).symm)
        rw [or_iff_right (fun h => h rfl), or_iff_right (List.cons_ne_nil d t), hskip,
          List.mem_cons, or_iff_right (Ne.symm hstop)]
        by_cases hmem : stopch ∈ t
        · obtain ⟨arg_end, hfound, hle⟩ := strchr_mem hmem
          rw [hfound]
          refine iff_of_false ?_ (fun h => h.2 hmem)
          simp only [List.cons_append, List.drop_one, List.tail_cons, List.length_cons,
            List.length_append, Option.some.injEq, Prod.mk.injEq, true_and]
          omega
        · rw [strchr_none hmem, and_iff_left hmem]
          simp only [List.cons_append, List.drop_one, List.tail_cons, List.length_cons,
            List.length_append, Option.some.injEq, Prod.mk.injEq, true_and]
          omega

/-! ## Item by item -/

/-- All the words are free of the separators. -/
def AllFree (stopch eqch : Byte) (items : List Item) : Prop :=
  ∀ item ∈ items, Free stopch eqch item.1 ∧ ∀ arg, item.2 = some arg → Free stopch eqch arg

theorem AllFree.tail {item : Item} (h : AllFree stopch eqch (item :: items)) :
    AllFree stopch eqch items := fun other hmem => h other (List.mem_cons_of_mem _ hmem)

theorem found_plain (hopt : opt ≠ []) (hfree : Free stopch eqch opt)
    (hx : Behind opt stopch eqch x) {w : List Byte} (hw : Free stopch eqch w) :
    found opt stopch eqch x true (itemsText stopch eqch ((w, none) :: items)) =
      if (w = opt ∨ Doubled opt w) ∧ (items ≠ [] ∨ x = []) then
        some (opt ++ (restText stopch eqch items ++ x))
      else found opt stopch eqch x true (itemsText stopch eqch items) := by
  rw [itemsText_cons, itemText, found_word hopt hfree hx hw]
  exact if_congr (and_congr_left' (endsIn_true hopt)) rfl rfl

theorem found_arg (hopt : opt ≠ []) (hfree : Free stopch eqch opt) (hne : eqch ≠ stopch)
    (hx : Behind opt stopch eqch x) {w arg : List Byte} (hw : Free stopch eqch w)
    (harg : Free stopch eqch arg) :
    found opt stopch eqch x true (itemsText stopch eqch ((w, some arg) :: items)) =
      if w = opt ∨ Doubled opt w then
        some (opt ++ (eqch :: (arg ++ restText stopch eqch items) ++ x))
      else if Doubled opt arg ∧ (items ≠ [] ∨ x = []) then
        some (opt ++ (restText stopch eqch items ++ x))
      else found opt stopch eqch x true (itemsText stopch eqch items) := by
  rw [itemsText_cons, itemText, List.append_assoc, List.cons_append, found_name hopt hfree hne hw,
    found_word hopt hfree hx harg]
  exact if_congr (endsIn_true hopt) rfl rfl

/-- The argument is in the string. -/
theorem argOf_suffix {found : List Byte × Nat} (h : argOf opt stopch eqch x items = some found) :
    found.1 <:+ itemsText stopch eqch items ++ x := by
  induction items with
  | nil => cases h
  | cons item items ih =>
      rw [itemsText_cons, List.append_assoc]
      rw [argOf] at h
      split at h
      · obtain ⟨arg, harg, rfl⟩ := Option.map_eq_some_iff.mp h
        obtain ⟨w, behind⟩ := item
        subst harg
        refine ⟨w ++ [eqch], ?_⟩
        simp only [itemText, List.append_assoc, List.cons_append, List.nil_append]
      · cases items with
        | nil => cases h
        | cons other others =>
            refine (ih h).trans (List.IsSuffix.trans ?_ (List.suffix_append _ _))
            exact List.suffix_cons _ _

/-- It is not longer than what is there. -/
theorem argOf_le {found : List Byte × Nat} (h : argOf opt stopch eqch x items = some found) :
    found.2 ≤ found.1.length := by
  induction items with
  | nil => cases h
  | cons item items ih =>
      rw [argOf] at h
      split at h
      · obtain ⟨arg, -, rfl⟩ := Option.map_eq_some_iff.mp h
        rw [List.length_append]
        exact Nat.le_add_right _ _
      · exact ih h

/-- What is behind the first item that has the name. -/
def nameArg (opt : List Byte) (items : List Item) : Option (List Byte) :=
  (items.find? (·.1 == opt)).bind (·.2)

/-- From there on it is the text behind the name. -/
theorem argOf_text :
    (argOf opt stopch eqch x items).map (fun found => found.1.take found.2) =
      nameArg opt items := by
  induction items with
  | nil => rfl
  | cons item items ih =>
      by_cases hname : item.1 = opt
      · rw [argOf, if_pos hname, nameArg, List.find?_cons_of_pos (by simpa using hname)]
        cases hbehind : item.2 with
        | none => simp [hbehind]
        | some arg => simp [hbehind]
      · rw [argOf, if_neg hname, nameArg, List.find?_cons_of_neg (by simpa using hname)]
        exact ih

/-- The first item that has the name has nothing behind it. -/
theorem named_plain :
    hasItem opt items = true ∧ argOf opt stopch eqch x items = none ↔
      ∃ named, items.find? (·.1 == opt) = some named ∧ named.2 = none := by
  induction items with
  | nil => simp [hasItem]
  | cons item items ih =>
      by_cases hname : item.1 = opt
      · rw [argOf, if_pos hname, hasItem, List.any_cons, List.find?_cons_of_pos (by simpa using hname)]
        simp [hname]
      · rw [argOf, if_neg hname, hasItem, List.any_cons, List.find?_cons_of_neg (by simpa using hname)]
        simpa [hname, hasItem] using ih

/-- What the two queries find, by the place that is taken. -/
def FoundRight (opt : List Byte) (stopch eqch : Byte) (x : List Byte) (maxlen : Nat)
    (items : List Item) (place : Option (List Byte)) : Prop :=
  place.isSome = hasItem opt items ∧
    place.bind (resultAt opt stopch eqch maxlen) = argOf opt stopch eqch x items

/-- A place without an argument is right for an item that has none, wherever it is. -/
theorem foundRight_stray (hne : eqch ≠ stopch) (hx : Behind opt stopch eqch x) {maxlen : Nat}
    {item : Item} (hname : item.1 ≠ opt) :
    FoundRight opt stopch eqch x maxlen (item :: items)
        (some (opt ++ (restText stopch eqch items ++ x))) ↔
      ∃ named, items.find? (·.1 == opt) = some named ∧ named.2 = none := by
  have hitem : hasItem opt (item :: items) = hasItem opt items := by
    rw [hasItem, List.any_cons, beq_false_of_ne hname, Bool.false_or]
    rfl
  rw [FoundRight, Option.bind_some, resultAt_plain hne hx, argOf, if_neg hname, hitem,
    ← @named_plain opt stopch eqch x items]
  exact and_congr eq_comm eq_comm

/-- A place with an argument is wrong for an item that comes later. -/
theorem not_foundRight_arg {maxlen : Nat} {item : Item} {arg : List Byte} (hname : item.1 ≠ opt) :
    ¬FoundRight opt stopch eqch x maxlen (item :: items)
        (some (opt ++ (eqch :: (arg ++ restText stopch eqch items) ++ x))) := by
  rintro ⟨hsome, harg⟩
  have hresult : ∃ n, resultAt opt stopch eqch maxlen
      (opt ++ (eqch :: (arg ++ restText stopch eqch items) ++ x)) =
        some (arg ++ restText stopch eqch items ++ x, n) := by
    rw [resultAt, List.drop_left, if_neg (fun h => h rfl)]
    split
    · exact ⟨_, rfl⟩
    · exact ⟨_, rfl⟩
  obtain ⟨n, hresult⟩ := hresult
  rw [Option.bind_some, hresult, argOf, if_neg hname] at harg
  have hle := (argOf_suffix harg.symm).length_le
  cases items with
  | nil => cases harg
  | cons other items =>
      simp only [restText, List.length_append, List.length_cons] at hle
      omega

/-- An item with another name does not matter if no place in it is taken. -/
theorem foundRight_other {maxlen : Nat} {item : Item} (hname : item.1 ≠ opt)
    (place : Option (List Byte)) :
    FoundRight opt stopch eqch x maxlen (item :: items) place ↔
      FoundRight opt stopch eqch x maxlen items place := by
  have hitem : hasItem opt (item :: items) = hasItem opt items := by
    rw [hasItem, List.any_cons, beq_false_of_ne hname, Bool.false_or]
    rfl
  rw [FoundRight, FoundRight, argOf, if_neg hname, hitem]

theorem hasItem_named (arg : Option (List Byte)) : hasItem opt ((opt, arg) :: items) = true := by
  rw [hasItem, List.any_cons, beq_self_eq_true, Bool.true_or]

theorem foundRight_named_plain (hopt : opt ≠ []) (hfree : Free stopch eqch opt) (hne : eqch ≠ stopch)
    (hx : Behind opt stopch eqch x) {maxlen : Nat} :
    FoundRight opt stopch eqch x maxlen ((opt, none) :: items)
        (found opt stopch eqch x true (itemsText stopch eqch ((opt, none) :: items))) ↔
      items ≠ [] ∨ x = [] := by
  rw [found_plain hopt hfree hx hfree, FoundRight, hasItem_named, argOf, if_pos rfl, Option.map_none]
  by_cases hopen : items ≠ [] ∨ x = []
  · rw [if_pos ⟨.inl rfl, hopen⟩]
    exact iff_of_true ⟨rfl, resultAt_plain hne hx maxlen⟩ hopen
  · rw [if_neg (fun h => hopen h.2)]
    rw [not_or, not_not] at hopen
    obtain ⟨rfl, hnil⟩ := hopen
    rw [itemsText, found_nil hopt hx]
    exact iff_of_false (fun h => Bool.false_ne_true h.1) (fun h => h.elim (fun h => h rfl) hnil)

/-- The place of a name with an argument. -/
theorem foundRight_arg_iff (hfree : Free stopch eqch opt) (hne : eqch ≠ stopch)
    (hx : Behind opt stopch eqch x) {arg : List Byte} (harg : Free stopch eqch arg) {maxlen : Nat}
    (hmax : opt.length + 1 + arg.length ≤ maxlen) :
    FoundRight opt stopch eqch x maxlen ((opt, some arg) :: items)
        (some (opt ++ (eqch :: (arg ++ restText stopch eqch items) ++ x))) ↔
      items ≠ [] ∨ x = [] ∨ maxlen = opt.length + 1 + arg.length ∧ stopch ∉ x := by
  rw [FoundRight, hasItem_named, argOf, if_pos rfl, Option.map_some, Option.bind_some,
    ← resultAt_arg hfree hne hx harg hmax]
  exact and_iff_right rfl

/-- The length of a last item that has an argument is that of all of them if it is the first. -/
theorem maxlen_iff {maxlen : Nat} {first : Bool} {arg : List Byte}
    (hfirst : first = true ↔
      maxlen = (itemText eqch (opt, some arg)).length + (restText stopch eqch items).length) :
    (items ≠ [] ∨ x = [] ∨ maxlen = opt.length + 1 + arg.length ∧ stopch ∉ x) ↔
      items ≠ [] ∨ x = [] ∨ (some arg).isSome = true ∧ first = true ∧ stopch ∉ x := by
  by_cases hmore : items ≠ []
  · exact iff_of_true (.inl hmore) (.inl hmore)
  · obtain rfl := not_not.mp hmore
    have hsame : maxlen = opt.length + 1 + arg.length ↔ first = true := by
      rw [hfirst, itemText, restText, List.length_append, List.length_cons, List.length_nil]
      omega
    rw [hsame, and_iff_right (Option.isSome_some (a := arg))]

/-- The two queries are right exactly if the items are in order. -/
theorem foundRight_iff (hopt : opt ≠ []) (hfree : Free stopch eqch opt) (hne : eqch ≠ stopch)
    (hx : Behind opt stopch eqch x) {maxlen : Nat} {first : Bool}
    (hall : AllFree stopch eqch items) (hle : (itemsText stopch eqch items).length ≤ maxlen)
    (hfirst : items ≠ [] → (first = true ↔ maxlen = (itemsText stopch eqch items).length)) :
    FoundRight opt stopch eqch x maxlen items
        (found opt stopch eqch x true (itemsText stopch eqch items)) ↔
      ItemsOk opt stopch x first items := by
  induction items generalizing first with
  | nil =>
      rw [itemsText, found_nil hopt hx]
      exact iff_of_true ⟨rfl, rfl⟩ trivial
  | cons item items ih =>
      obtain ⟨w, behind⟩ := item
      obtain ⟨hw, harg⟩ := hall (w, behind) List.mem_cons_self
      specialize hfirst (List.cons_ne_nil _ _)
      rw [itemsText_cons, List.length_append] at hle hfirst
      rw [ItemsOk]
      by_cases hname : w = opt
      · subst hname
        rw [if_pos rfl]
        cases behind with
        | none =>
            rw [foundRight_named_plain hopt hfree hne hx]
            simp
        | some arg =>
            have hmax : w.length + 1 + arg.length ≤ maxlen := by
              rw [itemText, List.length_append, List.length_cons] at hle
              omega
            rw [found_arg hopt hfree hne hx hw (harg arg rfl), if_pos (.inl rfl),
              foundRight_arg_iff hfree hne hx (harg arg rfl) hmax, maxlen_iff hfirst]
      · rw [if_neg hname]
        have hnext : FoundRight opt stopch eqch x maxlen ((w, behind) :: items)
            (found opt stopch eqch x true (itemsText stopch eqch items)) ↔
              ItemsOk opt stopch x false items := by
          rw [foundRight_other hname]
          cases items with
          | nil => exact ih hall.tail (Nat.zero_le _) (fun h => absurd rfl h)
          | cons other others =>
              rw [restText, List.length_cons] at hle
              refine ih hall.tail (by omega) (fun _ => iff_of_false Bool.false_ne_true ?_)
              omega
        cases behind with
        | none =>
            rw [found_plain hopt hfree hx hw]
            by_cases hstray : Stray opt x items (w, none)
            · rw [if_pos ⟨.inr hstray.1, hstray.2⟩, foundRight_stray hne hx hname, or_iff_right (fun h => h.1 hstray),
                and_iff_right hstray, and_iff_right (fun h => Bool.false_ne_true h.2)]
            · have hpass : ¬((w = opt ∨ Doubled opt w) ∧ (items ≠ [] ∨ x = [])) :=
                fun h => hstray ⟨h.1.resolve_left hname, h.2⟩
              rw [if_neg hpass, hnext, or_iff_left (fun h => hstray h.1), and_iff_right hstray]
        | some arg =>
            rw [found_arg hopt hfree hne hx hw (harg arg rfl)]
            by_cases hdoubled : Doubled opt w
            · rw [if_pos (.inr hdoubled)]
              refine iff_of_false (not_foundRight_arg hname) ?_
              rintro (⟨hstray, -⟩ | ⟨-, hplain, -⟩)
              · exact hstray (.inl hdoubled)
              · exact hplain ⟨hdoubled, rfl⟩
            · have hstray : Stray opt x items (w, some arg) ↔
                  Doubled opt arg ∧ (items ≠ [] ∨ x = []) := or_iff_right hdoubled
              rw [if_neg (not_or.mpr ⟨hname, hdoubled⟩), hstray]
              by_cases htaken : Doubled opt arg ∧ (items ≠ [] ∨ x = [])
              · rw [if_pos htaken, foundRight_stray hne hx hname, or_iff_right (fun h => h.1 htaken),
                  and_iff_right htaken, and_iff_right (fun h => hdoubled h.1)]
              · rw [if_neg htaken, hnext, or_iff_left (fun h => htaken h.1), and_iff_right htaken]

/-! ## The query -/

/-- The query is right if the place is. -/
theorem queryRight_of_loop {place : Option (List Byte)}
    (h : parseLoop (itemsText stopch eqch items ++ x) (itemsText stopch eqch items).length opt stopch
      eqch (itemsText stopch eqch items ++ x) = some place) :
    QueryRight opt stopch eqch x items ↔
      FoundRight opt stopch eqch x (itemsText stopch eqch items).length items place := by
  rw [QueryRight, hwconfig_parse, hwconfig_parse, h, FoundRight, Option.map_some, Option.map_some,
    Option.map_some, Option.some_inj, Option.some_inj]
  have hplace : (place.bind fun str => if false = false then some (str, 0) else none).isSome =
      place.isSome := by
    cases place with
    | none => rfl
    | some str => rfl
  exact and_congr (Eq.congr_left hplace) Iff.rfl

theorem not_queryRight_of_loop
    (h : parseLoop (itemsText stopch eqch items ++ x) (itemsText stopch eqch items).length opt stopch
      eqch (itemsText stopch eqch items ++ x) = none) :
    ¬QueryRight opt stopch eqch x items := by
  rw [QueryRight, hwconfig_parse, h]
  exact fun hright => nomatch hright.1

/-- A query for a name that is not empty. -/
theorem queryRight_name (hopt : opt ≠ []) (hfree : Free stopch eqch opt) (hne : eqch ≠ stopch)
    (hx : Behind opt stopch eqch x) (hall : AllFree stopch eqch items) :
    QueryRight opt stopch eqch x items ↔ ItemsOk opt stopch x true items := by
  have hloop : parseLoop (itemsText stopch eqch items ++ x) (itemsText stopch eqch items).length opt
      stopch eqch (itemsText stopch eqch items ++ x) =
        some (found opt stopch eqch x true (itemsText stopch eqch items)) := by
    rw [parseLoop_eq hopt le_rfl, found]
    refine congrArg some (congrArg (Option.filter · _) (funext fun str => ?_))
    rw [decide_eq_decide, List.length_append]
    omega
  rw [queryRight_of_loop hloop]
  exact foundRight_iff hopt hfree hne hx hall le_rfl (fun _ => iff_of_true rfl rfl)

/-- The empty name is found at the start or never. -/
theorem parseLoop_empty (start : List Byte) (maxlen : Nat) :
    parseLoop start maxlen [] stopch eqch start =
      if start.head? = some stopch ∨ start.head? = some eqch ∨ start = [] then some (some start)
      else none := by
  rw [parseLoop, findSub_nil]
  simp only [List.length_nil, List.drop_zero]
  rw [if_neg (by omega), if_neg (lt_irrefl _)]
  exact if_congr (and_iff_right (.inl trivial)) rfl rfl

/-- A query for the empty name. -/
theorem queryRight_empty (hne : eqch ≠ stopch) (hx : Behind [] stopch eqch x) {item : Item}
    (hall : AllFree stopch eqch (item :: items)) :
    QueryRight [] stopch eqch x (item :: items) ↔
      item.1 = [] ∧ ItemsOk [] stopch x true (item :: items) := by
  obtain ⟨hw, harg⟩ := hall item List.mem_cons_self
  obtain ⟨w, behind⟩ := item
  have hfree : Free stopch eqch ([] : List Byte) := ⟨List.not_mem_nil, List.not_mem_nil⟩
  cases w with
  | cons b w =>
      have hhead : ∃ t, itemsText stopch eqch ((b :: w, behind) :: items) ++ x = b :: t := by
        rw [itemsText_cons]
        cases behind with
        | none => exact ⟨_, rfl⟩
        | some arg => exact ⟨_, rfl⟩
      obtain ⟨t, hhead⟩ := hhead
      refine iff_of_false (not_queryRight_of_loop ?_) (fun h => List.cons_ne_nil b w h.1)
      rw [parseLoop_empty, hhead, if_neg]
      rintro (hstop | heq | hnil)
      · exact hw.1 (Option.some.inj hstop ▸ List.mem_cons_self)
      · exact hw.2 (Option.some.inj heq ▸ List.mem_cons_self)
      · cases hnil
  | nil =>
      rw [and_iff_right rfl, ItemsOk, if_pos rfl]
      cases behind with
      | none =>
          have htext : itemsText stopch eqch (([], none) :: items) ++ x =
              restText stopch eqch items ++ x := by rw [itemsText_cons, itemText, List.nil_append]
          by_cases hopen : items ≠ [] ∨ x = []
          · have hloop : parseLoop (itemsText stopch eqch (([], none) :: items) ++ x)
                (itemsText stopch eqch (([], none) :: items)).length [] stopch eqch
                  (itemsText stopch eqch (([], none) :: items) ++ x) =
                some (some ([] ++ (restText stopch eqch items ++ x))) := by
              rw [parseLoop_empty, htext, List.nil_append, if_pos]
              cases items with
              | nil => exact .inr (.inr (hopen.resolve_left (fun h => h rfl)))
              | cons other items => exact .inl rfl
            rw [queryRight_of_loop hloop]
            refine iff_of_true ⟨(hasItem_named none).symm, ?_⟩ (hopen.imp_right .inl)
            rw [Option.bind_some, resultAt_plain hne hx, argOf, if_pos rfl, Option.map_none]
          · refine iff_of_false (not_queryRight_of_loop ?_) ?_
            · rw [not_or, not_not] at hopen
              obtain ⟨rfl, hnil⟩ := hopen
              obtain ⟨d, t, rfl, hstop, heq, -⟩ := hx.resolve_left hnil
              rw [parseLoop_empty, htext, if_neg]
              simp [restText, hstop, heq]
            · rintro (hmore | hnil | hfirst)
              · exact hopen (.inl hmore)
              · exact hopen (.inr hnil)
              · exact Bool.false_ne_true hfirst.1
      | some arg =>
          have htext : itemsText stopch eqch (([], some arg) :: items) ++ x =
              [] ++ (eqch :: (arg ++ restText stopch eqch items) ++ x) := by
            rw [itemsText_cons, itemText, List.nil_append, List.nil_append, List.cons_append]
          have hlength : (itemsText stopch eqch (([], some arg) :: items)).length =
              (itemText eqch ([], some arg)).length + (restText stopch eqch items).length := by
            rw [itemsText_cons, List.length_append]
          have hloop : parseLoop (itemsText stopch eqch (([], some arg) :: items) ++ x)
              (itemsText stopch eqch (([], some arg) :: items)).length [] stopch eqch
                (itemsText stopch eqch (([], some arg) :: items) ++ x) =
              some (some ([] ++ (eqch :: (arg ++ restText stopch eqch items) ++ x))) := by
            rw [parseLoop_empty, htext, if_pos (.inr (.inl rfl))]
          have hmax : ([] : List Byte).length + 1 + arg.length ≤
              (itemsText stopch eqch (([], some arg) :: items)).length := by
            rw [hlength, itemText, List.length_append, List.length_cons]
            omega
          rw [queryRight_of_loop hloop, foundRight_arg_iff hfree hne hx (harg arg rfl) hmax]
          exact maxlen_iff (iff_of_true rfl hlength)

/-- A query for the empty name finds it in front of everything or does not end. -/
def FirstIfEmpty (name : List Byte) (items : List Item) : Prop :=
  name = [] → items.head?.map (·.1) = some []

/-- A query is right exactly if the items are in order. -/
theorem queryRight_iff (hfree : Free stopch eqch opt) (hne : eqch ≠ stopch)
    (hx : Behind opt stopch eqch x) (hall : AllFree stopch eqch items) (hitems : items ≠ []) :
    QueryRight opt stopch eqch x items ↔
      FirstIfEmpty opt items ∧ ItemsOk opt stopch x true items := by
  by_cases hopt : opt = []
  · subst hopt
    obtain ⟨item, items, rfl⟩ := List.exists_cons_of_ne_nil hitems
    rw [queryRight_empty hne hx hall, FirstIfEmpty, List.head?_cons, Option.map_some,
      Option.some_inj]
    exact and_congr_left' ⟨fun h _ => h, fun h => h rfl⟩
  · rw [queryRight_name hopt hfree hne hx hall, FirstIfEmpty]
    exact (and_iff_right (fun h => absurd h hopt)).symm

end Found

end UBoot.Hwconfig
