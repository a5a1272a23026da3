/-
# Hardware configuration queries

A hardware configuration is a list of options, some of them with sub-options, some of these with an
argument. The queries for an option and a sub-option are compared with what the configuration says.
-/

import UBoot.Env.HwconfigLevel

namespace UBoot.Hwconfig

open UBoot.Lib

/-- A name or an argument: it is free of the separators. -/
abbrev Word :=
  {w : List Byte // semicolon ∉ w ∧ colon ∉ w ∧ comma ∉ w ∧ equals ∉ w}

/-- `opt[:subopt[=arg][,subopt[=arg]]*]` -/
structure HwOption where
  name : Word
  subs : Option {subs : List (Word × Option Word) // subs ≠ []}

/-- `opt[:subopt[=arg][,subopt[=arg]]*][;opt...]*` -/
abbrev Config := {options : List HwOption // options ≠ []}

/-- The sub-options of an option as items. -/
def subItems (subs : List (Word × Option Word)) : List Item :=
  subs.map fun sub => (sub.1.1, sub.2.map (·.1))

/-- The options as items: what is behind the name is the text of the sub-options. -/
def optionItems (options : List HwOption) : List Item :=
  options.map fun option =>
    (option.name.1, option.subs.map fun subs => itemsText comma equals (subItems subs.1))

/-- The string of a configuration. -/
def Config.text (cfg : Config) : List Byte := itemsText semicolon colon (optionItems cfg.1)

/-- The string that the queries look at. -/
def Sources.string (s : Sources) : Option (List Byte) :=
  s.env_hwconfig <|> s.board_hwconfig <|> s.cpu_hwconfig

/-- The sub-options of the first option that has the name, and the text behind them. -/
def lookupSubs (opt : List Byte) : List HwOption → Option (List Item × List Byte)
  | [] => none
  | option :: options =>
      if option.name.1 = opt then
        option.subs.map fun subs =>
          (subItems subs.1, restText semicolon colon (optionItems options))
      else lookupSubs opt options

section Queries

variable (cfg : Config) (opt subopt : List Byte)

/-- Whether some option has the name. -/
def Config.has : Bool := hasItem opt (optionItems cfg.1)

/-- The argument of the option: where it begins in the string, and its length. -/
def Config.arg : Option (List Byte × Nat) :=
  argOf opt semicolon colon [] (optionItems cfg.1)

/-- Whether the option has the sub-option. -/
def Config.hasSub : Bool := (lookupSubs opt cfg.1).any fun subs => hasItem subopt subs.1

/-- The argument of the sub-option: where it begins in the string, and its length. -/
def Config.subarg : Option (List Byte × Nat) :=
  (lookupSubs opt cfg.1).bind fun subs => argOf subopt comma equals subs.2 subs.1

/-- The text of the argument of the sub-option. -/
def Config.subargText : Option (List Byte) :=
  (lookupSubs opt cfg.1).bind fun subs => nameArg subopt subs.1

/-- All the queries say what the configuration says. -/
def QueriesRight (s : Sources) : Prop :=
  s.hwconfig opt = some (cfg.has opt) ∧
  s.hwconfig_arg opt = some (cfg.arg opt) ∧
  s.hwconfig_sub opt subopt = some (cfg.hasSub opt subopt) ∧
  s.hwconfig_subarg opt subopt = some (cfg.subarg opt subopt) ∧
  ∀ subarg, s.hwconfig_subarg_cmp opt subopt subarg =
    some (decide (cfg.subargText opt subopt = some subarg))

/-- The options are in order up to the one that has the name, and so are its sub-options. -/
def Config.InOrder : Prop :=
  FirstIfEmpty opt (optionItems cfg.1) ∧ ItemsOk opt semicolon [] true (optionItems cfg.1) ∧
  ∀ subs behind, lookupSubs opt cfg.1 = some (subs, behind) →
    FirstIfEmpty subopt subs ∧ ItemsOk subopt comma behind true subs

end Queries

/-! ## The texts are free of separators -/

section Texts

variable {opt : List Byte} {options : List HwOption}

/-- A character of the text of items is a separator, or is in a word. -/
theorem mem_itemsText {stopch eqch b : Byte} {items : List Item}
    (h : b ∈ itemsText stopch eqch items) :
    b = stopch ∨ b = eqch ∨ ∃ item ∈ items, b ∈ item.1 ∨ ∃ arg, item.2 = some arg ∧ b ∈ arg := by
  induction items with
  | nil => cases h
  | cons item items ih =>
      rw [itemsText_cons, List.mem_append] at h
      obtain hitem | hrest := h
      · obtain ⟨w, behind⟩ := item
        cases behind with
        | none => exact .inr (.inr ⟨(w, none), List.mem_cons_self, .inl hitem⟩)
        | some arg =>
            rw [itemText, List.mem_append, List.mem_cons] at hitem
            obtain hw | heq | harg := hitem
            · exact .inr (.inr ⟨(w, some arg), List.mem_cons_self, .inl hw⟩)
            · exact .inr (.inl heq)
            · exact .inr (.inr ⟨(w, some arg), List.mem_cons_self, .inr ⟨arg, rfl, harg⟩⟩)
      · cases items with
        | nil => cases hrest
        | cons other others =>
            obtain hstop | htext := List.mem_cons.mp hrest
            · exact .inl hstop
            · refine (ih htext).imp_right (Or.imp_right ?_)
              rintro ⟨item', hmem, hb⟩
              exact ⟨item', List.mem_cons_of_mem _ hmem, hb⟩

/-- The words of the sub-options have no separators. -/
theorem subItems_free {subs : List (Word × Option Word)} {item : Item} (h : item ∈ subItems subs)
    {b : Byte} (hb : b ∈ item.1 ∨ ∃ arg, item.2 = some arg ∧ b ∈ arg) :
    b ≠ semicolon ∧ b ≠ colon ∧ b ≠ comma ∧ b ≠ equals := by
  have hword (w : Word) (hmem : b ∈ w.1) :
      b ≠ semicolon ∧ b ≠ colon ∧ b ≠ comma ∧ b ≠ equals := by
    obtain ⟨hsemi, hcolon, hcomma, hequals⟩ := w.2
    exact ⟨(ne_of_mem_of_not_mem hmem hsemi), ne_of_mem_of_not_mem hmem hcolon,
      ne_of_mem_of_not_mem hmem hcomma, ne_of_mem_of_not_mem hmem hequals⟩
  obtain ⟨sub, -, rfl⟩ := List.mem_map.mp h
  obtain hname | ⟨arg, harg, hmem⟩ := hb
  · exact hword sub.1 hname
  · obtain ⟨w, -, rfl⟩ := Option.map_eq_some_iff.mp harg
    exact hword w hmem

theorem subItems_allFree (subs : List (Word × Option Word)) :
    AllFree comma equals (subItems subs) := by
  intro item hmem
  refine ⟨⟨fun hb => ?_, fun hb => ?_⟩, fun arg harg => ⟨fun hb => ?_, fun hb => ?_⟩⟩
  · exact (subItems_free hmem (.inl hb)).2.2.1 rfl
  · exact (subItems_free hmem (.inl hb)).2.2.2 rfl
  · exact (subItems_free hmem (.inr ⟨arg, harg, hb⟩)).2.2.1 rfl
  · exact (subItems_free hmem (.inr ⟨arg, harg, hb⟩)).2.2.2 rfl

/-- The text of the sub-options has none of the separators between options. -/
theorem subText_free (subs : List (Word × Option Word)) :
    Free semicolon colon (itemsText comma equals (subItems subs)) := by
  refine ⟨fun hb => ?_, fun hb => ?_⟩
  · obtain hcomma | hequals | ⟨item, hmem, hword⟩ := mem_itemsText hb
    · exact absurd hcomma (by decide)
    · exact absurd hequals (by decide)
    · exact (subItems_free hmem hword).1 rfl
  · obtain hcomma | hequals | ⟨item, hmem, hword⟩ := mem_itemsText hb
    · exact absurd hcomma (by decide)
    · exact absurd hequals (by decide)
    · exact (subItems_free hmem hword).2.1 rfl

theorem optionItems_allFree (options : List HwOption) :
    AllFree semicolon colon (optionItems options) := by
  intro item hmem
  obtain ⟨option, -, rfl⟩ := List.mem_map.mp hmem
  refine ⟨⟨option.name.2.1, option.name.2.2.1⟩, fun arg harg => ?_⟩
  obtain ⟨subs, -, rfl⟩ := Option.map_eq_some_iff.mp harg
  exact subText_free subs.1

/-- What is known of the sub-options of an option, and of the text behind them. -/
theorem lookupSubs_some {subs : List Item} {behind : List Byte}
    (h : lookupSubs opt options = some (subs, behind)) :
    AllFree comma equals subs ∧ subs ≠ [] ∧ (behind = [] ∨ ∃ t, behind = semicolon :: t) := by
  induction options with
  | nil => cases h
  | cons option options ih =>
      rw [lookupSubs] at h
      split at h
      · obtain ⟨found, -, hfound⟩ := Option.map_eq_some_iff.mp h
        cases hfound
        refine ⟨subItems_allFree found.1, fun hnil => found.2 (List.map_eq_nil_iff.mp hnil), ?_⟩
        cases optionItems options with
        | nil => exact .inl rfl
        | cons item items => exact .inr ⟨_, rfl⟩
      · exact ih h

/-- The argument of an option is the text of its sub-options. -/
theorem argOf_optionItems :
    argOf opt semicolon colon [] (optionItems options) =
      (lookupSubs opt options).map fun subs =>
        (itemsText comma equals subs.1 ++ subs.2, (itemsText comma equals subs.1).length) := by
  induction options with
  | nil => rfl
  | cons option options ih =>
      rw [lookupSubs]
      by_cases hname : option.name.1 = opt
      · rw [if_pos hname, Option.map_map]
        refine (if_pos hname).trans ?_
        rw [Option.map_map]
        exact congrArg (option.subs.map ·) (funext fun subs => by
          simp only [Function.comp_apply, List.append_nil]; rfl)
      · rw [if_neg hname]
        exact (if_neg hname).trans ih

end Texts

/-! ## The queries -/

section Right

variable {s : Sources} {cfg : Config} {opt subopt : List Byte}

theorem query_eq {w : List Byte} (hs : s.string = some w) (opt : List Byte) (arglen : Bool) :
    s.query opt arglen = hwconfig_parse w w.length opt semicolon colon arglen := by
  obtain ⟨env, board, cpu⟩ := s
  cases env with
  | some env => cases hs; rfl
  | none =>
      cases board with
      | some board => cases hs; rfl
      | none =>
          cases cpu with
          | some cpu => cases hs; rfl
          | none => cases hs

/-- The first two queries are the ones for an item of the whole string. -/
theorem option_queries_iff (hs : s.string = some cfg.text) :
    s.hwconfig opt = some (cfg.has opt) ∧ s.hwconfig_arg opt = some (cfg.arg opt) ↔
      QueryRight opt semicolon colon [] (optionItems cfg.1) := by
  rw [QueryRight, List.append_nil, Sources.hwconfig, Sources.hwconfig_arg, query_eq hs, query_eq hs]
  rfl

/-- The comparison is right if the sub-option is. -/
theorem hwconfig_subarg_cmp_eq (h : s.hwconfig_subarg opt subopt = some (cfg.subarg opt subopt))
    (subarg : List Byte) :
    s.hwconfig_subarg_cmp opt subopt subarg =
      some (decide (cfg.subargText opt subopt = some subarg)) := by
  rw [Sources.hwconfig_subarg_cmp, h, Option.map_some, Option.some_inj, Config.subarg,
    Config.subargText]
  cases lookupSubs opt cfg.1 with
  | none => rfl
  | some subs =>
      rw [Option.bind_some, Option.bind_some,
        ← @argOf_text subopt comma equals subs.2 subs.1]
      cases harg : argOf subopt comma equals subs.2 subs.1 with
      | none => rfl
      | some found =>
          have hle := argOf_le harg
          rw [Option.map_some]
          have hsame : found.2 = subarg.length ∧ found.1.take found.2 = subarg.take found.2 ↔
              found.1.take found.2 = subarg := by
            constructor
            · rintro ⟨hlen, hsame⟩
              rw [hsame, hlen, List.take_length]
            · intro hsame
              have hlen : found.2 = subarg.length := by
                rw [← hsame, List.length_take, Nat.min_eq_left hle]
              rw [hsame, hlen, List.take_length]
              exact ⟨rfl, rfl⟩
          exact decide_eq_decide.mpr (hsame.trans Option.some_inj.symm)

/-- The other queries are the ones for an item of the argument. -/
theorem sub_queries_iff (harg : s.hwconfig_arg opt = some (cfg.arg opt)) :
    s.hwconfig_sub opt subopt = some (cfg.hasSub opt subopt) ∧
        s.hwconfig_subarg opt subopt = some (cfg.subarg opt subopt) ∧
        (∀ subarg, s.hwconfig_subarg_cmp opt subopt subarg =
          some (decide (cfg.subargText opt subopt = some subarg))) ↔
      ∀ subs behind, lookupSubs opt cfg.1 = some (subs, behind) →
        QueryRight subopt comma equals behind subs := by
  have hquery : s.query opt true = some (cfg.arg opt) := harg
  have hdrop : s.hwconfig_subarg opt subopt = some (cfg.subarg opt subopt) ∧
      (∀ subarg, s.hwconfig_subarg_cmp opt subopt subarg =
        some (decide (cfg.subargText opt subopt = some subarg))) ↔
      s.hwconfig_subarg opt subopt = some (cfg.subarg opt subopt) :=
    and_iff_left_of_imp hwconfig_subarg_cmp_eq
  rw [hdrop, Sources.hwconfig_sub, Sources.hwconfig_subarg, hquery, Option.bind_some,
    Option.bind_some, Config.arg, argOf_optionItems, Config.hasSub, Config.subarg]
  cases lookupSubs opt cfg.1 with
  | none => exact iff_of_true ⟨rfl, rfl⟩ (fun _ _ h => nomatch h)
  | some found =>
      obtain ⟨subs, behind⟩ := found
      refine ⟨fun h subs' behind' hsame => ?_, fun h => h subs behind rfl⟩
      cases hsame
      exact h

/-- The queries say what the configuration says exactly if it is in order. -/
theorem queriesRight_iff_inOrder (opt subopt : Word) (hs : s.string = some cfg.text) :
    QueriesRight cfg opt.1 subopt.1 s ↔ cfg.InOrder opt.1 subopt.1 := by
  have hcolon : colon ≠ semicolon := by decide
  have hequals : equals ≠ comma := by decide
  have hitems : optionItems cfg.1 ≠ [] := fun hnil => cfg.2 (List.map_eq_nil_iff.mp hnil)
  have htop := queryRight_iff ⟨opt.2.1, opt.2.2.1⟩ hcolon (.inl rfl)
    (optionItems_allFree cfg.1) hitems
  refine and_assoc.symm.trans (Iff.trans ?_ and_assoc)
  rw [option_queries_iff hs, ← htop]
  refine and_congr_right fun hright => ?_
  rw [sub_queries_iff ((option_queries_iff hs).mpr hright).2]
  refine forall₂_congr fun subs behind => forall_congr' fun hsubs => ?_
  obtain ⟨hall, hne, hbehind⟩ := lookupSubs_some hsubs
  refine queryRight_iff ⟨subopt.2.2.2.1, subopt.2.2.2.2⟩ hequals ?_ hall hne
  exact hbehind.imp_right fun ⟨t, ht⟩ =>
    ⟨semicolon, t, ht, by decide, by decide, subopt.2.1⟩

end Right

/-! ## `a:b=c,d=e` and `a:b=c,d=e;f` -/

def wordA : Word := ⟨[97#8], by decide⟩
def wordD : Word := ⟨[100#8], by decide⟩

/-- `a:b=c,d=e` -/
def alone : HwOption :=
  ⟨wordA, some ⟨[(⟨[98#8], by decide⟩, some ⟨[99#8], by decide⟩),
    (wordD, some ⟨[101#8], by decide⟩)], List.cons_ne_nil _ _⟩⟩

/-- The last sub-option of the only option. -/
theorem queriesRight_alone :
    QueriesRight ⟨[alone], List.cons_ne_nil _ _⟩ wordA.1 wordD.1
      ⟨some (itemsText semicolon colon (optionItems [alone])), none, none⟩ := by
  refine (queriesRight_iff_inOrder wordA wordD rfl).mpr ⟨nofun, .inr (.inl rfl), ?_⟩
  intro subs behind hsubs
  cases hsubs
  refine ⟨nofun, .inl ⟨?_, .inr (.inl rfl)⟩⟩
  rintro (hname | ⟨harg, -⟩)
  · exact absurd hname (by decide +kernel)
  · exact absurd harg (by decide +kernel)

/-- With another option behind it, its argument is too long. -/
theorem not_queriesRight :
    ¬∀ (s : Sources) (cfg : Config) (opt subopt : Word), s.string = some cfg.text →
      QueriesRight cfg opt.1 subopt.1 s := by
  intro hall
  let cfg : Config := ⟨[alone, ⟨⟨[102#8], by decide⟩, none⟩], List.cons_ne_nil _ _⟩
  have hright := hall ⟨some cfg.text, none, none⟩ cfg wordA wordD rfl
  exact absurd hright.2.2.2.1 (by decide +kernel)

end UBoot.Hwconfig
