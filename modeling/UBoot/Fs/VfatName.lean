/-
# Long names and their buffers

`get_vfatname` and `slot2str` of `fs/fat/fat.c` with the bounds of their buffers. There is no result
where a slot outside of a buffer is looked at, or where something is written behind `l_name`. The
link to the next cluster and its entries are given: they are what `get_fatent` and `get_cluster`
come to.
-/

import UBoot.Fs.FatDirEntries

namespace UBoot.Vfat

open UBoot.Lib UBoot.Fat

/-- `sizeof(l_name)` -/
def L_NAME_SIZE : Nat := 256

/-- The entries that `get_vfatname_block` has room for. -/
def BLOCK_ENTRIES : Nat := MAX_CLUSTSIZE / 32

/-- The loops of `slot2str`. -/
def putChars : List Byte → List Byte → Option (Bool × List Byte)
  | [], l_name => some (false, l_name)
  | c :: chars, l_name =>
      if l_name.length < L_NAME_SIZE then
        if c = 0#8 then some (true, l_name) else putChars chars (l_name ++ [c])
      else none

/-- `slot2str`: whether the end of the name is in the slot, and the name. -/
def slot2str (r : Raw) (l_name : List Byte) : Option (Bool × List Byte) := putChars r.chars l_name

/-- The loop over the slots in front of an entry, up to the end of the name or to the mark. -/
def walkBack (block : Block) : Nat → List Byte → Option (List Byte)
  | 0, _ => none
  | i + 1, l_name => do
      let (fin, l_name) ← slot2str (block i) l_name
      if fin ∨ (block i).IsLast then some l_name else walkBack block i l_name

/-- The loop over the slots of the next cluster, which does not look at the end of the name. -/
def walkNext (block : Block) : Nat → List Byte → Option (List Byte)
  | 0, l_name => some l_name
  | k + 1, l_name => do
      let (_, l_name) ← slot2str (block k) l_name
      walkNext block k l_name

/-- What is behind the loops: the end of the string, its first character and its case, and the
entry. -/
def finish (realdent : Raw) (l_name : List Byte) : Option (Option (Raw × List Byte)) :=
  if l_name.length < L_NAME_SIZE then some (some (realdent, downcase (unmark l_name))) else none

/-- `get_vfatname` for the slot `i` of a block of `n` entries: the entry and its long name, or
neither (-1). The entries of the next cluster are there if it can be read. -/
def get_vfatname (block : Block) (next : Option Block) (n i : Nat) :
    Option (Option (Raw × List Byte)) :=
  match checkSlots block n (block i).number.toNat i with
  | none => some none
  | some slotptr =>
      if n ≤ slotptr then
        match next with
        | none => some none
        | some block' =>
            if BLOCK_ENTRIES < n then none
            else do
              let slotptr2 ← firstSlot block' BLOCK_ENTRIES 0
              if slotptr2 + 1 < BLOCK_ENTRIES then
                let l_name ← walkNext block' (slotptr2 + 1) []
                let l_name ← walkBack block (slotptr - 1) l_name
                finish (block' (slotptr2 + 1)) l_name
              else none
      else do
        let l_name ← walkBack block slotptr []
        finish (block slotptr) l_name

/-! ## What is meant -/

/-- The characters of a slot. -/
def units (r : Raw) : List (BitVec 16) := List.zipWith (fun lo hi => hi ++ lo) r.chars r.high

/-- From 1 to 20 slots with a long name, and the entry behind them. Their numbers go down to 1, the
first one has the mark, all have the checksum of the entry, and the characters are the name, its end
and what fills the slot up. -/
structure LongEntry where
  count : Nat
  entries : Nat → Raw
  name : List (BitVec 16)
  pos : 0 < count
  le : count ≤ 20
  volume : ∀ k < count, (entries k).attr = ATTR_VFAT
  number : ∀ k < count, (entries k).number.toNat = count - k
  mark : ∀ k < count, (entries k).IsLast ↔ k = 0
  checksum : ∀ k < count, (entries k).alias_checksum = mkcksum (entries count)
  live : (entries count).Live
  length : name.length ≤ 255
  full : 13 * (count - 1) < name.length
  nonzero : 0#16 ∉ name
  text : ∃ fill, ((List.range count).reverse.flatMap fun k => units (entries k)) = name ++ fill ∧
    (fill = [] ∨ ∃ m, fill = 0#16 :: List.replicate m 0xffff#16)

/-- The low bytes of the name. -/
def LongEntry.low (e : LongEntry) : List Byte := e.name.map (BitVec.setWidth 8)

/-- A long entry begins at the slot `i` of a block of `n` entries, and goes on in the next one. -/
def LongEntry.At (e : LongEntry) (block : Block) (next : Option Block) (n i : Nat) : Prop :=
  ∀ k ≤ e.count,
    (i + k < n → block (i + k) = e.entries k) ∧
      (n ≤ i + k → i + k < 2 * n → ∃ block', next = some block' ∧ block' (i + k - n) = e.entries k)

/-- Whatever else is in the directory, the long entry at a place comes with its name. -/
def Extracts (e : LongEntry) (n i : Nat) : Prop :=
  ∀ block next, e.At block next n i →
    get_vfatname block next n i = some (some (e.entries e.count, downcase e.low))

/-- The end of the name, or the mark. -/
def Ends (r : Raw) : Prop := 0#8 ∈ r.chars ∨ r.IsLast

instance (r : Raw) : Decidable (Ends r) := inferInstanceAs (Decidable (_ ∨ _))

/-- The characters of a slot up to the end of the name. -/
def charsUsed (r : Raw) : List Byte := r.chars.takeWhile (· ≠ 0#8)

/-- The characters in front of an index of a block. -/
def backText (block : Block) : Nat → List Byte
  | 0 => []
  | i + 1 => charsUsed (block i) ++ if Ends (block i) then [] else backText block i

/-- The characters of the first slots of a block. -/
def nextText (block : Block) : Nat → List Byte
  | 0 => []
  | k + 1 => charsUsed (block k) ++ nextText block k

/-- The numbers go down from the slot `i`, up to the end of the block or to the entry. -/
def InOrder (block : Block) (n i : Nat) : Prop :=
  ∀ d < (block i).number.toNat, i + d < n →
    (block (i + d)).number.toNat = (block i).number.toNat - d

/-- Slots that are handled in bounds: if the numbers are in order, there is an end of the name or a
mark in front of the entry, and the characters up to it fit into `l_name`. If the block ends before
the entry (and another one follows) the buffer has room for a block and has a slot that is not
followed by another one, and both parts of the name fit together. -/
def Fits (block : Block) (next : Option Block) (n i : Nat) : Prop :=
  InOrder block n i →
    if i + (block i).number.toNat < n then
      (∃ j < i + (block i).number.toNat, Ends (block j)) ∧
        (backText block (i + (block i).number.toNat)).length < L_NAME_SIZE
    else
      ∀ block', next = some block' → n ≤ BLOCK_ENTRIES ∧
        ∃ k, k + 1 < BLOCK_ENTRIES ∧ (∀ t < k, 1 < (block' t 0).toNat) ∧
          ¬ 1 < (block' k 0).toNat ∧ (∃ j < n - 1, Ends (block j)) ∧
          (nextText block' (k + 1)).length + (backText block (n - 1)).length < L_NAME_SIZE

/-! ## Characters -/

section Chars

variable {block : Block} {l_name l_name' : List Byte} {r : Raw}

theorem putChars_of_lt {chars : List Byte}
    (h : (l_name ++ chars.takeWhile (· ≠ 0#8)).length < L_NAME_SIZE) :
    putChars chars l_name = some (decide (0#8 ∈ chars), l_name ++ chars.takeWhile (· ≠ 0#8)) := by
  induction chars generalizing l_name with
  | nil => simp [putChars]
  | cons c chars ih =>
      have hroom : l_name.length < L_NAME_SIZE := by
        rw [List.length_append] at h
        omega
      rw [putChars, if_pos hroom]
      by_cases hc : c = 0#8
      · rw [if_pos hc]
        simp [hc]
      · have hsplit : l_name ++ (c :: chars).takeWhile (· ≠ 0#8) =
            l_name ++ [c] ++ chars.takeWhile (· ≠ 0#8) := by
          rw [List.takeWhile_cons_of_pos (by simpa using hc), List.append_assoc]
          rfl
        have hmem : 0#8 ∈ c :: chars ↔ 0#8 ∈ chars := by
          rw [List.mem_cons, or_iff_right (Ne.symm hc)]
        rw [if_neg hc, hsplit, decide_eq_decide.mpr hmem]
        exact ih (hsplit ▸ h)

theorem putChars_eq_some {chars : List Byte} {fin : Bool}
    (h : putChars chars l_name = some (fin, l_name')) :
    fin = decide (0#8 ∈ chars) ∧ l_name' = l_name ++ chars.takeWhile (· ≠ 0#8) := by
  induction chars generalizing l_name with
  | nil =>
      cases h
      simp
  | cons c chars ih =>
      rw [putChars] at h
      split at h
      · by_cases hc : c = 0#8
        · rw [if_pos hc] at h
          cases h
          simp [hc]
        · rw [if_neg hc] at h
          obtain ⟨hfin, hl⟩ := ih h
          have hmem : 0#8 ∈ c :: chars ↔ 0#8 ∈ chars := by
            rw [List.mem_cons, or_iff_right (Ne.symm hc)]
          rw [hfin, hl, List.takeWhile_cons_of_pos (by simpa using hc), List.append_assoc,
            decide_eq_decide.mpr hmem]
          exact ⟨rfl, rfl⟩
      · cases h

theorem slot2str_of_lt (h : (l_name ++ charsUsed r).length < L_NAME_SIZE) :
    slot2str r l_name = some (decide (0#8 ∈ r.chars), l_name ++ charsUsed r) := putChars_of_lt h

theorem length_charsUsed_le (r : Raw) : (charsUsed r).length ≤ 13 :=
  (List.takeWhile_sublist _).length_le

/-- One turn of the walk back. -/
theorem walkBack_succ {p : Nat} {l : List Byte}
    (h : slot2str (block p) l_name = some (decide (0#8 ∈ (block p).chars), l)) :
    walkBack block (p + 1) l_name = if Ends (block p) then some l else walkBack block p l := by
  rw [walkBack, h]
  exact if_congr (by simp [Ends]) rfl rfl

/-- The walk back comes to an end in the block if there is one, and adds the characters. -/
theorem walkBack_iff {p : Nat} :
    walkBack block p l_name = some l_name' ∧ l_name'.length < L_NAME_SIZE ↔
      (∃ j < p, Ends (block j)) ∧ l_name' = l_name ++ backText block p ∧
        l_name'.length < L_NAME_SIZE := by
  induction p generalizing l_name with
  | zero => simp [walkBack]
  | succ p ih =>
      have hends : (∃ j < p + 1, Ends (block j)) ↔ Ends (block p) ∨ ∃ j < p, Ends (block j) := by
        simp only [Nat.lt_succ_iff_lt_or_eq, or_and_right, exists_or, exists_eq_left, or_comm]
      rw [backText, hends]
      constructor
      · rintro ⟨h, hlt⟩
        obtain ⟨⟨fin, l⟩, hslot, -⟩ := Option.bind_eq_some_iff.mp h
        obtain ⟨rfl, rfl⟩ := putChars_eq_some hslot
        rw [walkBack_succ hslot] at h
        by_cases hend : Ends (block p)
        · rw [if_pos hend, Option.some.injEq] at h
          rw [if_pos hend, List.append_nil]
          exact ⟨.inl hend, h.symm, hlt⟩
        · rw [if_neg hend] at h
          obtain ⟨hany, heq, -⟩ := ih.mp ⟨h, hlt⟩
          rw [if_neg hend, ← List.append_assoc]
          exact ⟨.inr hany, heq, hlt⟩
      · rintro ⟨hany, heq, hlt⟩
        have hslot : (l_name ++ charsUsed (block p)).length < L_NAME_SIZE := by
          rw [heq, ← List.append_assoc, List.length_append] at hlt
          omega
        refine ⟨?_, hlt⟩
        rw [walkBack_succ (slot2str_of_lt hslot)]
        by_cases hend : Ends (block p)
        · rw [if_pos hend, List.append_nil] at heq
          rw [if_pos hend, heq]
        · rw [if_neg hend, ← List.append_assoc] at heq
          rw [if_neg hend]
          exact (ih.mpr ⟨hany.resolve_left hend, heq, hlt⟩).1

theorem walkNext_iff {k : Nat} :
    walkNext block k l_name = some l_name' ∧ l_name'.length < L_NAME_SIZE ↔
      l_name' = l_name ++ nextText block k ∧ l_name'.length < L_NAME_SIZE := by
  induction k generalizing l_name with
  | zero => simp [walkNext, nextText, eq_comm]
  | succ k ih =>
      rw [walkNext, nextText, ← List.append_assoc]
      constructor
      · rintro ⟨h, hlt⟩
        obtain ⟨⟨fin, l⟩, hslot, h⟩ := Option.bind_eq_some_iff.mp h
        obtain ⟨-, rfl⟩ := putChars_eq_some hslot
        exact ih.mp ⟨h, hlt⟩
      · rintro ⟨heq, hlt⟩
        have hslot : (l_name ++ charsUsed (block k)).length < L_NAME_SIZE := by
          rw [heq, List.length_append] at hlt
          omega
        rw [slot2str_of_lt hslot]
        exact ih.mpr ⟨heq, hlt⟩

end Chars

/-! ## Slots -/

section Slots

variable {block : Block} {n : Nat}

/-- The loop over the numbers ends at the entry or at the end of the block. -/
theorem checkSlots_of_inOrder {counter i : Nat} (hi : i ≤ n)
    (h : ∀ d < counter, i + d < n → (block (i + d)).number.toNat = counter - d) :
    checkSlots block n counter i = some (min (i + counter) n) := by
  induction counter generalizing i with
  | zero => rw [checkSlots, Nat.add_zero, Nat.min_eq_left hi]
  | succ counter ih =>
      rw [checkSlots]
      by_cases hlt : i < n
      · have hnumber : (block i).number.toNat = counter + 1 := h 0 (Nat.succ_pos counter) hlt
        rw [if_pos hlt, if_pos hnumber, ih hlt, Nat.succ_add_eq_add_succ]
        intro d hd hin
        rw [Nat.succ_add_eq_add_succ] at hin ⊢
        rw [h (d + 1) (Nat.succ_lt_succ hd) hin, Nat.succ_sub_succ]
      · obtain rfl : i = n := by omega
        rw [if_neg hlt, Nat.min_eq_right (Nat.le_add_right i _)]

theorem inOrder_of_checkSlots {counter i p : Nat} (h : checkSlots block n counter i = some p) :
    ∀ d < counter, i + d < n → (block (i + d)).number.toNat = counter - d := by
  induction counter generalizing i with
  | zero => exact fun d hd => absurd hd (Nat.not_lt_zero d)
  | succ counter ih =>
      intro d hd hin
      rw [checkSlots, if_pos (by omega)] at h
      split at h
      · next hnumber =>
          cases d with
          | zero => exact hnumber
          | succ d =>
              rw [← Nat.succ_add_eq_add_succ] at hin ⊢
              rw [ih h d (by omega) hin, Nat.succ_sub_succ]
      · cases h

/-- The first slot that is not followed by another one. -/
theorem firstSlot_iff {fuel i k : Nat} :
    firstSlot block fuel i = some k ↔
      i ≤ k ∧ k < i + fuel ∧ (∀ t, i ≤ t → t < k → 1 < (block t 0).toNat) ∧
        ¬ 1 < (block k 0).toNat := by
  induction fuel generalizing i with
  | zero =>
      refine iff_of_false (by rw [firstSlot]; nofun) ?_
      rintro ⟨hle, hlt, -⟩
      omega
  | succ fuel ih =>
      rw [firstSlot]
      by_cases hnext : 1 < (block i 0).toNat
      · rw [if_pos hnext, ih]
        constructor
        · rintro ⟨hle, hlt, hall, hk⟩
          refine ⟨by omega, by omega, fun t hit htk => ?_, hk⟩
          rcases Nat.eq_or_lt_of_le hit with rfl | hlt'
          · exact hnext
          · exact hall t hlt' htk
        · rintro ⟨hle, hlt, hall, hk⟩
          rcases Nat.eq_or_lt_of_le hle with rfl | hlt'
          · exact absurd hnext hk
          · exact ⟨hlt', by omega, fun t hit htk => hall t (by omega) htk, hk⟩
      · rw [if_neg hnext, Option.some.injEq]
        constructor
        · rintro rfl
          exact ⟨le_rfl, by omega, fun t hit htk => absurd hit (by omega), hnext⟩
        · rintro ⟨hle, -, hall, -⟩
          by_contra hne
          exact hnext (hall i le_rfl (by omega))

end Slots

/-! ## Bounds -/

section Bounds

variable {block : Block} {next : Option Block} {n i : Nat}

theorem finish_eq_some {realdent : Raw} {l_name : List Byte} {r : Option (Raw × List Byte)} :
    finish realdent l_name = some r ↔
      l_name.length < L_NAME_SIZE ∧ r = some (realdent, downcase (unmark l_name)) := by
  rw [finish]
  split
  · next hlt => rw [Option.some.injEq, and_iff_right hlt, eq_comm]
  · next hlt => exact iff_of_false nofun fun h => hlt h.1

theorem get_vfatname_of_not_inOrder (h : ¬ InOrder block n i) :
    get_vfatname block next n i = some none := by
  rw [get_vfatname]
  cases hcheck : checkSlots block n (block i).number.toNat i with
  | none => rfl
  | some p => exact absurd (inOrder_of_checkSlots hcheck) h

/-- A name within the block. -/
theorem get_vfatname_within (h : InOrder block n i) (hlt : i + (block i).number.toNat < n)
    {r : Option (Raw × List Byte)} :
    get_vfatname block next n i = some r ↔
      (∃ j < i + (block i).number.toNat, Ends (block j)) ∧
        (backText block (i + (block i).number.toNat)).length < L_NAME_SIZE ∧
        r = some (block (i + (block i).number.toNat),
          downcase (unmark (backText block (i + (block i).number.toNat)))) := by
  rw [get_vfatname, checkSlots_of_inOrder (by omega) h, Nat.min_eq_left hlt.le]
  simp only [if_neg (Nat.not_le.mpr hlt)]
  generalize i + (block i).number.toNat = p
  constructor
  · intro hsome
    obtain ⟨l_name, hwalk, hfin⟩ := Option.bind_eq_some_iff.mp hsome
    obtain ⟨hlen, rfl⟩ := finish_eq_some.mp hfin
    obtain ⟨hany, heq, -⟩ := walkBack_iff.mp ⟨hwalk, hlen⟩
    rw [List.nil_append] at heq
    subst heq
    exact ⟨hany, hlen, rfl⟩
  · rintro ⟨hany, hlen, rfl⟩
    refine Option.bind_eq_some_iff.mpr ⟨backText block p, ?_, finish_eq_some.mpr ⟨hlen, rfl⟩⟩
    exact (walkBack_iff.mpr ⟨hany, (List.nil_append _).symm, hlen⟩).1

/-- A name that goes on in the next block, or seems to. -/
theorem get_vfatname_across (h : InOrder block n i) (hi : i < n)
    (hge : n ≤ i + (block i).number.toNat) {block' : Block} {r : Option (Raw × List Byte)} :
    get_vfatname block (some block') n i = some r ↔
      n ≤ BLOCK_ENTRIES ∧ ∃ k, k + 1 < BLOCK_ENTRIES ∧ (∀ t < k, 1 < (block' t 0).toNat) ∧
        ¬ 1 < (block' k 0).toNat ∧ (∃ j < n - 1, Ends (block j)) ∧
        (nextText block' (k + 1)).length + (backText block (n - 1)).length < L_NAME_SIZE ∧
        r = some (block' (k + 1),
          downcase (unmark (nextText block' (k + 1) ++ backText block (n - 1)))) := by
  rw [get_vfatname, checkSlots_of_inOrder hi.le h, Nat.min_eq_right hge]
  simp only [if_pos le_rfl]
  by_cases hroom : BLOCK_ENTRIES < n
  · rw [if_pos hroom]
    exact iff_of_false nofun fun h => Nat.not_le.mpr hroom h.1
  · rw [if_neg hroom, and_iff_right (Nat.not_lt.mp hroom)]
    constructor
    · intro hsome
      obtain ⟨k, hfirst, hsome⟩ := Option.bind_eq_some_iff.mp hsome
      obtain ⟨-, -, hall, hk⟩ := firstSlot_iff.mp hfirst
      split at hsome
      · next hin =>
          obtain ⟨l, hnext, hsome⟩ := Option.bind_eq_some_iff.mp hsome
          obtain ⟨l', hwalk, hfin⟩ := Option.bind_eq_some_iff.mp hsome
          obtain ⟨hlen, rfl⟩ := finish_eq_some.mp hfin
          obtain ⟨hany, rfl, -⟩ := walkBack_iff.mp ⟨hwalk, hlen⟩
          rw [List.length_append] at hlen
          obtain ⟨heq, -⟩ := walkNext_iff.mp ⟨hnext, by omega⟩
          rw [List.nil_append] at heq
          subst heq
          exact ⟨k, hin, fun t ht => hall t (Nat.zero_le t) ht, hk, hany, hlen, rfl⟩
      · cases hsome
    · rintro ⟨k, hin, hall, hk, hany, hlen, rfl⟩
      refine Option.bind_eq_some_iff.mpr ⟨k, ?_, ?_⟩
      · exact firstSlot_iff.mpr ⟨Nat.zero_le k, by omega, fun t _ ht => hall t ht, hk⟩
      · rw [← List.length_append] at hlen
        rw [if_pos hin]
        refine Option.bind_eq_some_iff.mpr ⟨nextText block' (k + 1), ?_, ?_⟩
        · rw [List.length_append] at hlen
          exact (walkNext_iff.mpr ⟨(List.nil_append _).symm, by omega⟩).1
        · exact Option.bind_eq_some_iff.mpr ⟨_, (walkBack_iff.mpr ⟨hany, rfl, hlen⟩).1,
            finish_eq_some.mpr ⟨hlen, rfl⟩⟩

/-- The buffers are not left exactly for the slots that fit. -/
theorem get_vfatname_inBounds_iff (hi : i < n) :
    (∃ r, get_vfatname block next n i = some r) ↔ Fits block next n i := by
  rw [Fits]
  by_cases horder : InOrder block n i
  · rw [forall_prop_of_true horder]
    split
    · next hlt =>
        simp only [get_vfatname_within horder hlt]
        exact ⟨fun ⟨r, hany, hlen, _⟩ => ⟨hany, hlen⟩, fun ⟨hany, hlen⟩ => ⟨_, hany, hlen, rfl⟩⟩
    · next hge =>
        cases next with
        | none =>
            refine iff_of_true ⟨none, ?_⟩ nofun
            rw [get_vfatname, checkSlots_of_inOrder hi.le horder,
              Nat.min_eq_right (Nat.not_lt.mp hge)]
            exact if_pos le_rfl
        | some block' =>
            simp only [get_vfatname_across horder hi (Nat.not_lt.mp hge), Option.some.injEq,
              forall_eq']
            constructor
            · rintro ⟨r, hroom, k, hin, hall, hk, hany, hlen, -⟩
              exact ⟨hroom, k, hin, hall, hk, hany, hlen⟩
            · rintro ⟨hroom, k, hin, hall, hk, hany, hlen⟩
              exact ⟨_, hroom, k, hin, hall, hk, hany, hlen, rfl⟩
  · exact iff_of_true ⟨none, get_vfatname_of_not_inOrder horder⟩ fun h => absurd h horder

end Bounds

/-! ## Long names -/

theorem map_units (r : Raw) : (units r).map (BitVec.setWidth 8) = r.chars := by
  have hlow (hi lo : Byte) : (hi ++ lo : BitVec 16).setWidth 8 = lo :=
    BitVec.setWidth_append_eq_right
  simp only [units, Raw.chars, Raw.high, List.zipWith_cons_cons, List.zipWith_nil_left,
    List.map_cons, List.map_nil, hlow]

theorem length_slotText (E : Block) (d : Nat) : (slotText E 0 d).length = 13 * d := by
  induction d with
  | zero => rfl
  | succ d ih =>
      rw [slotText_succ, List.length_append, ih]
      simp only [Raw.chars, List.length_cons, List.length_nil]
      omega

theorem length_nextText_le (block : Block) (k : Nat) : (nextText block k).length ≤ 13 * k := by
  induction k with
  | zero => exact le_rfl
  | succ k ih =>
      have hslot := length_charsUsed_le (block k)
      rw [nextText, List.length_append]
      omega

/-- A slot without the mark has its number for its `id`. -/
theorem id_of_not_isLast {r : Raw} (h : ¬ r.IsLast) : r 0 = r.number := by
  have hzero : r 0 &&& LAST_LONG_ENTRY_MASK = 0#8 := not_not.mp h
  calc
    r 0 = r 0 &&& (~~~LAST_LONG_ENTRY_MASK ||| LAST_LONG_ENTRY_MASK) := by
      rw [show ~~~LAST_LONG_ENTRY_MASK ||| LAST_LONG_ENTRY_MASK = BitVec.allOnes 8 by decide,
        BitVec.and_allOnes]
    _ = r.number ||| (r 0 &&& LAST_LONG_ENTRY_MASK) := BitVec.and_or_distrib_left ..
    _ = r.number := by rw [hzero, BitVec.or_zero]

/-- A name whose low bytes are not zero, and do not begin with the marks of short names. -/
def Plain (low : List Byte) : Prop :=
  0#8 ∉ low ∧ low.head? ≠ some DELETED_FLAG ∧ low.head? ≠ some aRING

theorem length_downcase (s : List Byte) : (downcase s).length = s.length := List.length_map _

theorem length_unmark_le (s : List Byte) : (unmark s).length ≤ s.length := by
  unfold unmark
  split
  · exact le_rfl
  · split
    · exact Nat.zero_le _
    · split <;> exact le_rfl

/-- The first character comes out as it was exactly if it is no mark. -/
theorem downcase_unmark_iff {s : List Byte} (hne : s ≠ []) :
    downcase (unmark s) = downcase s ↔ s.head? ≠ some DELETED_FLAG ∧ s.head? ≠ some aRING := by
  obtain ⟨c, rest, rfl⟩ := List.exists_cons_of_ne_nil hne
  rw [List.head?_cons, unmark]
  by_cases hdel : c = DELETED_FLAG
  · rw [if_pos hdel]
    exact iff_of_false (by simp [downcase]) fun h => h.1 (congrArg some hdel)
  · rw [if_neg hdel]
    by_cases hring : c = aRING
    · rw [if_pos hring]
      refine iff_of_false (fun h => ?_) fun h => h.2 (congrArg some hring)
      have hhead := (List.cons.inj h).1
      rw [hring] at hhead
      exact absurd hhead (by decide)
    · rw [if_neg hring]
      exact iff_of_true rfl ⟨fun h => hdel (Option.some.inj h), fun h => hring (Option.some.inj h)⟩

namespace LongEntry

variable (e : LongEntry)

theorem length_low : e.low.length = e.name.length := List.length_map _

theorem low_ne_nil : e.low ≠ [] := by
  rw [← List.length_pos_iff_ne_nil, length_low]
  exact Nat.zero_lt_of_lt e.full

/-- What the slots spell. -/
theorem slotText_eq : ∃ fill, slotText e.entries 0 e.count = e.low ++ fill ∧
    (fill = [] ∨ ∃ rest, fill = 0#8 :: rest) := by
  obtain ⟨fill, htext, hfill⟩ := e.text
  refine ⟨fill.map (BitVec.setWidth 8), ?_, ?_⟩
  · rw [low, ← List.map_append, ← htext, List.map_flatMap]
    simp only [map_units, slotText, Nat.zero_add]
  · rcases hfill with rfl | ⟨m, rfl⟩
    · exact .inl rfl
    · exact .inr ⟨_, rfl⟩

/-- The string that is taken from the slots. -/
theorem takeWhile_slotText :
    (slotText e.entries 0 e.count).takeWhile (· ≠ 0#8) = e.low.takeWhile (· ≠ 0#8) := by
  obtain ⟨fill, htext, hfill⟩ := e.slotText_eq
  rw [htext]
  by_cases hzero : 0#8 ∈ e.low
  · exact takeWhile_append_of_mem hzero
  · have hall := takeWhile_append_of_notMem (b := []) hzero
    rw [List.append_nil] at hall
    rw [takeWhile_append_of_notMem hzero, hall]
    rcases hfill with rfl | ⟨rest, rfl⟩
    · rfl
    · rw [List.takeWhile_cons_of_neg (by simp)]
      rfl

/-- It is the name exactly if that is plain. -/
theorem name_iff :
    downcase (unmark (e.low.takeWhile (· ≠ 0#8))) = downcase e.low ↔ Plain e.low := by
  by_cases hzero : 0#8 ∈ e.low
  · refine iff_of_false (fun heq => ?_) fun h => h.1 hzero
    have hlt : (e.low.takeWhile (· ≠ 0#8)).length < e.low.length := by
      refine Nat.lt_of_le_of_ne (List.takeWhile_sublist _).length_le fun hlen => ?_
      have hall := (List.takeWhile_sublist _).eq_of_length hlen
      rw [List.takeWhile_eq_self_iff] at hall
      exact absurd (hall _ hzero) (by decide)
    have hlen := congrArg List.length heq
    rw [length_downcase, length_downcase] at hlen
    exact absurd (hlen ▸ length_unmark_le _) (Nat.not_le.mpr hlt)
  · have hall : e.low.takeWhile (· ≠ 0#8) = e.low := by
      simpa using takeWhile_append_of_notMem (b := []) hzero
    rw [hall, downcase_unmark_iff e.low_ne_nil, Plain, and_iff_right hzero]

variable {e} {block : Block} {i : Nat}

/-- The characters in front of the entry, or in front of one of its slots. -/
theorem backText_eq {m : Nat} (hpos : 0 < m) (hle : m ≤ e.count)
    (shown : ∀ k < m, block (i + k) = e.entries k) :
    backText block (i + m) = (slotText e.entries 0 m).takeWhile (· ≠ 0#8) := by
  induction m with
  | zero => exact absurd hpos (lt_irrefl 0)
  | succ m ih =>
      rw [← Nat.add_assoc, backText, shown m (Nat.lt_succ_self m), slotText_succ, Nat.zero_add]
      rcases Nat.eq_zero_or_pos m with rfl | hm
      · have hends : Ends (e.entries 0) := .inr ((e.mark 0 e.pos).mpr rfl)
        rw [if_pos hends]
        simp [slotText, charsUsed]
      · have hmark : ¬ (e.entries m).IsLast :=
          fun h => absurd ((e.mark m hle).mp h) (Nat.ne_of_gt hm)
        by_cases hzero : 0#8 ∈ (e.entries m).chars
        · rw [if_pos (.inl hzero), takeWhile_append_of_mem hzero, List.append_nil, charsUsed]
        · have hall : charsUsed (e.entries m) = (e.entries m).chars := by
            simpa [charsUsed] using takeWhile_append_of_notMem (b := []) hzero
          have hends : ¬ Ends (e.entries m) := not_or.mpr ⟨hzero, hmark⟩
          rw [if_neg hends, takeWhile_append_of_notMem hzero, hall,
            ih hm (Nat.le_of_succ_le hle) fun k hk => shown k (Nat.lt_succ_of_lt hk)]

end LongEntry

/-! ## Extraction -/

section Extraction

variable {e : LongEntry} {block : Block} {next : Option Block} {n i : Nat}

theorem At.number (hat : e.At block next n i) (hi : i < n) :
    (block i).number.toNat = e.count := by
  rw [← Nat.add_zero i, (hat 0 (Nat.zero_le _)).1 hi, e.number 0 e.pos, Nat.sub_zero]

theorem At.inOrder (hat : e.At block next n i) (hi : i < n) : InOrder block n i := by
  intro d hd hin
  rw [At.number hat hi] at hd ⊢
  rw [(hat d hd.le).1 hin, e.number d hd]

theorem At.backText (hat : e.At block next n i) {m : Nat} (hpos : 0 < m) (hle : m ≤ e.count)
    (hin : i + m ≤ n) : backText block (i + m) = (slotText e.entries 0 m).takeWhile (· ≠ 0#8) :=
  e.backText_eq hpos hle fun k hk => (hat k (by omega)).1 (by omega)

/-- Within a block a long entry comes with its name exactly if that is plain. -/
theorem extracted_iff (hat : e.At block next n i) (hi : i < n) (hlt : i + e.count < n) :
    get_vfatname block next n i = some (some (e.entries e.count, downcase e.low)) ↔ Plain e.low := by
  have hnumber := At.number hat hi
  have htext := At.backText hat e.pos le_rfl hlt.le
  rw [e.takeWhile_slotText] at htext
  rw [get_vfatname_within (At.inOrder hat hi) (by rwa [hnumber]), hnumber, htext,
    (hat e.count le_rfl).1 hlt, ← e.name_iff]
  have hends : ∃ j < i + e.count, Ends (block j) := by
    have hsame := (hat 0 (Nat.zero_le _)).1 hi
    exact ⟨i, Nat.lt_add_of_pos_right e.pos, .inr (hsame ▸ (e.mark 0 e.pos).mpr rfl)⟩
  have hlen : (e.low.takeWhile (· ≠ 0#8)).length < L_NAME_SIZE := by
    refine Nat.lt_of_le_of_lt (List.takeWhile_sublist _).length_le ?_
    rw [e.length_low]
    exact Nat.lt_of_le_of_lt e.length (by decide)
  rw [and_iff_right hends, and_iff_right hlen, Option.some.injEq, Prod.mk.injEq]
  exact (and_iff_right rfl).trans eq_comm

/-- An entry that is taken for a slot. -/
def filler : Raw := fun _ => 2#8

theorem filler_not_ends : ¬ Ends filler := by decide

/-- A directory with the long entry at a place, and fillers around it. -/
def around (e : LongEntry) (i : Nat) : Block := fun j => if i ≤ j then e.entries (j - i) else filler

/-- The cluster behind it. -/
def behind (e : LongEntry) (n i : Nat) : Block :=
  fun t => if t + n ≤ i + e.count ∧ t < n then e.entries (t + n - i) else filler

theorem at_around (e : LongEntry) {n i : Nat} (hi : i < n) :
    e.At (around e i) (some (behind e n i)) n i := by
  intro k hk
  refine ⟨fun _ => ?_, fun hge hlt => ⟨_, rfl, ?_⟩⟩
  · rw [around, if_pos (Nat.le_add_right i k), Nat.add_sub_cancel_left]
  · rw [behind, if_pos ⟨by omega, by omega⟩]
    congr 1
    omega

theorem behind_id {t : Nat} (hi : i < n) (ht : t + n < i + e.count) (hlt : t < n) :
    (behind e n i t 0).toNat = i + e.count - (t + n) := by
  have hmark : ¬ (e.entries (t + n - i)).IsLast :=
    fun h => absurd ((e.mark _ (by omega)).mp h) (by omega)
  rw [behind, if_pos ⟨ht.le, hlt⟩, id_of_not_isLast hmark, e.number _ (by omega)]
  omega

/-- Over the end of a block, a long entry does not come with its name in every directory. -/
theorem not_extracts_across (hi : i < n) (hge : n ≤ i + e.count) : ¬ Extracts e n i := by
  intro extracts
  have hat := at_around e hi
  have hnumber := At.number hat hi
  obtain ⟨-, k, -, hall, hk, ⟨j, hj, hends⟩, -, hr⟩ :=
    (get_vfatname_across (At.inOrder hat hi) hi (hnumber.symm ▸ hge)).mp (extracts _ _ hat)
  obtain ⟨hreal, hname⟩ := Prod.mk.inj (Option.some.inj hr)
  have hkin : k + n ≤ i + e.count ∧ k < n := by
    by_contra hout
    rw [behind, if_neg hout] at hk
    exact hk (by decide)
  -- a slot that is alone in the first cluster is left out, and nothing in front of it ends
  rcases Nat.eq_or_lt_of_le (Nat.succ_le_of_lt hi) with hone | htwo
  · rw [around, if_neg (by omega)] at hends
    exact filler_not_ends hends
  rcases Nat.eq_or_lt_of_le hge with hall' | hmore
  · -- all slots are in the first cluster: the entry itself is taken for a slot
    obtain rfl : k = 0 := by omega
    rw [behind, if_neg (by omega)] at hreal
    rw [behind, if_pos ⟨by omega, by omega⟩, show 0 + n - i = e.count by omega, hreal] at hk
    exact hk (by decide)
  · -- otherwise the last slot of the first cluster is left out
    have hlast : k + 1 + n = i + e.count := by
      rcases Nat.eq_or_lt_of_le hkin.1 with heq | hlt
      · have hid := hall (k - 1) (by omega)
        rw [behind_id hi (by omega) (by omega)] at hid
        omega
      · rw [behind_id hi hlt hkin.2] at hk
        omega
    have hnext := length_nextText_le (behind e n i) (k + 1)
    have hback : (backText (around e i) (n - 1)).length ≤ 13 * (n - 1 - i) := by
      have htext := At.backText hat (m := n - 1 - i) (by omega) (by omega) (by omega)
      rw [show i + (n - 1 - i) = n - 1 by omega] at htext
      rw [htext, ← length_slotText e.entries]
      exact (List.takeWhile_sublist _).length_le
    have hlen := congrArg List.length hname
    rw [length_downcase, length_downcase, e.length_low] at hlen
    have hle := length_unmark_le
      (nextText (behind e n i) (k + 1) ++ backText (around e i) (n - 1))
    rw [List.length_append] at hle
    have hfull := e.full
    omega

/-- A long entry comes with its name, whatever else is in the directory, exactly if it is within
the block and its name is plain. -/
theorem extracts_iff (e : LongEntry) (hi : i < n) :
    Extracts e n i ↔ i + e.count < n ∧ Plain e.low := by
  constructor
  · intro extracts
    by_cases hlt : i + e.count < n
    · have hat := at_around e hi
      exact ⟨hlt, (extracted_iff hat hi hlt).mp (extracts _ _ hat)⟩
    · exact absurd extracts (not_extracts_across hi (Nat.not_lt.mp hlt))
  · rintro ⟨hlt, plain⟩ block next hat
    exact (extracted_iff hat hi hlt).mpr plain

/-- The buffers are not left exactly for the slots that fit, and a long entry comes with its name
exactly if it is within the block and its name is plain. -/
theorem get_vfatname_iff (block : Block) (next : Option Block) (e : LongEntry) (n : Nat)
    (i : Fin n) :
    ((∃ r, get_vfatname block next n i = some r) ↔ Fits block next n i) ∧
      (Extracts e n i ↔ i + e.count < n ∧ Plain e.low) :=
  ⟨get_vfatname_inBounds_iff i.isLt, extracts_iff e i.isLt⟩

/-- A cluster of slots with the mark and the number 0. The slot in front of the first one is looked
at. -/
theorem not_get_vfatname :
    ¬ ((∀ block next n (i : Fin n), ∃ r, get_vfatname block next n i = some r) ∧
      ∀ e n (i : Fin n), Extracts e n i) := by
  intro h
  let slot : Raw := fun k => if k = 11 then ATTR_VFAT else 0x40#8
  obtain ⟨r, hr⟩ := h.1 (fun _ => slot) none 16 0
  have hnone : (get_vfatname (fun _ => slot) none 16 0).isNone = true := by decide
  rw [show get_vfatname (fun _ => slot) none 16 0 = some r from hr] at hnone
  exact Bool.false_ne_true hnone

end Extraction

/-! ## In the search -/

section Search

variable {disk : Disk} {block : Block} {l_name l_name' : List Byte}

theorem slot2str_eq {r : Raw} {fin : Bool} (h : slot2str r l_name = some (fin, l_name')) :
    Fat.slot2str r l_name = (fin, l_name') := by
  obtain ⟨rfl, rfl⟩ := putChars_eq_some h
  rfl

theorem collectSlots_of_walkBack {p : Nat} (h : walkBack block p l_name = some l_name') :
    collectSlots block p l_name = some l_name' := by
  induction p generalizing l_name with
  | zero => cases h
  | succ p ih =>
      obtain ⟨⟨fin, l⟩, hslot, h⟩ := Option.bind_eq_some_iff.mp h
      rw [collectSlots, slot2str_eq hslot]
      dsimp only at h ⊢
      split at h
      · next hend => rw [if_pos hend, h]
      · next hend => rw [if_neg hend, ih h]

theorem allSlots_of_walkNext {k : Nat} (h : walkNext block (k + 1) l_name = some l_name') :
    allSlots block k l_name = l_name' := by
  induction k generalizing l_name with
  | zero =>
      obtain ⟨⟨fin, l⟩, hslot, h⟩ := Option.bind_eq_some_iff.mp h
      rw [allSlots, slot2str_eq hslot]
      exact Option.some.inj h
  | succ k ih =>
      obtain ⟨⟨fin, l⟩, hslot, h⟩ := Option.bind_eq_some_iff.mp h
      rw [allSlots, slot2str_eq hslot]
      exact ih h

/-- What `get_fatent` and `get_cluster` come to. -/
def nextBlock (disk : Disk) (s : DirState) (curclust : U32) : Option Block :=
  let (next, mydata) := get_fatent disk s.mydata curclust
  if CHECK_CLUST next mydata.fatsize then none
  else some (readEntries disk (startsect mydata next) (DIRENTSPERCLUST mydata) s.get_vfatname_block)

/-- In bounds, this is what the searches get. -/
theorem get_vfatname_search {curclust : U32} {n i : Nat} {s : DirState}
    {r : Option (Raw × List Byte)}
    (h : get_vfatname s.block (nextBlock disk s curclust) n i = some r) :
    ∃ s', Fat.get_vfatname disk curclust n i s = some (r, s') := by
  rw [get_vfatname] at h
  rw [Fat.get_vfatname]
  cases hcheck : checkSlots s.block n (s.block i).number.toNat i with
  | none =>
      rw [hcheck] at h
      exact ⟨s, congrArg (fun r => some (r, s)) (Option.some.inj h)⟩
  | some p =>
      simp only [hcheck] at h ⊢
      by_cases hge : n ≤ p
      · rw [if_pos hge] at h ⊢
        unfold nextBlock at h
        generalize get_fatent disk s.mydata curclust = g at h ⊢
        obtain ⟨next, mydata⟩ := g
        dsimp only at h ⊢
        by_cases hclust : CHECK_CLUST next mydata.fatsize = true
        · rw [if_pos hclust] at h ⊢
          exact ⟨_, congrArg (fun r => some (r, _)) (Option.some.inj h)⟩
        · rw [if_neg hclust] at h ⊢
          dsimp only at h ⊢
          split at h
          · cases h
          · obtain ⟨k, hfirst, h⟩ := Option.bind_eq_some_iff.mp h
            split at h
            · obtain ⟨l, hnext, h⟩ := Option.bind_eq_some_iff.mp h
              obtain ⟨l', hwalk, h⟩ := Option.bind_eq_some_iff.mp h
              obtain ⟨-, rfl⟩ := finish_eq_some.mp h
              rw [BLOCK_ENTRIES] at hfirst
              simp only [hfirst, allSlots_of_walkNext hnext, collectSlots_of_walkBack hwalk]
              exact ⟨_, rfl⟩
            · cases h
      · rw [if_neg hge] at h ⊢
        obtain ⟨l, hwalk, h⟩ := Option.bind_eq_some_iff.mp h
        obtain ⟨-, rfl⟩ := finish_eq_some.mp h
        simp only [collectSlots_of_walkBack hwalk]
        exact ⟨_, rfl⟩

end Search

end UBoot.Vfat
