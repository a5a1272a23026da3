/-
# Entries of a FAT directory

What the entries of a directory stand for, and what the searches of `fs/fat/fat.c` take them for:
the loop over a block passes over an entry, finds it, or ends there. Both agree where the entries
meet the demands that the code makes of them.
-/

import UBoot.Fs.FatDir

namespace UBoot.Fat

open UBoot.Lib

variable {disk : Disk}

/-! ## The content of a directory -/

/-- A name without the blanks that fill it up. -/
def trim (s : List Byte) : List Byte := s.rdropWhile (· = 0x20#8)

/-- The short name of an entry, in lower case. The first character 0x05 stands for 0xe5. -/
def shortName (r : Raw) : List Byte :=
  let s := if trim r.ext = [] then trim r.name else trim r.name ++ 0x2e#8 :: trim r.ext
  downcase (match s with
    | [] => []
    | c :: rest => if c = aRING then DELETED_FLAG :: rest else s)

/-- The high bytes of the characters of a slot. -/
def Raw.high (r : Raw) : List Byte :=
  [r 2, r 4, r 6, r 8, r 10, r 15, r 17, r 19, r 21, r 23, r 25, r 29, r 31]

/-- A long name in slots: their numbers go down to 1, the first has the mark, all have the checksum
of the entry behind them, and the characters are the name, its end and what fills the slot up. -/
structure LongName (E : Block) (i n : Nat) (name : List Byte) : Prop where
  pos : 0 < n
  length : name.length ≤ 255
  volume : ∀ k < n, (E (i + k)).attr = ATTR_VFAT
  number : ∀ k < n, (E (i + k)).number.toNat = n - k
  mark : ∀ k < n, (E (i + k)).IsLast ↔ k = 0
  checksum : ∀ k < n, (E (i + k)).alias_checksum = mkcksum (E (i + n))
  latin : ∀ k < n, ∀ c ∈ (E (i + k)).chars.zip (E (i + k)).high, c.2 = 0#8 ∨ c = (0xff#8, 0xff#8)
  full : 13 * (n - 1) < name.length
  nonzero : 0#8 ∉ name
  text : ∃ fill, ((List.range n).reverse.flatMap fun k => (E (i + k)).chars) = name ++ fill ∧
    (fill = [] ∨ ∃ rest, fill = 0#8 :: rest)

theorem LongName.le {E : Block} {i n : Nat} {name : List Byte} (slots : LongName E i n name) :
    n < 64 := by
  have hfull := slots.full
  have hlength := slots.length
  omega

/-- What is demanded of labels, of deleted entries, of short names, and of long ones. -/
structure Demands where
  label : Nat → Prop
  deleted : Nat → Prop
  short : Nat → Prop
  long : Nat → Nat → List Byte → Prop

/-- An entry that is live. -/
def Raw.Live (r : Raw) : Prop := r 0 ≠ 0#8 ∧ r 0 ≠ DELETED_FLAG ∧ ¬ r.IsVolume

/-- The entries from one index to another, with the live ones and their long names. -/
inductive Content (E : Block) (D : Demands) : Nat → Nat → List (Option (List Byte) × Raw) → Prop
  | nil (i : Nat) : Content E D i i []
  | deleted {i t : Nat} {ls : List (Option (List Byte) × Raw)} (mark : E i 0 = DELETED_FLAG)
      (demand : D.deleted i) (rest : Content E D (i + 1) t ls) : Content E D i t ls
  | label {i t : Nat} {ls : List (Option (List Byte) × Raw)} (zero : E i 0 ≠ 0#8)
      (mark : E i 0 ≠ DELETED_FLAG) (volume : (E i).IsVolume) (demand : D.label i)
      (rest : Content E D (i + 1) t ls) : Content E D i t ls
  | short {i t : Nat} {ls : List (Option (List Byte) × Raw)} (live : (E i).Live)
      (demand : D.short i) (rest : Content E D (i + 1) t ls) : Content E D i t ((none, E i) :: ls)
  | long {i n t : Nat} {name : List Byte} {ls : List (Option (List Byte) × Raw)}
      (slots : LongName E i n name) (live : (E (i + n)).Live) (demand : D.long i n name)
      (short : D.short (i + n)) (rest : Content E D (i + n + 1) t ls) :
      Content E D i t ((some name, E (i + n)) :: ls)

/-- Nothing is demanded. -/
def Demands.none : Demands := ⟨fun _ => True, fun _ => True, fun _ => True, fun _ _ _ => True⟩

/-- A live entry has this name, short or long. -/
def Named (filename : List Byte) (l : Option (List Byte) × Raw) : Prop :=
  filename = shortName l.2 ∨ ∃ name, l.1 = some name ∧ filename = downcase name

/-- No blank or end of a string is inside a short name. -/
def Raw.Trimmed (r : Raw) : Prop := word r.name = trim r.name ∧ word r.ext = trim r.ext

instance (r : Raw) : Decidable r.Live := inferInstanceAs (Decidable (_ ∧ _))
instance (r : Raw) : Decidable r.Trimmed := inferInstanceAs (Decidable (_ ∧ _))

/-! ## Names -/

theorem word_ext (r : Raw) : word r.ext = [] ↔ ¬ (r 8 ≠ 0#8 ∧ r 8 ≠ 0x20#8) := by
  simp only [word, Raw.ext, List.takeWhile_cons]
  split
  · next h => simp_all
  · next h => simp_all

theorem get_name_deleted {r : Raw} (h : r 0 = DELETED_FLAG) : get_name r = [] := by
  have hword : word r.name = DELETED_FLAG :: word [r 1, r 2, r 3, r 4, r 5, r 6, r 7] := by
    rw [word, Raw.name, h, List.takeWhile_cons_of_pos (by decide)]
    rfl
  rw [get_name]
  simp only [hword]
  split
  · rfl
  · rfl

theorem get_name_eq {r : Raw} (h : r.Trimmed) (hmark : r 0 ≠ DELETED_FLAG) :
    get_name r = shortName r := by
  have hext := word_ext r
  rw [h.2] at hext
  rw [get_name, shortName, h.1, h.2]
  have hbase : ∀ c rest, trim r.name = c :: rest → c ≠ DELETED_FLAG := by
    rw [← h.1, word, Raw.name]
    intro c rest hc
    rw [List.takeWhile_cons] at hc
    split at hc
    · exact (List.cons.inj hc).1 ▸ hmark
    · cases hc
  by_cases hnone : trim r.ext = []
  · rw [if_neg (hext.1 hnone), if_pos hnone]
    congr 1
    cases hname : trim r.name with
    | nil => rfl
    | cons c rest => simp only [unmark, if_neg (hbase c rest hname)]
  · rw [if_pos (by_contra fun hcon => hnone (hext.2 hcon)), if_neg hnone]
    congr 1
    cases hname : trim r.name with
    | nil => rfl
    | cons c rest => simp only [List.cons_append, unmark, if_neg (hbase c rest hname)]

/-! ## Long names -/

/-- A block shows the entries of a directory from one index on. -/
def Shows (block : Block) (n k : Nat) (E : Block) (j : Nat) : Prop :=
  ∀ d, k + d < n → block (k + d) = E (j + d)

variable {E block : Block} {n k j m : Nat} {name : List Byte}

theorem checkSlots_eq (shows_ : Shows block n k E j) (slots : LongName E j m name)
    (fits : k + m < n) {counter d : Nat} (h : counter + d = m) :
    checkSlots block n counter (k + d) = some (k + m) := by
  induction counter generalizing d with
  | zero =>
      rw [checkSlots, ← h, Nat.zero_add]
  | succ counter ih =>
      have hnumber : (block (k + d)).number.toNat = counter + 1 := by
        rw [shows_ d (by omega), slots.number d (by omega)]
        omega
      rw [checkSlots, if_pos (by omega), if_pos hnumber, Nat.add_assoc]
      exact ih (by omega)

/-- The characters of the slots in front of an index, from the last slot on. -/
def slotText (E : Block) (j d : Nat) : List Byte :=
  (List.range d).reverse.flatMap fun k => (E (j + k)).chars

theorem slotText_succ (E : Block) (j d : Nat) :
    slotText E j (d + 1) = (E (j + d)).chars ++ slotText E j d := by
  rw [slotText, List.range_succ, List.reverse_append, List.reverse_singleton, List.flatMap_append,
    List.flatMap_singleton, slotText]

theorem takeWhile_append_of_mem {a b : List Byte} (h : 0#8 ∈ a) :
    (a ++ b).takeWhile (· ≠ 0#8) = a.takeWhile (· ≠ 0#8) := by
  induction a with
  | nil => cases h
  | cons c a ih =>
      rw [List.cons_append, List.takeWhile_cons, List.takeWhile_cons]
      split
      · next hc =>
          rw [ih ((List.mem_cons.1 h).resolve_left fun hzero => by simp [← hzero] at hc)]
      · rfl

theorem takeWhile_append_of_notMem {a b : List Byte} (h : 0#8 ∉ a) :
    (a ++ b).takeWhile (· ≠ 0#8) = a ++ b.takeWhile (· ≠ 0#8) := by
  rw [List.takeWhile_append_of_pos]
  intro c hc
  rw [decide_eq_true_eq]
  rintro rfl
  exact h hc

theorem collectSlots_eq (shows_ : Shows block n k E j) (slots : LongName E j m name)
    (fits : k + m < n) {d : Nat} (hd : d < m) (l_name : List Byte) :
    collectSlots block (k + d + 1) l_name =
      some (l_name ++ (slotText E j (d + 1)).takeWhile (· ≠ 0#8)) := by
  induction d generalizing l_name with
  | zero =>
      have hsame := shows_ 0 (by omega)
      have hmark := (slots.mark 0 slots.pos).2 rfl
      rw [Nat.add_zero] at hsame
      rw [Nat.add_zero, collectSlots]
      simp only [hsame, hmark, or_true, if_true, slot2str, slotText_succ]
      simp [slotText]
  | succ d ih =>
      have hsame := shows_ (d + 1) (by omega)
      have hmark : ¬ (E (j + (d + 1))).IsLast :=
        fun h => absurd ((slots.mark (d + 1) hd).1 h) (by omega)
      rw [collectSlots, slotText_succ]
      simp only [slot2str, hsame, hmark, or_false]
      by_cases hzero : 0#8 ∈ (E (j + (d + 1))).chars
      · rw [if_pos (by simpa using hzero), takeWhile_append_of_mem hzero]
      · rw [if_neg (by simpa using hzero), takeWhile_append_of_notMem hzero, ← List.append_assoc]
        have hall : (E (j + (d + 1))).chars.takeWhile (· ≠ 0#8) = (E (j + (d + 1))).chars := by
          simpa using takeWhile_append_of_notMem (b := []) hzero
        rw [hall]
        exact ih (by omega) _

/-- The entry behind the slots, and the long name in them. -/
theorem get_vfatname_eq {s : DirState} (shows_ : Shows s.block n k E j)
    (slots : LongName E j m name) (fits : k + m < n) (curclust : U32) :
    get_vfatname disk curclust n k s = some (some (E (j + m), downcase (unmark name)), s) := by
  have hpos := slots.pos
  have hcheck : checkSlots s.block n (s.block k).number.toNat k = some (k + m) := by
    have hsame := shows_ 0 (by omega)
    have hnumber := slots.number 0 hpos
    rw [Nat.add_zero] at hsame hnumber
    rw [hsame, Nat.add_zero, hnumber]
    exact checkSlots_eq shows_ slots fits (d := 0) rfl
  have htext : (slotText E j m).takeWhile (· ≠ 0#8) = name := by
    obtain ⟨fill, htext, hfill⟩ := slots.text
    rw [slotText, htext, takeWhile_append_of_notMem slots.nonzero]
    rcases hfill with rfl | ⟨rest, rfl⟩
    · simp
    · simp
  have hcollect : collectSlots s.block (k + m) [] = some name := by
    obtain ⟨d, rfl⟩ := Nat.exists_eq_add_of_le' hpos
    rw [← Nat.add_assoc, collectSlots_eq shows_ slots fits (Nat.lt_succ_self d), htext,
      List.nil_append]
  rw [get_vfatname, hcheck]
  simp only [if_neg (not_le.2 fits), hcollect, shows_ m fits]

/-! ## One entry -/

variable {s : DirState} {root : Bool} {curclust : U32}

theorem Shows.head (h : Shows block n k E j) (hk : k < n) : block k = E j := h 0 hk

theorem look_live (hk : k < n) (h : Shows s.block n k E j) (live : (E j).Live) :
    look disk root curclust n k s = (.compare (E j) [], s) := by
  obtain ⟨hzero, hmark, hvolume⟩ := live
  rw [look]
  simp only [h.head hk, hzero, hmark, hvolume, and_false, if_false]

theorem look_zero (hk : k < n) (h : Shows s.block n k E j) (hzero : E j 0 = 0#8)
    (hvolume : ¬ (E j).IsVolume) : look disk root curclust n k s = (.stop, s) := by
  have hmark : (0#8 : Byte) ≠ DELETED_FLAG := by decide
  rw [look]
  simp only [h.head hk, hzero, hmark, hvolume, and_false, if_false, if_true]

theorem look_skip (hk : k < n) (h : Shows s.block n k E j) (hmark : E j 0 ≠ DELETED_FLAG)
    (hvolume : (E j).IsVolume) (hlast : ¬ (E j).IsLast) :
    look disk root curclust n k s = (.skip, s) := by
  rw [look]
  simp only [h.head hk, hmark, hvolume, hlast, and_false, if_false, if_true]

theorem Raw.IsVolume.isVfat {r : Raw} (h : r.IsVolume) : r.IsVfat := by
  intro hzero
  refine h ?_
  calc
    r.attr &&& ATTR_VOLUME = r.attr &&& (ATTR_VFAT &&& ATTR_VOLUME) := rfl
    _ = r.attr &&& ATTR_VFAT &&& ATTR_VOLUME := (BitVec.and_assoc _ _ _).symm
    _ = 0#8 := by rw [hzero, BitVec.zero_and]

/-- A deleted entry is passed over, or has no name. -/
theorem look_deleted (hk : k < n) (h : Shows s.block n k E j) (hmark : E j 0 = DELETED_FLAG)
    (demand : root = true → (E j).IsVolume → k + 1 < n ∧ (E (j + 1)).number.toNat ≠ 164) :
    look disk root curclust n k s = (.skip, s) ∨
      look disk root curclust n k s = (.compare (E j) [], s) := by
  rw [look]
  simp only [h.head hk]
  cases root with
  | false => exact Or.inl (if_pos ⟨rfl, hmark⟩)
  | true =>
      right
      rw [if_neg (by simp)]
      split
      · next hvolume =>
          obtain ⟨hroom, hnumber⟩ := demand rfl hvolume
          have hvfat := hvolume.isVfat
          have hlast : (E j).IsLast := by
            rw [Raw.IsLast, hmark]
            decide
          have hfirst : (E j).number.toNat = 165 := by
            rw [Raw.number, hmark]
            decide
          have hcheck : checkSlots s.block n (s.block k).number.toNat k = none := by
            rw [h.head hk, hfirst, checkSlots, if_pos hk, if_pos (by rw [h.head hk, hfirst]),
              checkSlots, if_pos hroom, if_neg (by rw [h 1 hroom]; exact hnumber)]
          rw [if_pos ⟨hvfat, hlast⟩, get_vfatname, hcheck]
          rfl
      · rw [if_neg (by rw [hmark]; decide)]

theorem look_long (hk : k < n) (h : Shows s.block n k E j) (slots : LongName E j m name)
    (live : (E (j + m)).Live) (fits : k + m < n) :
    look disk root curclust n k s = (.compare (E (j + m)) (downcase (unmark name)),
      { s with block := fun i => if i = k then E (j + m) else s.block i }) := by
  have hattr := slots.volume 0 slots.pos
  have hlast := (slots.mark 0 slots.pos).2 rfl
  have hnumber := slots.number 0 slots.pos
  have hle := slots.le
  rw [Nat.add_zero] at hattr hlast hnumber
  have hmark : E j 0 ≠ DELETED_FLAG := by
    intro hmark
    rw [Raw.number, hmark] at hnumber
    have : (DELETED_FLAG &&& ~~~LAST_LONG_ENTRY_MASK).toNat = 165 := by decide
    omega
  have hvolume : (E j).IsVolume := by
    rw [Raw.IsVolume, hattr]
    decide
  have hvfat : (E j).IsVfat := by
    rw [Raw.IsVfat, hattr]
    decide
  rw [look]
  simp only [h.head hk, hmark, hvolume, hvfat, hlast, and_false, and_true, if_false, if_true,
    get_vfatname_eq h slots fits]
  rw [if_neg live.1]
  simp

/-! ## A directory -/

/-- What the searches demand of the entries of a directory that is read in blocks of `n` entries,
`pos` of an index being its place in its block: a label without the mark of a slot, a long name and
its entry in one block, short names without a blank inside, no long name with a special first
character; and in the root directory something behind a deleted slot that is not taken for the next
one. -/
def demands (root : Bool) (E : Block) (n : Nat) (pos : Nat → Nat) : Demands where
  label i := ¬ (E i).IsLast
  deleted i := root = true → (E i).IsVolume → pos i + 1 < n ∧ (E (i + 1)).number.toNat ≠ 164
  short i := (E i).Trimmed
  long i m name := pos i + m < n ∧ name.head? ≠ some DELETED_FLAG ∧ name.head? ≠ some aRING

/-- The search goes on behind an entry. -/
def Pass (disk : Disk) (root : Bool) (filename : List Byte) (E : Block) (n : Nat) (pos : Nat → Nat)
    (j : Nat) : Prop :=
  ∀ curclust s, Shows s.block n (pos j) E j → ∃ L t,
    look disk root curclust n (pos j) s = (L, t) ∧
      (L = .skip ∨ ∃ r l, L = .compare r l ∧ filename ≠ get_name r ∧ filename ≠ l) ∧
      t.mydata = s.mydata ∧ ∀ k, k ≠ pos j → t.block k = s.block k

/-- The search finds an entry. -/
def Hit (disk : Disk) (root : Bool) (filename : List Byte) (E : Block) (n : Nat) (pos : Nat → Nat)
    (j : Nat) (r : Raw) : Prop :=
  ∀ curclust s, Shows s.block n (pos j) E j → ∃ l t,
    look disk root curclust n (pos j) s = (.compare r l, t) ∧ (filename = get_name r ∨ filename = l)

/-- The search ends. -/
def Stop (disk : Disk) (root : Bool) (E : Block) (n : Nat) (pos : Nat → Nat) (j : Nat) : Prop :=
  ∀ curclust s, Shows s.block n (pos j) E j → ∃ t, look disk root curclust n (pos j) s = (.stop, t)

variable {filename : List Byte} {pos : Nat → Nat} {i t : Nat}
  {ls : List (Option (List Byte) × Raw)}

theorem pass_of_skip (h : ∀ curclust s, Shows s.block n (pos j) E j →
    look disk root curclust n (pos j) s = (.skip, s)) : Pass disk root filename E n pos j :=
  fun curclust s hs => ⟨_, s, h curclust s hs, Or.inl rfl, rfl, fun _ _ => rfl⟩

/-- A live entry is found by its short name. -/
theorem hit_or_pass_live (hk : pos j < n) (hne : filename ≠ []) (live : (E j).Live)
    (trimmed : (E j).Trimmed) :
    (filename = shortName (E j) → Hit disk root filename E n pos j (E j)) ∧
      (filename ≠ shortName (E j) → Pass disk root filename E n pos j) := by
  have hname := get_name_eq trimmed live.2.1
  constructor
  · intro hshort curclust s hs
    exact ⟨[], s, look_live hk hs live, Or.inl (hname ▸ hshort)⟩
  · intro hshort curclust s hs
    exact ⟨_, s, look_live hk hs live, Or.inr ⟨_, _, rfl, hname ▸ hshort, hne⟩, rfl, fun _ _ => rfl⟩

theorem unmark_eq (hdel : name.head? ≠ some DELETED_FLAG) (hring : name.head? ≠ some aRING) :
    unmark name = name := by
  cases name with
  | nil => rfl
  | cons c rest =>
      rw [unmark]
      have hdel : c ≠ DELETED_FLAG := fun h => hdel (by rw [h]; rfl)
      have hring : c ≠ aRING := fun h => hring (by rw [h]; rfl)
      rw [if_neg hdel, if_neg hring]

/-- A live entry is found by its names in front of its slots. -/
theorem hit_or_pass_long (hk : pos j < n) (slots : LongName E j m name) (live : (E (j + m)).Live)
    (trimmed : (E (j + m)).Trimmed)
    (demand : pos j + m < n ∧ name.head? ≠ some DELETED_FLAG ∧ name.head? ≠ some aRING) :
    (Named filename (some name, E (j + m)) → Hit disk root filename E n pos j (E (j + m))) ∧
      (¬ Named filename (some name, E (j + m)) → Pass disk root filename E n pos j) := by
  obtain ⟨fits, hdel, hring⟩ := demand
  have hname := get_name_eq trimmed live.2.1
  have hunmark := unmark_eq hdel hring
  constructor
  · intro hnamed curclust s hs
    refine ⟨_, _, look_long hk hs slots live fits, ?_⟩
    rcases hnamed with hshort | ⟨_, hlong, hfile⟩
    · exact Or.inl (hname ▸ hshort)
    · obtain rfl := Option.some.inj hlong
      exact Or.inr (by rw [hunmark, hfile])
  · intro hnamed curclust s hs
    refine ⟨_, _, look_long hk hs slots live fits, Or.inr ⟨_, _, rfl, ?_, ?_⟩, rfl,
      fun k hk => if_neg hk⟩
    · exact fun hshort => hnamed (Or.inl (hname ▸ hshort))
    · exact fun hlong => hnamed (Or.inr ⟨name, rfl, by rw [hlong, hunmark]⟩)

/-- The slots behind the first are passed over. -/
theorem pass_slot {d : Nat} (hk : pos (j + d) < n) (slots : LongName E j m name) (hd : 0 < d)
    (hdm : d < m) : Pass disk root filename E n pos (j + d) := by
  have hattr := slots.volume d hdm
  have hnumber := slots.number d hdm
  have hle := slots.le
  refine pass_of_skip fun curclust s hs => look_skip hk hs ?_ ?_ ?_
  · intro hmark
    rw [Raw.number, hmark] at hnumber
    have : (DELETED_FLAG &&& ~~~LAST_LONG_ENTRY_MASK).toNat = 165 := by decide
    omega
  · rw [Raw.IsVolume, hattr]
    decide
  · exact fun hlast => absurd ((slots.mark d hdm).1 hlast) (by omega)

theorem Content.le {D : Demands} (h : Content E D i t ls) : i ≤ t := by
  induction h with
  | nil => exact le_rfl
  | deleted _ _ _ ih => omega
  | label _ _ _ _ _ ih => omega
  | short _ _ _ ih => omega
  | long _ _ _ _ _ ih => omega

/-- Entries with short names only. -/
theorem content_of_short {D : Demands} {count : Nat}
    (h : ∀ d < count, (E (i + d)).Live ∧ D.short (i + d)) :
    Content E D i (i + count) ((List.range' i count).map fun j => (none, E j)) := by
  induction count generalizing i with
  | zero => exact .nil i
  | succ count ih =>
      obtain ⟨hlive, hshort⟩ := h 0 (Nat.succ_pos _)
      have hrest := @ih (i + 1) fun d hd => by
        rw [Nat.add_assoc]
        exact h (1 + d) (by omega)
      rw [Nat.add_right_comm] at hrest
      exact .short hlive hshort hrest

/-- The entries from the first on, without long names. -/
def shortEntries (E : Block) (count : Nat) : List (Option (List Byte) × Raw) :=
  (List.range' 0 count).map fun j => (none, E j)

theorem content_shortEntries {D : Demands} {count : Nat}
    (h : ∀ d < count, (E d).Live ∧ D.short d) : Content E D 0 count (shortEntries E count) := by
  have hcontent := @content_of_short E 0 D count fun d hd => (Nat.zero_add d).symm ▸ h d hd
  rwa [Nat.zero_add] at hcontent

/-- Every entry is passed over, or it is a live one with the name; and these are found. -/
def Classified (disk : Disk) (root : Bool) (filename : List Byte) (E : Block) (n : Nat)
    (pos : Nat → Nat) (i t : Nat) (ls : List (Option (List Byte) × Raw)) : Prop :=
  (∀ j, i ≤ j → j < t → Pass disk root filename E n pos j ∨
    ∃ l ∈ ls, Named filename l ∧ Hit disk root filename E n pos j l.2) ∧
  ∀ l ∈ ls, Named filename l → ∃ j, i ≤ j ∧ j < t ∧ Hit disk root filename E n pos j l.2

/-- Entries without a live one in front of others. -/
theorem Classified.pass {i' : Nat} (h : Classified disk root filename E n pos i' t ls)
    (hle : i ≤ i') (hpass : ∀ j, i ≤ j → j < i' → Pass disk root filename E n pos j) :
    Classified disk root filename E n pos i t ls := by
  refine ⟨fun j hij hjt => ?_, fun l hl hnamed => ?_⟩
  · by_cases hj : j < i'
    · exact Or.inl (hpass j hij hj)
    · exact h.1 j (by omega) hjt
  · obtain ⟨j, hij, hjt, hit⟩ := h.2 l hl hnamed
    exact ⟨j, by omega, hjt, hit⟩

/-- A live entry in front of others, which may be found behind its first slot, too. -/
theorem Classified.live {i' : Nat} {l : Option (List Byte) × Raw}
    (h : Classified disk root filename E n pos i' t ls) (hlt : i < i') (hle : i' ≤ t)
    (hhit : Named filename l → Hit disk root filename E n pos i l.2)
    (hpass : ¬ Named filename l → Pass disk root filename E n pos i)
    (hrest : ∀ j, i < j → j < i' → Pass disk root filename E n pos j ∨
      Named filename l ∧ Hit disk root filename E n pos j l.2) :
    Classified disk root filename E n pos i t (l :: ls) := by
  have hself : l ∈ l :: ls := List.mem_cons_self
  refine ⟨fun j hij hjt => ?_, fun l' hl hnamed => ?_⟩
  · rcases Nat.eq_or_lt_of_le hij with rfl | hlt
    · by_cases hnamed : Named filename l
      · exact Or.inr ⟨l, hself, hnamed, hhit hnamed⟩
      · exact Or.inl (hpass hnamed)
    · by_cases hj : j < i'
      · exact (hrest j hlt hj).imp_right fun hfound => ⟨l, hself, hfound⟩
      · exact (h.1 j (not_lt.1 hj) hjt).imp_right
          fun ⟨l', hl', hfound⟩ => ⟨l', List.mem_cons_of_mem _ hl', hfound⟩
  · rcases List.mem_cons.1 hl with rfl | hmem
    · exact ⟨i, le_rfl, by omega, hhit hnamed⟩
    · obtain ⟨j, hij, hjt, hfound⟩ := h.2 l' hmem hnamed
      exact ⟨j, by omega, hjt, hfound⟩

theorem Content.classified (hpos : ∀ j, pos j < n) (hne : filename ≠ [])
    (h : Content E (demands root E n pos) i t ls) :
    Classified disk root filename E n pos i t ls := by
  induction h with
  | nil i => exact ⟨fun j hij hjt => absurd hjt (by omega), fun l hl => absurd hl List.not_mem_nil⟩
  | @deleted i t ls mark demand rest ih =>
      refine ih.pass (Nat.le_succ i) fun j hij hjt => ?_
      obtain rfl : j = i := by omega
      intro curclust s hs
      have hlook := @look_deleted disk E n (pos j) j s root curclust (hpos j) hs mark demand
      rcases hlook with hlook | hlook
      · exact ⟨_, s, hlook, Or.inl rfl, rfl, fun _ _ => rfl⟩
      · have hshort : filename ≠ get_name (E j) := by rwa [get_name_deleted mark]
        exact ⟨_, s, hlook, Or.inr ⟨_, _, rfl, hshort, hne⟩, rfl, fun _ _ => rfl⟩
  | @label i t ls zero mark volume demand rest ih =>
      refine ih.pass (Nat.le_succ i) fun j hij hjt => ?_
      obtain rfl : j = i := by omega
      exact pass_of_skip fun curclust s hs => look_skip (hpos j) hs mark volume demand
  | @short i t ls live demand rest ih =>
      have hboth := @hit_or_pass_live disk E n i root filename pos (hpos i) hne live demand
      refine ih.live (Nat.lt_succ_self i) rest.le (fun hnamed => ?_) (fun hnamed => ?_)
        fun j hij hjt => absurd hjt (by omega)
      · rcases hnamed with hshort | ⟨_, hlong, -⟩
        · exact hboth.1 hshort
        · cases hlong
      · exact hboth.2 fun hshort => hnamed (Or.inl hshort)
  | @long i m t name ls slots live demand short rest ih =>
      have hboth := @hit_or_pass_long disk E n i m name root filename pos (hpos i) slots live short
        demand
      have hreal := @hit_or_pass_live disk E n (i + m) root filename pos (hpos (i + m)) hne live
        short
      refine ih.live (by omega) rest.le hboth.1 hboth.2 fun j hij hjt => ?_
      obtain ⟨d, rfl⟩ := Nat.exists_eq_add_of_le hij.le
      by_cases hd : d < m
      · exact Or.inl (pass_slot (hpos (i + d)) slots (by omega) hd)
      · obtain rfl : d = m := by omega
        by_cases hshort : filename = shortName (E (i + d))
        · exact Or.inr ⟨Or.inl hshort, hreal.1 hshort⟩
        · exact Or.inl (hreal.2 hshort)

/-! ## The loop over the entries of a block -/

theorem Shows.tail {s' : DirState} (h : Shows s.block n k E j)
    (hsame : ∀ i, i ≠ k → s'.block i = s.block i) : Shows s'.block n (k + 1) E (j + 1) := by
  intro d hd
  rw [hsame _ (by omega), Nat.add_assoc, Nat.add_assoc]
  exact h (1 + d) (by omega)

/-- What is at an entry does not depend on the state: no two of the three hold. -/
theorem exists_shows (s : DirState) : ∃ s' : DirState, Shows s'.block n (pos j) E j :=
  ⟨{ s with block := fun i => E (j + (i - pos j)) },
    fun d _ => by simp only [Nat.add_sub_cancel_left]⟩

theorem Pass.not_hit {r : Raw} (h : Pass disk root filename E n pos j) (s : DirState) :
    ¬ Hit disk root filename E n pos j r := by
  intro hit
  obtain ⟨s', hs⟩ := @exists_shows E n j pos s
  obtain ⟨L, t, hlook, hL, -⟩ := h 0#32 s' hs
  obtain ⟨l, t', hlook', hfound⟩ := hit 0#32 s' hs
  rw [hlook'] at hlook
  obtain ⟨rfl, rfl⟩ := Prod.mk.inj hlook
  rcases hL with hskip | ⟨r', l', hL, hshort, hlong⟩
  · cases hskip
  · obtain ⟨rfl, rfl⟩ := Look.compare.inj hL
    exact hfound.elim hshort hlong

theorem Stop.not_pass (h : Stop disk root E n pos j) (s : DirState) :
    ¬ Pass disk root filename E n pos j := by
  intro hpass
  obtain ⟨s', hs⟩ := @exists_shows E n j pos s
  obtain ⟨L, t, hlook, hL, -⟩ := hpass 0#32 s' hs
  obtain ⟨t', hlook'⟩ := h 0#32 s' hs
  rw [hlook'] at hlook
  obtain ⟨rfl, rfl⟩ := Prod.mk.inj hlook
  rcases hL with hskip | ⟨r', l', hL, -⟩
  · cases hskip
  · cases hL

theorem Stop.not_hit {r : Raw} (h : Stop disk root E n pos j) (s : DirState) :
    ¬ Hit disk root filename E n pos j r := by
  intro hit
  obtain ⟨s', hs⟩ := @exists_shows E n j pos s
  obtain ⟨l, t, hlook, -⟩ := hit 0#32 s' hs
  obtain ⟨t', hlook'⟩ := h 0#32 s' hs
  rw [hlook'] at hlook
  cases hlook

/-- What the entries of a directory are to the search. -/
def Judged (disk : Disk) (root : Bool) (filename : List Byte) (E : Block) (n : Nat)
    (pos : Nat → Nat) (ls : List (Option (List Byte) × Raw)) (j : Nat) : Prop :=
  Pass disk root filename E n pos j ∨ Stop disk root E n pos j ∨
    ∃ l ∈ ls, Named filename l ∧ Hit disk root filename E n pos j l.2

/-- The loop finds an entry with the name, ends, or passes over all entries. -/
theorem search_cases {count : Nat} (hs : Shows s.block n k E j)
    (hpos : ∀ d < count, pos (j + d) = k + d)
    (hjudged : ∀ d < count, (∀ d' < d, Pass disk root filename E n pos (j + d')) →
      Judged disk root filename E n pos ls (j + d)) :
    (∃ l ∈ ls, Named filename l ∧ search disk root filename curclust n count k s = .found l.2) ∨
    (∃ d < count, Stop disk root E n pos (j + d) ∧
      (∀ d' < d, Pass disk root filename E n pos (j + d')) ∧
      search disk root filename curclust n count k s = .ended) ∨
    ∃ s', search disk root filename curclust n count k s = .next s' ∧ s'.mydata = s.mydata ∧
      ∀ d < count, Pass disk root filename E n pos (j + d) := by
  induction count generalizing k j s with
  | zero => exact Or.inr (Or.inr ⟨s, rfl, rfl, fun d hd => absurd hd (by omega)⟩)
  | succ count ih =>
      have hfirst : pos j = k := hpos 0 (Nat.succ_pos _)
      have hs' : Shows s.block n (pos j) E j := hfirst ▸ hs
      rcases hjudged 0 (Nat.succ_pos _) (fun d hd => absurd hd (by omega)) with
        hpass | hstop | ⟨l, hl, hnamed, hit⟩
      · have hahead {d : Nat} (h : ∀ d' < d, Pass disk root filename E n pos (j + 1 + d')) :
            ∀ d' < d + 1, Pass disk root filename E n pos (j + d') := by
          intro d' hd'
          cases d' with
          | zero => exact hpass
          | succ d' =>
              rw [show j + (d' + 1) = j + 1 + d' by omega]
              exact h d' (by omega)
        obtain ⟨L, t, hlook, hL, hmydata, hsame⟩ := hpass curclust s hs'
        rw [Nat.add_zero, hfirst] at hlook
        rw [Nat.add_zero, hfirst] at hsame
        have hgo : search disk root filename curclust n (count + 1) k s =
            search disk root filename curclust n count (k + 1) t := by
          rw [search, hlook]
          rcases hL with rfl | ⟨r, l, rfl, hshort, hlong⟩
          · rfl
          · exact if_pos ⟨hshort, hlong⟩
        rw [hgo]
        have hrest := @ih (k + 1) (j + 1) t (hs.tail hsame)
          (fun d hd => by rw [Nat.add_assoc, hpos (1 + d) (by omega), Nat.add_assoc])
          (fun d hd hpasses => by
            have hnext := hjudged (d + 1) (by omega) (hahead hpasses)
            rwa [show j + (d + 1) = j + 1 + d by omega] at hnext)
        rcases hrest with hfound | ⟨d, hd, hstop, hpasses, hended⟩ | ⟨s', hnext, hdata, hpasses⟩
        · exact Or.inl hfound
        · refine Or.inr (Or.inl ⟨d + 1, by omega, ?_, hahead hpasses, hended⟩)
          rwa [show j + (d + 1) = j + 1 + d by omega]
        · exact Or.inr (Or.inr ⟨s', hnext, hdata.trans hmydata, hahead hpasses⟩)
      · obtain ⟨t, hlook⟩ := hstop curclust s hs'
        rw [Nat.add_zero, hfirst] at hlook
        refine Or.inr (Or.inl ⟨0, Nat.succ_pos _, hstop, fun d hd => absurd hd (by omega), ?_⟩)
        rw [search, hlook]
      · obtain ⟨l_name, t, hlook, hfound⟩ := hit curclust s hs'
        rw [Nat.add_zero, hfirst] at hlook
        refine Or.inl ⟨l, hl, hnamed, ?_⟩
        rw [search, hlook]
        refine if_neg fun hne => ?_
        exact hfound.elim hne.1 hne.2

/-! ## The end of a directory -/

/-- The answer of a search: an entry with the name, or that there is none. -/
def Answer (filename : List Byte) (ls : List (Option (List Byte) × Raw)) : Option Raw → Prop
  | some r => ∃ l ∈ ls, Named filename l ∧ l.2 = r
  | none => ∀ l ∈ ls, ¬ Named filename l

/-- An entry that ends a directory. -/
def Raw.IsEnd (r : Raw) : Prop := r 0 = 0#8 ∧ ¬ r.IsVolume

theorem stop_of_isEnd (hk : pos j < n) (h : (E j).IsEnd) : Stop disk root E n pos j :=
  fun _ s hs => ⟨s, look_zero hk hs h.1 h.2⟩

/-- While all entries have been passed over, the next one is judged: it is one of the directory, or
its end, unless there is one with the name. -/
theorem Classified.judged (h : Classified disk root filename E n pos 0 t ls) (s : DirState)
    (hend : j < t ∨ Stop disk root E n pos t ∨ ∃ l ∈ ls, Named filename l)
    (hpass : ∀ j' < j, Pass disk root filename E n pos j') :
    Judged disk root filename E n pos ls j := by
  by_cases hj : j < t
  · exact (h.1 j (Nat.zero_le j) hj).imp_right Or.inr
  · rcases hend with hlt | hstop | ⟨l, hl, hnamed⟩
    · exact absurd hlt hj
    · rcases Nat.eq_or_lt_of_le (not_lt.1 hj) with rfl | hlt
      · exact Or.inr (Or.inl hstop)
      · exact absurd (hpass t hlt) (hstop.not_pass s)
    · obtain ⟨j', -, hlt, hit⟩ := h.2 l hl hnamed
      exact absurd hit ((hpass j' (by omega)).not_hit s)

/-- When all entries have been passed over, none has the name. -/
theorem Classified.absent (h : Classified disk root filename E n pos 0 t ls) (s : DirState)
    (hpass : ∀ j < t, Pass disk root filename E n pos j) : Answer filename ls none := by
  intro l hl hnamed
  obtain ⟨j, -, hlt, hit⟩ := h.2 l hl hnamed
  exact (hpass j hlt).not_hit s hit

/-- An end of the directory, or an entry with the name, is not passed over. -/
theorem Classified.not_all_passed {total : Nat}
    (h : Classified disk root filename E n pos 0 t ls) (s : DirState) (hle : t ≤ total)
    (hend : (t < total ∧ Stop disk root E n pos t) ∨ ∃ l ∈ ls, Named filename l) :
    ¬ ∀ j < total, Pass disk root filename E n pos j := by
  intro hpass
  rcases hend with ⟨hlt, hstop⟩ | ⟨l, hl, hnamed⟩
  · exact hstop.not_pass s (hpass t hlt)
  · exact h.absent s (fun j hj => hpass j (lt_of_lt_of_le hj hle)) l hl hnamed

/-- Where the search ends, the directory does. -/
theorem Classified.ended (h : Classified disk root filename E n pos 0 t ls) (s : DirState)
    (hstop : Stop disk root E n pos j) (hpass : ∀ j' < j, Pass disk root filename E n pos j') :
    Answer filename ls none := by
  refine h.absent s fun j' hj' => hpass j' (lt_of_lt_of_le hj' (not_lt.1 fun hlt => ?_))
  rcases h.1 j (Nat.zero_le j) hlt with hp | ⟨l, -, -, hit⟩
  · exact hstop.not_pass s hp
  · exact hstop.not_hit s hit

end UBoot.Fat
