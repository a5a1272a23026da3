/-
# The path of an NFS boot file

`basename`, `dirname` and the buffer of `net/nfs.c`. The path is cut at its last slash, in place:
`nfs_path` is what is in front of it, `nfs_filename` points behind it. A link is written over the
path or behind it, and the result is cut again. Nothing is returned when something outside of the
buffer is read or written.
-/

import UBoot.LibGeneric.Strtoul
import UBoot.Lib.CStrings

namespace UBoot.Nfs

open UBoot.Lib

/-- `sizeof(nfs_path_buff)` -/
def NFS_PATH_SIZE : Nat := 2048

/-- `nfs_path_buff`, which `nfs_path` points to. -/
abbrev PathBuff := Nat → Byte

/-- The string at an index. -/
def strAt (m : PathBuff) (i : Nat) : Option (List Byte) := scanString 0#8 m (NFS_PATH_SIZE - i) i

/-- A copy into the buffer. -/
def copyTo (m : PathBuff) (dst : Int) (src : List Byte) : Option PathBuff :=
  if 0 ≤ dst ∧ dst + src.length ≤ NFS_PATH_SIZE then some (store m dst.toNat src) else none

/-- `strcpy (nfs_path, src)` -/
def strcpy (m : PathBuff) (src : List Byte) : Option PathBuff := copyTo m 0 (src ++ [0#8])

/-- The loop of `basename`, where `fname` is in front of the index: the index behind the last slash,
or that in front of the path. -/
def basenameFrom (m : PathBuff) : Nat → Int
  | 0 => -1
  | fname + 1 => if m fname = 0x2f#8 then fname + 1 else basenameFrom m fname

namespace PathBuff

/-- `basename (nfs_path)` -/
def basename (m : PathBuff) : Option Int := do
  let path ← strAt m 0
  return basenameFrom m path.length

/-- `dirname (nfs_path)` -/
def dirname (m : PathBuff) : Option PathBuff := do
  let fname ← m.basename
  copyTo m (fname - 1) [0#8]

/-- `nfs_filename = basename (nfs_path)` and `nfs_path = dirname (nfs_path)` -/
def split (m : PathBuff) : Option (Int × PathBuff) := do
  let nfs_filename ← m.basename
  let m ← m.dirname
  return (nfs_filename, m)

end PathBuff

/-- What `NfsStart` takes of `BootFile`: what is behind the first colon, or all of it. -/
def bootPath (BootFile : List Byte) : List Byte :=
  match BootFile.dropWhile (· ≠ 0x3a#8) with
  | [] => BootFile
  | _ :: path => path

/-- The path that `NfsStart` puts into the buffer, and where it is cut. -/
def startPath (m : PathBuff) (BootFile : List Byte) : Option (Int × PathBuff) := do
  let m ← strcpy m (bootPath BootFile)
  m.split

/-- The end of `nfs_readlink_reply`, for a link of which `first` is the first byte: it is put behind
the path of the directory when it is not a slash. -/
def linkTo (m : PathBuff) (first : Byte) (text : List Byte) : Option PathBuff :=
  if first ≠ 0x2f#8 then do
    -- `strcat (nfs_path, "/")`
    let nfs_path ← strAt m 0
    let m ← copyTo m nfs_path.length [0x2f#8, 0#8]
    let nfs_path ← strAt m 0
    let pathlen := nfs_path.length
    let m ← copyTo m pathlen text
    copyTo m (pathlen + text.length) [0#8]
  else do
    let m ← copyTo m 0 text
    copyTo m text.length [0#8]

/-- What follows a link: the path is cut again. -/
def followLink (m : PathBuff) (first : Byte) (text : List Byte) : Option (Int × PathBuff) := do
  let m ← linkTo m first text
  m.split

/-- A directory and a file that make up a path: it has a slash between them, or it has none, and the
directory is empty or `.`. -/
def MakeUp (dir file path : List Byte) : Prop :=
  dir ++ 0x2f#8 :: file = path ∨
    (0x2f#8 ∉ path ∧ (dir = [] ∨ dir = [0x2e#8]) ∧ file = path)

/-- The path has been cut into two strings in the buffer that make it up. -/
def SplitInto (path : List Byte) (result : Option (Int × PathBuff)) : Prop :=
  ∃ (fname : Nat) (m : PathBuff) (dir file : List Byte), result = some ((fname : Int), m) ∧
    strAt m 0 = some dir ∧ strAt m fname = some file ∧ MakeUp dir file path

/-! ## Strings in the buffer -/

variable {m : PathBuff} {i : Nat} {s path : List Byte}

theorem strAt_eq_some :
    strAt m i = some s ↔ IsString 0#8 m i s ∧ i + s.length < NFS_PATH_SIZE := by
  rw [strAt, scanString_eq_some]
  apply and_congr_right
  intro _
  omega

theorem copyTo_nat {dst : Nat} {src : List Byte} (h : dst + src.length ≤ NFS_PATH_SIZE) :
    copyTo m dst src = some (store m dst src) :=
  if_pos ⟨Int.natCast_nonneg _, by omega⟩

theorem copyTo_none {dst : Nat} {src : List Byte} (h : NFS_PATH_SIZE < dst + src.length) :
    copyTo m dst src = none :=
  if_neg (by omega)

/-- Bytes and a zero behind them: they are a string up to the first zero. -/
theorem strAt_of_stored (hcells : slice m i s.length = s) (hnul : m (i + s.length) = 0#8)
    (hfits : i + s.length < NFS_PATH_SIZE) : strAt m i = some (s.takeWhile (· ≠ 0#8)) := by
  rw [strAt_eq_some]
  refine ⟨isString_takeWhile hcells hnul, ?_⟩
  exact (Nat.add_le_add_left (List.takeWhile_prefix _).length_le i).trans_lt hfits

/-! ## The cut -/

/-- Behind the last slash of a string. -/
theorem basenameFrom_of_slash {dir file : List Byte} (h : IsString 0#8 m 0 (dir ++ 0x2f#8 :: file))
    (last : 0x2f#8 ∉ file) : basenameFrom m (dir ++ 0x2f#8 :: file).length = dir.length + 1 := by
  have hcell : ∀ k (hk : k < (dir ++ 0x2f#8 :: file).length),
      m k = (dir ++ 0x2f#8 :: file)[k] := by
    intro k hk
    have := h.cell hk
    rwa [Nat.zero_add] at this
  have hloop : ∀ n ≤ file.length, basenameFrom m (dir.length + 1 + n) = dir.length + 1 := by
    intro n hn
    induction n with
    | zero =>
        rw [Nat.add_zero, basenameFrom, if_pos]
        rw [hcell _ (by simp)]
        simp
    | succ n ih =>
        rw [← Nat.add_assoc, basenameFrom, if_neg]
        · exact ih (Nat.le_of_succ_le hn)
        · rw [hcell _ (by simp; omega), List.getElem_append_right (by omega)]
          intro hslash
          apply last
          rw [← hslash]
          simp only [show dir.length + 1 + n - dir.length = n + 1 by omega, List.getElem_cons_succ]
          exact List.getElem_mem _
  rw [List.length_append, List.length_cons, Nat.add_comm file.length, ← Nat.add_assoc]
  exact hloop _ le_rfl

/-- Without a slash: in front of the path. -/
theorem basenameFrom_of_none (n : Nat) (h : ∀ k < n, m k ≠ 0x2f#8) : basenameFrom m n = -1 := by
  induction n with
  | zero => rfl
  | succ n ih =>
      rw [basenameFrom, if_neg (h n (Nat.lt_succ_self n))]
      exact ih fun k hk => h k (Nat.lt_succ_of_lt hk)

/-- A path with a slash has a last one. -/
theorem exists_last_slash (h : 0x2f#8 ∈ path) :
    ∃ dir file, path = dir ++ 0x2f#8 :: file ∧ 0x2f#8 ∉ file := by
  obtain ⟨as, bs, heq, hnot⟩ := List.eq_append_cons_of_mem (List.mem_reverse.mpr h)
  refine ⟨bs.reverse, as.reverse, ?_, fun hmem => hnot (List.mem_reverse.mp hmem)⟩
  have hpath := congrArg List.reverse heq
  rw [List.reverse_reverse] at hpath
  rw [hpath]
  simp

/-- A path with a slash is cut at the last one. -/
theorem split_of_slash {dir file : List Byte} (h : strAt m 0 = some (dir ++ 0x2f#8 :: file))
    (last : 0x2f#8 ∉ file) :
    ∃ m', m.split = some (((dir.length + 1 : Nat) : Int), m') ∧ strAt m' 0 = some dir ∧
      strAt m' (dir.length + 1) = some file := by
  obtain ⟨hstring, hfits⟩ := strAt_eq_some.mp h
  have hbase : m.basename = some ((dir.length + 1 : Nat) : Int) := by
    rw [PathBuff.basename, h]
    show some _ = _
    rw [basenameFrom_of_slash hstring last]
    rfl
  rw [List.length_append, List.length_cons] at hfits
  have hdir : m.dirname = some (store m dir.length [0#8]) := by
    rw [PathBuff.dirname, hbase]
    show copyTo m (((dir.length + 1 : Nat) : Int) - 1) [0#8] = _
    rw [show ((dir.length + 1 : Nat) : Int) - 1 = (dir.length : Nat) by omega]
    apply copyTo_nat
    rw [List.length_singleton]
    omega
  refine ⟨store m dir.length [0#8], ?_, ?_, ?_⟩
  · rw [PathBuff.split, hbase, hdir]
    rfl
  · rw [strAt_eq_some]
    refine ⟨?_, by omega⟩
    have hcut := hstring.cut (k := dir.length) (by simp)
    rwa [Nat.zero_add, List.take_left' rfl] at hcut
  · rw [strAt_eq_some]
    refine ⟨?_, by omega⟩
    have hdrop := hstring.drop (k := dir.length + 1) (by simp)
    have hfile : (dir ++ 0x2f#8 :: file).drop (dir.length + 1) = file := by
      rw [← List.drop_drop, List.drop_left' rfl]
      rfl
    rw [Nat.zero_add, hfile] at hdrop
    exact hdrop.store (.inr (by simp))

/-- A path without one is not cut: the zero would be written in front of the buffer. -/
theorem split_of_none (h : strAt m 0 = some path) (hnone : 0x2f#8 ∉ path) : m.split = none := by
  obtain ⟨hstring, -⟩ := strAt_eq_some.mp h
  have hbase : m.basename = some (-1) := by
    rw [PathBuff.basename, h]
    show some _ = _
    rw [basenameFrom_of_none]
    intro k hk hslash
    apply hnone
    have := hstring.cell hk
    rw [Nat.zero_add, hslash] at this
    rw [this]
    exact List.getElem_mem hk
  rw [PathBuff.split, PathBuff.dirname, hbase]
  rfl

/-- What is in the buffer is cut into what makes it up exactly if it has a slash. -/
theorem splitInto_iff (h : strAt m 0 = some path) : SplitInto path m.split ↔ 0x2f#8 ∈ path := by
  constructor
  · rintro ⟨fname, m', dir, file, hsplit, -⟩
    by_contra hnone
    rw [split_of_none h hnone] at hsplit
    cases hsplit
  · intro hslash
    obtain ⟨dir, file, rfl, last⟩ := exists_last_slash hslash
    obtain ⟨m', hsplit, hdir, hfile⟩ := split_of_slash h last
    exact ⟨dir.length + 1, m', dir, file, hsplit, hdir, hfile, .inl rfl⟩

/-! ## Paths that are put into the buffer -/

/-- A string is copied to the beginning of the buffer. -/
theorem strcpy_strAt (m : PathBuff) (hnul : 0#8 ∉ s) (hfits : s.length < NFS_PATH_SIZE) :
    ∃ m', strcpy m s = some m' ∧ strAt m' 0 = some s := by
  have hlen : (s ++ [0#8]).length = s.length + 1 := List.length_append
  have hcopy : strcpy m s = some (store m 0 (s ++ [0#8])) :=
    @copyTo_nat m 0 (s ++ [0#8]) (by omega)
  refine ⟨_, hcopy, ?_⟩
  have happend := store_append m 0 s [0#8]
  rw [Nat.zero_add] at happend
  rw [strAt_eq_some, ← happend]
  refine ⟨⟨hnul, ?_, ?_⟩, by omega⟩
  · rw [slice_store_beside (by omega), slice_store_same rfl]
  · rw [Nat.zero_add]
    exact @store_add _ _ s.length 0 [0#8] 0#8 rfl

/-- What a link makes of a path, before it is cut at the first zero. -/
def joined (dir : List Byte) (first : Byte) (text : List Byte) : List Byte :=
  if first ≠ 0x2f#8 then dir ++ 0x2f#8 :: text else text

/-- Bytes that are copied behind what is there, and a zero behind them. -/
theorem strAt_of_copies {before : List Byte} (hbefore : slice m 0 before.length = before)
    (text : List Byte) (hfits : before.length + text.length < NFS_PATH_SIZE) :
    ∃ m', (copyTo m before.length text >>= fun m =>
        copyTo m (before.length + text.length) [0#8]) = some m' ∧
      strAt m' 0 = some ((before ++ text).takeWhile (· ≠ 0#8)) := by
  refine ⟨store (store m before.length text) (before.length + text.length) [0#8], ?_, ?_⟩
  · rw [copyTo_nat (by omega), Option.bind_eq_bind, Option.bind_some, ← Int.natCast_add]
    apply copyTo_nat
    rw [List.length_singleton]
    omega
  · have hlen : (before ++ text).length = before.length + text.length := List.length_append
    apply strAt_of_stored
    · rw [hlen, slice_store_beside (by omega), slice_append, slice_store_beside (by omega),
        hbefore, Nat.zero_add, slice_store_same rfl]
    · rw [hlen, Nat.zero_add]
      exact @store_add _ _ (before.length + text.length) 0 [0#8] 0#8 rfl
    · omega

/-- Otherwise one of the copies leaves the buffer. -/
theorem copies_none {n : Nat} {text : List Byte} (h : NFS_PATH_SIZE ≤ n + text.length) :
    (copyTo m n text >>= fun m => copyTo m (n + text.length) [0#8]) = none := by
  rcases Nat.lt_or_ge NFS_PATH_SIZE (n + text.length) with hlt | hge
  · rw [copyTo_none hlt]
    rfl
  · rw [copyTo_nat hge, Option.bind_eq_bind, Option.bind_some, ← Int.natCast_add]
    apply copyTo_none
    rw [List.length_singleton]
    omega

/-- A slash is put behind the path. -/
theorem strcat_slash {dir : List Byte} (h : strAt m 0 = some dir)
    (hfits : dir.length + 1 < NFS_PATH_SIZE) :
    ∃ m', copyTo m dir.length [0x2f#8, 0#8] = some m' ∧ strAt m' 0 = some (dir ++ [0x2f#8]) := by
  obtain ⟨hstring, -⟩ := strAt_eq_some.mp h
  have hlen : (dir ++ [0x2f#8]).length = dir.length + 1 := List.length_append
  refine ⟨_, copyTo_nat (by rw [List.length_cons, List.length_singleton]; omega), ?_⟩
  rw [strAt_eq_some]
  refine ⟨⟨?_, ?_, ?_⟩, by omega⟩
  · rw [List.mem_append, not_or]
    exact ⟨hstring.notMem, by decide⟩
  · rw [hlen, slice_append, slice_store_beside (by omega), hstring.cells, Nat.zero_add]
    congr 1
    exact congrArg (· :: []) (@store_add _ m dir.length 0 [0x2f#8, 0#8] 0x2f#8 rfl)
  · rw [hlen, Nat.zero_add]
    exact @store_add _ m dir.length 1 [0x2f#8, 0#8] 0#8 rfl

/-- A link is put into the buffer when the path that it makes has room there with its zero. -/
theorem linkTo_cases {dir : List Byte} (h : strAt m 0 = some dir) (first : Byte)
    (text : List Byte) :
    ((joined dir first text).length < NFS_PATH_SIZE ∧ ∃ m', linkTo m first text = some m' ∧
      strAt m' 0 = some ((joined dir first text).takeWhile (· ≠ 0#8))) ∨
    (NFS_PATH_SIZE ≤ (joined dir first text).length ∧ linkTo m first text = none) := by
  unfold linkTo joined
  by_cases hfirst : first ≠ 0x2f#8
  · rw [if_pos hfirst, if_pos hfirst, h]
    have hlen : (dir ++ 0x2f#8 :: text).length = dir.length + 1 + text.length := by
      rw [List.length_append, List.length_cons]
      omega
    have happend : dir ++ 0x2f#8 :: text = dir ++ [0x2f#8] ++ text := by simp
    rw [hlen, happend]
    simp only [Option.bind_eq_bind, Option.bind_some]
    rcases Nat.lt_or_ge (dir.length + 1) NFS_PATH_SIZE with hslash | hslash
    · obtain ⟨m₁, hcat, hstr⟩ := strcat_slash h hslash
      have hdirlen : (dir ++ [0x2f#8]).length = dir.length + 1 := List.length_append
      rw [hcat, Option.bind_some, hstr, Option.bind_some, hdirlen, ← hdirlen]
      rcases Nat.lt_or_ge ((dir ++ [0x2f#8]).length + text.length) NFS_PATH_SIZE with hfits | hfull
      · obtain ⟨hstring, -⟩ := strAt_eq_some.mp hstr
        exact .inl ⟨hfits, strAt_of_copies hstring.cells text hfits⟩
      · exact .inr ⟨hfull, copies_none hfull⟩
    · right
      refine ⟨by omega, ?_⟩
      rw [copyTo_none (by rw [List.length_cons, List.length_singleton]; omega)]
      rfl
  · rw [if_neg hfirst, if_neg hfirst]
    rcases Nat.lt_or_ge text.length NFS_PATH_SIZE with hfits | hfull
    · have hcopies := @strAt_of_copies m [] rfl text (by simpa using hfits)
      simp only [List.length_nil, Nat.cast_zero, zero_add, List.nil_append] at hcopies
      exact .inl ⟨hfits, hcopies⟩
    · have hnone := @copies_none m 0 text (by simpa using hfull)
      simp only [Nat.cast_zero, zero_add] at hnone
      exact .inr ⟨hfull, hnone⟩

/-- A relative link makes a path with a slash. -/
theorem slash_mem_relative {dir : List Byte} {first : Byte} (text : List Byte) (hdir : 0#8 ∉ dir)
    (hfirst : first ≠ 0x2f#8) : 0x2f#8 ∈ (joined dir first text).takeWhile (· ≠ 0#8) := by
  rw [joined, if_pos hfirst, List.takeWhile_append_of_pos]
  · exact List.mem_append_right _ (by simp)
  · intro b hb
    simp only [decide_eq_true_eq]
    rintro rfl
    exact hdir hb

/-- A link with a text makes a path with a slash. -/
theorem slash_mem_joined (dir : List Byte) (first : Byte) (text : List Byte) (hdir : 0#8 ∉ dir) :
    0x2f#8 ∈ (joined dir first (first :: text)).takeWhile (· ≠ 0#8) := by
  by_cases hfirst : first ≠ 0x2f#8
  · exact slash_mem_relative _ hdir hfirst
  · rw [joined, if_neg hfirst]
    rw [not_not] at hfirst
    simp [hfirst]

/-! ## Boot files and links -/

/-- A boot file string of 1 to 127 characters. -/
abbrev BootName := { s : List Byte // 0#8 ∉ s ∧ 1 ≤ s.length ∧ s.length ≤ 127 }

theorem bootPath_suffix (BootFile : List Byte) : bootPath BootFile <:+ BootFile := by
  unfold bootPath
  split
  · exact List.suffix_rfl
  · rename_i c path hdrop
    exact (List.suffix_cons c path).trans (hdrop ▸ List.dropWhile_suffix _)

/-- The boot file is cut into what makes up its path exactly when that has a slash. The path after a
link, from wherever the directory is, is cut so exactly when it has room in the buffer. -/
theorem nfs_path_split_iff (m : PathBuff) (BootFile : BootName) :
    (SplitInto (bootPath BootFile.1) (startPath m BootFile.1) ↔ 0x2f#8 ∈ bootPath BootFile.1) ∧
    ∀ (dir : List Byte) (first : Byte) (text : List Byte), strAt m 0 = some dir →
      (SplitInto ((joined dir first (first :: text)).takeWhile (· ≠ 0#8))
          (followLink m first (first :: text)) ↔
        (joined dir first (first :: text)).length < NFS_PATH_SIZE) := by
  constructor
  · obtain ⟨hnul, -, hlen⟩ := BootFile.2
    have hsuffix := bootPath_suffix BootFile.1
    have hfits : (bootPath BootFile.1).length < NFS_PATH_SIZE :=
      (hsuffix.length_le.trans hlen).trans_lt (by decide)
    obtain ⟨m', hcopy, hstr⟩ := strcpy_strAt m (fun h => hnul (hsuffix.mem h)) hfits
    rw [startPath, hcopy]
    exact splitInto_iff hstr
  · intro dir first text h
    rw [followLink]
    rcases linkTo_cases h first (first :: text) with ⟨hfits, m', hlink, hstr⟩ | ⟨hfull, hlink⟩
    · rw [hlink]
      have hslash := slash_mem_joined dir first text (strAt_eq_some.mp h).1.notMem
      exact iff_of_true ((splitInto_iff hstr).mpr hslash) hfits
    · rw [hlink]
      refine iff_of_false ?_ (Nat.not_lt_of_le hfull)
      rintro ⟨fname, m', d, file, hnone, -⟩
      cases hnone

/-- `a/b`, with a colon in front. -/
theorem nfs_path_split_slash : SplitInto [0x61#8, 0x2f#8, 0x62#8]
    (startPath (fun _ => 0#8) [0x3a#8, 0x61#8, 0x2f#8, 0x62#8]) :=
  (nfs_path_split_iff (fun _ => 0#8) ⟨[0x3a#8, 0x61#8, 0x2f#8, 0x62#8], by decide⟩).1.mpr (by decide)

/-- A name without a slash. -/
theorem not_nfs_path_split :
    ¬ ∀ (m : PathBuff) (BootFile : BootName),
      SplitInto (bootPath BootFile.1) (startPath m BootFile.1) := by
  intro h
  obtain ⟨fname, m', dir, file, hsplit, -⟩ := h (fun _ => 0#8) ⟨[0x66#8, 0x6f#8, 0x6f#8], by decide⟩
  have hnone : startPath (fun _ => 0#8) [0x66#8, 0x6f#8, 0x6f#8] = none := by decide +kernel
  rw [hnone] at hsplit
  cases hsplit

end UBoot.Nfs
