/-
# What is found in a JFFS2 file system

The nodes of a partition may be on flash in any order, with older versions between
newer ones. The lists hold all of them; the list of fragments is sorted by version, so
that later data is stored over older data. A file is read as it was written last,
unless the memory of a list entry misleads. A name is not: an entry that removes it is
passed over, and an older entry found instead.
-/

import UBoot.Fs.Jffs2

namespace UBoot.Jffs2

open UBoot.Lib

/-! ## The lists -/

section Insert

variable {α : Type} (listCompare : α → α → Bool)

/-- A new node is put at its place, also at the end. -/
theorem insert_node_nodes (list : BList α) (new : α) :
    (insert_node listCompare list new).nodes =
      let place := insertPlace listCompare list.nodes new (insertStart listCompare list new)
      list.nodes.take place ++ new :: list.nodes.drop place := by
  unfold insert_node
  dsimp only
  split
  · rfl
  · rename_i hend
    rw [List.take_of_length_le (by omega), List.drop_eq_nil_of_le (by omega)]

theorem insert_node_perm (list : BList α) (new : α) :
    (insert_node listCompare list new).nodes.Perm (new :: list.nodes) := by
  rw [insert_node_nodes]
  dsimp only
  generalize insertPlace listCompare list.nodes new _ = place
  calc list.nodes.take place ++ new :: list.nodes.drop place
      |>.Perm (new :: (list.nodes.take place ++ list.nodes.drop place)) := List.perm_middle
    _ = new :: list.nodes := by rw [List.take_append_drop]

/-- Whatever the comparison says, the list holds the nodes that were inserted. -/
theorem foldl_insert_perm {insert : BList α → α → BList α}
    (h : ∀ list new, (insert list new).nodes.Perm (new :: list.nodes)) (found : List α)
    (list : BList α) : (found.foldl insert list).nodes.Perm (list.nodes ++ found) := by
  induction found generalizing list with
  | nil => simp
  | cons new found ih =>
      rw [List.foldl_cons]
      calc (found.foldl insert (insert list new)).nodes
          |>.Perm ((insert list new).nodes ++ found) := ih _
        _ |>.Perm ((new :: list.nodes) ++ found) := (h list new).append_right found
        _ |>.Perm (list.nodes ++ new :: found) := List.perm_middle.symm

variable {version : α → U32}

/-- Sorted by version, as `compare_inodes` sorts. -/
def Sorted (version : α → U32) (nodes : List α) : Prop :=
  nodes.Pairwise fun a b => (version a).toNat ≤ (version b).toNat

/-- The hints point behind smaller versions only. -/
theorem lt_of_mem_take_start {list : BList α} (sorted : Sorted version list.nodes) {new a : α}
    (mem : a ∈ list.nodes.take (insertStart (compareVersions version) list new)) :
    (version a).toNat < (version new).toNat := by
  have behind {prev : Nat} {b : α} (hprev : list.nodes[prev]? = some b)
      (hb : compareVersions version new b = true) (hmem : a ∈ list.nodes.take (prev + 1)) :
      (version a).toNat < (version new).toNat := by
    have hlt : (version b).toNat < (version new).toNat := by
      simpa [compareVersions, BitVec.lt_def] using hb
    obtain ⟨j, hj, rfl⟩ := List.mem_iff_getElem.mp hmem
    obtain ⟨hlen, rfl⟩ := List.getElem?_eq_some_iff.mp hprev
    rw [List.length_take] at hj
    rw [List.getElem_take]
    obtain heq | hbefore : j = prev ∨ j < prev := by omega
    · subst heq
      exact hlt
    · exact Nat.lt_of_le_of_lt (List.pairwise_iff_getElem.mp sorted j prev _ _ hbefore) hlt
  unfold insertStart at mem
  split at mem
  · rename_i htail
    obtain ⟨b, hb, hcompare⟩ := (Option.any_eq_true _ _).mp htail
    rw [List.getLast?_eq_getElem?] at hb
    apply behind hb hcompare
    rw [List.take_of_length_le (by omega)]
    exact List.mem_of_mem_take mem
  · split at mem
    · rename_i prev hprev
      split at mem
      · rename_i hlast
        obtain ⟨b, hb, hcompare⟩ := (Option.any_eq_true _ _).mp hlast
        exact behind hb hcompare mem
      · cases mem
    · cases mem

/-- A new node goes behind all smaller versions, so that the list stays sorted. -/
theorem insert_node_sorted {list : BList α} (sorted : Sorted version list.nodes) (new : α) :
    Sorted version (insert_node (compareVersions version) list new).nodes := by
  rw [insert_node_nodes]
  generalize hstart : insertStart (compareVersions version) list new = start
  have before (a : α) (mem : a ∈ list.nodes.take start) :
      (version a).toNat < (version new).toNat := by
    rw [← hstart] at mem
    exact lt_of_mem_take_start sorted mem
  -- the nodes before the start, those that the search passes, and the others
  set passed := (list.nodes.drop start).takeWhile (compareVersions version new) with hpassed
  set others := (list.nodes.drop start).dropWhile (compareVersions version new) with hothers
  have split_drop : list.nodes.drop start = passed ++ others :=
    List.takeWhile_append_dropWhile.symm
  have take_place : list.nodes.take (insertPlace (compareVersions version) list.nodes new start) =
      list.nodes.take start ++ passed := by
    rw [insertPlace, ← hpassed, List.take_add, split_drop, List.take_left]
  have drop_place : list.nodes.drop (insertPlace (compareVersions version) list.nodes new start) =
      others := by
    rw [insertPlace, ← hpassed, ← List.drop_drop, split_drop, List.drop_left]
  have smaller (a : α) (mem : a ∈ list.nodes.take start ++ passed) :
      (version a).toNat < (version new).toNat := by
    rw [List.mem_append] at mem
    obtain mem | mem := mem
    · exact before a mem
    · simpa [compareVersions, BitVec.lt_def] using List.mem_takeWhile_imp mem
  have sorted_others : Sorted version others :=
    (List.Pairwise.sublist (List.drop_sublist _ _) sorted).sublist (List.dropWhile_sublist _)
  have larger (a : α) (mem : a ∈ others) : (version new).toNat ≤ (version a).toNat := by
    cases hlist : others with
    | nil =>
        rw [hlist] at mem
        cases mem
    | cons first rest =>
        have hfirst : (version new).toNat ≤ (version first).toNat := by
          have := List.head_dropWhile_not (compareVersions version new)
            (l := list.nodes.drop start) (by simp [← hothers, hlist])
          simpa [← hothers, hlist, compareVersions, BitVec.le_def] using this
        rw [hlist] at mem sorted_others
        rw [List.mem_cons] at mem
        obtain rfl | mem := mem
        · exact hfirst
        · exact hfirst.trans ((List.pairwise_cons.mp sorted_others).1 a mem)
  dsimp only
  rw [take_place, drop_place, Sorted, List.pairwise_append, List.pairwise_cons]
  refine ⟨?_, ⟨larger, sorted_others⟩, ?_⟩
  · rw [← take_place]
    exact List.Pairwise.sublist (List.take_sublist _ _) sorted
  · intro a ha b hb
    rw [List.mem_cons] at hb
    obtain rfl | hb := hb
    · exact (smaller a ha).le
    · exact (smaller a ha).le.trans (larger b hb)

theorem foldl_insert_sorted (found : List α) {list : BList α}
    (sorted : Sorted version list.nodes) :
    Sorted version (found.foldl (insert_node (compareVersions version)) list).nodes := by
  induction found generalizing list with
  | nil => exact sorted
  | cons new found ih => exact ih (insert_node_sorted sorted new)

end Insert

theorem dirList_perm (cfg : Config) (found : List RawDirent) : (dirList cfg found).Perm found := by
  unfold dirList
  dsimp only
  split
  · exact foldl_insert_perm (insert_node_perm _) found (.empty _)
  · apply foldl_insert_perm _ found (.empty _)
    intro list new
    exact List.perm_append_singleton new list.nodes

theorem fragList_perm (found : List Fragment) : (fragList found).Perm found :=
  foldl_insert_perm (insert_node_perm _) found (.empty _)

theorem fragList_sorted (found : List Fragment) :
    Sorted (fun b : Fragment => b.node.version) (fragList found) :=
  foldl_insert_sorted found List.Pairwise.nil

/-! ## Names -/

/-- The entries for a name, and which of them is the latest. -/
abbrev LatestEntry (found : List RawDirent) (name : CString) (pino : U32) (d : RawDirent) : Prop :=
  IsLatest (fun d : RawDirent => d.version.toNat) (RawDirent.Names name pino) found d

/-- The versions of a directory are different. -/
def DistinctEntries (found : List RawDirent) : Prop :=
  ∀ pino, Distinct (fun d : RawDirent => d.version.toNat) (fun d => d.pino = pino) found

/-- `jffs2_1pass_find_inode` answers with the latest entry. -/
def FindsLatest (cfg : Config) (found : List RawDirent) : Prop :=
  ∀ name pino,
    (∀ d, LatestEntry found name pino d →
      jffs2_1pass_find_inode (dirList cfg found) name pino = d.ino) ∧
    ((∀ d ∈ found, ¬ d.Names name pino) →
      jffs2_1pass_find_inode (dirList cfg found) name pino = 0)

/-- No name was removed that has an older entry on flash. -/
def NoneRemoved (found : List RawDirent) : Prop :=
  ∀ name pino d, LatestEntry found name pino d → d.ino = 0 →
    ∀ e ∈ found, e.Names name pino → e.ino = 0

theorem findsLatest_iff (cfg : Config) {found : List RawDirent} (distinct : DistinctEntries found) :
    FindsLatest cfg found ↔ NoneRemoved found := by
  have perm := dirList_perm cfg found
  -- the entry that is found is the latest of those that do not remove the name
  have finds {name : CString} {pino : U32} {e : RawDirent}
      (he : IsLatest (fun d : RawDirent => d.version.toNat)
        (fun d => d.Names name pino ∧ d.ino ≠ 0) found e) :
      jffs2_1pass_find_inode (dirList cfg found) name pino = e.ino := by
    apply keepLatest_of_isLatest _ (he.perm perm.symm) (Nat.zero_le _)
    intro a ha b hb hSa hSb
    exact distinct pino a (perm.mem_iff.mp ha) b (perm.mem_iff.mp hb) hSa.1.1.symm hSb.1.1.symm
  have finds_none {name : CString} {pino : U32}
      (h : ∀ d ∈ found, ¬ (d.Names name pino ∧ d.ino ≠ 0)) :
      jffs2_1pass_find_inode (dirList cfg found) name pino = 0 := by
    apply keepLatest_of_none
    intro a ha hS
    exact absurd hS (h a (perm.mem_iff.mp ha))
  constructor
  · intro h name pino d hd hzero e he hnames
    by_contra hne
    obtain ⟨e', he'⟩ : ∃ e', IsLatest (fun d : RawDirent => d.version.toNat)
        (fun d => d.Names name pino ∧ d.ino ≠ 0) found e' := exists_isLatest he ⟨hnames, hne⟩
    have := (h name pino).1 d hd
    rw [finds he', hzero] at this
    exact he'.about.2 this
  · intro h name pino
    constructor
    · intro d hd
      by_cases hzero : d.ino = 0
      · rw [hzero]
        apply finds_none
        rintro e he ⟨hnames, hne⟩
        exact hne (h name pino d hd hzero e he hnames)
      · exact finds ⟨hd.mem, ⟨hd.about, hzero⟩, fun b hb hSb => hd.latest b hb hSb.1⟩
    · intro hnone
      exact finds_none fun d hd hS => hnone d hd hS.1

/-! ## Files -/

/-- The version that the fragments are sorted by. -/
abbrev Fragment.version (b : Fragment) : Nat := b.node.version.toNat

/-- The versions of a file are different. -/
def DistinctFragments (found : List Fragment) : Prop :=
  ∀ inode, Distinct Fragment.version (fun b => inode = b.node.ino) found

/-- What a node stores. -/
def piece (cfg : Config) (n : RawInode) : Nat × List Byte :=
  (n.offset.toNat, (contents cfg n).getD [])

/-- A node covers a position of its file. -/
def Covers (n : RawInode) (i : Nat) : Prop :=
  n.offset.toNat ≤ i ∧ i < n.offset.toNat + n.dsize.toNat

/-- `jffs2_1pass_read_inode` returns the size of the file, and every byte below it that a
node with valid data covers is that of the latest such node. -/
def ReadsLatest (cfg : Config) (found : List Fragment) : Prop :=
  ∀ inode n, IsLatest Fragment.version (fun b => inode = b.node.ino) found n →
    ∀ dest, (jffs2_1pass_read_inode cfg (fragList found) inode dest).1 = n.node.isize.toNat ∧
      ∀ mem, (jffs2_1pass_read_inode cfg (fragList found) inode dest).2.1 = some mem →
        ∀ i < n.node.isize.toNat, ∀ b,
          IsLatest Fragment.version
            (fun b => inode = b.node.ino ∧ data_crc b.node ∧ Covers b.node i) found b →
          byteAt (piece cfg b.node) i = some (mem i)

/-- What the memory of a list entry makes of its data: valid data is loaded, and data for
which `datacrc` was not `CRC_UNKNOWN` as long as it was not `CRC_BAD`. -/
def Fragment.Loads (b : Fragment) : Prop := b.checked.datacrc ≠ CRC_BAD

instance (b : Fragment) : Decidable b.Loads := inferInstanceAs (Decidable (_ ≠ _))

/-- Every node that is loaded has a compression method of the build, and where valid data
covers a byte of a file, the latest node that is loaded there has the same byte. -/
def Readable (cfg : Config) (found : List Fragment) : Prop :=
  ∀ inode n, IsLatest Fragment.version (fun b => inode = b.node.ino) found n →
    (∀ b ∈ found, inode = b.node.ino → b.node.offset ≤ n.node.isize → b.Loads →
      contents cfg b.node ≠ none) ∧
    ∀ i < n.node.isize.toNat, ∀ b,
      IsLatest Fragment.version
        (fun b => inode = b.node.ino ∧ data_crc b.node ∧ Covers b.node i) found b →
      ∃ t, IsLatest Fragment.version
          (fun b => inode = b.node.ino ∧ b.Loads ∧ byteAt (piece cfg b.node) i ≠ none) found t ∧
        byteAt (piece cfg t.node) i = byteAt (piece cfg b.node) i ∧
        byteAt (piece cfg b.node) i ≠ none

theorem Fragment.checked_node (b : Fragment) : b.checked.node = b.node := by
  unfold Fragment.checked
  split <;> rfl

/-- The nodes that are stored, one over the other. -/
def loaded (inode totalSize : U32) (frag : List Fragment) : List Fragment :=
  frag.filter fun b => inode = b.node.ino ∧ b.node.offset ≤ totalSize ∧ b.Loads

/-- The second loop stores what is loaded in the order of the list, unless it comes to an
unknown compression method. -/
theorem loadFragments_eq (cfg : Config) (inode totalSize : U32) (frag : List Fragment)
    (dest : Nat → Byte) :
    ((loadFragments cfg inode totalSize dest frag).1 = true ↔
      ∀ b ∈ loaded inode totalSize frag, contents cfg b.node ≠ none) ∧
    ((loadFragments cfg inode totalSize dest frag).1 = true →
      (loadFragments cfg inode totalSize dest frag).2.1 =
        ((loaded inode totalSize frag).map fun b => piece cfg b.node).foldl
          (fun m p => store m p.1 p.2) dest) := by
  induction frag generalizing dest with
  | nil => simp [loadFragments, loaded]
  | cons b frag ih =>
      rw [loadFragments]
      by_cases hino : inode = b.node.ino
      · rw [if_pos hino]
        by_cases hoff : b.node.offset > totalSize
        · have skipped : loaded inode totalSize (b :: frag) = loaded inode totalSize frag := by
            unfold loaded
            rw [List.filter_cons_of_neg]
            simp only [decide_eq_true_eq]
            rintro ⟨-, hle, -⟩
            exact absurd hle (BitVec.not_le.mpr hoff)
          rw [if_pos hoff, skipped]
          exact ih dest
        · rw [if_neg hoff]
          dsimp only
          by_cases hbad : b.checked.datacrc = CRC_BAD
          · have skipped : loaded inode totalSize (b :: frag) = loaded inode totalSize frag := by
              unfold loaded
              rw [List.filter_cons_of_neg]
              simp only [decide_eq_true_eq]
              rintro ⟨-, -, hloads⟩
              exact hloads hbad
            rw [if_pos hbad, skipped]
            exact ih dest
          · have kept : loaded inode totalSize (b :: frag) =
                b :: loaded inode totalSize frag := by
              unfold loaded
              rw [List.filter_cons_of_pos]
              simp only [decide_eq_true_eq]
              exact ⟨hino, BitVec.not_lt.mp hoff, hbad⟩
            rw [if_neg hbad, kept, b.checked_node]
            cases hcontents : contents cfg b.node with
            | none => simp [hcontents]
            | some bytes =>
                have rest := ih (store dest b.node.offset.toNat bytes)
                simpa [hcontents, piece] using rest
      · have skipped : loaded inode totalSize (b :: frag) = loaded inode totalSize frag := by
          unfold loaded
          rw [List.filter_cons_of_neg]
          simp only [decide_eq_true_eq]
          rintro ⟨h, -⟩
          exact hino h
        rw [if_neg hino, skipped]
        exact ih dest

theorem fileSize_of_latest {found : List Fragment} (distinct : DistinctFragments found)
    {inode : U32} {n : Fragment}
    (hn : IsLatest Fragment.version (fun b => inode = b.node.ino) found n) :
    fileSize (fragList found) inode = n.node.isize := by
  have perm := fragList_perm found
  apply keepLatest_of_isLatest _ (hn.perm perm.symm) (Nat.zero_le _)
  intro a ha b hb hSa hSb
  exact distinct inode a (perm.mem_iff.mp ha) b (perm.mem_iff.mp hb) hSa hSb

/-- What is in memory below the end of the file: the byte of the latest node loaded there, or
what was there before. -/
theorem byte_loaded (cfg : Config) (found : List Fragment) (inode totalSize : U32) {i : Nat}
    (hi : i < totalSize.toNat) (dest : Nat → Byte) :
    let mem := ((loaded inode totalSize (fragList found)).map fun b => piece cfg b.node).foldl
      (fun m p => store m p.1 p.2) dest
    (∃ t, IsLatest Fragment.version
        (fun b => inode = b.node.ino ∧ b.Loads ∧ byteAt (piece cfg b.node) i ≠ none) found t ∧
      byteAt (piece cfg t.node) i = some (mem i)) ∨
    ((∀ b ∈ found, inode = b.node.ino → b.Loads → byteAt (piece cfg b.node) i = none) ∧
      mem i = dest i) := by
  have perm := fragList_perm found
  have mem_loaded {b : Fragment} (hb : b ∈ found) (hino : inode = b.node.ino) (hloads : b.Loads)
      (hbyte : byteAt (piece cfg b.node) i ≠ none) :
      b ∈ loaded inode totalSize (fragList found) := by
    have hoff : b.node.offset ≤ totalSize := by
      unfold byteAt piece at hbyte
      split at hbyte
      · rw [BitVec.le_def]
        exact Nat.le_of_lt (Nat.lt_of_le_of_lt ‹_› hi)
      · exact absurd rfl hbyte
    unfold loaded
    rw [List.mem_filter, decide_eq_true_eq]
    exact ⟨perm.mem_iff.mpr hb, hino, hoff, hloads⟩
  have sorted : (loaded inode totalSize (fragList found)).Pairwise
      fun b c => Fragment.version b ≤ Fragment.version c :=
    (fragList_sorted found).sublist List.filter_sublist
  intro mem
  obtain hnone | ⟨before, t, after, hsplit, ht, hlast⟩ :=
    exists_last (fun b : Fragment => byteAt (piece cfg b.node) i ≠ none)
      (loaded inode totalSize (fragList found))
  · apply Or.inr
    constructor
    · intro b hb hino hloads
      by_contra hbyte
      exact hnone b (mem_loaded hb hino hloads hbyte) hbyte
    · apply foldl_store_of_none
      intro p hp
      obtain ⟨b, hb, rfl⟩ := List.mem_map.mp hp
      exact not_not.mp (hnone b hb)
  · apply Or.inl
    have latest : IsLatest Fragment.version (fun b => byteAt (piece cfg b.node) i ≠ none)
        (loaded inode totalSize (fragList found)) t := by
      rw [hsplit] at sorted ⊢
      exact isLatest_of_sorted sorted ht hlast
    have hmem := List.mem_filter.mp latest.mem
    rw [decide_eq_true_eq] at hmem
    refine ⟨t, ⟨perm.mem_iff.mp hmem.1, ⟨hmem.2.1, hmem.2.2.2, ht⟩, ?_⟩, ?_⟩
    · rintro b hb ⟨hino, hloads, hbyte⟩
      exact latest.latest b (mem_loaded hb hino hloads hbyte) hbyte
    · obtain ⟨y, hy⟩ := Option.ne_none_iff_exists'.mp ht
      rw [hy, Option.some.injEq]
      have stored : mem = (before.map (fun b => piece cfg b.node) ++
          piece cfg t.node :: after.map fun b => piece cfg b.node).foldl
            (fun m p => store m p.1 p.2) dest := by
        simp only [mem, hsplit, List.map_append, List.map_cons]
      rw [stored]
      apply Eq.symm
      apply foldl_store_of_last hy
      intro p hp
      obtain ⟨b, hb, rfl⟩ := List.mem_map.mp hp
      exact not_not.mp (hlast b hb)

theorem readsLatest_iff (cfg : Config) {found : List Fragment}
    (distinct : DistinctFragments found) : ReadsLatest cfg found ↔ Readable cfg found := by
  have perm := fragList_perm found
  unfold ReadsLatest Readable
  apply forall_congr'
  intro inode
  apply forall_congr'
  intro n
  apply forall_congr'
  intro hn
  have hsize := fileSize_of_latest distinct hn
  have gets_through (dest : Nat → Byte) :=
    (loadFragments_eq cfg inode n.node.isize (fragList found) dest).1
  have mem_eq (dest : Nat → Byte) :=
    (loadFragments_eq cfg inode n.node.isize (fragList found) dest).2
  have loaded_iff (b : Fragment) : b ∈ loaded inode n.node.isize (fragList found) ↔
      b ∈ found ∧ inode = b.node.ino ∧ b.node.offset ≤ n.node.isize ∧ b.Loads := by
    unfold loaded
    rw [List.mem_filter, decide_eq_true_eq, perm.mem_iff]
  constructor
  · intro reads
    have through (dest : Nat → Byte) :
        (loadFragments cfg inode n.node.isize dest (fragList found)).1 = true := by
      have hret := (reads (some dest)).1
      unfold jffs2_1pass_read_inode at hret
      rw [hsize] at hret
      dsimp only at hret
      by_contra hfail
      rw [if_neg hfail] at hret
      omega
    constructor
    · intro b hb hino hoff hloads
      exact (gets_through fun _ => 0).mp (through _) b ((loaded_iff b).mpr ⟨hb, hino, hoff, hloads⟩)
    · intro i hi b hb
      have byte (dest : Nat → Byte) : byteAt (piece cfg b.node) i =
          some (((loaded inode n.node.isize (fragList found)).map fun b => piece cfg b.node).foldl
            (fun m p => store m p.1 p.2) dest i) := by
        rw [← mem_eq dest (through dest)]
        apply (reads (some dest)).2 _ _ i hi b hb
        unfold jffs2_1pass_read_inode
        rw [hsize]
      obtain ⟨y, hy⟩ : ∃ y, byteAt (piece cfg b.node) i = some y := ⟨_, byte fun _ => 0⟩
      obtain ⟨t, ht, hbyte⟩ | ⟨hnone, hkept⟩ :=
        byte_loaded cfg found inode n.node.isize hi fun _ => y + 1
      · exact ⟨t, ht, hbyte.trans (byte _).symm, by simp [hy]⟩
      · -- nothing is loaded there, and what was in memory before stays
        have := byte fun _ => y + 1
        rw [hkept, hy, Option.some.injEq] at this
        exfalso
        bv_omega
  · rintro ⟨supported, covered⟩ dest
    cases dest with
    | none =>
        unfold jffs2_1pass_read_inode
        rw [hsize]
        exact ⟨rfl, fun mem hmem => by cases hmem⟩
    | some dest =>
        have through : (loadFragments cfg inode n.node.isize dest (fragList found)).1 = true := by
          apply (gets_through dest).mpr
          intro b hb
          obtain ⟨hmem, hino, hoff, hloads⟩ := (loaded_iff b).mp hb
          exact supported b hmem hino hoff hloads
        unfold jffs2_1pass_read_inode
        rw [hsize]
        dsimp only
        rw [if_pos through, mem_eq dest through]
        refine ⟨rfl, ?_⟩
        intro mem hmem i hi b hb
        cases hmem
        obtain ⟨t, ht, hsame, hne⟩ := covered i hi b hb
        obtain ⟨t', ht', hbyte⟩ | ⟨hnone, -⟩ :=
          byte_loaded cfg found inode n.node.isize hi dest
        · have : t = t' := by
            apply IsLatest.unique _ ht ht'
            intro c hc d hd hSc hSd
            exact distinct inode c hc d hd hSc.1 hSd.1
          subst this
          rw [← hsame]
          exact hbyte
        · exact absurd (hnone t ht.mem ht.about.1 ht.about.2.1) ht.about.2.2

/-- A build that sorts, and reads nothing but zeroes behind the copies of the headers. -/
def exampleConfig : Config where
  sortFragments := true
  strncmp := fun _ _ => 0
  lzo := false
  rtime_decompress := fun src _ _ => src
  dynrubin_decompress := fun src _ _ => src
  zlib_decompress := fun src _ _ => src
  lzo_decompress := fun src _ _ => src

/-- A file that was replaced, and its new contents: a hole of two bytes. -/
def replaced : List RawDirent :=
  [⟨1, 2, 7, ascii "a"⟩, ⟨1, 1, 5, ascii "a"⟩]

def hole : Fragment := ⟨⟨7, 1, 2, 0, 0, 2, 1, 0, []⟩, CRC_UNKNOWN⟩

/-- A file that was removed. -/
def removed : List RawDirent :=
  [⟨1, 1, 5, ascii "a"⟩, ⟨1, 2, 0, ascii "a"⟩]

end UBoot.Jffs2
