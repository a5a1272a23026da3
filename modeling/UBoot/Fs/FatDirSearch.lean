/-
# Searches in the directories of a FAT volume

A sub-directory is a chain of clusters, and the root directory some sectors in one piece. Where the
entries meet the demands of the loops, and the directory ends as these expect, the search of either
ends within it, and answers by its live entries.
-/

import UBoot.Fs.FatDirEntries

namespace UBoot.Fat

open UBoot.Lib

variable {disk : Disk} {mydata : Fsdata} {filename : List Byte} {t : Nat}
  {ls : List (Option (List Byte) × Raw)} {chain : List U32} {sectors : Nat}

/-! ## Directories -/

/-- The entries of a directory in clusters. -/
def clusterEntries (disk : Disk) (mydata : Fsdata) (chain : List U32) : Block := fun j =>
  entriesAt disk (startsect mydata (chain.getD (j / DIRENTSPERCLUST mydata) 0#32))
    (j % DIRENTSPERCLUST mydata)

/-- The entries of the root directory. -/
def rootEntries (disk : Disk) (mydata : Fsdata) : Block :=
  entriesAt disk (mydata.rootdir_sect.setWidth 32)

/-- Clusters that are not empty, and fit into the buffers. -/
def ClustersFit (mydata : Fsdata) : Prop :=
  0 < DIRENTSPERCLUST mydata ∧ DIRENTSPERCLUST mydata ≤ MAX_CLUSTSIZE / 32

/-- A directory in clusters that `get_dentfromdir` searches as it should: it ends with an entry,
with an end of the chain that `CHECK_CLUST` knows, or there is an entry with the name. -/
structure SubDirectory (disk : Disk) (mydata : Fsdata) (filename : List Byte) (chain : List U32)
    (t : Nat) (ls : List (Option (List Byte) × Raw)) : Prop where
  cache : Cache disk mydata
  fit : ClustersFit mydata
  links : chain.IsChain fun c d => fatEntry disk mydata c = d ∧ CHECK_CLUST d mydata.fatsize = false
  content : Content (clusterEntries disk mydata chain)
    (demands false (clusterEntries disk mydata chain) (DIRENTSPERCLUST mydata)
      (· % DIRENTSPERCLUST mydata)) 0 t ls
  within : t ≤ DIRENTSPERCLUST mydata * chain.length
  ends : (t < DIRENTSPERCLUST mydata * chain.length ∧ (clusterEntries disk mydata chain t).IsEnd) ∨
    (t = DIRENTSPERCLUST mydata * chain.length ∧
      ∀ c ∈ chain.getLast?, CHECK_CLUST (fatEntry disk mydata c) mydata.fatsize = true) ∨
    ∃ l ∈ ls, Named filename l

/-- A root directory of so many sectors that `do_fat_read` searches as it should: it ends with an
entry, or there is an entry with the name. -/
structure RootDirectory (disk : Disk) (mydata : Fsdata) (filename : List Byte) (sectors t : Nat)
    (ls : List (Option (List Byte) × Raw)) : Prop where
  fit : ClustersFit mydata
  content : Content (rootEntries disk mydata)
    (demands true (rootEntries disk mydata) (DIRENTSPERCLUST mydata) (· % DIRENTSPERBLOCK)) 0 t ls
  within : t ≤ DIRENTSPERBLOCK * sectors
  ends : (t < DIRENTSPERBLOCK * sectors ∧ (rootEntries disk mydata t).IsEnd) ∨
    ∃ l ∈ ls, Named filename l

/-! ## Sub-directories -/

/-- A volume whose table has been read since. -/
def Reread (disk : Disk) (mydata m : Fsdata) : Prop :=
  (∃ buf num, m = { mydata with fatbuf := buf, fatbufnum := num }) ∧ Cache disk m

theorem Reread.refl (cache : Cache disk mydata) : Reread disk mydata mydata := ⟨⟨_, _, rfl⟩, cache⟩

theorem Reread.get_fatent {m : Fsdata} (h : Reread disk mydata m) (c : U32) :
    ∃ m', get_fatent disk m c = (fatEntry disk mydata c, m') ∧ Reread disk mydata m' := by
  obtain ⟨⟨buf, num, rfl⟩, cache⟩ := h
  obtain ⟨buf', num', heq, cache'⟩ := get_fatent_eq cache c
  exact ⟨_, heq, ⟨buf', num', rfl⟩, cache'⟩

theorem Reread.startsect {m : Fsdata} (h : Reread disk mydata m) (c : U32) :
    startsect m c = startsect mydata c := by
  obtain ⟨⟨buf, num, rfl⟩, -⟩ := h
  rfl

theorem Reread.DIRENTSPERCLUST {m : Fsdata} (h : Reread disk mydata m) :
    DIRENTSPERCLUST m = DIRENTSPERCLUST mydata := by
  obtain ⟨⟨buf, num, rfl⟩, -⟩ := h
  rfl

theorem Reread.fatsize {m : Fsdata} (h : Reread disk mydata m) : m.fatsize = mydata.fatsize := by
  obtain ⟨⟨buf, num, rfl⟩, -⟩ := h
  rfl

/-- A cluster that has been read shows its entries. -/
theorem shows_cluster {n : Nat} (hn : n = DIRENTSPERCLUST mydata) {pre cs : List U32} {c : U32}
    (hchain : chain = pre ++ c :: cs) (old : Block) :
    Shows (readEntries disk (startsect mydata c) n old) n 0 (clusterEntries disk mydata chain)
      (n * pre.length) := by
  intro d hd
  rw [Nat.zero_add] at hd ⊢
  rw [readEntries, if_pos hd, clusterEntries, ← hn, Nat.mul_add_mod, Nat.mod_eq_of_lt hd,
    Nat.mul_add_div (by omega), Nat.div_eq_of_lt hd, Nat.add_zero, hchain]
  simp

/-- What holds in front of a block, and in it in front of an entry. -/
theorem pass_before {P : Nat → Prop} {a d : Nat} (h : ∀ j < a, P j) (h' : ∀ d' < d, P (a + d')) :
    ∀ j < a + d, P j := by
  intro j hj
  by_cases hlt : j < a
  · exact h j hlt
  · obtain ⟨d', rfl⟩ := Nat.exists_eq_add_of_le (not_lt.1 hlt)
    exact h' d' (by omega)

/-- One cluster: the search ends in it, or goes on with the entry of the table. -/
theorem get_dentfromdir_step (dir : SubDirectory disk mydata filename chain t ls)
    (hne : filename ≠ []) {pre cs : List U32} {c : U32} (hchain : chain = pre ++ c :: cs)
    (hpass : ∀ j < DIRENTSPERCLUST mydata * pre.length, Pass disk false filename
      (clusterEntries disk mydata chain) (DIRENTSPERCLUST mydata) (· % DIRENTSPERCLUST mydata) j)
    {s : DirState} (hs : Reread disk mydata s.mydata) (fuel : Nat) :
    (∃ r, get_dentfromdir disk filename (fuel + 1) c s = some (r, [c]) ∧ Answer filename ls r) ∨
    ∃ s', Reread disk mydata s'.mydata ∧
      get_dentfromdir disk filename (fuel + 1) c s =
        (if CHECK_CLUST (fatEntry disk mydata c) mydata.fatsize then some (none, [c])
        else (get_dentfromdir disk filename fuel (fatEntry disk mydata c) s').map
          fun (r, visited) => (r, c :: visited)) ∧
      ∀ j < DIRENTSPERCLUST mydata * (pre ++ [c]).length, Pass disk false filename
        (clusterEntries disk mydata chain) (DIRENTSPERCLUST mydata)
        (· % DIRENTSPERCLUST mydata) j := by
  generalize hn : DIRENTSPERCLUST mydata = n at *
  generalize hE : clusterEntries disk mydata chain = E at *
  have hposn : 0 < n := hn ▸ dir.fit.1
  have hpos (j : Nat) : j % n < n := Nat.mod_lt _ hposn
  have hclass : Classified disk false filename E n (· % n) 0 t ls :=
    Content.classified hpos hne (hE ▸ hn ▸ dir.content)
  have hlength : n * (pre.length + 1) ≤ n * chain.length := by
    refine Nat.mul_le_mul_left n ?_
    rw [hchain, List.length_append, List.length_cons]
    omega
  have hjudged : ∀ d < n,
      (∀ d' < d, Pass disk false filename E n (· % n) (n * pre.length + d')) →
        Judged disk false filename E n (· % n) ls (n * pre.length + d) := by
    intro d hd hbefore
    refine hclass.judged s ?_ (pass_before hpass hbefore)
    rcases dir.ends with ⟨-, hend⟩ | ⟨ht, -⟩ | hnamed
    · exact Or.inr (Or.inl (stop_of_isEnd (hpos t) (hE ▸ hend)))
    · rw [hn] at ht
      rw [Nat.mul_succ] at hlength
      exact Or.inl (by omega)
    · exact Or.inr (Or.inr hnamed)
  rw [get_dentfromdir]
  simp only [hs.DIRENTSPERCLUST, hs.startsect, hn]
  have hcases := @search_cases disk E n 0 (n * pre.length)
    { s with block := readEntries disk (startsect mydata c) n s.block }
    false c filename (· % n) ls n (hE ▸ shows_cluster hn.symm hchain s.block)
    (fun d hd => by rw [Nat.mul_add_mod, Nat.mod_eq_of_lt hd, Nat.zero_add]) hjudged
  rcases hcases with ⟨l, hl, hnamed, hfound⟩ | ⟨d, hd, hstop, hbefore, hended⟩ |
    ⟨s', hnext, hdata, hall⟩
  · left
    rw [hfound]
    exact ⟨_, rfl, l, hl, hnamed, rfl⟩
  · left
    rw [hended]
    exact ⟨none, rfl, hclass.ended s hstop (pass_before hpass hbefore)⟩
  · right
    have hs' : Reread disk mydata s'.mydata := hdata ▸ hs
    obtain ⟨m, hentry, hm⟩ := hs'.get_fatent c
    refine ⟨{ s' with mydata := m }, hm, ?_, ?_⟩
    · rw [hnext]
      simp only [hentry, hm.fatsize]
    · rw [List.length_append, List.length_singleton, Nat.mul_succ]
      exact pass_before hpass hall

theorem get_dentfromdir_from (dir : SubDirectory disk mydata filename chain t ls)
    (hne : filename ≠ []) {pre cs : List U32} {c : U32} (hchain : chain = pre ++ c :: cs)
    (hpass : ∀ j < DIRENTSPERCLUST mydata * pre.length, Pass disk false filename
      (clusterEntries disk mydata chain) (DIRENTSPERCLUST mydata) (· % DIRENTSPERCLUST mydata) j)
    {s : DirState} (hs : Reread disk mydata s.mydata) {fuel : Nat}
    (hfuel : (c :: cs).length ≤ fuel) :
    ∃ r visited, get_dentfromdir disk filename fuel c s = some (r, visited) ∧
      visited <+: c :: cs ∧ Answer filename ls r := by
  have hpos (j : Nat) : j % DIRENTSPERCLUST mydata < DIRENTSPERCLUST mydata :=
    Nat.mod_lt _ dir.fit.1
  have hclass := @Content.classified disk _ _ false filename (· % DIRENTSPERCLUST mydata) 0 t ls
    hpos hne dir.content
  induction cs generalizing pre c s fuel with
  | nil =>
      obtain ⟨fuel, rfl⟩ := Nat.exists_eq_add_of_le' (show 1 ≤ fuel from hfuel)
      rcases get_dentfromdir_step dir hne hchain hpass hs fuel with
        ⟨r, hr, hanswer⟩ | ⟨s', -, hgo, hall⟩
      · exact ⟨r, [c], hr, List.prefix_rfl, hanswer⟩
      · rw [← hchain] at hall
        rcases dir.ends with ⟨hlt, hend⟩ | ⟨-, hlast⟩ | hnamed
        · have hstop := @stop_of_isEnd disk _ _ t false (· % DIRENTSPERCLUST mydata) (hpos t) hend
          exact absurd hall (hclass.not_all_passed s dir.within (Or.inl ⟨hlt, hstop⟩))
        · have habsent : Answer filename ls none :=
            hclass.absent s fun j hj => hall j (lt_of_lt_of_le hj dir.within)
          rw [hgo, if_pos (hlast c (by rw [hchain]; simp))]
          exact ⟨none, [c], rfl, List.prefix_rfl, habsent⟩
        · exact absurd hall (hclass.not_all_passed s dir.within (Or.inr hnamed))
  | cons d cs ih =>
      obtain ⟨fuel, rfl⟩ := Nat.exists_eq_add_of_le' (le_trans (Nat.le_add_left 1 _) hfuel)
      rcases get_dentfromdir_step dir hne hchain hpass hs fuel with
        ⟨r, hr, hanswer⟩ | ⟨s', hs', hgo, hall⟩
      · exact ⟨r, [c], hr, ⟨d :: cs, rfl⟩, hanswer⟩
      · have hlink := dir.links
        rw [hchain, List.isChain_append_cons_cons] at hlink
        obtain ⟨hentry, hvalid⟩ := hlink.2.1
        have hchain' : chain = (pre ++ [c]) ++ d :: cs := by rw [hchain, List.append_assoc]; rfl
        obtain ⟨r, visited, hr, hvisited, hanswer⟩ :=
          ih hchain' hall hs' (Nat.le_of_succ_le_succ hfuel)
        refine ⟨r, c :: visited, ?_, (List.prefix_cons_inj c).2 hvisited, hanswer⟩
        rw [hgo, hentry, hvalid, if_neg Bool.false_ne_true, hr]
        rfl

/-! ## The root directory -/

theorem entriesAt_add (sector : U32) (q i : Nat) :
    entriesAt disk (sector + BitVec.ofNat 32 q) i =
      entriesAt disk sector (DIRENTSPERBLOCK * q + i) := by
  funext k
  have hsplit : 32 * (DIRENTSPERBLOCK * q + i) + k = q * FS_BLOCK_SIZE + (32 * i + k) := by
    unfold DIRENTSPERBLOCK FS_BLOCK_SIZE
    omega
  rw [entriesAt, entriesAt, hsplit, diskByte_add]

/-- A sector that has been read, with those behind it, shows its entries. -/
theorem shows_sector (n q : Nat) (old : Block) :
    Shows (readEntries disk (mydata.rootdir_sect.setWidth 32 + BitVec.ofNat 32 q) n old) n 0
      (rootEntries disk mydata) (DIRENTSPERBLOCK * q) := by
  intro d hd
  rw [Nat.zero_add] at hd ⊢
  rw [readEntries, if_pos hd, entriesAt_add, rootEntries]

theorem do_fat_read_root_from (dir : RootDirectory disk mydata filename sectors t ls)
    (hne : filename ≠ []) {q rest : Nat} (hq : q + rest = sectors)
    (hpass : ∀ j < DIRENTSPERBLOCK * q, Pass disk true filename
      (rootEntries disk mydata) (DIRENTSPERCLUST mydata) (· % DIRENTSPERBLOCK) j)
    {s : DirState} (hs : s.mydata = mydata) {fuel : Nat} (hfuel : rest ≤ fuel) :
    ∃ r k, do_fat_read_root disk filename fuel
        (mydata.rootdir_sect.setWidth 32 + BitVec.ofNat 32 q) s = some (r, k) ∧
      k ≤ rest ∧ Answer filename ls r := by
  have hsize : DIRENTSPERBLOCK ≤ DIRENTSPERCLUST mydata :=
    Nat.le_mul_of_pos_left _ (Nat.pos_of_mul_pos_right dir.fit.1)
  have hpos (j : Nat) : j % DIRENTSPERBLOCK < DIRENTSPERCLUST mydata :=
    lt_of_lt_of_le (Nat.mod_lt _ (by decide)) hsize
  have hclass := @Content.classified disk _ _ true filename (· % DIRENTSPERBLOCK) 0 t ls hpos hne
    dir.content
  have hends : (t < DIRENTSPERBLOCK * sectors ∧ Stop disk true (rootEntries disk mydata)
      (DIRENTSPERCLUST mydata) (· % DIRENTSPERBLOCK) t) ∨ ∃ l ∈ ls, Named filename l :=
    dir.ends.imp_left fun hend => ⟨hend.1, stop_of_isEnd (hpos t) hend.2⟩
  induction rest generalizing q s fuel with
  | zero =>
      obtain rfl : q = sectors := hq
      exact absurd hpass (hclass.not_all_passed s dir.within hends)
  | succ rest ih =>
      obtain ⟨fuel, rfl⟩ := Nat.exists_eq_add_of_le' (le_trans (Nat.le_add_left 1 _) hfuel)
      have hcases := @search_cases disk (rootEntries disk mydata) (DIRENTSPERCLUST mydata) 0
        (DIRENTSPERBLOCK * q)
        { s with
            block := readEntries disk (mydata.rootdir_sect.setWidth 32 + BitVec.ofNat 32 q)
              (DIRENTSPERCLUST mydata) s.block }
        true 0#32 filename (· % DIRENTSPERBLOCK) ls DIRENTSPERBLOCK
        (shows_sector _ q s.block)
        (fun d hd => by rw [Nat.mul_add_mod, Nat.mod_eq_of_lt hd, Nat.zero_add])
        (fun d hd hbefore => hclass.judged s (Or.inr (hends.imp_left And.right))
          (pass_before hpass hbefore))
      rw [do_fat_read_root]
      simp only [hs]
      rcases hcases with ⟨l, hl, hnamed, hfound⟩ | ⟨d, hd, hstop, hbefore, hended⟩ |
        ⟨s', hnext, hdata, hall⟩
      · rw [hs] at hfound
        rw [hfound]
        exact ⟨_, 1, rfl, by omega, l, hl, hnamed, rfl⟩
      · rw [hs] at hended
        rw [hended]
        exact ⟨none, 1, rfl, by omega, hclass.ended s hstop (pass_before hpass hbefore)⟩
      · rw [hs] at hnext
        have hnextsect : mydata.rootdir_sect.setWidth 32 + BitVec.ofNat 32 q + 1#32 =
            mydata.rootdir_sect.setWidth 32 + BitVec.ofNat 32 (q + 1) := by
          rw [BitVec.add_assoc, BitVec.ofNat_add]
        have hq' : q + 1 + rest = sectors := by omega
        obtain ⟨r, k, hr, hk, hanswer⟩ := ih hq' (pass_before hpass hall) (hdata.trans hs)
          (Nat.le_of_succ_le_succ hfuel)
        rw [hnext]
        simp only [hnextsect, hr]
        exact ⟨r, k + 1, rfl, by omega, hanswer⟩

/-! ## The searches -/

/-- The search in a directory in clusters ends, does not leave its clusters, and answers by its live
entries. -/
def SubDirectorySearched (disk : Disk) (mydata : Fsdata) (filename : List Byte) (c : U32)
    (cs : List U32) (ls : List (Option (List Byte) × Raw)) : Prop :=
  ∀ block get_vfatname_block fuel, (c :: cs).length ≤ fuel → ∃ r visited,
    get_dentfromdir disk filename fuel c ⟨mydata, block, get_vfatname_block⟩ = some (r, visited) ∧
      visited <+: c :: cs ∧ Answer filename ls r

/-- The search in the root directory ends, does not leave its sectors, and answers by its live
entries. -/
def RootDirectorySearched (disk : Disk) (mydata : Fsdata) (filename : List Byte) (sectors : Nat)
    (ls : List (Option (List Byte) × Raw)) : Prop :=
  ∀ block get_vfatname_block fuel, sectors ≤ fuel → ∃ r k,
    do_fat_read_root disk filename fuel (mydata.rootdir_sect.setWidth 32)
        ⟨mydata, block, get_vfatname_block⟩ = some (r, k) ∧
      k ≤ sectors ∧ Answer filename ls r

/-- A FAT12 volume with a root directory of one sector, and a directory in the last cluster 2 of a
chain. -/
def sampleVolume12 : Fsdata where
  fatbuf := fun _ => 0#8
  fatsize := .fat12
  fatlength := 12
  fat_sect := 1
  rootdir_sect := 13
  clust_size := 1
  data_begin := 12
  fatbufnum := -1

/-- `hello.text` in a slot, and its entry `HELLO~1.TXT`. -/
def sampleRoot : List Byte :=
  [0x41, 0x68, 0, 0x65, 0, 0x6c, 0, 0x6c, 0, 0x6f, 0, 0x0f, 0, 0xed, 0x2e, 0,
    0x74, 0, 0x65, 0, 0x78, 0, 0x74, 0, 0, 0, 0, 0, 0xff, 0xff, 0xff, 0xff,
    0x48, 0x45, 0x4c, 0x4c, 0x4f, 0x7e, 0x31, 0x20, 0x54, 0x58, 0x54]

/-- The directory has so many entries: `AAAAAAAA`, `ABAAAAAA` and so on. -/
def sampleDisk12 (entries : Nat) : Disk := fun sector j =>
  if sector = 1#32 then
    if j = 3 then 0xff#8 else if j = 4 then 0x0f#8 else 0#8
  else if sector = 13#32 then sampleRoot.getD j 0#8
  else if sector = 14#32 ∧ j / 32 < entries then
    if j % 32 = 1 then 0x41#8 + BitVec.ofNat 8 (j / 32)
    else if j % 32 < 8 then 0x41#8
    else if j % 32 < 11 then 0x20#8
    else 0#8
  else 0#8

/-- `hello.text` -/
def sampleName : List Byte := [0x68, 0x65, 0x6c, 0x6c, 0x6f, 0x2e, 0x74, 0x65, 0x78, 0x74]

theorem sampleName_slots :
    LongName (rootEntries (sampleDisk12 2) sampleVolume12) 0 1 sampleName where
  pos := by decide
  length := by decide
  volume := by decide
  number := by decide
  mark := by decide
  checksum := by decide
  latin := by
    intro k hk c hc
    obtain rfl : k = 0 := by omega
    have hall : ((rootEntries (sampleDisk12 2) sampleVolume12 0).chars.zip
        (rootEntries (sampleDisk12 2) sampleVolume12 0).high).all
          (fun c => c.2 = 0#8 ∨ c = (0xff#8, 0xff#8)) = true := by decide
    simpa using List.all_eq_true.1 hall c hc
  full := by decide
  nonzero := by decide
  text := ⟨[0x00, 0xff, 0xff], by decide, Or.inr ⟨_, rfl⟩⟩

end UBoot.Fat
