/-
# The contents of a file on a FAT volume

`get_contents` joins neighbouring clusters into one read, and agrees with the reader that takes the
clusters of the chain one after the other, unless an entry of a FAT32 table has one of its four
reserved bits set, or the size does not fit in a `long`.
-/

import UBoot.Fs.FatTable
import UBoot.Lib.Masks

namespace UBoot.Fat

open UBoot.Lib

variable {disk : Disk} {mydata : Fsdata}

/-! ## One turn of the loops -/

/-- The bytes of a cluster. -/
def clusterBytes (disk : Disk) (mydata : Fsdata) (c : U32) : List Byte :=
  diskBytes disk (startsect mydata c) (bytesperclust mydata)

/-- The loops keep a run of neighbouring clusters that is still to be read: from the current cluster
to the last one. -/
structure Joined (disk : Disk) (vol : Fsdata) (s : Contents) : Prop where
  volume : ∃ buf num, s.mydata = { vol with fatbuf := buf, fatbufnum := num }
  cache : Cache disk s.mydata
  run : ∃ k, s.actsize = (k + 1) * bytesperclust vol ∧
    startsect vol s.endclust = startsect vol s.curclust + BitVec.ofNat 32 (k * vol.clust_size.toNat)
  begun : s.actsize ≤ s.filesize + bytesperclust vol
  room : s.filesize + bytesperclust vol ≤ 2 ^ 32

/-- Memory in the end, when these bytes come behind the run. -/
def Contents.finally (disk : Disk) (s : Contents) (more : List Byte) : Nat → Byte :=
  store s.mem s.buffer ((diskBytes disk (startsect s.mydata s.curclust) s.actsize ++ more).take
    s.filesize)

variable {vol : Fsdata} {s : Contents}

/-- The run reaches the end of the file. -/
theorem contents_last (h : Joined disk vol s) (hlast : ¬ s.actsize < s.filesize) (fuel : Nat)
    (more : List Byte) :
    contents disk (fuel + 1) s = some (long (s.gotsize + s.filesize), s.finally disk more) := by
  obtain ⟨buf, num, hvol⟩ := h.volume
  obtain ⟨k, hact, hsect⟩ := h.run
  have hbpc : bytesperclust s.mydata = bytesperclust vol := by rw [hvol]; rfl
  have hstart (c : U32) : startsect s.mydata c = startsect vol c := by rw [hvol]; rfl
  have hbefore : s.actsize - bytesperclust vol =
      k * vol.clust_size.toNat * FS_BLOCK_SIZE := by
    rw [hact, Nat.add_one_mul, Nat.add_sub_cancel, bytesperclust, Nat.mul_assoc]
  have hle := h.begun
  have hsum : k * vol.clust_size.toNat * FS_BLOCK_SIZE +
      (s.filesize - k * vol.clust_size.toNat * FS_BLOCK_SIZE) = s.filesize := by
    omega
  rw [contents, if_neg hlast]
  simp only [get_cluster_eq, hbpc, hstart, hbefore, hsect, store_diskBytes, hsum]
  rw [Nat.add_assoc, hsum, Contents.finally, hstart, List.take_append_of_le_length
    (by rw [length_diskBytes]; omega), take_diskBytes _ (by omega)]

/-- The entry behind the run is no cluster. -/
theorem contents_stop (h : Joined disk vol s) (hlt : s.actsize < s.filesize)
    (hbad : CHECK_CLUST (fatEntry disk vol s.endclust) vol.fatsize = true) (fuel : Nat) :
    ∃ r m, contents disk (fuel + 1) s = some (long r, m) ∧ r < s.gotsize + s.filesize := by
  obtain ⟨buf, num, hvol⟩ := h.volume
  obtain ⟨buf', num', hent, hcache⟩ := get_fatent_eq h.cache s.endclust
  obtain ⟨buf'', num'', hent', -⟩ := get_fatent_eq hcache s.endclust
  have hbad : CHECK_CLUST (fatEntry disk s.mydata s.endclust) s.mydata.fatsize = true := by
    rw [hvol]
    exact hbad
  have hbad' : CHECK_CLUST (fatEntry disk { s.mydata with fatbuf := buf', fatbufnum := num' }
      s.endclust) s.mydata.fatsize = true := hbad
  rw [contents, if_pos hlt]
  simp only [hent, hent', hbad, hbad', if_true]
  split
  · exact ⟨_, _, rfl, Nat.add_lt_add_left hlt _⟩
  · exact ⟨_, _, rfl, by omega⟩

/-- The first sector of the next cluster. -/
theorem startsect_succ {c : U32} (hc : 0#32 < c) (hnext : 0#32 < c + 1#32) :
    startsect vol (c + 1#32) = startsect vol c + vol.clust_size.setWidth 32 := by
  rw [startsect, startsect, if_pos hc, if_pos hnext, BitVec.add_mul, BitVec.one_mul,
    BitVec.add_assoc]

theorem pos_of_check {c : U32} {fatsize : FatSize} (h : CHECK_CLUST c fatsize = false) :
    0#32 < c := by
  have h : ¬ (c.toNat ≤ 1 ∨ _) := of_decide_eq_false h
  rw [BitVec.lt_def, BitVec.toNat_ofNat]
  omega

/-- A state of the loops after a turn: there is one more cluster in the run, or in a new one. -/
structure Follows (disk : Disk) (vol : Fsdata) (s t : Contents) : Prop where
  joined : Joined disk vol t
  endclust : t.endclust = fatEntry disk vol s.endclust
  total : t.gotsize + t.filesize = s.gotsize + s.filesize
  ahead : t.filesize + s.actsize + bytesperclust vol = s.filesize + t.actsize
  bytes : ∀ more, t.finally disk more = s.finally disk (clusterBytes disk vol t.endclust ++ more)

/-- The entry behind the run is a cluster elsewhere: the run is read. -/
theorem contents_jump (h : Joined disk vol s) (hlt : s.actsize < s.filesize)
    (hgood : CHECK_CLUST (fatEntry disk vol s.endclust) vol.fatsize = false)
    (hjump : fatEntry disk vol s.endclust - 1#32 ≠ s.endclust) (fuel : Nat) :
    ∃ t, contents disk (fuel + 1) s = contents disk fuel t ∧ Follows disk vol s t := by
  obtain ⟨mydata, mem, buffer, filesize, gotsize, curclust, endclust, actsize⟩ := s
  obtain ⟨⟨buf, num, rfl⟩, cache, -, -, room⟩ := h
  obtain ⟨buf', num', hent, hcache⟩ := get_fatent_eq cache endclust
  obtain ⟨buf'', num'', hent', hcache'⟩ := get_fatent_eq hcache endclust
  dsimp only at hlt hgood hjump room hent hent'
  have hentry (buf : Nat → Byte) (num : Int) :
      fatEntry disk { vol with fatbuf := buf, fatbufnum := num } endclust =
        fatEntry disk vol endclust := rfl
  rw [contents, if_pos hlt]
  simp only [hent, hent', hentry, hgood, if_pos hjump, Bool.false_eq_true, if_false]
  refine ⟨_, rfl, ⟨⟨buf'', num'', rfl⟩, hcache', ⟨0, ?_, ?_⟩, ?_, ?_⟩, rfl, ?_, ?_, fun more => ?_⟩
  · exact (Nat.one_mul _).symm
  · simp
  · exact Nat.le_add_left _ _
  · exact (Nat.add_le_add_right (Nat.sub_le _ _) _).trans room
  · dsimp only
    omega
  · simp only [bytesperclust]
    omega
  · have hbegin : (diskBytes disk (startsect vol curclust) actsize).take filesize =
        diskBytes disk (startsect vol curclust) actsize :=
      List.take_of_length_le (by rw [length_diskBytes]; omega)
    simp only [Contents.finally, get_cluster_eq]
    change store (store mem buffer (diskBytes disk (startsect vol curclust) actsize))
        (buffer + actsize) (List.take (filesize - actsize)
          (clusterBytes disk vol (fatEntry disk vol endclust) ++ more)) =
      store mem buffer (List.take filesize (diskBytes disk (startsect vol curclust) actsize ++
        (clusterBytes disk vol (fatEntry disk vol endclust) ++ more)))
    conv_rhs => rw [List.take_append, hbegin, ← store_append, length_diskBytes]

/-- The entry behind the run is the cluster behind it: the run gets longer. -/
theorem contents_join (h : Joined disk vol s) (hlt : s.actsize < s.filesize)
    (hgood : CHECK_CLUST (fatEntry disk vol s.endclust) vol.fatsize = false)
    (hend : 0#32 < s.endclust)
    (hjoin : fatEntry disk vol s.endclust - 1#32 = s.endclust) (fuel : Nat) :
    ∃ t, contents disk (fuel + 1) s = contents disk fuel t ∧ Follows disk vol s t := by
  obtain ⟨mydata, mem, buffer, filesize, gotsize, curclust, endclust, actsize⟩ := s
  obtain ⟨⟨buf, num, rfl⟩, cache, ⟨k, hact, hsect⟩, begun, room⟩ := h
  obtain ⟨buf', num', hent, hcache⟩ := get_fatent_eq cache endclust
  dsimp only at hlt hgood hjoin hact hsect begun room hent
  have hentry (buf : Nat → Byte) (num : Int) :
      fatEntry disk { vol with fatbuf := buf, fatbufnum := num } endclust =
        fatEntry disk vol endclust := rfl
  have hsucc : fatEntry disk vol endclust = endclust + 1#32 := by
    calc
      fatEntry disk vol endclust = fatEntry disk vol endclust - 1#32 + 1#32 :=
        (BitVec.sub_add_cancel _ _).symm
      _ = endclust + 1#32 := by rw [hjoin]
  have hsect' : startsect vol (endclust + 1#32) =
      startsect vol curclust + BitVec.ofNat 32 ((k + 1) * vol.clust_size.toNat) := by
    rw [startsect_succ hend (hsucc ▸ pos_of_check hgood), hsect, Nat.add_one_mul, BitVec.ofNat_add,
      BitVec.add_assoc, BitVec.ofNat_toNat]
  have hmod : (actsize + bytesperclust vol) % 2 ^ 32 = actsize + bytesperclust vol :=
    Nat.mod_eq_of_lt (by omega)
  have hact' : actsize + bytesperclust vol = (k + 1 + 1) * bytesperclust vol := by
    rw [hact, Nat.add_one_mul (k + 1)]
  have hsize (buf : Nat → Byte) (num : Int) :
      bytesperclust { vol with fatbuf := buf, fatbufnum := num } = bytesperclust vol := rfl
  rw [contents, if_pos hlt]
  simp only [hent, hentry, hgood, hjoin, ne_eq, not_true_eq_false, Bool.false_eq_true, if_false,
    hsize, hmod]
  refine ⟨_, rfl, ⟨⟨buf', num', rfl⟩, hcache, ⟨k + 1, hact', ?_⟩, ?_, room⟩, rfl, rfl, ?_,
    fun more => ?_⟩
  · dsimp only
    rw [hsucc, hsect']
  · exact Nat.add_le_add_right hlt.le _
  · exact Nat.add_assoc _ _ _
  · have hbehind : diskBytes disk (startsect vol curclust) (actsize + bytesperclust vol) =
        diskBytes disk (startsect vol curclust) actsize ++
          clusterBytes disk vol (endclust + 1#32) := by
      have hsectors : actsize = (k + 1) * vol.clust_size.toNat * FS_BLOCK_SIZE := by
        rw [hact, bytesperclust, Nat.mul_assoc]
      rw [clusterBytes, hsect', hsectors, diskBytes_add]
    simp only [Contents.finally]
    change store mem buffer (List.take filesize
      (diskBytes disk (startsect vol curclust) (actsize + bytesperclust vol) ++ more)) = _
    rw [hbehind, hsucc, List.append_assoc]
    rfl

/-! ## The whole chain -/

/-- The number of a cluster: `CHECK_CLUST` lets it pass, and it is no mark of a FAT12 table. -/
def Valid (mydata : Fsdata) (c : U32) : Prop :=
  CHECK_CLUST c mydata.fatsize = false ∧ (mydata.fatsize = .fat12 → c.toNat < 0xff7)

instance {mydata : Fsdata} {c : U32} : Decidable (Valid mydata c) :=
  inferInstanceAs (Decidable (_ ∧ _))

/-- The chain of a file: it begins with the first cluster, every entry links to the next cluster,
and the clusters hold so many bytes. -/
structure WellFormed (disk : Disk) (mydata : Fsdata) (start : U32) (n : Nat) (chain : List U32) :
    Prop where
  first : ∀ c ∈ chain.head?, c = start
  valid : ∀ c ∈ chain, Valid mydata c
  links : chain.IsChain fun c next => link mydata (fatEntry disk mydata c) = next
  enough : n ≤ chain.length * bytesperclust mydata

/-- The reserved bits are clear in every entry that leads to a cluster with some of the first `n`
bytes. -/
def Clear (disk : Disk) (mydata : Fsdata) (n : Nat) (chain : List U32) : Prop :=
  ∀ i c, chain[i]? = some c → (i + 1) * bytesperclust mydata < n →
    link mydata (fatEntry disk mydata c) = fatEntry disk mydata c

theorem clear_of_le {n : Nat} {chain : List U32} (h : n ≤ bytesperclust mydata) :
    Clear disk mydata n chain := by
  intro i c _ hlt
  have : bytesperclust mydata ≤ (i + 1) * bytesperclust mydata :=
    Nat.le_mul_of_pos_left _ (Nat.succ_pos i)
  omega

theorem clear_cons {n : Nat} {c : U32} {chain : List U32} (h : bytesperclust mydata < n) :
    Clear disk mydata n (c :: chain) ↔
      link mydata (fatEntry disk mydata c) = fatEntry disk mydata c ∧
        Clear disk mydata (n - bytesperclust mydata) chain := by
  constructor
  · refine fun hclear => ⟨hclear 0 c rfl (by omega), fun i d hd hlt => hclear (i + 1) d hd ?_⟩
    rw [Nat.add_one_mul]
    omega
  · rintro ⟨hfirst, hrest⟩ i d hd hlt
    cases i with
    | zero =>
        obtain rfl : c = d := by simpa using hd
        exact hfirst
    | succ i =>
        refine hrest i d hd ?_
        rw [Nat.add_one_mul] at hlt
        omega

/-- An entry with a reserved bit is no cluster. -/
theorem check_of_reserved {mydata : Fsdata} {entry : U32} (h : link mydata entry ≠ entry) :
    CHECK_CLUST entry mydata.fatsize = true := by
  rw [link] at h
  split at h
  · next hsize =>
      rw [CHECK_CLUST, decide_eq_true_eq, if_pos hsize]
      by_contra hsmall
      refine h (BitVec.eq_of_toNat_eq ?_)
      rw [and_low_toNat (k := 28) rfl]
      exact Nat.mod_eq_of_lt (by omega)
  · exact absurd rfl h

/-- The loops read the rest of a chain, or stop at a reserved bit. -/
theorem contents_run (rest : List U32) (h : Joined disk vol s) (hend : 0#32 < s.endclust)
    (valid : ∀ c ∈ rest, Valid vol c)
    (links : (s.endclust :: rest).IsChain fun c next => link vol (fatEntry disk vol c) = next)
    (enough : s.filesize ≤ s.actsize + rest.length * bytesperclust vol)
    {fuel : Nat} (hfuel : rest.length ≤ fuel) :
    ∃ r m, contents disk (fuel + 1) s = some (long r, m) ∧
      (Clear disk vol (s.filesize + bytesperclust vol - s.actsize) (s.endclust :: rest) ∧
          r = s.gotsize + s.filesize ∧
          m = s.finally disk (rest.flatMap (clusterBytes disk vol)) ∨
        ¬ Clear disk vol (s.filesize + bytesperclust vol - s.actsize) (s.endclust :: rest) ∧
          r < s.gotsize + s.filesize) := by
  induction rest generalizing s fuel with
  | nil =>
      have hlast : ¬ s.actsize < s.filesize := by
        simpa using enough
      exact ⟨_, _, contents_last h hlast fuel [], Or.inl ⟨clear_of_le (by omega), rfl, rfl⟩⟩
  | cons c rest ih =>
      by_cases hlast : s.actsize < s.filesize
      swap
      · exact ⟨_, _, contents_last h hlast fuel _, Or.inl ⟨clear_of_le (by omega), rfl, rfl⟩⟩
      rw [List.isChain_cons_cons] at links
      rw [clear_cons (by omega)]
      by_cases hclear : link vol (fatEntry disk vol s.endclust) = fatEntry disk vol s.endclust
      · have hentry : fatEntry disk vol s.endclust = c := hclear.symm.trans links.1
        have hgood : CHECK_CLUST (fatEntry disk vol s.endclust) vol.fatsize = false := by
          rw [hentry]
          exact (valid c List.mem_cons_self).1
        obtain ⟨fuel, rfl⟩ := Nat.exists_eq_add_of_le' (Nat.succ_le_of_lt (Nat.lt_of_lt_of_le
          (Nat.succ_pos _) hfuel))
        obtain ⟨t, hstep, hnext⟩ : ∃ t, contents disk (fuel + 1 + 1) s = contents disk (fuel + 1) t ∧
            Follows disk vol s t := by
          by_cases hjump : fatEntry disk vol s.endclust - 1#32 = s.endclust
          · exact contents_join h hlast hgood hend hjump _
          · exact contents_jump h hlast hgood hjump _
        have htend : t.endclust = c := hnext.endclust.trans hentry
        have hahead := hnext.ahead
        have hbegun := hnext.joined.begun
        have hlen : (rest.length + 1) * bytesperclust vol =
            rest.length * bytesperclust vol + bytesperclust vol := Nat.add_one_mul _ _
        rw [List.length_cons] at enough hfuel
        obtain ⟨r, m, hrun, hcase⟩ := ih hnext.joined
          (htend ▸ pos_of_check (valid c List.mem_cons_self).1)
          (fun d hd => valid d (List.mem_cons_of_mem _ hd)) (htend ▸ links.2) (by omega)
          (Nat.le_of_succ_le_succ hfuel)
        have hleft : t.filesize + bytesperclust vol - t.actsize =
            s.filesize + bytesperclust vol - s.actsize - bytesperclust vol := by
          omega
        rw [hnext.total, hleft, hnext.bytes, htend] at hcase
        refine ⟨r, m, hstep.trans hrun, ?_⟩
        simpa only [hclear, true_and, List.flatMap_cons] using hcase
      · obtain ⟨r, m, hstop, hshort⟩ := contents_stop h hlast (check_of_reserved hclear) fuel
        exact ⟨r, m, hstop, Or.inr ⟨fun hall => hclear hall.1, hshort⟩⟩

/-! ## Any chain -/

theorem get_fatent_clust_size (mydata : Fsdata) (c : U32) :
    (get_fatent disk mydata c).2.clust_size = mydata.clust_size := by
  simp only [get_fatent, fillFatbuf]
  split <;> rfl

theorem get_cluster_outside {c : U32} {buffer size i : Nat} {mem : Nat → Byte}
    (h : i < buffer ∨ buffer + size ≤ i) : get_cluster disk mydata c buffer size mem i = mem i := by
  rw [get_cluster_eq]
  exact store_outside (by rwa [length_diskBytes])

/-- The last turn leaves the memory around the bytes alone. -/
theorem contents_last_outside (begun : s.actsize ≤ s.filesize + bytesperclust s.mydata)
    (hlast : ¬ s.actsize < s.filesize) (fuel : Nat) :
    ∃ r m, contents disk (fuel + 1) s = some (long r, m) ∧
      ∀ i, i < s.buffer ∨ s.buffer + s.filesize ≤ i → m i = s.mem i := by
  rw [contents, if_neg hlast]
  refine ⟨_, _, rfl, fun i hi => ?_⟩
  rw [get_cluster_outside (by omega), get_cluster_outside (by omega)]

/-- Whatever the entries are, the loops come to an end, and leave alone the memory around what is to
be read. -/
theorem contents_bounded {fuel : Nat} (hpos : 0 < bytesperclust s.mydata)
    (least : bytesperclust s.mydata ≤ s.actsize)
    (begun : s.actsize ≤ s.filesize + bytesperclust s.mydata)
    (room : s.filesize + bytesperclust s.mydata ≤ 2 ^ 32)
    (hfuel : 2 * s.filesize ≤ fuel + s.actsize) :
    ∃ r m, contents disk (fuel + 1) s = some (long r, m) ∧
      ∀ i, i < s.buffer ∨ s.buffer + s.filesize ≤ i → m i = s.mem i := by
  induction fuel generalizing s with
  | zero => exact contents_last_outside begun (by omega) 0
  | succ fuel ih =>
      by_cases hlt : s.actsize < s.filesize
      swap
      · exact contents_last_outside begun hlt _
      obtain ⟨newclust, mydata, hent, hclust⟩ : ∃ c m, get_fatent disk s.mydata s.endclust = (c, m) ∧
          m.clust_size = s.mydata.clust_size := ⟨_, _, rfl, get_fatent_clust_size _ _⟩
      obtain ⟨curclust, mydata', hent', hclust'⟩ : ∃ c m, get_fatent disk mydata s.endclust = (c, m) ∧
          m.clust_size = mydata.clust_size := ⟨_, _, rfl, get_fatent_clust_size _ _⟩
      have hsize : bytesperclust mydata = bytesperclust s.mydata := by
        rw [bytesperclust, hclust, bytesperclust]
      have hsize' : bytesperclust mydata' = bytesperclust s.mydata := by
        rw [← hsize, bytesperclust, hclust', bytesperclust]
      rw [contents, if_pos hlt]
      simp only [hent, hent']
      split
      · split
        · exact ⟨_, _, rfl, fun i hi => get_cluster_outside (by omega)⟩
        · -- the run is read, and what is left gets shorter by it
          obtain ⟨r, m, hrun, hout⟩ := ih
            (s := { mydata := mydata', mem := get_cluster disk mydata s.curclust s.buffer s.actsize s.mem,
                    buffer := s.buffer + s.actsize, filesize := s.filesize - s.actsize,
                    gotsize := s.gotsize + s.actsize, curclust, endclust := curclust,
                    actsize := bytesperclust mydata' })
            (by dsimp only; omega) le_rfl (by dsimp only; omega) (by dsimp only; omega)
            (by dsimp only; omega)
          refine ⟨r, m, hrun, fun i hi => ?_⟩
          exact (hout i (by dsimp only; omega)).trans (get_cluster_outside (by omega))
      · split
        · exact ⟨_, _, rfl, fun _ _ => rfl⟩
        · -- the run gets longer
          have hmod : (s.actsize + bytesperclust mydata) % 2 ^ 32 =
              s.actsize + bytesperclust s.mydata := by
            rw [hsize]
            exact Nat.mod_eq_of_lt (by omega)
          rw [hmod]
          exact ih (by dsimp only; omega) (by dsimp only; omega) (by dsimp only; omega)
            (by dsimp only; omega) (by dsimp only; omega)

/-! ## The file -/

/-- How many bytes are to be read: the file, or as many of it as there is room for. -/
def wanted (dentptr : DirEntry) (maxsize : U32) : Nat :=
  if maxsize = 0#32 then dentptr.size.toNat else min dentptr.size.toNat maxsize.toNat

theorem sizeToRead_eq (dentptr : DirEntry) (maxsize : U32) :
    sizeToRead dentptr maxsize = wanted dentptr maxsize := by
  rw [sizeToRead, wanted]
  by_cases hzero : maxsize = 0#32
  · rw [if_pos hzero, hzero]
    rfl
  · have hpos : 0 < maxsize.toNat := Nat.pos_of_ne_zero fun h => hzero (BitVec.eq_of_toNat_eq h)
    rw [if_neg hzero]
    split
    · omega
    · omega

/-- With enough turns `get_contents` returns this, and leaves memory so. -/
def Returns (disk : Disk) (mydata : Fsdata) (dentptr : DirEntry) (buffer : Nat) (maxsize : U32)
    (mem : Nat → Byte) (r : Int) (m : Nat → Byte) : Prop :=
  ∃ k, ∀ fuel, k ≤ fuel → get_contents disk fuel mydata dentptr buffer maxsize mem = some (r, m)

variable {dentptr : DirEntry} {buffer : Nat} {maxsize : U32} {mem : Nat → Byte}

/-- More turns than are needed change nothing. -/
theorem contents_mono {fuel : Nat} {v : Int × (Nat → Byte)} (h : contents disk fuel s = some v)
    (extra : Nat) : contents disk (fuel + extra) s = some v := by
  induction fuel generalizing s with
  | zero => cases h
  | succ fuel ih =>
      rw [Nat.add_right_comm, contents]
      rw [contents] at h
      by_cases hlt : s.actsize < s.filesize
      · rw [if_pos hlt] at h ⊢
        dsimp only at h ⊢
        split
        · next hjump =>
            rw [if_pos hjump] at h
            split
            · next hbad => rwa [if_pos hbad] at h
            · next hgood =>
                rw [if_neg hgood] at h
                exact ih h
        · next hjoin =>
            rw [if_neg hjoin] at h
            split
            · next hbad => rwa [if_pos hbad] at h
            · next hgood =>
                rw [if_neg hgood] at h
                exact ih h
      · rwa [if_neg hlt] at h ⊢

theorem Returns.of_run {fuel : Nat} {r : Int} {m : Nat → Byte}
    (h : get_contents disk fuel mydata dentptr buffer maxsize mem = some (r, m)) :
    Returns disk mydata dentptr buffer maxsize mem r m := by
  refine ⟨fuel, fun more hle => ?_⟩
  obtain ⟨extra, rfl⟩ := Nat.exists_eq_add_of_le hle
  exact contents_mono h extra

theorem Returns.unique {r r' : Int} {m m' : Nat → Byte}
    (h : Returns disk mydata dentptr buffer maxsize mem r m)
    (h' : Returns disk mydata dentptr buffer maxsize mem r' m') : r = r' ∧ m = m' := by
  obtain ⟨k, hk⟩ := h
  obtain ⟨k', hk'⟩ := h'
  have := (hk (max k k') (le_max_left _ _)).symm.trans (hk' (max k k') (le_max_right _ _))
  simpa using this

theorem long_of_lt {n : Nat} (h : n < 2 ^ 31) : long n = n := by
  rw [long, BitVec.toInt_eq_toNat_of_lt (by rw [BitVec.toNat_ofNat]; omega), BitVec.toNat_ofNat,
    Nat.mod_eq_of_lt (by omega)]

theorem long_lt (n : Nat) : long n < 2 ^ 31 := by
  have := BitVec.toInt_lt (x := BitVec.ofNat 32 n)
  rw [long]
  omega

theorem bytesperclust_lt (mydata : Fsdata) : bytesperclust mydata < 2 ^ 25 := by
  have := mydata.clust_size.isLt
  unfold bytesperclust FS_BLOCK_SIZE
  omega

/-- What `get_contents` does with a chain that is well formed. -/
theorem get_contents_run {chain : List U32} (cache : Cache disk mydata)
    (h : WellFormed disk mydata (START mydata dentptr) (wanted dentptr maxsize) chain)
    (small : wanted dentptr maxsize < 2 ^ 31) :
    ∃ (r : Nat) (m : _), Returns disk mydata dentptr buffer maxsize mem r m ∧
      (Clear disk mydata (wanted dentptr maxsize) chain ∧ r = wanted dentptr maxsize ∧
          m = store mem buffer
            ((chain.flatMap (clusterBytes disk mydata)).take (wanted dentptr maxsize)) ∨
        ¬ Clear disk mydata (wanted dentptr maxsize) chain ∧ r < wanted dentptr maxsize) := by
  have hbpc := bytesperclust_lt mydata
  have hjoined : Joined disk mydata
      { mydata, mem, buffer, filesize := wanted dentptr maxsize, gotsize := 0
        curclust := START mydata dentptr, endclust := START mydata dentptr
        actsize := bytesperclust mydata } :=
    ⟨⟨mydata.fatbuf, mydata.fatbufnum, rfl⟩, cache, ⟨0, (Nat.one_mul _).symm, by simp⟩,
      Nat.le_add_left _ _, by dsimp only; omega⟩
  obtain ⟨first, valid, links, enough⟩ := h
  cases chain with
  | nil =>
      have hzero : wanted dentptr maxsize = 0 := by simpa using enough
      have hrun : get_contents disk 1 mydata dentptr buffer maxsize mem =
          some (((0 : Nat) : Int), mem) := by
        rw [get_contents, sizeToRead_eq]
        refine (contents_last hjoined (by dsimp only; omega) 0 []).trans ?_
        simp [Contents.finally, hzero, long]
      exact ⟨0, mem, .of_run hrun, Or.inl ⟨clear_of_le (by omega), hzero.symm, by simp⟩⟩
  | cons c rest =>
      obtain rfl : c = START mydata dentptr := first c rfl
      rw [List.length_cons, Nat.add_one_mul, Nat.add_comm] at enough
      obtain ⟨r, m, hrun, hcase⟩ := contents_run rest hjoined
        (pos_of_check (valid _ List.mem_cons_self).1)
        (fun d hd => valid d (List.mem_cons_of_mem _ hd)) links enough le_rfl
      dsimp only at hcase
      rw [Nat.add_sub_cancel, Nat.zero_add] at hcase
      have hr : long r = r := long_of_lt (by omega)
      have hget : get_contents disk (rest.length + 1) mydata dentptr buffer maxsize mem =
          some ((r : Int), m) := by
        rw [get_contents, sizeToRead_eq, hrun, hr]
      exact ⟨r, m, .of_run hget, hcase⟩

/-- Every return value is a `long`. -/
theorem contents_long {fuel : Nat} {r : Int} {m : Nat → Byte}
    (h : contents disk fuel s = some (r, m)) : ∃ n, r = long n := by
  induction fuel generalizing s with
  | zero => cases h
  | succ fuel ih =>
      rw [contents] at h
      split at h
      · dsimp only at h
        split at h
        · split at h
          · exact ⟨_, (Prod.ext_iff.1 (Option.some.inj h)).1.symm⟩
          · exact ih h
        · split at h
          · exact ⟨_, (Prod.ext_iff.1 (Option.some.inj h)).1.symm⟩
          · exact ih h
      · exact ⟨_, (Prod.ext_iff.1 (Option.some.inj h)).1.symm⟩

/-- The file is read: `n` bytes of its clusters, and nothing else is written. -/
def Reads (disk : Disk) (mydata : Fsdata) (dentptr : DirEntry) (buffer : Nat) (maxsize : U32)
    (mem : Nat → Byte) (n : Nat) (chain : List U32) : Prop :=
  ∃ m, Returns disk mydata dentptr buffer maxsize mem n m ∧
    slice m buffer n = (chain.flatMap (clusterBytes disk mydata)).take n ∧
    ∀ i, i < buffer ∨ buffer + n ≤ i → m i = mem i

theorem length_chain (chain : List U32) :
    (chain.flatMap (clusterBytes disk mydata)).length =
      chain.length * bytesperclust mydata := by
  simp [List.length_flatMap, clusterBytes]

theorem reads_iff {chain : List U32} (cache : Cache disk mydata)
    (h : WellFormed disk mydata (START mydata dentptr) (wanted dentptr maxsize) chain) :
    Reads disk mydata dentptr buffer maxsize mem (wanted dentptr maxsize) chain ↔
      wanted dentptr maxsize < 2 ^ 31 ∧ Clear disk mydata (wanted dentptr maxsize) chain := by
  have hlen : ((chain.flatMap (clusterBytes disk mydata)).take (wanted dentptr maxsize)).length =
      wanted dentptr maxsize := by
    rw [List.length_take, length_chain]
    exact min_eq_left h.enough
  constructor
  · rintro ⟨m, hret, -, -⟩
    have small : wanted dentptr maxsize < 2 ^ 31 := by
      obtain ⟨k, hk⟩ := hret
      obtain ⟨n, hn⟩ := contents_long (hk k le_rfl)
      have := long_lt n
      omega
    refine ⟨small, ?_⟩
    obtain ⟨r, m', hret', ⟨hclear, -, -⟩ | ⟨-, hshort⟩⟩ := get_contents_run cache h small
    · exact hclear
    · have := (hret.unique hret').1
      omega
  · rintro ⟨small, hclear⟩
    obtain ⟨r, m, hret, ⟨-, rfl, rfl⟩ | ⟨hnot, -⟩⟩ := get_contents_run cache h small
    · exact ⟨_, hret, slice_store_same hlen, fun i hi => store_outside (by rwa [hlen])⟩
    · exact absurd hclear hnot

/-- A file whose chain is well formed is read, if and only if its size fits in a `long` and the
reserved bits of the entries are clear. Any chain comes to an end, within the bytes to be read. -/
theorem get_contents_reads (disk : Disk) (mydata : Fsdata) (dentptr : DirEntry) (buffer : Nat)
    (maxsize : U32) (mem : Nat → Byte) :
    (∀ chain, Cache disk mydata →
      WellFormed disk mydata (START mydata dentptr) (wanted dentptr maxsize) chain →
      (Reads disk mydata dentptr buffer maxsize mem (wanted dentptr maxsize) chain ↔
        wanted dentptr maxsize < 2 ^ 31 ∧ Clear disk mydata (wanted dentptr maxsize) chain)) ∧
    (0 < mydata.clust_size.toNat → wanted dentptr maxsize < 2 ^ 31 →
      ∃ r m, Returns disk mydata dentptr buffer maxsize mem r m ∧
        ∀ i, i < buffer ∨ buffer + wanted dentptr maxsize ≤ i → m i = mem i) := by
  refine ⟨fun chain cache h => reads_iff cache h, fun hpos small => ?_⟩
  have hbpc := bytesperclust_lt mydata
  have hbpc' : 0 < bytesperclust mydata := Nat.mul_pos hpos (by decide)
  obtain ⟨r, m, hrun, hout⟩ : ∃ r m, get_contents disk (2 * wanted dentptr maxsize + 1) mydata
        dentptr buffer maxsize mem = some (long r, m) ∧
      ∀ i, i < buffer ∨ buffer + wanted dentptr maxsize ≤ i → m i = mem i := by
    rw [get_contents, sizeToRead_eq]
    exact contents_bounded hbpc' le_rfl (Nat.le_add_left _ _) (by dsimp only; omega)
      (Nat.le_add_right _ _)
  exact ⟨long r, m, .of_run hrun, hout⟩

/-- A FAT32 volume with clusters of one sector, and a file of 1000 bytes in its clusters 2 and 3. -/
def sampleVolume : Fsdata where
  fatbuf := fun _ => 0#8
  fatsize := .fat32
  fatlength := 6
  fat_sect := 1
  rootdir_sect := 7
  clust_size := 1
  data_begin := 8
  fatbufnum := -1

def sampleFile : DirEntry := ⟨0, 2, 1000⟩

/-- Its table: the entry of cluster 2 links to cluster 3, with these reserved bits. -/
def sampleDisk (reserved : Byte) : Disk := fun sector j =>
  if sector = 1#32 then
    if j = 8 then 3#8
    else if j = 11 then reserved
    else if j = 12 ∨ j = 13 ∨ j = 14 then 0xff#8
    else if j = 15 then 0x0f#8
    else 0#8
  else BitVec.ofNat 8 (sector.toNat + j)

theorem sampleFile_wellFormed {reserved : Byte} (h : reserved = 0#8 ∨ reserved = 0xf0#8) :
    Cache (sampleDisk reserved) sampleVolume ∧
      WellFormed (sampleDisk reserved) sampleVolume (START sampleVolume sampleFile)
        (wanted sampleFile 0#32) [2#32, 3#32] := by
  refine ⟨⟨by decide, Or.inl rfl⟩, ?_⟩
  have hlink : link sampleVolume (fatEntry (sampleDisk reserved) sampleVolume 2#32) = 3#32 := by
    rcases h with rfl | rfl <;> decide
  have hstart : START sampleVolume sampleFile = 2#32 := by decide
  have hvalid : ∀ c ∈ [2#32, 3#32], Valid sampleVolume c := by
    simp only [List.forall_mem_cons, List.not_mem_nil]
    exact ⟨by decide, by decide, by simp⟩
  exact ⟨by simp [hstart], hvalid, .cons_cons hlink (.singleton _), by decide⟩

theorem sampleFile_read :
    Reads (sampleDisk 0#8) sampleVolume sampleFile 0x1000 0#32 (fun _ => 0#8)
        (wanted sampleFile 0#32) [2#32, 3#32] ∧
      ∃ r m, Returns (sampleDisk 0#8) sampleVolume sampleFile 0x1000 0#32 (fun _ => 0#8) r m ∧
        ∀ i, i < 0x1000 ∨ 0x1000 + wanted sampleFile 0#32 ≤ i → m i = 0#8 := by
  obtain ⟨cache, wellFormed⟩ := sampleFile_wellFormed (Or.inl (rfl : 0#8 = 0#8))
  obtain ⟨hreads, hany⟩ :=
    get_contents_reads (sampleDisk 0#8) sampleVolume sampleFile 0x1000 0#32 fun _ => 0#8
  have hsmall : wanted sampleFile 0#32 < 2 ^ 31 := by decide
  refine ⟨(hreads _ cache wellFormed).2 ⟨hsmall, ?_⟩, ?_⟩
  swap
  · exact hany (by decide) hsmall
  intro i c hc hlt
  cases i with
  | zero =>
      obtain rfl : 2#32 = c := by simpa using hc
      decide
  | succ i =>
      have hn : wanted sampleFile 0#32 = 1000 := by decide
      have hbpc : bytesperclust sampleVolume = 512 := by decide
      rw [hn, hbpc] at hlt
      omega

/-- A reserved bit in an entry ends the file. -/
theorem reserved_bits :
    Cache (sampleDisk 0xf0#8) sampleVolume ∧
      WellFormed (sampleDisk 0xf0#8) sampleVolume (START sampleVolume sampleFile)
        (wanted sampleFile 0#32) [2#32, 3#32] ∧
      ¬ Reads (sampleDisk 0xf0#8) sampleVolume sampleFile 0x1000 0#32 (fun _ => 0#8)
        (wanted sampleFile 0#32) [2#32, 3#32] := by
  obtain ⟨cache, wellFormed⟩ := sampleFile_wellFormed (Or.inr (rfl : 0xf0#8 = 0xf0#8))
  refine ⟨cache, wellFormed, fun hreads => ?_⟩
  have hclear := ((reads_iff cache wellFormed).1 hreads).2 0 2#32 rfl (by decide)
  exact absurd hclear (by decide)

end UBoot.Fat
