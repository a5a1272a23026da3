/-
# From files to components

An image of several files, once in memory, passes both checks, and its components are the
files. With files for execution in place they are not: the table has the sizes of the whole
files.
-/

import UBoot.Image.Multi

namespace UBoot.Image

open UBoot.Lib

variable {mem : Nat → Byte} {xflag : Bool}

/-! ## Bytes in memory -/

/-- Bytes are in memory from an address on. -/
def At (mem : Nat → Byte) (addr : Nat) (bytes : List Byte) : Prop :=
  slice mem addr bytes.length = bytes

theorem at_append {addr : Nat} {a b : List Byte} :
    At mem addr (a ++ b) ↔ At mem addr a ∧ At mem (addr + a.length) b := by
  rw [At, At, At, List.length_append, slice_append]
  constructor
  · intro h
    exact List.append_inj h (length_slice _ _ _)
  · rintro ⟨ha, hb⟩
    rw [ha, hb]

@[simp] theorem length_cpu_to_uimage (x : U32) : (cpu_to_uimage x).length = 4 := rfl

/-- A number that is written is read. -/
theorem At.uimage_to_cpu {addr : Nat} {x : U32} (h : At mem addr (cpu_to_uimage x)) :
    uimage_to_cpu mem addr = x := by
  have h' : [mem addr, mem (addr + 1), mem (addr + 2), mem (addr + 3)] = cpu_to_uimage x := h
  simp only [cpu_to_uimage, List.cons.injEq, and_true] at h'
  obtain ⟨h0, h1, h2, h3⟩ := h'
  rw [Image.uimage_to_cpu, h0, h1, h2, h3]
  refine BitVec.eq_of_getLsbD_eq fun i hi => ?_
  simp only [BitVec.getLsbD_append, BitVec.getLsbD_extractLsb']
  rcases (by omega : i < 8 ∨ (8 ≤ i ∧ i < 16) ∨ (16 ≤ i ∧ i < 24) ∨ (24 ≤ i ∧ i < 32)) with
    h | ⟨hl, hu⟩ | ⟨hl, hu⟩ | ⟨hl, hu⟩
  · simp [h]
  · simp [show ¬ i < 8 by omega, show i - 8 < 8 by omega, show 8 + (i - 8) = i by omega]
  · simp [show ¬ i < 8 by omega, show ¬ i - 8 < 8 by omega, show i - 8 - 8 < 8 by omega,
      show 16 + (i - 8 - 8) = i by omega]
  · simp [show ¬ i < 8 by omega, show ¬ i - 8 < 8 by omega, show ¬ i - 8 - 8 < 8 by omega,
      show i - 8 - 8 - 8 < 8 by omega, show 24 + (i - 8 - 8 - 8) = i by omega]

/-! ## The checksums -/

theorem length_header (hdr : Header) : hdr.bytes.length = image_get_header_size := by
  simp [Header.bytes, hdr.ih_name.2, IH_NMLEN, image_get_header_size]

theorem crc32_nil (crc : U32) : crc32 crc [] = crc := by
  rw [crc32, Crc32.crc32NoComp_eq_foldl, List.foldl_nil, BitVec.xor_assoc, BitVec.xor_self,
    BitVec.xor_zero]

/-- The chunks of a checksum make up the whole. -/
theorem crc32Chunks_eq {chunk_sz fuel : Nat} (hchunk : 0 < chunk_sz) (crc : U32) {buf : List Byte}
    (hfuel : buf.length ≤ fuel) : crc32Chunks chunk_sz fuel crc buf = crc32 crc buf := by
  induction fuel generalizing crc buf with
  | zero =>
      obtain rfl := List.length_eq_zero_iff.1 (Nat.le_zero.1 hfuel)
      exact (crc32_nil crc).symm
  | succ fuel ih =>
      rw [crc32Chunks]
      split
      · next hnil => rw [hnil, crc32_nil]
      · next hne =>
          have hpos := List.length_pos_iff.2 hne
          rw [ih _ (by rw [List.length_drop]; omega), ← crc32_append, List.take_append_drop]

theorem crc32_wd_eq (watchdog : Bool) (crc : U32) (buf : List Byte) :
    crc32_wd watchdog crc buf CHUNKSZ_CRC32 = crc32 crc buf := by
  rw [crc32_wd]
  split
  · exact crc32Chunks_eq (by decide) crc le_rfl
  · rfl

/-- Where the fields of a header are in memory. -/
theorem At.header {hdr : Nat} {header : Header} (h : At mem hdr header.bytes) :
    image_get_hcrc mem hdr = header.ih_hcrc ∧ image_get_size mem hdr = header.ih_size ∧
    image_get_dcrc mem hdr = header.ih_dcrc ∧
    slice mem hdr 4 ++ cpu_to_uimage 0#32 ++ slice mem (hdr + 8) (image_get_header_size - 8) =
      { header with ih_hcrc := 0#32 }.bytes := by
  have hname := header.ih_name.2
  rw [Header.bytes] at h
  simp only [at_append, List.length_append, length_cpu_to_uimage] at h
  obtain ⟨⟨⟨⟨⟨⟨⟨⟨hmagic, hhcrc⟩, htime⟩, hsize⟩, hload⟩, hep⟩, hdcrc⟩, hcodes⟩, hnameAt⟩ := h
  refine ⟨hhcrc.uimage_to_cpu, hsize.uimage_to_cpu, hdcrc.uimage_to_cpu, ?_⟩
  have hrest : At mem (hdr + 8) (cpu_to_uimage header.ih_time ++ (cpu_to_uimage header.ih_size ++
      (cpu_to_uimage header.ih_load ++ (cpu_to_uimage header.ih_ep ++ (cpu_to_uimage header.ih_dcrc ++
        ([header.ih_os, header.ih_arch, header.ih_type, header.ih_comp] ++ header.ih_name.1)))))) :=
    at_append.2 ⟨htime, at_append.2 ⟨hsize, at_append.2 ⟨hload, at_append.2 ⟨hep, at_append.2
      ⟨hdcrc, at_append.2 ⟨hcodes, hnameAt⟩⟩⟩⟩⟩⟩
  rw [At] at hrest hmagic
  rw [show image_get_header_size - 8 = (cpu_to_uimage header.ih_time ++
    (cpu_to_uimage header.ih_size ++ (cpu_to_uimage header.ih_load ++ (cpu_to_uimage header.ih_ep ++
      (cpu_to_uimage header.ih_dcrc ++ ([header.ih_os, header.ih_arch, header.ih_type,
        header.ih_comp] ++ header.ih_name.1)))))).length by
          simp [hname, IH_NMLEN, image_get_header_size], hrest]
  rw [length_cpu_to_uimage] at hmagic
  rw [hmagic]
  simp only [Header.bytes, List.append_assoc]

/-- An image in memory passes both checks. -/
theorem checks {hdr : Nat} {params : Params} {mtime : U32} {data : List Byte}
    (h : At mem hdr ((image_set_header params mtime data).bytes ++ data)) (watchdog : Bool) :
    image_check_hcrc mem hdr = true ∧ image_check_dcrc mem watchdog hdr = true := by
  obtain ⟨hheader, hdata⟩ := at_append.1 h
  obtain ⟨hhcrc, hsize, hdcrc, hbytes⟩ := hheader.header
  constructor
  · rw [image_check_hcrc, hbytes, hhcrc]
    exact decide_eq_true rfl
  · rw [length_header] at hdata
    rw [image_check_dcrc, hsize, hdcrc, crc32_wd_eq, decide_eq_true_eq]
    have hlen : (image_set_header params mtime data).ih_size.toNat = data.length % 2 ^ 32 :=
      BitVec.toNat_ofNat _ _
    rw [hlen]
    have htake : slice mem (image_get_data hdr) (data.length % 2 ^ 32) =
        data.take (data.length % 2 ^ 32) := by
      have hsplit := @slice_slice _ mem (hdr + image_get_header_size) data.length 0
        (data.length % 2 ^ 32) (by have := Nat.mod_le data.length (2 ^ 32); omega)
      rw [hdata] at hsplit
      exact hsplit.symm
    rw [htake]
    rfl

/-! ## The table of sizes -/

theorem length_sizeTable (files : List (List Byte)) :
    (sizeTable files).length = 4 * (files.length + 1) := by
  induction files with
  | nil => rfl
  | cons file files ih =>
      rw [sizeTable, List.length_append, length_cpu_to_uimage, ih, List.length_cons]
      omega

/-- The entries of the table, and the zero behind them. -/
theorem sizeTable_at {files : List (List Byte)} (hshort : ∀ f ∈ files, f.length < 2 ^ 32)
    {addr : Nat} (h : At mem addr (sizeTable files)) :
    (∀ i f, files[i]? = some f → (uimage_to_cpu mem (addr + 4 * i)).toNat = f.length) ∧
      uimage_to_cpu mem (addr + 4 * files.length) = 0#32 := by
  induction files generalizing addr with
  | nil => exact ⟨fun i f hf => by simp at hf, At.uimage_to_cpu h⟩
  | cons file files ih =>
      obtain ⟨hhere, hrest⟩ := at_append.1 h
      rw [length_cpu_to_uimage] at hrest
      obtain ⟨hsizes, hzero⟩ := ih (fun f hf => hshort f (List.mem_cons_of_mem _ hf)) hrest
      refine ⟨fun i f hf => ?_, ?_⟩
      · cases i with
        | zero =>
            obtain rfl : file = f := by simpa using hf
            rw [Nat.mul_zero, Nat.add_zero, hhere.uimage_to_cpu, BitVec.toNat_ofNat,
              Nat.mod_eq_of_lt (hshort file List.mem_cons_self)]
        | succ i =>
            rw [Nat.mul_succ, Nat.add_comm (4 * i), ← Nat.add_assoc]
            exact hsizes i f hf
      · rw [List.length_cons, Nat.mul_succ, Nat.add_comm (4 * _), ← Nat.add_assoc]
        exact hzero

/-- The loop counts the entries before the zero. -/
theorem countSizes_eq {hdr n : Nat} (hentries : ∀ i < n, sizeAt mem hdr i ≠ 0#32)
    (hzero : sizeAt mem hdr n = 0#32) {fuel i : Nat} (hi : i ≤ n) (hfuel : n - i < fuel) :
    countSizes mem hdr fuel i = some n := by
  induction fuel generalizing i with
  | zero => omega
  | succ fuel ih =>
      rw [countSizes]
      split
      · next hend =>
          have : i = n := by
            by_contra hne
            exact hentries i (by omega) hend
          rw [this]
      · next hmore =>
          have hne : i ≠ n := fun h => hmore (h ▸ hzero)
          exact ih (by omega) (by omega)

/-! ## The files -/

/-- What of a file is in the image. -/
def embedded (xflag : Bool) (file : List Byte) : List Byte := file.drop (offset xflag)

theorem length_copy_file (file : List Byte) :
    (copy_file xflag file true).length = round4 (embedded xflag file).length := by
  rw [copy_file, embedded, List.length_append, List.length_drop, round4]
  split
  · rw [List.length_replicate]
    omega
  · next h =>
      simp only [true_and, ne_eq, not_not] at h
      rw [List.length_nil]
      omega

/-- A file is behind the files before it, which are rounded up. -/
theorem copyFiles_at {files : List (List Byte)} {addr : Nat} (h : At mem addr (copyFiles xflag files))
    {i : Nat} {f : List Byte} (hf : files[i]? = some f) :
    At mem (addr + (((files.take i).map fun f => round4 (embedded xflag f).length).sum))
      (embedded xflag f) := by
  induction files generalizing addr i with
  | nil => simp at hf
  | cons file files ih =>
      have hfirst : ∀ {pad}, At mem addr (copy_file xflag file pad) → At mem addr (embedded xflag file) :=
        fun h => (at_append.1 h).1
      cases i with
      | zero =>
          obtain rfl : file = f := by simpa using hf
          cases files with
          | nil => exact hfirst h
          | cons => exact hfirst (at_append.1 h).1
      | succ i =>
          cases files with
          | nil => simp at hf
          | cons next files =>
              obtain ⟨-, hrest⟩ := at_append.1 h
              have := ih hrest hf
              rw [length_copy_file] at this
              rw [List.take_succ_cons, List.map_cons, List.sum_cons, ← Nat.add_assoc]
              exact this

/-! ## The round trip -/

/-- The components of an image are what was embedded of the files. -/
structure RoundTrip (xflag : Bool) (mem : Nat → Byte) (hdr : Nat) (files : List (List Byte)) :
    Prop where
  hcrc : image_check_hcrc mem hdr = true
  dcrc : ∀ watchdog, image_check_dcrc mem watchdog hdr = true
  multi : ∃ N, ∀ fuel, N ≤ fuel → image_multi_count mem fuel hdr = some files.length ∧
    ∀ idx, ∃ data len, image_multi_getimg mem fuel hdr idx = some (data, len) ∧
      (∀ f, files[idx]? = some f → len = (embedded xflag f).length ∧ At mem data (embedded xflag f)) ∧
      (files[idx]? = none → data = 0 ∧ len = 0)

section Written

variable {params : Params} {mtime : U32} {files : List (List Byte)} {image : List Byte} {hdr : Nat}

/-- Files for an image: there is one, none is empty, and together they are not too long. -/
structure Fit (files : List (List Byte)) : Prop where
  some : files ≠ []
  nonempty : ∀ f ∈ files, f ≠ []
  total : (files.map List.length).sum < 2 ^ 31

theorem Fit.short (h : Fit files) : ∀ f ∈ files, f.length < 2 ^ 32 := fun f hf => by
  have := List.single_le_sum (fun _ _ => Nat.zero_le _) _ (List.mem_map_of_mem (f := List.length) hf)
  have := h.total
  omega

/-- An image in memory: both checks pass, the table is behind the header, and the files behind the
table. -/
theorem written (himage : mkimage params mtime files = some image) (hmem : At mem hdr image) :
    (image_check_hcrc mem hdr = true ∧ ∀ watchdog, image_check_dcrc mem watchdog hdr = true) ∧
    At mem (image_get_data hdr) (sizeTable files) ∧
    At mem (image_get_data hdr + (files.length + 1) * 4) (copyFiles params.xflag files) := by
  rw [mkimage] at himage
  split at himage
  · cases himage
  · obtain rfl := Option.some.inj himage
    obtain ⟨-, hdata⟩ := at_append.1 hmem
    rw [length_header] at hdata
    obtain ⟨htable, hfiles⟩ := at_append.1 hdata
    rw [length_sizeTable, Nat.mul_comm] at hfiles
    exact ⟨⟨(checks hmem false).1, fun watchdog => (checks hmem watchdog).2⟩, htable, hfiles⟩

/-- The entries of the table of an image are the lengths of the files. -/
theorem sizeAt_eq (hfit : Fit files) (htable : At mem (image_get_data hdr) (sizeTable files))
    {i : Nat} {f : List Byte} (hf : files[i]? = some f) : (sizeAt mem hdr i).toNat = f.length :=
  (sizeTable_at hfit.short htable).1 i f hf

/-- The components are counted. -/
theorem image_multi_count_eq (hfit : Fit files)
    (htable : At mem (image_get_data hdr) (sizeTable files)) {fuel : Nat}
    (hfuel : files.length < fuel) : image_multi_count mem fuel hdr = some files.length := by
  refine countSizes_eq (fun i hi hzero => ?_) (sizeTable_at hfit.short htable).2 (Nat.zero_le _)
    (by omega)
  have hsize := sizeAt_eq hfit htable (List.getElem?_eq_getElem hi)
  rw [hzero] at hsize
  exact hfit.nonempty _ (List.getElem_mem hi) (List.length_eq_zero_iff.1 hsize.symm)

/-- The offset that is computed for a component. -/
theorem offset_eq (hfit : Fit files) (htable : At mem (image_get_data hdr) (sizeTable files))
    {idx : Nat} (hidx : idx ≤ files.length) :
    ((List.range idx).map fun i => round4 (sizeAt mem hdr i).toNat).sum =
      ((files.take idx).map fun f => round4 f.length).sum := by
  congr 1
  refine List.ext_getElem (by simp [hidx]) fun i hi hi' => ?_
  simp only [List.getElem_map, List.getElem_range, List.getElem_take]
  rw [List.length_map, List.length_range] at hi
  rw [sizeAt_eq hfit htable (List.getElem?_eq_getElem (by omega))]

/-- The components of an image are the files that it was made from exactly if they are not for
execution in place. -/
theorem multi_round_trip (hfit : Fit files) (himage : mkimage params mtime files = some image)
    (hmem : At mem hdr image) : RoundTrip params.xflag mem hdr files ↔ params.xflag = false := by
  obtain ⟨hchecks, htable, hfiles⟩ := written himage hmem
  constructor
  · rintro ⟨-, -, N, hN⟩
    -- the first component is longer than what is embedded of the first file
    obtain ⟨first, rest, rfl⟩ := List.exists_cons_of_ne_nil hfit.some
    obtain ⟨hcount, hget⟩ := hN N le_rfl
    obtain ⟨data, len, hgetimg, hfile, -⟩ := hget 0
    have hlen := (hfile first rfl).1
    rw [image_multi_getimg, hcount] at hgetimg
    simp only [Option.map_some, List.length_cons, Nat.succ_pos, if_true, Option.some.injEq,
      Prod.mk.injEq] at hgetimg
    rw [← hgetimg.2, sizeAt_eq hfit htable (i := 0) rfl, embedded, List.length_drop] at hlen
    have hpos := List.length_pos_iff.2 (hfit.nonempty first List.mem_cons_self)
    by_contra hx
    rw [Bool.not_eq_false] at hx
    rw [hx, offset, if_pos rfl, image_get_header_size] at hlen
    omega
  · intro hx
    have hwhole : ∀ f, embedded params.xflag f = f := fun f => by rw [hx]; rfl
    refine ⟨hchecks.1, hchecks.2, files.length + 1, fun fuel hfuel => ?_⟩
    have hcount := image_multi_count_eq hfit htable (show files.length < fuel by omega)
    refine ⟨hcount, fun idx => ?_⟩
    rw [image_multi_getimg, hcount, Option.map_some]
    simp only
    split
    · next hidx =>
        refine ⟨_, _, rfl, fun f hf => ⟨?_, ?_⟩, fun hnone => ?_⟩
        · rw [sizeAt_eq hfit htable hf, hwhole]
        · rw [offset_eq hfit htable hidx.le]
          have := copyFiles_at hfiles hf
          simpa only [hwhole] using this
        · exact absurd (List.getElem?_eq_none_iff.1 hnone) (by omega)
    · next hidx =>
        exact ⟨0, 0, rfl, fun f hf => absurd (List.getElem?_eq_some_iff.1 hf).1 hidx,
          fun _ => ⟨rfl, rfl⟩⟩

end Written

/-- Options of a script, for execution in place or not. -/
def script (xflag : Bool) : Params :=
  { os := 5, arch := 2, type := .IH_TYPE_SCRIPT, comp := 0, addr := 0#32, ep := 0#32, eflag := false,
    xflag := xflag, imagename := [] }

/-- Two files, and one with space for a header. -/
def two : List (List Byte) := [[1, 2, 3], [4, 5]]
def spaced : List (List Byte) := [List.replicate 64 0xff#8 ++ [1, 2, 3]]

/-- An image at the beginning of memory. -/
def loaded (params : Params) (files : List (List Byte)) : Nat → Byte := fun i =>
  ((mkimage params 0#32 files).getD []).getD i 0#8

theorem at_loaded {params : Params} {files : List (List Byte)} {image : List Byte}
    (h : mkimage params 0#32 files = some image) : At (loaded params files) 0 image := by
  rw [At]
  refine List.ext_getElem (length_slice _ _ _) fun i hi hi' => ?_
  have hget := getElem?_slice (loaded params files) (i := 0) hi'
  rw [List.getElem?_eq_getElem hi] at hget
  rw [Option.some.inj hget, Nat.zero_add, loaded, h, Option.getD_some, List.getD_eq_getElem?_getD,
    List.getElem?_eq_getElem hi', Option.getD_some]

theorem multi_round_trip_two : RoundTrip false (loaded (script false) two) 0 two :=
  (@multi_round_trip (loaded (script false) two) (script false) 0#32 two _ 0
    ⟨by decide, by decide, by decide⟩ rfl (at_loaded rfl)).2 rfl

/-- For execution in place 3 bytes are embedded, and the component is 67 bytes long. -/
theorem multi_round_trip_spaced :
    (mkimage (script true) 0#32 spaced).isSome ∧ Fit spaced ∧
    (spaced.map (embedded true)) = [[1, 2, 3]] ∧
    image_multi_getimg (loaded (script true) spaced) 2 0 0 = some (72, 67) :=
  ⟨by decide, ⟨by decide, by decide, by decide⟩, by decide, by decide⟩

end UBoot.Image
