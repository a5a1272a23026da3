/-
# Memory banks in a device tree

`fdt_fixup_memory_banks` of `common/fdt_support.c`, with `get_cells_len` and `write_cell`. What
`libfdt` does is a parameter, with the few laws of it that are needed here. A node is its offset, and
the root has offset 0.
-/

import UBoot.LibGeneric.Crc32
import Mathlib.Data.Nat.Init
import Mathlib.Algebra.Order.Ring.Nat

namespace UBoot.Fdt

/-- `libfdt`, for blobs of some kind. A function that changes a blob returns a negative error, or it
has done what it is for. -/
structure Libfdt (Blob : Type) where
  check_header : Blob → Int
  path_offset : Blob → String → Int
  add_subnode : Blob → Int → String → Int × Blob
  getprop : Blob → Int → String → Option (List Byte)
  setprop : Blob → Int → String → List Byte → Int × Blob
  path_ne_root : ∀ blob path, path ≠ "/" → path_offset blob path ≠ 0
  path_add_subnode : ∀ blob name, 0 ≤ (add_subnode blob 0 name).1 →
    path_offset (add_subnode blob 0 name).2 ("/" ++ name) = (add_subnode blob 0 name).1
  getprop_add_subnode : ∀ blob name prop, 0 ≤ (add_subnode blob 0 name).1 →
    getprop (add_subnode blob 0 name).2 (add_subnode blob 0 name).1 prop = none
  getprop_setprop : ∀ blob node prop val, 0 ≤ (setprop blob node prop val).1 →
    getprop (setprop blob node prop val).2 node prop = some val
  getprop_setprop_of_ne : ∀ blob node prop val other, 0 ≤ (setprop blob node prop val).1 →
    other ≠ prop → getprop (setprop blob node prop val).2 node other = getprop blob node other
  getprop_setprop_root : ∀ blob node prop val other, 0 ≤ (setprop blob node prop val).1 →
    node ≠ 0 → getprop (setprop blob node prop val).2 0 other = getprop blob 0 other
  path_setprop : ∀ blob path prop val, 0 ≤ (setprop blob (path_offset blob path) prop val).1 →
    path_offset (setprop blob (path_offset blob path) prop val).2 path = path_offset blob path

/-- The number that bytes are, the first one being the highest. -/
def bigEndian : List Byte → Nat
  | [] => 0
  | b :: bytes => b.toNat * 256 ^ bytes.length + bigEndian bytes

/-- `*cell`: the `u32` in front, as the host reads it. -/
def hostCell (littleEndian : Bool) (cell : List Byte) : Nat :=
  bigEndian (if littleEndian then (cell.take 4).reverse else cell.take 4)

/-- `write_cell`: the bytes behind `addr`. The shift is eight times what is left of `size`. -/
def write_cell (val : BitVec 64) : Nat → List Byte
  | 0 => []
  | size + 1 => (val >>> (size * 8) &&& 255#64).setWidth 8 :: write_cell val size

/-- The loop: the bytes in `tmp`, which has room for `room`, or nothing when it is written behind
them. -/
def cellsLoop (room : Int) (addr_cell_len size_cell_len : Nat) (tmp : List Byte) :
    List (BitVec 64 × BitVec 64) → Option (List Byte)
  | [] => some tmp
  | (start, size) :: banks =>
      if room < tmp.length + addr_cell_len then none
      else if room < tmp.length + addr_cell_len + size_cell_len then none
      else
        cellsLoop room addr_cell_len size_cell_len
          (tmp ++ write_cell start addr_cell_len ++ write_cell size size_cell_len) banks

/-- `sizeof(tmp)`: `banks * 8` is an `int`. -/
def tmpSize (banks : Nat) : Int := (BitVec.ofNat 32 (banks * 8)).toInt

/-- `"memory"`, with its NUL. -/
def memory : List Byte := [109#8, 101#8, 109#8, 111#8, 114#8, 121#8, 0#8]

section Fixup

variable {Blob : Type} (L : Libfdt Blob)

/-- `get_cells_len` -/
def get_cells_len (littleEndian : Bool) (blob : Blob) (nr_cells_name : String) : Nat :=
  match L.getprop blob 0 nr_cells_name with
  | none => 4
  | some cell => if hostCell littleEndian cell = 2 then 8 else 4

/-- `fdt_fixup_memory_banks`: the result and the blob, or nothing when it writes behind `tmp`. -/
def fdt_fixup_memory_banks (littleEndian : Bool) (blob : Blob)
    (banks : List (BitVec 64 × BitVec 64)) : Option (Int × Blob) :=
  let err := L.check_header blob
  if err < 0 then some (err, blob)
  else
    let nodeoffset := L.path_offset blob "/memory"
    if nodeoffset < 0 then some (L.add_subnode blob 0 "memory")
    else
      let (err, blob) := L.setprop blob nodeoffset "device_type" memory
      if err < 0 then some (err, blob)
      else
        let addr_cell_len := get_cells_len L littleEndian blob "#address-cells"
        let size_cell_len := get_cells_len L littleEndian blob "#size-cells"
        match cellsLoop (tmpSize banks.length) addr_cell_len size_cell_len [] banks with
        | none => none
        | some tmp =>
            let (err, blob) := L.setprop blob nodeoffset "reg" tmp
            if err < 0 then some (err, blob) else some (0, blob)

/-! ## The contract -/

/-- Bytes that are pairs of numbers, with so many bytes for the first and the second of each. -/
inductive Decodes (m n : Nat) : List Byte → List (Nat × Nat) → Prop
  | nil : Decodes m n [] []
  | cons {first second rest : List Byte} {pairs : List (Nat × Nat)} :
      first.length = m → second.length = n → Decodes m n rest pairs →
      Decodes m n (first ++ second ++ rest) ((bigEndian first, bigEndian second) :: pairs)

/-- The cells that the root declares for an address and for a size. -/
structure Declares (blob : Blob) (address size : Nat) : Prop where
  address_cells : L.getprop blob 0 "#address-cells" = some (write_cell (BitVec.ofNat 64 address) 4)
  size_cells : L.getprop blob 0 "#size-cells" = some (write_cell (BitVec.ofNat 64 size) 4)
  address_le : address = 1 ∨ address = 2
  size_le : size = 1 ∨ size = 2

/-- The values of the banks fit the cells. -/
def Fits (address size : Nat) (banks : List (BitVec 64 × BitVec 64)) : Prop :=
  ∀ bank ∈ banks, bank.1.toNat < 2 ^ (32 * address) ∧ bank.2.toNat < 2 ^ (32 * size)

/-- There is a memory node, and its `reg` is the banks. -/
def HasMemory (address size : Nat) (banks : List (BitVec 64 × BitVec 64)) (blob : Blob) : Prop :=
  0 ≤ L.path_offset blob "/memory" ∧
  L.getprop blob (L.path_offset blob "/memory") "device_type" = some memory ∧
  ∃ reg, L.getprop blob (L.path_offset blob "/memory") "reg" = some reg ∧
    Decodes (4 * address) (4 * size) reg (banks.map fun bank => (bank.1.toNat, bank.2.toNat))

/-- Nothing is written behind `tmp`, and a result that is not negative means that the banks are in
the blob. -/
def Describes (address size : Nat) (banks : List (BitVec 64 × BitVec 64))
    (result : Option (Int × Blob)) : Prop :=
  ∃ ret blob, result = some (ret, blob) ∧ (0 ≤ ret → HasMemory L address size banks blob)

end Fixup

/-! ## Cells -/

@[simp]
theorem length_write_cell (val : BitVec 64) (size : Nat) : (write_cell val size).length = size := by
  induction size with
  | zero => rfl
  | succ size ih => rw [write_cell, List.length_cons, ih]

/-- A cell is the number, as far as it has room for it. -/
theorem bigEndian_write_cell (val : BitVec 64) (size : Nat) :
    bigEndian (write_cell val size) = val.toNat % 256 ^ size := by
  induction size with
  | zero => rw [pow_zero, Nat.mod_one]; rfl
  | succ size ih =>
      have hbyte : ((val >>> (size * 8) &&& 255#64).setWidth 8).toNat =
          val.toNat / 256 ^ size % 256 := by
        rw [BitVec.toNat_setWidth, BitVec.toNat_and, BitVec.toNat_ushiftRight,
          Nat.shiftRight_eq_div_pow, Nat.mul_comm size 8, pow_mul]
        exact (congrArg (· % 2 ^ 8) (Nat.and_two_pow_sub_one_eq_mod _ 8)).trans (Nat.mod_mod _ _)
      rw [write_cell, bigEndian, length_write_cell, ih, hbyte, Nat.mod_pow_succ]
      ring

/-- What the loop writes. -/
def cells (m n : Nat) (banks : List (BitVec 64 × BitVec 64)) : List Byte :=
  banks.flatMap fun bank => write_cell bank.1 m ++ write_cell bank.2 n

theorem length_cells (m n : Nat) (banks : List (BitVec 64 × BitVec 64)) :
    (cells m n banks).length = banks.length * (m + n) := by
  induction banks with
  | nil => rw [List.length_nil, Nat.zero_mul]; rfl
  | cons bank banks ih =>
      rw [cells, List.flatMap_cons, List.length_append, ← cells, ih, List.length_append,
        length_write_cell, length_write_cell, List.length_cons, Nat.succ_mul, Nat.add_comm]

/-- All cells are written if there is room for them. -/
theorem cellsLoop_eq_some {room : Int} {m n : Nat} {banks : List (BitVec 64 × BitVec 64)}
    {tmp out : List Byte} :
    cellsLoop room m n tmp banks = some out ↔
      (banks = [] ∨ (tmp.length + banks.length * (m + n) : Nat) ≤ room) ∧
        out = tmp ++ cells m n banks := by
  induction banks generalizing tmp with
  | nil =>
      rw [cellsLoop, Option.some.injEq]
      simp [cells, eq_comm]
  | cons bank banks ih =>
      have hcells : cells m n (bank :: banks) =
          write_cell bank.1 m ++ write_cell bank.2 n ++ cells m n banks := rfl
      have hcount : (bank :: banks).length * (m + n) = m + n + banks.length * (m + n) := by
        rw [List.length_cons, Nat.succ_mul, Nat.add_comm]
      rw [cellsLoop, hcells, hcount]
      split
      · next hfirst =>
          refine iff_of_false (by simp) ?_
          rintro ⟨hnil | hroom, -⟩
          · exact absurd hnil (List.cons_ne_nil _ _)
          · omega
      · next hfirst =>
          split
          · next hsecond =>
              refine iff_of_false (by simp) ?_
              rintro ⟨hnil | hroom, -⟩
              · exact absurd hnil (List.cons_ne_nil _ _)
              · omega
          · next hsecond =>
              have hroom : (banks = [] ∨
                  (((tmp ++ write_cell bank.1 m ++ write_cell bank.2 n).length +
                    banks.length * (m + n) : Nat) : Int) ≤ room) ↔
                  (bank :: banks = [] ∨
                    ((tmp.length + (m + n + banks.length * (m + n)) : Nat) : Int) ≤ room) := by
                rw [List.length_append, List.length_append, length_write_cell, length_write_cell]
                cases banks with
                | nil =>
                    rw [List.length_nil, Nat.zero_mul]
                    simp only [true_or, reduceCtorEq, false_or, true_iff]
                    omega
                | cons other banks =>
                    simp only [reduceCtorEq, false_or]
                    rw [Nat.add_assoc, Nat.add_assoc, Nat.add_assoc]
              rw [ih, hroom]
              simp only [List.append_assoc]

theorem cellsLoop_start {room : Int} {m n : Nat} {banks : List (BitVec 64 × BitVec 64)}
    {out : List Byte} :
    cellsLoop room m n [] banks = some out ↔
      (banks = [] ∨ (banks.length * (m + n) : Nat) ≤ room) ∧ out = cells m n banks := by
  rw [cellsLoop_eq_some, List.length_nil, Nat.zero_add, List.nil_append]

/-- The banks are decoded from what is written, where the values fit. -/
theorem decodes_cells {m n : Nat} {banks : List (BitVec 64 × BitVec 64)}
    (h : ∀ bank ∈ banks, bank.1.toNat < 256 ^ m ∧ bank.2.toNat < 256 ^ n) :
    Decodes m n (cells m n banks) (banks.map fun bank => (bank.1.toNat, bank.2.toNat)) := by
  induction banks with
  | nil => exact .nil
  | cons bank banks ih =>
      obtain ⟨hfirst, hsecond⟩ := h bank List.mem_cons_self
      have hrest := ih fun other hother => h other (List.mem_cons_of_mem _ hother)
      have hcons := Decodes.cons (length_write_cell bank.1 m) (length_write_cell bank.2 n) hrest
      rwa [bigEndian_write_cell, bigEndian_write_cell, Nat.mod_eq_of_lt hfirst,
        Nat.mod_eq_of_lt hsecond] at hcons

theorem Decodes.length_eq {m n : Nat} {reg : List Byte} {pairs : List (Nat × Nat)}
    (h : Decodes m n reg pairs) : reg.length = pairs.length * (m + n) := by
  induction h with
  | nil => rw [List.length_nil, List.length_nil, Nat.zero_mul]
  | cons hfirst hsecond _ ih =>
      rw [List.length_append, List.length_append, hfirst, hsecond, ih, List.length_cons,
        Nat.succ_mul, Nat.add_comm]

theorem tmpSize_of_lt {banks : Nat} (h : banks < 2 ^ 28) : tmpSize banks = (banks * 8 : Nat) := by
  rw [tmpSize, BitVec.toInt_eq_toNat_of_lt] <;> rw [BitVec.toNat_ofNat] <;> omega

theorem tmpSize_lt (banks : Nat) : tmpSize banks < 2 ^ 31 := BitVec.toInt_lt

/-! ## The blob -/

section Laws

variable {Blob : Type} {L : Libfdt Blob} {blob : Blob} {address size : Nat}
  {banks : List (BitVec 64 × BitVec 64)} {littleEndian : Bool}

/-- A cell of one or two is one for a host that reads its bytes the other way. -/
theorem cellLen (littleEndian : Bool) {n : Nat} (h : n = 1 ∨ n = 2) :
    (if hostCell littleEndian (write_cell (BitVec.ofNat 64 n) 4) = 2 then 8 else 4) =
      if littleEndian then 4 else 4 * n := by
  obtain rfl | rfl := h <;> cases littleEndian <;> decide

theorem Declares.cells_len (h : Declares L blob address size) (littleEndian : Bool) :
    get_cells_len L littleEndian blob "#address-cells" =
        (if littleEndian then 4 else 4 * address) ∧
      get_cells_len L littleEndian blob "#size-cells" = if littleEndian then 4 else 4 * size := by
  rw [get_cells_len, get_cells_len, h.address_cells, h.size_cells]
  exact ⟨cellLen littleEndian h.address_le, cellLen littleEndian h.size_le⟩

/-- The cells that the root declares stay when a property of another node is set. -/
theorem Declares.setprop (h : Declares L blob address size) {node : Int} {prop : String}
    {val : List Byte} (hset : 0 ≤ (L.setprop blob node prop val).1) (hnode : node ≠ 0) :
    Declares L (L.setprop blob node prop val).2 address size where
  address_cells := (L.getprop_setprop_root _ _ _ _ _ hset hnode).trans h.address_cells
  size_cells := (L.getprop_setprop_root _ _ _ _ _ hset hnode).trans h.size_cells
  address_le := h.address_le
  size_le := h.size_le

/-- The blob with `device_type` set. -/
def typed (L : Libfdt Blob) (blob : Blob) : Int × Blob :=
  L.setprop blob (L.path_offset blob "/memory") "device_type" memory

/-- The blob with `reg` set behind it. -/
def withReg (L : Libfdt Blob) (blob : Blob) (reg : List Byte) : Int × Blob :=
  L.setprop (typed L blob).2 (L.path_offset blob "/memory") "reg" reg

/-- When both properties are set, what counts is what the bytes in `reg` are. -/
theorem hasMemory_withReg {reg : List Byte} (hnode : 0 ≤ L.path_offset blob "/memory")
    (htype : 0 ≤ (typed L blob).1) (hreg : 0 ≤ (withReg L blob reg).1) :
    HasMemory L address size banks (withReg L blob reg).2 ↔
      Decodes (4 * address) (4 * size) reg
        (banks.map fun bank => (bank.1.toNat, bank.2.toNat)) := by
  have hpath : L.path_offset (typed L blob).2 "/memory" = L.path_offset blob "/memory" :=
    L.path_setprop _ _ _ _ htype
  have hpath' : L.path_offset (withReg L blob reg).2 "/memory" = L.path_offset blob "/memory" := by
    have hsame := L.path_setprop (typed L blob).2 "/memory" "reg" reg
    rw [hpath] at hsame
    exact hsame hreg
  have hdevice : L.getprop (withReg L blob reg).2 (L.path_offset blob "/memory") "device_type" =
      some memory :=
    (L.getprop_setprop_of_ne _ _ _ _ _ hreg (by decide)).trans (L.getprop_setprop _ _ _ _ htype)
  have hvalue : L.getprop (withReg L blob reg).2 (L.path_offset blob "/memory") "reg" = some reg :=
    L.getprop_setprop _ _ _ _ hreg
  rw [HasMemory, hpath', hdevice, hvalue]
  constructor
  · rintro ⟨-, -, other, hother, hdecodes⟩
    cases hother
    exact hdecodes
  · exact fun hdecodes => ⟨hnode, rfl, reg, rfl, hdecodes⟩

/-- The node that has just been added has no properties. -/
theorem not_hasMemory_add_subnode (h : 0 ≤ (L.add_subnode blob 0 "memory").1) :
    ¬HasMemory L address size banks (L.add_subnode blob 0 "memory").2 := by
  rintro ⟨-, hdevice, -⟩
  have hpath : L.path_offset (L.add_subnode blob 0 "memory").2 "/memory" =
      (L.add_subnode blob 0 "memory").1 := L.path_add_subnode blob "memory" h
  rw [hpath, L.getprop_add_subnode _ _ _ h] at hdevice
  cases hdevice

/-! ## Which calls are in order -/

theorem describes_none : ¬Describes L address size banks none := by
  rintro ⟨_, _, hnone, -⟩
  cases hnone

theorem describes_some {ret : Int} :
    Describes L address size banks (some (ret, blob)) ↔
      (0 ≤ ret → HasMemory L address size banks blob) := by
  constructor
  · rintro ⟨_, _, hsome, h⟩
    cases hsome
    exact h
  · exact fun h => ⟨ret, blob, rfl, h⟩

/-- The bytes of one cell for each number are those of the banks if that is what is declared. -/
theorem decodes_single_iff (hd : Declares L blob address size) (hfits : Fits address size banks)
    (hne : banks ≠ []) :
    Decodes (4 * address) (4 * size) (cells 4 4 banks)
        (banks.map fun bank => (bank.1.toNat, bank.2.toNat)) ↔ address = 1 ∧ size = 1 := by
  constructor
  · intro hdecodes
    have hlen := hdecodes.length_eq
    rw [length_cells, List.length_map] at hlen
    have hsum := Nat.eq_of_mul_eq_mul_left (List.length_pos_iff.mpr hne) hlen
    have haddress := hd.address_le
    have hsize := hd.size_le
    omega
  · rintro ⟨rfl, rfl⟩
    exact decodes_cells hfits

/-- The cells of the host fit in `tmp` when there are no banks, or few enough and one cell for each
number. -/
theorem room_iff (hd : Declares L blob address size) (littleEndian : Bool)
    (banks : List (BitVec 64 × BitVec 64)) :
    ((banks.length * ((if littleEndian then 4 else 4 * address) +
        if littleEndian then 4 else 4 * size) : Nat) : Int) ≤ tmpSize banks.length ↔
      banks = [] ∨ banks.length < 2 ^ 28 ∧ (littleEndian = true ∨ address = 1 ∧ size = 1) := by
  have haddress := hd.address_le
  have hsize := hd.size_le
  by_cases hne : banks = []
  · rw [hne, List.length_nil, Nat.zero_mul]
    exact iff_of_true (by decide) (.inl rfl)
  · have hpos : 0 < banks.length := List.length_pos_iff.mpr hne
    have hlarge : ¬banks.length < 2 ^ 28 → tmpSize banks.length < (banks.length * 8 : Nat) :=
      fun hge => (tmpSize_lt _).trans_le (by omega)
    rw [or_iff_right hne]
    cases littleEndian with
    | true =>
        simp only [if_true, true_or, and_true]
        constructor
        · exact fun hle => by_contra fun hge => absurd (hlarge hge) (not_lt_of_ge hle)
        · exact fun hlt => (tmpSize_of_lt hlt).ge
    | false =>
        simp only [Bool.false_eq_true, if_false, false_or]
        have hwidth : 8 ≤ 4 * address + 4 * size := by omega
        have hmul := Nat.mul_le_mul_left banks.length hwidth
        constructor
        · intro hle
          have hlt : banks.length < 2 ^ 28 := by_contra fun hge => by
            have hsmall := hlarge hge
            omega
          rw [tmpSize_of_lt hlt] at hle
          have hle' := Nat.le_of_mul_le_mul_left (Int.ofNat_le.mp hle) hpos
          exact ⟨hlt, by omega⟩
        · rintro ⟨hlt, rfl, rfl⟩
          exact (tmpSize_of_lt hlt).ge

/-- The part behind `device_type`. -/
theorem describes_reg_iff (hd : Declares L blob address size) (hfits : Fits address size banks)
    (hnode : 0 < L.path_offset blob "/memory") (htype : 0 ≤ (typed L blob).1) :
    Describes L address size banks
        (match cellsLoop (tmpSize banks.length)
            (get_cells_len L littleEndian (typed L blob).2 "#address-cells")
            (get_cells_len L littleEndian (typed L blob).2 "#size-cells") [] banks with
          | none => none
          | some tmp =>
              if (withReg L blob tmp).1 < 0 then some (withReg L blob tmp)
              else some (0, (withReg L blob tmp).2)) ↔
      banks = [] ∨ banks.length < 2 ^ 28 ∧
        (address = 1 ∧ size = 1 ∨
          littleEndian = true ∧ (withReg L blob (cells 4 4 banks)).1 < 0) := by
  obtain ⟨haddress, hsize⟩ := (hd.setprop htype hnode.ne').cells_len littleEndian
  rw [typed, haddress, hsize]
  cases hloop : cellsLoop (tmpSize banks.length) (if littleEndian then 4 else 4 * address)
      (if littleEndian then 4 else 4 * size) [] banks with
  | none =>
      have hroom : ¬(banks = [] ∨ banks.length < 2 ^ 28 ∧
          (littleEndian = true ∨ address = 1 ∧ size = 1)) := by
        rw [← room_iff hd littleEndian banks]
        intro hle
        have hsome := cellsLoop_start.mpr ⟨.inr hle, rfl⟩
        exact absurd (hloop.symm.trans hsome) (Option.some_ne_none _).symm
      refine iff_of_false describes_none ?_
      rintro (hnil | ⟨hlt, hone | ⟨hlittle, -⟩⟩)
      · exact hroom (.inl hnil)
      · exact hroom (.inr ⟨hlt, .inr hone⟩)
      · exact hroom (.inr ⟨hlt, .inl hlittle⟩)
  | some tmp =>
      obtain ⟨hroom, htmp⟩ := cellsLoop_start.mp hloop
      rw [room_iff hd littleEndian banks] at hroom
      have hreg : Describes L address size banks
          (if (withReg L blob tmp).1 < 0 then some (withReg L blob tmp)
            else some (0, (withReg L blob tmp).2)) ↔
          (withReg L blob tmp).1 < 0 ∨ Decodes (4 * address) (4 * size) tmp
            (banks.map fun bank => (bank.1.toNat, bank.2.toNat)) := by
        split
        · next herr =>
            exact iff_of_true (describes_some.mpr fun hret => absurd herr (not_lt_of_ge hret))
              (.inl herr)
        · next hok =>
            have hdecodes := @hasMemory_withReg _ L blob address size banks tmp hnode.le htype
              (not_lt.mp hok)
            rw [describes_some, hdecodes, or_iff_right hok]
            exact ⟨fun h => h le_rfl, fun h _ => h⟩
      refine hreg.trans ?_
      by_cases hne : banks = []
      · subst hne
        exact iff_of_true (.inr (htmp ▸ .nil)) (.inl rfl)
      · obtain ⟨hlt, hone⟩ := (hroom.resolve_left hne).resolve_left hne
        have hcells : tmp = cells 4 4 banks := by
          rw [htmp]
          obtain rfl | ⟨rfl, rfl⟩ := hone
          · rfl
          · cases littleEndian <;> rfl
        rw [hcells, decodes_single_iff hd hfits hne, or_iff_right hne]
        constructor
        · rintro (herr | hsingle)
          · obtain hlittle | hsingle := hone
            · exact ⟨hlt, .inr ⟨hlittle, herr⟩⟩
            · exact ⟨hlt, .inl hsingle⟩
          · exact ⟨hlt, .inl hsingle⟩
        · rintro ⟨-, hsingle | ⟨-, herr⟩⟩
          · exact .inr hsingle
          · exact .inl herr

/-- The call fails before it sets `reg`. -/
def FailsEarly (L : Libfdt Blob) (blob : Blob) : Prop :=
  L.check_header blob < 0 ∨
  L.path_offset blob "/memory" < 0 ∧ (L.add_subnode blob 0 "memory").1 < 0 ∨
  0 ≤ L.path_offset blob "/memory" ∧ (typed L blob).1 < 0

/-- The banks are in the blob behind a call that returns no error, and nothing else is written, if
there is a memory node, and there are no banks or one cell for an address and one for a size. -/
theorem fdt_fixup_memory_banks_iff (L : Libfdt Blob) (littleEndian : Bool) (blob : Blob)
    (address size : Nat) (banks : List (BitVec 64 × BitVec 64))
    (hd : Declares L blob address size) (hfits : Fits address size banks) :
    Describes L address size banks (fdt_fixup_memory_banks L littleEndian blob banks) ↔
      FailsEarly L blob ∨ 0 ≤ L.path_offset blob "/memory" ∧
        (banks = [] ∨ banks.length < 2 ^ 28 ∧
          (address = 1 ∧ size = 1 ∨
            littleEndian = true ∧ (withReg L blob (cells 4 4 banks)).1 < 0)) := by
  rw [fdt_fixup_memory_banks]
  dsimp only
  split
  · next hheader =>
      exact iff_of_true (describes_some.mpr fun hret => absurd hheader (not_lt_of_ge hret))
        (.inl (.inl hheader))
  · next hheader =>
      split
      · next hmissing =>
          by_cases hadd : (L.add_subnode blob 0 "memory").1 < 0
          · exact iff_of_true (describes_some.mpr fun hret => absurd hadd (not_lt_of_ge hret))
              (.inl (.inr (.inl ⟨hmissing, hadd⟩)))
          · refine iff_of_false (fun h => ?_) ?_
            · exact not_hasMemory_add_subnode (not_lt.mp hadd)
                (describes_some.mp h (not_lt.mp hadd))
            · rintro ((hbad | ⟨-, hfail⟩ | ⟨hthere, -⟩) | ⟨hthere, -⟩)
              · exact hheader hbad
              · exact hadd hfail
              · exact absurd hmissing (not_lt_of_ge hthere)
              · exact absurd hmissing (not_lt_of_ge hthere)
      · next hthere =>
          have hnode : 0 < L.path_offset blob "/memory" :=
            lt_of_le_of_ne (not_lt.mp hthere) (L.path_ne_root blob "/memory" (by decide)).symm
          split
          · next htype =>
              exact iff_of_true (describes_some.mpr fun hret => absurd htype (not_lt_of_ge hret))
                (.inl (.inr (.inr ⟨hnode.le, htype⟩)))
          · next htype =>
              have hearly : ¬FailsEarly L blob := by
                rintro (hbad | ⟨hmissing, -⟩ | ⟨-, hfail⟩)
                · exact hheader hbad
                · exact hthere hmissing
                · exact htype hfail
              rw [or_iff_right hearly, and_iff_right hnode.le]
              exact describes_reg_iff hd hfits hnode (not_lt.mp htype)

end Laws

/-! ## A small tree -/

/-- A root, below which there can be a memory node. -/
structure Tree where
  root : List (String × List Byte)
  memory : Option (List (String × List Byte))

/-- Where the root is at 0 and the memory node at 1, and there is always room. -/
def tree : Libfdt Tree where
  check_header _ := 0
  path_offset blob path :=
    if path = "/" then 0 else if path = "/memory" ∧ blob.memory ≠ none then 1 else -1
  add_subnode blob parent name :=
    if parent = 0 ∧ name = "memory" ∧ blob.memory = none then (1, ⟨blob.root, some []⟩)
    else (-1, blob)
  getprop blob node prop :=
    if node = 0 then blob.root.lookup prop
    else if node = 1 then blob.memory.bind (·.lookup prop) else none
  setprop blob node prop val :=
    if node = 0 then (0, ⟨(prop, val) :: blob.root, blob.memory⟩)
    else if node = 1 then
      match blob.memory with
      | none => (-1, blob)
      | some props => (0, ⟨blob.root, some ((prop, val) :: props)⟩)
    else (-1, blob)
  path_ne_root blob path hne := by
    rw [if_neg hne]
    split <;> decide
  path_add_subnode blob name := by
    split
    · next h => simp [h.2.1]
    · simp
  getprop_add_subnode blob name prop := by
    split <;> simp
  getprop_setprop blob node prop val := by
    split
    · next h => simp [h]
    · split
      · next h => cases blob.memory <;> simp [h]
      · simp
  getprop_setprop_of_ne blob node prop val other hset hne := by
    have hother : (other == prop) = false := beq_eq_false_iff_ne.mpr hne
    split
    · next h => simp [h, List.lookup_cons, hother]
    · split
      · next h => cases hmem : blob.memory <;> simp [h, hmem, List.lookup_cons, hother]
      · next h h' => simp [h, h']
  getprop_setprop_root blob node prop val other hset hnode := by
    rw [if_neg hnode, if_pos rfl, if_pos rfl]
    by_cases hmem : node = 1
    · rw [if_pos hmem]
      cases blob.memory <;> rfl
    · rw [if_neg hmem]
  path_setprop blob path prop val := by
    by_cases hroot : path = "/"
    · simp [hroot]
    · by_cases hmem : path = "/memory" ∧ blob.memory ≠ none
      · obtain ⟨props, hprops⟩ := Option.ne_none_iff_exists'.mp hmem.2
        simp [hmem.1, hprops]
      · simp [hroot, hmem]

/-- One cell for an address and one for a size. -/
def singleCells : List (String × List Byte) :=
  [("#address-cells", write_cell 1 4), ("#size-cells", write_cell 1 4)]

theorem declares_single (memory : Option (List (String × List Byte))) :
    Declares tree ⟨singleCells, memory⟩ 1 1 := ⟨rfl, rfl, .inl rfl, .inl rfl⟩

/-- 64 MiB from 2 GiB on. -/
def oneBank : List (BitVec 64 × BitVec 64) := [(0x80000000, 0x4000000)]

theorem fits_oneBank : Fits 1 1 oneBank := by
  intro bank hbank
  obtain rfl := List.mem_singleton.mp hbank
  decide

/-- The bank is put into a node that is there. -/
theorem fdt_fixup_memory_banks_one :
    Describes tree 1 1 oneBank (fdt_fixup_memory_banks tree true ⟨singleCells, some []⟩ oneBank) :=
  (fdt_fixup_memory_banks_iff tree true ⟨singleCells, some []⟩ 1 1 oneBank
    (declares_single (some [])) fits_oneBank).mpr
    (.inr ⟨by decide, .inr ⟨by decide, .inl ⟨rfl, rfl⟩⟩⟩)

/-- A node that is not there is only added. -/
theorem not_fdt_fixup_memory_banks :
    ¬∀ (Blob : Type) (L : Libfdt Blob) (littleEndian : Bool) (blob : Blob) (address size : Nat)
      (banks : List (BitVec 64 × BitVec 64)), Declares L blob address size →
      Fits address size banks →
      Describes L address size banks (fdt_fixup_memory_banks L littleEndian blob banks) := by
  intro h
  have hcall := h Tree tree true ⟨singleCells, none⟩ 1 1 oneBank (declares_single none) fits_oneBank
  have hadded : fdt_fixup_memory_banks tree true ⟨singleCells, none⟩ oneBank =
      some (tree.add_subnode ⟨singleCells, none⟩ 0 "memory") := rfl
  have hret : 0 ≤ (tree.add_subnode ⟨singleCells, none⟩ 0 "memory").1 := by decide
  rw [hadded] at hcall
  exact not_hasMemory_add_subnode hret (describes_some.mp hcall hret)

end UBoot.Fdt
