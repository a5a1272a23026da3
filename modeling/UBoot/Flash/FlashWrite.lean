/-
# Writes to flash

`addr2info` and `flash_write` of `common/flash.c`. The banks are visited in the order of
the table, from that of the first address to that of the last. What `write_buff` returns
is a parameter.
-/

import UBoot.Flash.Banks

namespace UBoot.Flash

/-- `ERR_OK` -/
def ERR_OK : Int := 0

/-- `ERR_PROTECTED` -/
def ERR_PROTECTED : Int := 4

/-- `ERR_INVAL` -/
def ERR_INVAL : Int := 8

/-- A call of `write_buff`. -/
structure Call where
  info : FlashInfo
  src : ULong
  addr : ULong
  len : ULong

/-- The index of the bank of an address. -/
def addr2info (flash_info : List FlashInfo) (addr : ULong) : Option Nat :=
  flash_info.findIdx? fun info =>
    info.known && decide (addr ≥ info.start 0) && decide (addr ≤ info.start 0 + info.size - 1#32)

/-- The protection check of a sector, for the addresses from `addr` to `last`. -/
def FlashInfo.sectorProtected (info : FlashInfo) (addr last : ULong) (i : Nat) : Bool :=
  let b_end := info.start 0 + info.size
  let e_addr := if i + 1 = info.sector_count then b_end else info.start (i + 1)
  decide (last ≥ info.start i) && decide (addr < e_addr) && info.protect i

/-- The protection check of a bank. -/
def FlashInfo.anyProtected (info : FlashInfo) (addr last : ULong) : Bool :=
  (List.range info.sector_count).any (info.sectorProtected addr last)

/-- The banks from one index of the table to another. -/
def banksBetween (flash_info : List FlashInfo) (first last : Nat) : List FlashInfo :=
  (flash_info.take (last + 1)).drop first

/-- The loop that writes: the return value and the calls, in order. -/
def writeBanks (write_buff : Call → Int) :
    List FlashInfo → ULong → ULong → ULong → Int × List Call
  | [], _, _, _ => (ERR_OK, [])
  | info :: banks, src, addr, cnt =>
      if cnt = 0#32 then (ERR_OK, [])
      else
        let len := info.start 0 + info.size - addr
        let len := if len > cnt then cnt else len
        let call := ⟨info, src, addr, len⟩
        if write_buff call ≠ 0 then (write_buff call, [call])
        else
          let rest := writeBanks write_buff banks (src + len) (addr + len) (cnt - len)
          (rest.1, call :: rest.2)

/-- `flash_write`: the return value and the calls. -/
def flash_write (flash_info : List FlashInfo) (write_buff : Call → Int) (src addr cnt : ULong) :
    Int × List Call :=
  let last := addr + cnt - 1#32
  if cnt = 0#32 then (ERR_OK, [])
  else
    match addr2info flash_info addr, addr2info flash_info last with
    | some info_first, some info_last =>
        let banks := banksBetween flash_info info_first info_last
        if banks.any fun info => info.anyProtected addr last then (ERR_PROTECTED, [])
        else writeBanks write_buff banks src addr cnt
    | _, _ => (ERR_INVAL, [])

/-! ## What is meant -/

/-- The addresses from `addr` on, each with that of its byte in the source. -/
def bytesFrom (src addr : ULong) (cnt : Nat) : List (ULong × ULong) :=
  (List.range cnt).map fun i => (addr + BitVec.ofNat 32 i, src + BitVec.ofNat 32 i)

/-- The bytes a call passes. -/
def Call.passed (call : Call) : List (ULong × ULong) := bytesFrom call.src call.addr call.len.toNat

/-- A call is given a range inside its bank. -/
def Call.Inside (call : Call) : Prop :=
  call.info.base ≤ call.addr.toNat ∧ call.addr.toNat + call.len.toNat ≤ call.info.limit

/-- A protected sector of a known bank has one of the addresses. -/
def MeetsProtected (flash_info : List FlashInfo) (addr cnt : ULong) : Prop :=
  ∃ info ∈ flash_info, info.known = true ∧ ∃ i < info.sector_count, info.protect i = true ∧
    ∃ k < cnt.toNat, (addr + BitVec.ofNat 32 k).toNat ∈ info.sector i

/-- Whatever `write_buff` returns: protected sectors are respected, the calls are inside
their banks, and the return value `ERR_OK` means that each byte was passed once. -/
def RespectsProtection (flash_info : List FlashInfo) (src addr cnt : ULong) : Prop :=
  ∀ write_buff : Call → Int,
    (MeetsProtected flash_info addr cnt →
      flash_write flash_info write_buff src addr cnt = (ERR_PROTECTED, [])) ∧
    (∀ call ∈ (flash_write flash_info write_buff src addr cnt).2, call.Inside) ∧
    ((flash_write flash_info write_buff src addr cnt).1 = ERR_OK →
      ((flash_write flash_info write_buff src addr cnt).2.flatMap Call.passed).Perm
        (bytesFrom src addr cnt.toNat))

/-- A bank begins where another ends. -/
def Follows (info info' : FlashInfo) : Prop := info'.start 0 = info.start 0 + info.size

/-- The banks of the first and the last address, and those between them in the table,
follow one another. -/
def InOrder (flash_info : List FlashInfo) (addr last : ULong) : Prop :=
  ∀ info_first info_last, addr2info flash_info addr = some info_first →
    addr2info flash_info last = some info_last →
      info_first ≤ info_last ∧ (info_first = info_last → addr ≤ last) ∧
        (banksBetween flash_info info_first info_last).IsChain Follows

/-- The check meets a protected sector. -/
def CheckMeets (flash_info : List FlashInfo) (addr last : ULong) : Prop :=
  ∃ info_first info_last, addr2info flash_info addr = some info_first ∧
    addr2info flash_info last = some info_last ∧
      (banksBetween flash_info info_first info_last).any (fun info => info.anyProtected addr last)

/-! ## The banks of the range -/

section Banks

variable {flash_info : List FlashInfo} {info : FlashInfo} {addr cnt src : ULong}

/-- A known bank has the address. -/
theorem addr2info_some {k : Nat} (h : addr2info flash_info addr = some k) :
    ∃ info, flash_info[k]? = some info ∧ addr.toNat ∈ info.addresses := by
  obtain ⟨hk, htest, -⟩ := List.findIdx?_eq_some_iff_getElem.mp h
  refine ⟨flash_info[k], List.getElem?_eq_getElem hk, ?_⟩
  generalize flash_info[k] = info at htest
  simp only [Bool.and_eq_true, decide_eq_true_eq] at htest
  obtain ⟨⟨hknown, hfirst⟩, hlast⟩ := htest
  have hpos := info.base_lt_limit hknown
  have hle := info.limit_le
  rw [FlashInfo.limit, FlashInfo.base] at hpos hle
  rw [FlashInfo.mem_addresses, FlashInfo.limit, FlashInfo.base]
  bv_omega

/-- The bank is a known one. -/
theorem addr2info_known (h : (addr2info flash_info addr).isSome) :
    ∃ info ∈ flash_info, info.known = true ∧ addr.toNat ∈ info.addresses := by
  obtain ⟨k, hk⟩ := Option.isSome_iff_exists.mp h
  obtain ⟨info, hinfo, haddr⟩ := addr2info_some hk
  obtain ⟨hlt, htest, -⟩ := List.findIdx?_eq_some_iff_getElem.mp hk
  obtain rfl : flash_info[k] = info := by
    rw [List.getElem?_eq_getElem hlt] at hinfo
    exact Option.some.inj hinfo
  simp only [Bool.and_eq_true] at htest
  exact ⟨_, List.getElem_mem hlt, htest.1.1, haddr⟩

theorem banksBetween_eq_nil {first last : Nat} (h : last < first) :
    banksBetween flash_info first last = [] := by
  rw [banksBetween, List.drop_eq_nil_iff, List.length_take]
  omega

/-- The banks begin with the first and end with the last. -/
theorem banksBetween_eq_cons {first last : Nat} {info_first info_last : FlashInfo}
    (hle : first ≤ last) (hfirst : flash_info[first]? = some info_first)
    (hlast : flash_info[last]? = some info_last) :
    ∃ rest, banksBetween flash_info first last = info_first :: rest ∧
      (info_first :: rest).getLast? = some info_last ∧ (rest = [] ↔ first = last) := by
  obtain ⟨hlt, rfl⟩ := List.getElem?_eq_some_iff.mp hfirst
  obtain ⟨hlt', rfl⟩ := List.getElem?_eq_some_iff.mp hlast
  have hlength : first < (flash_info.take (last + 1)).length := by
    rw [List.length_take]
    omega
  have hcons := List.drop_eq_getElem_cons hlength
  rw [List.getElem_take] at hcons
  refine ⟨(flash_info.take (last + 1)).drop (first + 1), hcons, ?_, ?_⟩
  · rw [← hcons, List.getLast?_drop, if_neg (by omega), List.getLast?_take]
    simp [hlt']
  · rw [List.drop_eq_nil_iff, List.length_take]
    omega

theorem Apart.banksBetween (apart : Apart flash_info) (first last : Nat) :
    Apart (banksBetween flash_info first last) :=
  List.Pairwise.sublist ((List.drop_sublist ..).trans (List.take_sublist ..)) apart

/-! ## One call -/

/-- An address of the bank, or the one behind it. -/
def Within (info : FlashInfo) (addr : ULong) : Prop :=
  info.base ≤ addr.toNat ∧ addr.toNat ≤ info.limit

theorem len_toNat (within : Within info addr) :
    (info.start 0 + info.size - addr).toNat = info.limit - addr.toNat := by
  have hle := info.limit_le
  obtain ⟨hbase, hlimit⟩ := within
  rw [FlashInfo.limit, FlashInfo.base] at hle hlimit
  rw [FlashInfo.base] at hbase
  rw [FlashInfo.limit, FlashInfo.base]
  bv_omega

/-- When the range ends in another bank its rest does not fit into this one. -/
theorem len_lt_cnt (within : Within info addr) (hcnt : cnt ≠ 0#32)
    (hother : (addr + cnt - 1#32).toNat ∉ info.addresses) :
    info.limit - addr.toNat < cnt.toNat := by
  by_contra hfits
  refine hother ?_
  have hle := info.limit_le
  obtain ⟨hbase, hlimit⟩ := within
  have hlast : (addr + cnt - 1#32).toNat = addr.toNat + cnt.toNat - 1 := by bv_omega
  have hpos : 0 < cnt.toNat := by bv_omega
  rw [FlashInfo.mem_addresses, hlast]
  omega

/-- When it ends in this one, and does not wrap around, it fits. -/
theorem cnt_le_len (hcnt : cnt ≠ 0#32) (hlast : (addr + cnt - 1#32).toNat ∈ info.addresses)
    (hle : addr ≤ addr + cnt - 1#32) : cnt.toNat ≤ info.limit - addr.toNat := by
  have := hlast.2
  bv_omega

theorem bytesFrom_append (src addr : ULong) (m n : Nat) :
    bytesFrom src addr (m + n) = bytesFrom src addr m ++
      bytesFrom (src + BitVec.ofNat 32 m) (addr + BitVec.ofNat 32 m) n := by
  simp only [bytesFrom, List.range_add, List.map_append, List.map_map]
  congr 1
  refine List.map_congr_left fun i _ => ?_
  simp [BitVec.add_assoc, BitVec.ofNat_add]

@[simp]
theorem length_bytesFrom (src addr : ULong) (n : Nat) : (bytesFrom src addr n).length = n := by
  simp [bytesFrom]

/-! ## The calls -/

/-- What the loop does with a bank. -/
theorem writeBanks_cons (write_buff : Call → Int) (banks : List FlashInfo) (hcnt : cnt ≠ 0#32)
    {len : ULong}
    (hlen : len = if info.start 0 + info.size - addr > cnt then cnt else info.start 0 + info.size - addr) :
    writeBanks write_buff (info :: banks) src addr cnt =
      if write_buff ⟨info, src, addr, len⟩ ≠ 0 then
        (write_buff ⟨info, src, addr, len⟩, [⟨info, src, addr, len⟩])
      else
        ((writeBanks write_buff banks (src + len) (addr + len) (cnt - len)).1,
          ⟨info, src, addr, len⟩ ::
            (writeBanks write_buff banks (src + len) (addr + len) (cnt - len)).2) := by
  subst hlen
  rw [writeBanks, if_neg hcnt]

/-- The length for a bank in which the range does not end, and what is left. -/
theorem len_of_other (within : Within info addr) (hcnt : cnt ≠ 0#32)
    (hother : (addr + cnt - 1#32).toNat ∉ info.addresses) :
    let len := info.start 0 + info.size - addr
    len = (if len > cnt then cnt else len) ∧ addr.toNat + len.toNat = info.limit ∧
      addr + len = info.start 0 + info.size ∧ cnt - len ≠ 0#32 ∧
      addr + len + (cnt - len) - 1#32 = addr + cnt - 1#32 ∧
      cnt.toNat = len.toNat + (cnt - len).toNat := by
  intro len
  have hlen : len.toNat = info.limit - addr.toNat := len_toNat within
  have hlt := len_lt_cnt within hcnt hother
  have hlimit := within.2
  refine ⟨by rw [if_neg]; bv_omega, by omega, ?_, by bv_omega, by bv_omega, by bv_omega⟩
  show addr + (info.start 0 + info.size - addr) = _
  bv_omega

/-- The calls for banks that follow one another. -/
theorem writeBanks_of_chain (write_buff : Call → Int) (src : ULong) {rest : List FlashInfo}
    {last : ULong} {info_last : FlashInfo} (apart : Apart (info :: rest))
    (chain : (info :: rest).IsChain Follows) (within : Within info addr) (hcnt : cnt ≠ 0#32)
    (heq : addr + cnt - 1#32 = last) (hend : (info :: rest).getLast? = some info_last)
    (hlast : last.toNat ∈ info_last.addresses) (hle : rest = [] → addr ≤ last) :
    (∀ call ∈ (writeBanks write_buff (info :: rest) src addr cnt).2, call.Inside) ∧
      ((writeBanks write_buff (info :: rest) src addr cnt).1 = ERR_OK →
        (writeBanks write_buff (info :: rest) src addr cnt).2.flatMap Call.passed =
          bytesFrom src addr cnt.toNat) := by
  induction rest generalizing info src addr cnt with
  | nil =>
      obtain rfl : info = info_last := by simpa using hend
      subst heq
      have hfits := cnt_le_len hcnt hlast (hle rfl)
      have hlen := len_toNat within
      have hmin : cnt = if info.start 0 + info.size - addr > cnt then cnt
          else info.start 0 + info.size - addr := by
        split
        · rfl
        · bv_omega
      have hinside : Call.Inside ⟨info, src, addr, cnt⟩ :=
        ⟨within.1, by have := within.2; show addr.toNat + cnt.toNat ≤ info.limit; omega⟩
      rw [writeBanks_cons write_buff [] hcnt hmin]
      split
      · next hfail => exact ⟨by simpa using hinside, fun hok => absurd hok hfail⟩
      · exact ⟨by simpa [writeBanks] using hinside, fun _ => by simp [writeBanks, Call.passed]⟩
  | cons info' rest ih =>
      rw [Apart, List.pairwise_cons] at apart
      rw [List.isChain_cons_cons] at chain
      rw [List.getLast?_cons_cons] at hend
      have hother : (addr + cnt - 1#32).toNat ∉ info.addresses := fun h =>
        Set.disjoint_left.mp (apart.1 info_last (List.mem_of_getLast? hend)) h (heq ▸ hlast)
      obtain ⟨hmin, hlimit, hnext, hrest, hsame, htotal⟩ := len_of_other within hcnt hother
      set len := info.start 0 + info.size - addr
      have hbase : (addr + len).toNat = info'.base := by rw [hnext, ← chain.1, FlashInfo.base]
      have hinside : Call.Inside ⟨info, src, addr, len⟩ := ⟨within.1, hlimit.le⟩
      have hle' : rest = [] → addr + len ≤ last := by
        rintro rfl
        obtain rfl : info' = info_last := by simpa using hend
        exact BitVec.le_def.mpr (hbase ▸ hlast.1)
      obtain ⟨hins, hpassed⟩ := ih (src + len) apart.2 chain.2
        ⟨hbase.ge, by rw [hbase]; exact Nat.le_add_right ..⟩ hrest (hsame.trans heq) hend hle'
      rw [writeBanks_cons write_buff (info' :: rest) hcnt hmin]
      split
      · next hfail => exact ⟨by simpa using hinside, fun hok => absurd hok hfail⟩
      · refine ⟨List.forall_mem_cons.mpr ⟨hinside, hins⟩, fun hok => ?_⟩
        rw [List.flatMap_cons, hpassed hok, htotal, bytesFrom_append, BitVec.ofNat_toNat,
          BitVec.setWidth_eq]
        rfl

/-- Calls that are inside their banks show that these follow one another. -/
theorem chain_of_inside {rest : List FlashInfo} {last : ULong} {info_last : FlashInfo}
    (apart : Apart (info :: rest))
    (enter : addr.toNat ∈ info.addresses ∨ addr.toNat = info.base ∧
      ∀ info' ∈ rest, info'.base < addr.toNat → info'.limit < addr.toNat)
    (hcnt : cnt ≠ 0#32) (heq : addr + cnt - 1#32 = last)
    (hend : (info :: rest).getLast? = some info_last) (hlast : last.toNat ∈ info_last.addresses)
    (inside : ∀ call ∈ (writeBanks (fun _ => ERR_OK) (info :: rest) src addr cnt).2, call.Inside) :
    (info :: rest).IsChain Follows := by
  induction rest generalizing info src addr cnt with
  | nil => exact .singleton _
  | cons info' rest ih =>
      have within : Within info addr := by
        rcases enter with h | h
        · exact ⟨h.1, h.2.le⟩
        · exact ⟨h.1.ge, by rw [h.1]; exact Nat.le_add_right ..⟩
      have apart' := List.pairwise_cons.mp apart
      rw [List.getLast?_cons_cons] at hend
      have hother : (addr + cnt - 1#32).toNat ∉ info.addresses := fun h =>
        Set.disjoint_left.mp (apart'.1 info_last (List.mem_of_getLast? hend)) h (heq ▸ hlast)
      obtain ⟨hmin, hlimit, hnext, hrest, hsame, -⟩ := len_of_other within hcnt hother
      set len := info.start 0 + info.size - addr
      rw [writeBanks_cons _ (info' :: rest) hcnt hmin, if_neg (by decide)] at inside
      have inside' := (List.forall_mem_cons.mp inside).2
      -- no later bank has the last address of this one
      have enter' : ∀ x ∈ info' :: rest, x.base < (addr + len).toNat → x.limit < (addr + len).toNat := by
        intro x hx hbase
        have hle := info.limit_le
        have hsum : (addr + len).toNat = info.limit := by
          rw [BitVec.toNat_add, hlimit] at hbase ⊢
          exact Nat.mod_eq_of_lt (by omega)
        rw [hsum] at hbase ⊢
        by_contra hlt
        by_cases hempty : info.limit = info.base
        · rcases enter with h | h
          · exact absurd h (by simp [hempty])
          · have := h.2 x hx
            omega
        · refine Set.disjoint_left.mp (apart'.1 x hx) (?_ : info.limit - 1 ∈ info.addresses)
            ⟨by omega, by omega⟩
          have : info.base ≤ info.limit := Nat.le_add_right ..
          exact ⟨by omega, by omega⟩
      have hcall := inside'
      rw [writeBanks_cons _ rest hrest rfl, if_neg (by decide), List.forall_mem_cons] at hcall
      have hbase : (addr + len).toNat = info'.base := by
        have := enter' info' List.mem_cons_self
        have := hcall.1.1
        have := hcall.1.2
        simp only at *
        omega
      refine List.isChain_cons_cons.mpr ⟨?_, ih apart'.2 (.inr ⟨hbase, fun x hx =>
        enter' x (List.mem_cons_of_mem _ hx)⟩) hrest (hsame.trans heq) hend inside'⟩
      exact (BitVec.eq_of_toNat_eq hbase).symm.trans hnext

/-! ## `flash_write` -/

theorem flash_write_of_checkMeets (hcnt : cnt ≠ 0#32)
    (h : CheckMeets flash_info addr (addr + cnt - 1#32)) (write_buff : Call → Int) :
    flash_write flash_info write_buff src addr cnt = (ERR_PROTECTED, []) := by
  obtain ⟨info_first, info_last, hfirst, hlast, hany⟩ := h
  simp only [flash_write, if_neg hcnt, hfirst, hlast, if_pos hany]

theorem flash_write_of_not_checkMeets (hcnt : cnt ≠ 0#32)
    (h : ¬ CheckMeets flash_info addr (addr + cnt - 1#32)) {info_first info_last : Nat}
    (hfirst : addr2info flash_info addr = some info_first)
    (hlast : addr2info flash_info (addr + cnt - 1#32) = some info_last) (write_buff : Call → Int) :
    flash_write flash_info write_buff src addr cnt =
      writeBanks write_buff (banksBetween flash_info info_first info_last) src addr cnt := by
  have hany : ¬ (banksBetween flash_info info_first info_last).any
      (fun info => info.anyProtected addr (addr + cnt - 1#32)) = true :=
    fun hany => h ⟨info_first, info_last, hfirst, hlast, hany⟩
  simp only [flash_write, if_neg hcnt, hfirst, hlast, if_neg hany]

/-- One of the ends is in no bank. -/
theorem flash_write_of_outside (hcnt : cnt ≠ 0#32)
    (h : addr2info flash_info addr = none ∨ addr2info flash_info (addr + cnt - 1#32) = none)
    (write_buff : Call → Int) :
    flash_write flash_info write_buff src addr cnt = (ERR_INVAL, []) := by
  rw [flash_write, if_neg hcnt]
  split
  · next hfirst hlast => simp [hfirst, hlast] at h
  · rfl

theorem writeBanks_ok (banks : List FlashInfo) (src addr cnt : ULong) :
    (writeBanks (fun _ => ERR_OK) banks src addr cnt).1 = ERR_OK := by
  induction banks generalizing src addr cnt with
  | nil => rfl
  | cons info banks ih =>
      by_cases hcnt : cnt = 0#32
      · rw [writeBanks, if_pos hcnt]
      · rw [writeBanks_cons _ banks hcnt rfl, if_neg (by decide)]
        exact ih ..

/-- The loop returns 0 when no call has reported an error. -/
theorem writeBanks_eq_zero_iff (write_buff : Call → Int) (banks : List FlashInfo)
    (src addr cnt : ULong) :
    (writeBanks write_buff banks src addr cnt).1 = 0 ↔
      ∀ call ∈ (writeBanks write_buff banks src addr cnt).2, write_buff call = 0 := by
  induction banks generalizing src addr cnt with
  | nil => exact iff_of_true rfl (by simp [writeBanks])
  | cons info banks ih =>
      by_cases hcnt : cnt = 0#32
      · rw [writeBanks, if_pos hcnt]
        exact iff_of_true rfl (by simp)
      · obtain ⟨len, hlen⟩ : ∃ len, len = if info.start 0 + info.size - addr > cnt then cnt
            else info.start 0 + info.size - addr := ⟨_, rfl⟩
        rw [writeBanks_cons _ banks hcnt hlen]
        split
        · next hfail => exact iff_of_false hfail fun h => hfail (h _ (List.mem_singleton_self _))
        · next hok =>
            rw [ih, List.forall_mem_cons]
            exact (and_iff_right (not_not.mp hok)).symm

/-- Then the calls are the same as without errors. -/
theorem writeBanks_of_eq_zero (write_buff : Call → Int) {banks : List FlashInfo}
    (h : (writeBanks write_buff banks src addr cnt).1 = 0) :
    writeBanks write_buff banks src addr cnt = writeBanks (fun _ => ERR_OK) banks src addr cnt := by
  induction banks generalizing src addr cnt with
  | nil => rfl
  | cons info banks ih =>
      by_cases hcnt : cnt = 0#32
      · rw [writeBanks, writeBanks, if_pos hcnt, if_pos hcnt]
      · obtain ⟨len, hlen⟩ : ∃ len, len = if info.start 0 + info.size - addr > cnt then cnt
            else info.start 0 + info.size - addr := ⟨_, rfl⟩
        rw [writeBanks_cons write_buff banks hcnt hlen] at h ⊢
        rw [writeBanks_cons (fun _ => ERR_OK) banks hcnt hlen, if_neg (show ¬ ERR_OK ≠ 0 by decide)]
        by_cases hfail : write_buff ⟨info, src, addr, len⟩ ≠ 0
        · rw [if_pos hfail] at h
          exact absurd h hfail
        · rw [if_neg hfail] at h ⊢
          rw [ih h]

/-- Only the check reports a protected sector. -/
theorem flash_write_ne_protected (hcnt : cnt ≠ 0#32)
    (hcheck : ¬ CheckMeets flash_info addr (addr + cnt - 1#32)) :
    flash_write flash_info (fun _ => ERR_OK) src addr cnt ≠ (ERR_PROTECTED, []) := by
  intro heq
  have hrc := congrArg Prod.fst heq
  rcases hfirst : addr2info flash_info addr with _ | info_first
  · rw [flash_write_of_outside hcnt (.inl hfirst)] at hrc
    exact absurd hrc (by decide)
  · rcases hlast : addr2info flash_info (addr + cnt - 1#32) with _ | info_last
    · rw [flash_write_of_outside hcnt (.inr hlast)] at hrc
      exact absurd hrc (by decide)
    · rw [flash_write_of_not_checkMeets hcnt hcheck hfirst hlast, writeBanks_ok] at hrc
      exact absurd hrc (by decide)

/-- In order, the calls are inside their banks, and all is written. -/
theorem written_of_inOrder (apart : Apart flash_info) (hcnt : cnt ≠ 0#32)
    (order : InOrder flash_info addr (addr + cnt - 1#32)) (write_buff : Call → Int) :
    (∀ call ∈ (flash_write flash_info write_buff src addr cnt).2, call.Inside) ∧
      ((flash_write flash_info write_buff src addr cnt).1 = ERR_OK →
        ((flash_write flash_info write_buff src addr cnt).2.flatMap Call.passed).Perm
          (bytesFrom src addr cnt.toNat)) := by
  by_cases hcheck : CheckMeets flash_info addr (addr + cnt - 1#32)
  · rw [flash_write_of_checkMeets hcnt hcheck]
    exact ⟨by simp, fun h => absurd h (by decide)⟩
  · rcases hfirst : addr2info flash_info addr with _ | info_first
    · rw [flash_write_of_outside hcnt (.inl hfirst)]
      exact ⟨by simp, fun h => absurd h (by decide)⟩
    · rcases hlast : addr2info flash_info (addr + cnt - 1#32) with _ | info_last
      · rw [flash_write_of_outside hcnt (.inr hlast)]
        exact ⟨by simp, fun h => absurd h (by decide)⟩
      · obtain ⟨hle, hsame, chain⟩ := order info_first info_last hfirst hlast
        obtain ⟨first, hget, hmem⟩ := addr2info_some hfirst
        obtain ⟨last, hget', hmem'⟩ := addr2info_some hlast
        obtain ⟨rest, hbanks, hend, hrest⟩ := banksBetween_eq_cons hle hget hget'
        have apart' := apart.banksBetween info_first info_last
        rw [flash_write_of_not_checkMeets hcnt hcheck hfirst hlast, hbanks]
        rw [hbanks] at chain apart'
        obtain ⟨hins, hpassed⟩ := writeBanks_of_chain write_buff src apart' chain
          ⟨hmem.1, hmem.2.le⟩ hcnt rfl hend hmem' fun h => hsame (hrest.mp h)
        exact ⟨hins, fun hok => by rw [hpassed hok]⟩

/-- Without protected sectors, and in order, all is written. -/
theorem respectsProtection_of_inOrder (apart : Apart flash_info) (hcnt : cnt ≠ 0#32)
    (hfree : ¬ MeetsProtected flash_info addr cnt)
    (order : InOrder flash_info addr (addr + cnt - 1#32)) :
    RespectsProtection flash_info src addr cnt :=
  fun write_buff => ⟨fun h => absurd h hfree, written_of_inOrder apart hcnt order write_buff⟩

/-- What is written when `write_buff` reports no error shows the order. -/
theorem inOrder_of_written (apart : Apart flash_info) (hcnt : cnt ≠ 0#32)
    (hcheck : ¬ CheckMeets flash_info addr (addr + cnt - 1#32))
    (hins : ∀ call ∈ (flash_write flash_info (fun _ => ERR_OK) src addr cnt).2, call.Inside)
    (hpassed : (flash_write flash_info (fun _ => ERR_OK) src addr cnt).1 = ERR_OK →
      ((flash_write flash_info (fun _ => ERR_OK) src addr cnt).2.flatMap Call.passed).Perm
        (bytesFrom src addr cnt.toNat)) :
    InOrder flash_info addr (addr + cnt - 1#32) := by
  intro info_first info_last hfirst hlast
  obtain ⟨first, hget, hmem⟩ := addr2info_some hfirst
  obtain ⟨last, hget', hmem'⟩ := addr2info_some hlast
  rw [flash_write_of_not_checkMeets hcnt hcheck hfirst hlast] at hins hpassed
  have hpos : cnt.toNat ≠ 0 := by bv_omega
  have hle : info_first ≤ info_last := by
    by_contra hlt
    rw [banksBetween_eq_nil (by omega)] at hpassed
    have := (hpassed rfl).length_eq
    rw [length_bytesFrom] at this
    exact hpos this.symm
  obtain ⟨rest, hbanks, hend, hrest⟩ := banksBetween_eq_cons hle hget hget'
  have apart' := apart.banksBetween info_first info_last
  rw [hbanks] at hins hpassed apart' ⊢
  refine ⟨hle, fun hsame => ?_, chain_of_inside apart' (.inl hmem) hcnt rfl hend hmem' hins⟩
  -- the only call is for the rest of the bank
  obtain rfl := hrest.mpr hsame
  obtain rfl : first = last := by simpa using hend
  rw [writeBanks_cons _ [] hcnt rfl, if_neg (by decide)] at hpassed
  have hlength := (hpassed rfl).length_eq
  simp only [writeBanks, List.flatMap_cons, List.flatMap_nil, List.append_nil, Call.passed,
    length_bytesFrom] at hlength
  have hlen := @len_toNat first addr ⟨hmem.1, hmem.2.le⟩
  have hlimit := first.limit_le
  have := hmem.2
  split at hlength <;> bv_omega

/-- What is respected whatever `write_buff` returns shows the order. -/
theorem inOrder_of_respectsProtection (apart : Apart flash_info) (hcnt : cnt ≠ 0#32)
    (respects : RespectsProtection flash_info src addr cnt)
    (hcheck : ¬ CheckMeets flash_info addr (addr + cnt - 1#32)) :
    InOrder flash_info addr (addr + cnt - 1#32) := by
  obtain ⟨-, hins, hpassed⟩ := respects fun _ => ERR_OK
  exact inOrder_of_written apart hcnt hcheck hins hpassed

/-- Protected sectors are respected and everything is written, or an error reported,
exactly if the check meets a protected sector, or there is none to be met and the banks are
in order. -/
theorem flash_write_respects_protection (apart : Apart flash_info) (hcnt : cnt ≠ 0#32) :
    RespectsProtection flash_info src addr cnt ↔
      CheckMeets flash_info addr (addr + cnt - 1#32) ∨
        ¬ MeetsProtected flash_info addr cnt ∧ InOrder flash_info addr (addr + cnt - 1#32) := by
  constructor
  · intro respects
    by_cases hcheck : CheckMeets flash_info addr (addr + cnt - 1#32)
    · exact .inl hcheck
    · refine .inr ⟨fun hmeets => ?_, inOrder_of_respectsProtection apart hcnt respects hcheck⟩
      exact absurd ((respects fun _ => ERR_OK).1 hmeets) (flash_write_ne_protected hcnt hcheck)
  · rintro (hcheck | ⟨hfree, order⟩)
    · intro write_buff
      rw [flash_write_of_checkMeets hcnt hcheck]
      exact ⟨fun _ => rfl, by simp, fun h => absurd h (by decide)⟩
    · exact respectsProtection_of_inOrder apart hcnt hfree order

/-- The check finds what it should in a sector that does not end at the end of the address
space, if the range does not wrap around. A sector that ends there it never finds. -/
theorem sectorProtected_iff {i : Nat} (hi : i < info.sector_count)
    (hwrap : addr.toNat + cnt.toNat ≤ 2 ^ 32) (hcnt : cnt ≠ 0#32) :
    info.sectorProtected addr (addr + cnt - 1#32) i = true ↔
      info.sectorLimit i < 2 ^ 32 ∧ info.protect i = true ∧
        ∃ k < cnt.toNat, (addr + BitVec.ofNat 32 k).toNat ∈ info.sector i := by
  have hlimit := info.limit_le
  have hstart := info.start_lt_sectorLimit hi
  have hend : (if i + 1 = info.sector_count then info.start 0 + info.size
      else info.start (i + 1)).toNat = info.sectorLimit i % 2 ^ 32 := by
    rw [FlashInfo.sectorLimit]
    split
    · exact BitVec.toNat_add ..
    · exact (Nat.mod_eq_of_lt (BitVec.isLt _)).symm
  have hle := info.sectorLimit_le hi
  have hlast : (addr + cnt - 1#32).toNat = addr.toNat + cnt.toNat - 1 := by bv_omega
  have hpos : 0 < cnt.toNat := by bv_omega
  have hadd : ∀ k < cnt.toNat, (addr + BitVec.ofNat 32 k).toNat = addr.toNat + k := by
    intro k hk
    rw [BitVec.toNat_add, BitVec.toNat_ofNat]
    omega
  simp only [FlashInfo.sectorProtected, Bool.and_eq_true, decide_eq_true_eq, ge_iff_le,
    BitVec.le_def, BitVec.lt_def, hend, hlast]
  constructor
  · rintro ⟨⟨hfirst, hbehind⟩, hprotect⟩
    have hlt : info.sectorLimit i < 2 ^ 32 := by
      by_contra hge
      rw [show info.sectorLimit i = 2 ^ 32 by omega] at hbehind
      omega
    rw [Nat.mod_eq_of_lt hlt] at hbehind
    refine ⟨hlt, hprotect, max addr.toNat (info.start i).toNat - addr.toNat, by omega, ?_⟩
    rw [hadd _ (by omega)]
    exact ⟨by omega, by omega⟩
  · rintro ⟨hlt, hprotect, k, hk, hmem⟩
    rw [hadd k hk] at hmem
    rw [Nat.mod_eq_of_lt hlt]
    exact ⟨⟨by have := hmem.1; omega, by have := hmem.2; omega⟩, hprotect⟩

end Banks

theorem not_meetsProtected_first :
    ¬ MeetsProtected [twoSectors 0xfffe0000#32 (by decide)] 0xfffe0010#32 0x20#32 := by
  rintro ⟨info, hinfo, -, i, -, hprotect, k, hk, hsector⟩
  rw [List.mem_singleton] at hinfo
  subst hinfo
  have hi : i = 1 := by simpa [twoSectors] using hprotect
  subst hi
  have hstart := hsector.1
  simp only [twoSectors] at hstart hk
  bv_omega

theorem inOrder_first :
    InOrder [twoSectors 0xfffe0000#32 (by decide)] 0xfffe0010#32 0xfffe002f#32 := by
  have hbank : ∀ addr : ULong, addr = 0xfffe0010#32 ∨ addr = 0xfffe002f#32 →
      addr2info [twoSectors 0xfffe0000#32 (by decide)] addr = some 0 := by
    rintro addr (rfl | rfl) <;> decide
  intro info_first info_last hfirst hlast
  rw [hbank _ (.inl rfl), Option.some.injEq] at hfirst
  rw [hbank _ (.inr rfl), Option.some.injEq] at hlast
  subst hfirst hlast
  exact ⟨le_rfl, fun _ => by decide, by simp [banksBetween]⟩

/-- The bank is below the end of the address space, and the write is for its first sector. -/
theorem flash_write_respects_protection_below :
    RespectsProtection [twoSectors 0xfffe0000#32 (by decide)] 0x1000#32 0xfffe0010#32 0x20#32 :=
  (flash_write_respects_protection (by simp [Apart]) (by decide)).mpr
    (.inr ⟨not_meetsProtected_first, inOrder_first⟩)

/-- The bank ends at the end of the address space, and the write is for its last sector. -/
theorem not_flash_write_respects_protection :
    ¬ ∀ (flash_info : List FlashInfo) (src addr cnt : ULong), Apart flash_info → cnt ≠ 0#32 →
      RespectsProtection flash_info src addr cnt := by
  intro respects
  have h := respects [twoSectors 0xffff0000#32 (by decide)] 0x1000#32 0xffff8000#32 1#32
    (by simp [Apart]) (by decide)
  have hmeets := (h fun _ => ERR_OK).1 ⟨_, List.mem_singleton_self _, rfl, 1, by decide, rfl, 0,
    by decide, by decide, by decide⟩
  exact absurd (congrArg Prod.fst hmeets) (by decide)

end UBoot.Flash
