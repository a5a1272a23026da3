/-
# Partial writes to the SmartFusion eNVM

Inside the array every byte that was stored is in the open page, and what is committed is a begin of
the source. A command that fails ends the write there. A range that leaves the array is written as
far as the commands succeed, so the write is right for every pattern of failures only if the range
ends inside the array, or is empty.
-/

import UBoot.A2f.EnvmWrite
import UBoot.Lib.Masks

namespace UBoot.A2f

open UBoot.Lib

/-- The first `n` bytes of the source. -/
def sent (buf : Nat → Byte) (n : Nat) : List Byte := (List.range n).map buf

/-- An address of the array. -/
def InArray (addr : U32) : Prop :=
  MSS_ENVM_BASE.toNat ≤ addr.toNat ∧ addr.toNat < MSS_ENVM_BASE.toNat + MSS_ENVM_FLASH_SIZE.toNat

theorem store_sent (m : Nat → Byte) (offset n : Nat) (buf : Nat → Byte) (j : Nat) :
    store m offset (sent buf n) j =
      if offset ≤ j ∧ j < offset + n then buf (j - offset) else m j := by
  split
  · rename_i h
    obtain ⟨k, rfl⟩ := Nat.exists_eq_add_of_le h.1
    rw [Nat.add_sub_cancel_left]
    apply store_add
    rw [sent, List.getElem?_map, List.getElem?_range (by omega)]
    rfl
  · apply store_outside
    rw [sent, List.length_map, List.length_range]
    omega

/-! ## Addresses -/

section Addresses

variable {addr : U32} {pos : Nat}

theorem offset_mask_eq_zero (addr : U32) :
    addr &&& MSS_ENVM_PAGE_OFFSET_MASK = 0#32 ↔ addr.toNat % 128 = 0 :=
  and_low_eq_zero_iff (k := 7) rfl addr

theorem addr_mask_toNat (addr : U32) :
    (addr &&& MSS_ENVM_PAGE_ADDR_MASK).toNat = addr.toNat % 2 ^ 20 / 2 ^ 7 * 2 ^ 7 := by
  have hmask : MSS_ENVM_PAGE_ADDR_MASK = 0xfffff#32 &&& ~~~MSS_ENVM_PAGE_OFFSET_MASK := by decide
  rw [hmask, ← BitVec.and_assoc, and_not_low_toNat (k := 7) rfl, and_low_toNat (k := 20) rfl]

/-- A byte of the array, by its offset. -/
structure At (addr : U32) (pos : Nat) : Prop where
  toNat : addr.toNat = MSS_ENVM_BASE.toNat + pos
  lt : pos < MSS_ENVM_FLASH_SIZE.toNat

theorem At.inArray (h : At addr pos) : InArray addr := by
  have htoNat := h.toNat
  have hlt := h.lt
  exact ⟨by omega, by omega⟩

theorem At.offsetOf (h : At addr pos) : offsetOf addr = pos := by
  have htoNat := h.toNat
  have hlt := h.lt
  have hbase : MSS_ENVM_BASE.toNat = 0x60000000 := rfl
  have hsize : MSS_ENVM_FLASH_SIZE.toNat = 0x40000 := rfl
  rw [A2f.offsetOf, BitVec.toNat_sub]
  omega

theorem At.aligned (h : At addr pos) :
    addr &&& MSS_ENVM_PAGE_OFFSET_MASK = 0#32 ↔ pos % 128 = 0 := by
  have htoNat := h.toNat
  have hbase : MSS_ENVM_BASE.toNat = 0x60000000 := rfl
  rw [offset_mask_eq_zero]
  omega

theorem At.page (h : At addr pos) :
    (addr &&& MSS_ENVM_PAGE_ADDR_MASK).toNat = pos / 128 * 128 := by
  have htoNat := h.toNat
  have hlt := h.lt
  have hbase : MSS_ENVM_BASE.toNat = 0x60000000 := rfl
  have hsize : MSS_ENVM_FLASH_SIZE.toNat = 0x40000 := rfl
  rw [addr_mask_toNat, htoNat]
  omega

theorem At.next_toNat (h : At addr pos) :
    (addr + 1#32).toNat = MSS_ENVM_BASE.toNat + (pos + 1) := by
  have htoNat := h.toNat
  have hlt := h.lt
  have hbase : MSS_ENVM_BASE.toNat = 0x60000000 := rfl
  have hsize : MSS_ENVM_FLASH_SIZE.toNat = 0x40000 := rfl
  rw [BitVec.toNat_add, BitVec.toNat_one (by decide)]
  omega

theorem At.next_aligned (h : At addr pos) :
    (addr + 1#32) &&& MSS_ENVM_PAGE_OFFSET_MASK = 0#32 ↔ (pos + 1) % 128 = 0 := by
  have htoNat := h.next_toNat
  have hbase : MSS_ENVM_BASE.toNat = 0x60000000 := rfl
  rw [offset_mask_eq_zero]
  omega

end Addresses

/-! ## Commands -/

section Commands

variable {status : Nat → U32} {buf a₀ : Nat → Byte} {offset : Nat}

theorem exec_cmd_cases (status : Nat → U32) (e : Envm) (addr : U32) (cmd : Command) :
    mss_envm_exec_cmd status e addr cmd =
        (0, (e.issue addr).execute (addr &&& MSS_ENVM_PAGE_ADDR_MASK).toNat cmd) ∨
      mss_envm_exec_cmd status e addr cmd = (-1, { e.issue addr with failed := true }) := by
  unfold mss_envm_exec_cmd
  dsimp only
  split
  · split
    · exact .inl rfl
    · exact .inr rfl
  · exact .inl rfl

/-- What is committed is the first `written` bytes of the source, and nothing was issued outside
the array. -/
structure Kept (a₀ buf : Nat → Byte) (offset written : Nat) (e : Envm) : Prop where
  array : e.array = store a₀ offset (sent buf written)
  issued : ∀ a ∈ e.issued, InArray a

/-- The page of byte `i` is open, and holds all that was sent. -/
structure Open (a₀ buf : Nat → Byte) (offset i written : Nat) (e : Envm) : Prop
    extends Kept a₀ buf offset written e where
  page : e.page = some ⟨(offset + i) / 128 * 128, store a₀ offset (sent buf i)⟩
  start : (offset + i) / 128 * 128 ≤ offset + written
  le : written ≤ i
  running : e.failed = false

/-- Between two bytes no page is open, and the next byte begins one, or the page of the next byte
is open. -/
inductive Between (a₀ buf : Nat → Byte) (offset i written : Nat) (e : Envm) : Prop
  | closed (kept : Kept a₀ buf offset written e) (all : written = i)
      (begins : i = 0 ∨ (offset + i) % 128 = 0) (running : e.failed = false)
  | opened (page : Open a₀ buf offset i written e) (later : i ≠ 0)
      (inside : (offset + i) % 128 ≠ 0)

/-- A command failed, and what was committed before is there. -/
structure Failed (a₀ buf : Nat → Byte) (offset written : Nat) (e : Envm) : Prop
    extends Kept a₀ buf offset written e where
  failed : e.failed = true

/-- The page of byte `i` is open and holds this byte too. -/
structure Stored (a₀ buf : Nat → Byte) (offset i written : Nat) (e : Envm) : Prop
    extends Kept a₀ buf offset written e where
  page : e.page = some ⟨(offset + i) / 128 * 128, store a₀ offset (sent buf (i + 1))⟩
  start : (offset + i) / 128 * 128 ≤ offset + written
  le : written ≤ i
  running : e.failed = false

section Steps

variable {i written : Nat} {e : Envm} {addr : U32}

theorem issued_append {issued : List U32} (h : ∀ a ∈ issued, InArray a) (hin : InArray addr) :
    ∀ a ∈ issued ++ [addr], InArray a := by
  intro a ha
  obtain ha | ha := List.mem_append.mp ha
  · exact h a ha
  · rw [List.mem_singleton.mp ha]
    exact hin

theorem Kept.fail (h : Kept a₀ buf offset written e) (hin : InArray addr) :
    Failed a₀ buf offset written { e.issue addr with failed := true } where
  array := h.array
  issued := issued_append h.issued hin
  failed := rfl

theorem Between.le (h : Between a₀ buf offset i written e) : written ≤ i := by
  cases h with
  | closed kept all begins running => exact all.le
  | opened page later inside => exact page.le

/-- `openPage` at a byte of the array. -/
theorem openPage_spec (status : Nat → U32) (hat : At addr (offset + i))
    (h : Between a₀ buf offset i written e) :
    (∃ e', openPage status i e addr = (0, e') ∧ Open a₀ buf offset i written e') ∨
      ∃ e', openPage status i e addr = (-1, e') ∧ Failed a₀ buf offset written e' := by
  cases h with
  | closed kept all begins running =>
      have hopen : i = 0 ∨ addr &&& MSS_ENVM_PAGE_OFFSET_MASK = 0#32 :=
        begins.imp id hat.aligned.mpr
      rw [openPage, if_pos hopen]
      obtain hok | hfail := exec_cmd_cases status e addr .unprotect
      · refine .inl ⟨_, hok, ⟨kept.array, issued_append kept.issued hat.inArray⟩, ?_, ?_, all.le,
          running⟩
        · rw [hat.page, Envm.execute, ← all, ← kept.array]
          rfl
        · rw [all]
          exact Nat.div_mul_le_self _ _
      · exact .inr ⟨_, hfail, kept.fail hat.inArray⟩
  | opened page later inside =>
      have hsame : ¬ (i = 0 ∨ addr &&& MSS_ENVM_PAGE_OFFSET_MASK = 0#32) := by
        rintro (hzero | haligned)
        · exact later hzero
        · exact inside (hat.aligned.mp haligned)
      rw [openPage, if_neg hsame]
      exact .inl ⟨e, rfl, page⟩

theorem store_succ (m : Nat → Byte) (offset i : Nat) (buf : Nat → Byte) :
    Function.update (store m offset (sent buf i)) (offset + i) (buf i) =
      store m offset (sent buf (i + 1)) := by
  funext j
  rw [store_sent]
  by_cases hj : j = offset + i
  · rw [hj, Function.update_self, if_pos ⟨Nat.le_add_right _ _, Nat.lt_succ_self _⟩,
      Nat.add_sub_cancel_left]
  · rw [Function.update_of_ne hj, store_sent]
    apply if_congr _ rfl rfl
    omega

/-- The byte goes to the open page. -/
theorem Open.store (h : Open a₀ buf offset i written e) (hat : At addr (offset + i)) :
    Stored a₀ buf offset i written (e.store addr (buf i)) where
  array := h.array
  issued := issued_append h.issued hat.inArray
  page := by
    rw [Envm.store, h.page, Option.map_some, hat.offsetOf, if_pos (by dsimp only; omega),
      store_succ]
  start := h.start
  le := h.le
  running := h.running

/-- What is committed with a page is all that was sent. -/
theorem Stored.array_eq (h : Stored a₀ buf offset i written e) :
    (fun j => if (offset + i) / 128 * 128 ≤ j ∧ j < (offset + i) / 128 * 128 + 128 then
      store a₀ offset (sent buf (i + 1)) j else e.array j) =
      store a₀ offset (sent buf (i + 1)) := by
  funext j
  split
  · rfl
  · rename_i hout
    have hstart := h.start
    have hle := h.le
    rw [h.array, store_sent, store_sent]
    apply if_congr _ rfl rfl
    omega

/-- The next byte is in the same page. -/
theorem Stored.next (h : Stored a₀ buf offset i written e) (hinside : (offset + (i + 1)) % 128 ≠ 0) :
    Open a₀ buf offset (i + 1) written e where
  array := h.array
  issued := h.issued
  page := by
    rw [h.page, show (offset + (i + 1)) / 128 = (offset + i) / 128 by omega]
  start := by
    have hstart := h.start
    omega
  le := h.le.trans (Nat.le_succ i)
  running := h.running

/-- The commit at the end of a page, or of the source. -/
theorem Stored.program (status : Nat → U32) (h : Stored a₀ buf offset i written e) (hat : At addr (offset + i)) :
    (∃ e', mss_envm_exec_cmd status e addr .program = (0, e') ∧
        Kept a₀ buf offset (i + 1) e' ∧ e'.failed = false) ∨
      ∃ e', mss_envm_exec_cmd status e addr .program = (-1, e') ∧
        Failed a₀ buf offset written e' := by
  obtain hok | hfail := exec_cmd_cases status e addr .program
  · refine .inl ⟨_, hok, ?_⟩
    have hpage : (e.issue addr).page = some ⟨(offset + i) / 128 * 128, _⟩ := h.page
    rw [hat.page, Envm.execute, hpage]
    dsimp only
    rw [if_pos rfl]
    exact ⟨⟨h.array_eq, issued_append h.issued hat.inArray⟩, h.running⟩
  · exact .inr ⟨_, hfail, h.toKept.fail hat.inArray⟩

end Steps

/-! ## The loop -/

/-- What a write leaves. -/
structure Outcome (a₀ buf : Nat → Byte) (offset size : Nat) (result : Nat × Envm) : Prop
    extends Kept a₀ buf offset result.1 result.2 where
  le : result.1 ≤ size
  complete : result.2.failed = false → result.1 = size

theorem Failed.outcome {size written : Nat} {e : Envm} (h : Failed a₀ buf offset written e)
    (hle : written ≤ size) : Outcome a₀ buf offset size (written, e) where
  array := h.array
  issued := h.issued
  le := hle
  complete hrun := by
    rw [h.failed] at hrun
    cases hrun

theorem writeLoop_succ (size n i : Nat) (addr : U32) (written : Nat) (e : Envm) :
    writeLoop status buf size (n + 1) i addr written e =
      let (ret, e) := openPage status i e addr
      if ret < 0 then (written, e)
      else
        let e := e.store addr (buf i)
        let addr := addr + 1#32
        if i = size - 1 ∨ addr &&& MSS_ENVM_PAGE_OFFSET_MASK = 0#32 then
          let (ret, e) := mss_envm_exec_cmd status e (addr - 1#32) .program
          if ret < 0 then (written, e)
          else writeLoop status buf size n (i + 1) addr (i + 1) e
        else writeLoop status buf size n (i + 1) addr written e := rfl

theorem writeLoop_outcome {size : Nat} (hrange : offset + size ≤ MSS_ENVM_FLASH_SIZE.toNat) :
    ∀ {n i written : Nat} {addr : U32} {e : Envm}, i + n = size →
      addr.toNat = MSS_ENVM_BASE.toNat + (offset + i) →
      (n = 0 → Kept a₀ buf offset i e ∧ written = i ∧ e.failed = false) →
      (n ≠ 0 → Between a₀ buf offset i written e) →
      Outcome a₀ buf offset size (writeLoop status buf size n i addr written e) := by
  intro n
  induction n with
  | zero =>
      intro i written addr e hsize _ hdone _
      obtain ⟨hkept, rfl, hrun⟩ := hdone rfl
      rw [Nat.add_zero] at hsize
      rw [writeLoop, ← hsize]
      exact ⟨hkept, Nat.le_refl _, fun _ => rfl⟩
  | succ n ih =>
      intro i written addr e hsize haddr _ hbetween
      have hat : At addr (offset + i) := ⟨haddr, by omega⟩
      have hle := (hbetween n.succ_ne_zero).le
      have hnext := hat.next_toNat
      rw [writeLoop_succ]
      obtain ⟨e₁, hopen, hpage⟩ | ⟨e₁, hopen, hfailed⟩ :=
        openPage_spec status hat (hbetween n.succ_ne_zero)
      · rw [hopen]
        dsimp only
        rw [if_neg (by decide)]
        have hstored := hpage.store hat
        by_cases hcommit : i = size - 1 ∨ (addr + 1#32) &&& MSS_ENVM_PAGE_OFFSET_MASK = 0#32
        · rw [if_pos hcommit, BitVec.add_sub_cancel]
          obtain ⟨e₂, hprogram, hkept, hrun⟩ | ⟨e₂, hprogram, hfailed⟩ :=
            hstored.program status hat
          · rw [hprogram]
            dsimp only
            rw [if_neg (by decide)]
            apply ih (by omega) hnext
            · exact fun _ => ⟨hkept, rfl, hrun⟩
            · intro hn
              apply Between.closed hkept rfl _ hrun
              exact .inr (hat.next_aligned.mp (hcommit.resolve_left (by omega)))
          · rw [hprogram]
            dsimp only
            rw [if_pos (by decide)]
            exact hfailed.outcome (hle.trans (by omega))
        · rw [if_neg hcommit]
          rw [not_or] at hcommit
          apply ih (by omega) hnext
          · intro hn
            exact absurd (show i = size - 1 by omega) hcommit.1
          · intro _
            exact .opened (hstored.next fun haligned => hcommit.2 (hat.next_aligned.mpr haligned))
              i.succ_ne_zero fun haligned => hcommit.2 (hat.next_aligned.mpr haligned)
      · rw [hopen]
        dsimp only
        rw [if_pos (by decide)]
        exact hfailed.outcome (hle.trans (by omega))

end Commands

/-! ## Ranges that leave the array -/

section Issued

variable {status : Nat → U32} {buf : Nat → Byte} {e : Envm} {addr a : U32}

@[simp] theorem execute_issued (e : Envm) (start : Nat) (cmd : Command) :
    (e.execute start cmd).issued = e.issued := by
  unfold Envm.execute
  split
  · rfl
  · split
    · split <;> rfl
    · rfl

theorem mem_issue (ha : a ∈ e.issued) : a ∈ (e.issue addr).issued := List.mem_append_left _ ha

theorem mem_exec_cmd (status : Nat → U32) (addr : U32) (cmd : Command) (ha : a ∈ e.issued) :
    a ∈ (mss_envm_exec_cmd status e addr cmd).2.issued := by
  obtain hok | hfail := exec_cmd_cases status e addr cmd
  · rw [hok, execute_issued]
    exact mem_issue ha
  · rw [hfail]
    exact mem_issue ha

theorem mem_openPage (status : Nat → U32) (i : Nat) (addr : U32) (ha : a ∈ e.issued) :
    a ∈ (openPage status i e addr).2.issued := by
  unfold openPage
  split
  · exact mem_exec_cmd _ _ _ ha
  · exact ha

/-- What was issued stays issued. -/
theorem mem_writeLoop {size : Nat} (n i written : Nat) (ha : a ∈ e.issued) :
    a ∈ (writeLoop status buf size n i addr written e).2.issued := by
  induction n generalizing i addr written e with
  | zero => exact ha
  | succ n ih =>
      have hopen := mem_openPage status i addr ha
      have hstore : a ∈ ((openPage status i e addr).2.store addr (buf i)).issued :=
        List.mem_append_left _ hopen
      rw [writeLoop_succ]
      split
      rename_i ret e₁ heq
      rw [heq] at hopen hstore
      split
      · exact hopen
      · dsimp only
        split
        · have hprogram := mem_exec_cmd status (addr + 1#32 - 1#32) .program hstore
          split
          · exact hprogram
          · exact ih _ _ hprogram
        · exact ih _ _ hstore

theorem exec_cmd_good (e : Envm) (addr : U32) (cmd : Command) :
    (mss_envm_exec_cmd (fun _ => 0#32) e addr cmd).1 = 0 := by
  rw [mss_envm_exec_cmd, if_neg (by decide)]

theorem openPage_good (i : Nat) (e : Envm) (addr : U32) :
    (openPage (fun _ => 0#32) i e addr).1 = 0 := by
  unfold openPage
  split
  · exact exec_cmd_good _ _ _
  · rfl

/-- While no command fails, a byte is stored and the loop goes on. -/
theorem writeLoop_good (buf : Nat → Byte) (size n i : Nat) (addr : U32) (written : Nat) (e : Envm) :
    ∃ written' e', addr ∈ e'.issued ∧
      writeLoop (fun _ => 0#32) buf size (n + 1) i addr written e =
        writeLoop (fun _ => 0#32) buf size n (i + 1) (addr + 1#32) written' e' := by
  have hopen := openPage_good i e addr
  rw [writeLoop_succ]
  generalize openPage (fun _ => 0#32) i e addr = opened at hopen ⊢
  obtain ⟨ret, e₁⟩ := opened
  dsimp only at hopen ⊢
  have hstored : addr ∈ (e₁.store addr (buf i)).issued :=
    List.mem_append_right _ (List.mem_singleton_self addr)
  rw [hopen, if_neg (by decide)]
  split
  · have hprogram := exec_cmd_good (e₁.store addr (buf i)) (addr + 1#32 - 1#32) .program
    have hkept := mem_exec_cmd (fun _ => 0#32) (addr + 1#32 - 1#32) .program hstored
    rw [hprogram, if_neg (by decide)]
    exact ⟨_, _, hkept, rfl⟩
  · exact ⟨_, _, hstored, rfl⟩

/-- So it stores to one address after the other. -/
theorem mem_issued_of_good (buf : Nat → Byte) (size k : Nat) :
    ∀ (n i : Nat) (addr : U32) (written : Nat) (e : Envm), k < n →
      addr + BitVec.ofNat 32 k ∈
        (writeLoop (fun _ => 0#32) buf size n i addr written e).2.issued := by
  induction k with
  | zero =>
      intro n i addr written e hk
      obtain ⟨n, rfl⟩ := Nat.exists_eq_succ_of_ne_zero (Nat.ne_of_gt hk)
      obtain ⟨written', e', haddr, hrun⟩ := writeLoop_good buf size n i addr written e
      rw [hrun, BitVec.add_zero]
      exact mem_writeLoop _ _ _ haddr
  | succ k ih =>
      intro n i addr written e hk
      obtain ⟨n, rfl⟩ := Nat.exists_eq_succ_of_ne_zero (Nat.ne_of_gt (Nat.zero_lt_of_lt hk))
      obtain ⟨written', e', -, hrun⟩ := writeLoop_good buf size n i addr written e
      have hnext : addr + BitVec.ofNat 32 (k + 1) = addr + 1#32 + BitVec.ofNat 32 k := by
        rw [BitVec.ofNat_add, BitVec.add_assoc, BitVec.add_comm (BitVec.ofNat 32 k)]
      rw [hrun, hnext]
      exact ih _ _ _ _ _ (Nat.lt_of_succ_lt_succ hk)

end Issued

/-! ## The write -/

/-- The eNVM before a write. -/
def Envm.idle (array : Nat → Byte) : Envm := ⟨array, none, [], 0, false⟩

/-- What is asked of a write: the bytes it counts are in the array, it counts all of them if no
command fails, nothing else in the array is changed, and nothing is issued outside of it. -/
structure WritesPart (array buf : Nat → Byte) (offset size : U32) (result : Nat × Envm) : Prop where
  le : result.1 ≤ size.toNat
  written : ∀ k < result.1, result.2.array (offset.toNat + k) = buf k
  complete : result.2.failed = false → result.1 = size.toNat
  unchanged : ∀ j, j < offset.toNat ∨ offset.toNat + size.toNat ≤ j →
    result.2.array j = array j
  issued : ∀ a ∈ result.2.issued, InArray a

theorem Outcome.writesPart {array buf : Nat → Byte} {offset size : U32} {result : Nat × Envm}
    (h : Outcome array buf offset.toNat size.toNat result) :
    WritesPart array buf offset size result where
  le := h.le
  written k hk := by
    rw [h.array, store_sent, if_pos ⟨Nat.le_add_right _ _, Nat.add_lt_add_left hk _⟩,
      Nat.add_sub_cancel_left]
  complete := h.complete
  unchanged j hj := by
    have hle := h.le
    rw [h.array, store_sent, if_neg (by omega)]
  issued := h.issued

/-- A range that ends inside the array, or is empty, is written right. -/
theorem envm_write_writesPart (array buf : Nat → Byte) {offset size : U32}
    (hrange : size = 0#32 ∨ offset.toNat + size.toNat ≤ MSS_ENVM_FLASH_SIZE.toNat)
    (status : Nat → U32) :
    WritesPart array buf offset size (envm_write status buf (Envm.idle array) offset size) := by
  have hbase : MSS_ENVM_BASE.toNat = 0x60000000 := rfl
  have hflash : MSS_ENVM_FLASH_SIZE.toNat = 0x40000 := rfl
  have hkept : Kept array buf offset.toNat 0 (Envm.idle array) := by
    refine ⟨?_, nofun⟩
    rw [sent, List.range_zero, List.map_nil, store_nil]
    rfl
  rw [envm_write]
  split
  · -- only an empty range may begin behind the end of the array
    rename_i hoffset
    rw [gt_iff_lt, BitVec.lt_def] at hoffset
    obtain rfl | hrange := hrange
    · exact Outcome.writesPart ⟨hkept, Nat.le_refl _, fun _ => rfl⟩
    · omega
  · rename_i hoffset
    rw [gt_iff_lt, BitVec.lt_def, not_lt] at hoffset
    apply Outcome.writesPart
    apply writeLoop_outcome _ (Nat.zero_add _)
    · rw [BitVec.toNat_add]
      omega
    · exact fun _ => ⟨hkept, rfl, rfl⟩
    · exact fun _ => .closed hkept rfl (.inl rfl) rfl
    · obtain rfl | hrange := hrange
      · exact hoffset
      · exact hrange

/-- The write is right for every pattern of failures if and only if the range ends inside the
array, or is empty. -/
theorem envm_write_part_iff (array buf : Nat → Byte) (offset size : U32) :
    (∀ status, WritesPart array buf offset size
        (envm_write status buf (Envm.idle array) offset size)) ↔
      size = 0#32 ∨ offset.toNat + size.toNat ≤ MSS_ENVM_FLASH_SIZE.toNat := by
  have hbase : MSS_ENVM_BASE.toNat = 0x60000000 := rfl
  have hflash : MSS_ENVM_FLASH_SIZE.toNat = 0x40000 := rfl
  constructor
  · intro hall
    by_contra hrange
    rw [not_or, not_le] at hrange
    obtain ⟨hsize, hend⟩ := hrange
    have hgood := hall fun _ => 0#32
    rw [envm_write] at hgood
    split at hgood
    · -- nothing is done, and nothing has failed
      have hcomplete := hgood.complete rfl
      exact hsize (BitVec.eq_of_toNat_eq hcomplete.symm)
    · rename_i hoffset
      have hle : offset.toNat ≤ MSS_ENVM_FLASH_SIZE.toNat := by
        rw [gt_iff_lt, BitVec.lt_def, not_lt] at hoffset
        exact hoffset
      have hmem := mem_issued_of_good buf size.toNat
        (MSS_ENVM_FLASH_SIZE.toNat - offset.toNat) size.toNat 0 (MSS_ENVM_BASE + offset) 0
        (Envm.idle array) (by omega)
      have hin := (hgood.issued _ hmem).2
      rw [BitVec.toNat_add, BitVec.toNat_add, BitVec.toNat_ofNat] at hin
      omega
  · exact fun hrange status => envm_write_writesPart array buf hrange status

/-- Two bytes at the last offset of the array. -/
theorem not_envm_write_part : ¬ ∀ (array buf : Nat → Byte) (offset size : U32) (status : Nat → U32),
    WritesPart array buf offset size
      (envm_write status buf (Envm.idle array) offset size) := by
  intro hall
  have hin := (hall (fun _ => 0xff#8) (fun _ => 0#8) 0x3ffff#32 2#32 fun _ => 0#32).issued
  exact absurd (hin 0x60040000#32 (by decide)).2 (by decide)

end UBoot.A2f
