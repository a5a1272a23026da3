/-
# The read cache of JFFS2 on NAND

`read_nand_cached` of `fs/jffs2/jffs2_1pass.c`. The cache has the bytes of 16 pages, and a tag that
says from which offset on. The tag is set before the cache is filled, which can fail, and it does
not say from which device. Pointers have 32 bits.
-/

import UBoot.LibGeneric.Crc32
import UBoot.Lib.Memory

namespace UBoot.NandCache

open UBoot.Lib

def NAND_PAGE_SIZE : Nat := 512
def NAND_CACHE_PAGES : Nat := 16
def NAND_CACHE_SIZE : Nat := NAND_CACHE_PAGES * NAND_PAGE_SIZE

/-- What is looked at of a `nand_info_t`, with the bytes of the device. -/
structure Device where
  data : Nat → Byte
  size : Nat
  writesize : Nat

/-- A call of `read_nand_cached`: the device of `current_part`, the arguments, and what happens
meanwhile: whether the cache can be allocated, whether a page can be read when the cache is filled
from some offset on, and what a read that fails leaves in the cache. -/
structure Call where
  num : Nat
  off : BitVec 32
  size : BitVec 32
  malloc : Bool
  readable : Nat → Nat → Bool
  left : Nat → Nat → Byte

/-- The static variables. The code does not keep `filled`: the device of the last fill, and whether
it came to an end. -/
structure State where
  nand_cache : Option (Nat → Byte)
  nand_cache_off : Nat
  filled : Option (Nat × Bool)

def initial : State := ⟨none, 2 ^ 32 - 1, none⟩

/-- How a call ends: with -1 and one of the two messages, with the bytes in `buf`, or by reading
where no cache is. -/
inductive Result
  | cantAlloc
  | errorReading (nand_cache_off : Nat)
  | read (buf : List Byte)
  | nullCache

/-- `nand_read` succeeds: the bytes are on the device, and each of their pages can be read. -/
def Device.Reads (d : Device) (call : Call) (off : Nat) : Prop :=
  off + NAND_CACHE_SIZE ≤ d.size ∧
    ∀ i < NAND_CACHE_SIZE, call.readable off ((off + i) / d.writesize) = true

instance (d : Device) (call : Call) (off : Nat) : Decidable (d.Reads call off) :=
  inferInstanceAs (Decidable (_ ∧ _))

/-- The byte at `x` is not in the cache. -/
def State.Misses (s : State) (x : Nat) : Prop :=
  x < s.nand_cache_off ∨ x ≥ (s.nand_cache_off + NAND_CACHE_SIZE) % 2 ^ 32

instance (s : State) (x : Nat) : Decidable (s.Misses x) := inferInstanceAs (Decidable (_ ∨ _))

/-- The cache is filled for the byte at `x`. -/
def State.fill (devs : Nat → Device) (call : Call) (s : State) (x : Nat) : Option Result × State :=
  let off := x / NAND_PAGE_SIZE * NAND_PAGE_SIZE
  if s.nand_cache = none ∧ call.malloc = false then
    (some .cantAlloc, ⟨none, off, some (call.num, false)⟩)
  else if (devs call.num).Reads call off then
    (none, ⟨some fun i => (devs call.num).data (off + i), off, some (call.num, true)⟩)
  else (some (.errorReading off), ⟨some (call.left off), off, some (call.num, false)⟩)

/-- The beginning of a turn of the loop, which gets the byte at `x` into the cache. -/
def State.get (devs : Nat → Device) (call : Call) (s : State) (x : Nat) : Option Result × State :=
  if s.Misses x then s.fill devs call x else (none, s)

/-- The byte at `x` is between the tag and the end of the cache. -/
def State.Covers (s : State) (x : Nat) : Prop :=
  s.nand_cache_off ≤ x ∧ x < s.nand_cache_off + NAND_CACHE_SIZE

theorem State.covers_of_hit {s : State} {x : Nat} (h : ¬s.Misses x) : s.Covers x := by
  rw [State.Misses, not_or, Nat.not_lt, Nat.not_le] at h
  exact ⟨h.1, h.2.trans_le (Nat.mod_le _ _)⟩

/-- Behind a fill that came to an end the byte is there. -/
theorem State.get_covers {devs : Nat → Device} {call : Call} {s t : State} {x : Nat}
    (h : s.get devs call x = (none, t)) : t.Covers x := by
  rw [State.get] at h
  split at h
  · rw [State.fill] at h
    split at h
    · cases h
    · split at h
      · cases h
        simp only [State.Covers, NAND_CACHE_SIZE, NAND_CACHE_PAGES, NAND_PAGE_SIZE]
        omega
      · cases h
  · next hhit =>
      cases h
      exact State.covers_of_hit hhit

/-- `cpy_bytes`: up to the end of the cache, and not more than is asked for. -/
def State.cpyBytes (s : State) (x left : Nat) : Nat :=
  min ((s.nand_cache_off + NAND_CACHE_SIZE + (2 ^ 32 - x)) % 2 ^ 32) left

theorem State.Covers.cpyBytes {s : State} {x : Nat} (h : s.Covers x) (hx : x < 2 ^ 32)
    (left : Nat) : s.cpyBytes x left = min (s.nand_cache_off + NAND_CACHE_SIZE - x) left := by
  obtain ⟨hle, hlt⟩ := h
  simp only [NAND_CACHE_SIZE, NAND_CACHE_PAGES, NAND_PAGE_SIZE] at hlt
  simp only [State.cpyBytes, NAND_CACHE_SIZE, NAND_CACHE_PAGES, NAND_PAGE_SIZE]
  congr 1
  omega

theorem State.Covers.cpyBytes_pos {s : State} {x left : Nat} (h : s.Covers x) (hx : x < 2 ^ 32)
    (hleft : 0 < left) : 0 < s.cpyBytes x left := by
  rw [h.cpyBytes hx]
  exact Nat.lt_min.mpr ⟨Nat.sub_pos_of_lt h.2, hleft⟩

/-- A turn copies up to the end of the cache, or all that is left. -/
theorem State.Covers.turn {s : State} {x left cpy_bytes : Nat} (h : s.Covers x) (hleft : 0 < left)
    (hcpy : min (s.nand_cache_off + NAND_CACHE_SIZE - x) left = cpy_bytes) :
    0 < cpy_bytes ∧ cpy_bytes ≤ left ∧ x + cpy_bytes ≤ s.nand_cache_off + NAND_CACHE_SIZE ∧
      (cpy_bytes < left → x + cpy_bytes = s.nand_cache_off + NAND_CACHE_SIZE) := by
  obtain ⟨-, hlt⟩ := h
  omega

/-- The loop, with `bytes_read` and the bytes in `buf`. -/
def readLoop (devs : Nat → Device) (call : Call) (s : State) (bytes_read : Nat)
    (buf : List Byte) : Result × State :=
  if bytes_read < call.size.toNat then
    let x := (call.off.toNat + bytes_read) % 2 ^ 32
    match hget : s.get devs call x with
    | (some error, t) => (error, t)
    | (none, t) =>
        match t.nand_cache with
        | none => (.nullCache, t)
        | some cache =>
            let cpy_bytes := t.cpyBytes x (call.size.toNat - bytes_read)
            readLoop devs call t (bytes_read + cpy_bytes)
              (buf ++ slice cache (x - t.nand_cache_off) cpy_bytes)
  else (.read buf, s)
termination_by call.size.toNat - bytes_read
decreasing_by
  refine Nat.sub_lt_sub_left ‹_› (Nat.lt_add_of_pos_right ?_)
  exact (State.get_covers hget).cpyBytes_pos (Nat.mod_lt _ (by decide)) (Nat.sub_pos_of_lt ‹_›)

/-- `read_nand_cached` -/
def read_nand_cached (devs : Nat → Device) (s : State) (call : Call) : Result × State :=
  readLoop devs call s 0 []

/-- The state behind some calls. -/
def after (devs : Nat → Device) : State → List Call → State
  | s, [] => s
  | s, call :: calls => after devs (read_nand_cached devs s call).2 calls

/-! ## The contract -/

section Calls

variable (devs : Nat → Device)

/-- The bytes that are asked for are on the device. -/
def Call.Inside (call : Call) : Prop :=
  call.off.toNat + call.size.toNat ≤ (devs call.num).size

/-- A page that has bytes that are asked for cannot be read when the cache is filled from `off`. -/
def Call.PageFails (call : Call) (off : Nat) : Prop :=
  ∃ i j, call.off.toNat ≤ i ∧ i < call.off.toNat + call.size.toNat ∧ j < NAND_CACHE_SIZE ∧
    (off + j) / (devs call.num).writesize = i / (devs call.num).writesize ∧
    call.readable off (i / (devs call.num).writesize) = false

/-- A call that reads puts the bytes of the device into `buf`, and one of bytes that are on the
device fails only if one of their pages does. More bytes than an `int` holds are a failure, too. -/
def Call.Transparent (call : Call) : Result → Prop
  | .read buf => buf = slice (devs call.num).data call.off.toNat call.size.toNat ∧
      (call.Inside devs → call.size.toNat < 2 ^ 31)
  | .errorReading off => call.Inside devs → call.PageFails devs off
  | .cantAlloc => ¬call.Inside devs
  | .nullCache => False

/-- Where the cache is filled from when the byte at `x` comes next: for this byte, or for the one
behind the cache. -/
def State.firstFill (s : State) (x : Nat) : Nat :=
  if s.Misses x then x / NAND_PAGE_SIZE * NAND_PAGE_SIZE else s.nand_cache_off + NAND_CACHE_SIZE

/-- If the cache cannot be filled from one of so many offsets, one after the other, it is because of
a page that has bytes that are asked for. -/
def Call.FillsFrom (call : Call) (first : Nat) : Prop :=
  ∀ k, first + k * NAND_CACHE_SIZE < call.off.toNat + call.size.toNat →
    (∀ j < k, (devs call.num).Reads call (first + j * NAND_CACHE_SIZE)) →
    ¬(devs call.num).Reads call (first + k * NAND_CACHE_SIZE) →
    call.PageFails devs (first + k * NAND_CACHE_SIZE)

/-- A call that begins in the cache finds there what was read from its device, the last byte is in
the first 4 GiB of a device that has so many, and nothing fails for another reason than a page with
bytes that are asked for. -/
structure Call.Meets (s : State) (call : Call) : Prop where
  fresh : 0 < call.size.toNat → ¬s.Misses call.off.toNat → s.filled = some (call.num, true)
  below : call.off.toNat + call.size.toNat ≤ 2 ^ 32 ∨ (devs call.num).size < 2 ^ 32
  size : call.Inside devs → call.size.toNat < 2 ^ 31
  malloc : call.Inside devs → 0 < call.size.toNat → s.nand_cache = none → call.malloc = true
  fills : call.Inside devs → call.FillsFrom devs (s.firstFill call.off.toNat)

/-! ## The cache -/

/-- A fill that came to an end has put the bytes of its device into the cache. -/
def State.Filled (s : State) : Prop :=
  ∀ num, s.filled = some (num, true) →
    s.nand_cache_off % NAND_PAGE_SIZE = 0 ∧
    s.nand_cache_off + NAND_CACHE_SIZE ≤ (devs num).size ∧
    ∃ cache, s.nand_cache = some cache ∧
      ∀ i < NAND_CACHE_SIZE, cache i = (devs num).data (s.nand_cache_off + i)

variable {devs} {call : Call} {s t : State} {x : Nat}

theorem fill_filled : (s.fill devs call x).2.Filled devs := by
  rw [State.fill]
  split
  · intro num hnum
    cases hnum
  · split
    · next hreads =>
        intro num hnum
        cases hnum
        exact ⟨Nat.mul_mod_left _ _, hreads.1, _, rfl, fun _ _ => rfl⟩
    · intro num hnum
      cases hnum

theorem get_filled {error : Option Result} (h : s.Filled devs)
    (hget : s.get devs call x = (error, t)) : t.Filled devs := by
  rw [State.get] at hget
  split at hget
  · have hfill := @fill_filled devs call s x
    rwa [hget] at hfill
  · cases hget
    exact h

section Turn

variable {bytes_read : Nat} {buf : List Byte} (hlt : bytes_read < call.size.toNat)
include hlt

theorem readLoop_error {error : Result}
    (hget : s.get devs call ((call.off.toNat + bytes_read) % 2 ^ 32) = (some error, t)) :
    readLoop devs call s bytes_read buf = (error, t) := by
  rw [readLoop, if_pos hlt]
  dsimp only
  split
  · next h =>
      cases hget.symm.trans h
      rfl
  · next h => cases hget.symm.trans h

theorem readLoop_null
    (hget : s.get devs call ((call.off.toNat + bytes_read) % 2 ^ 32) = (none, t))
    (hnone : t.nand_cache = none) : readLoop devs call s bytes_read buf = (.nullCache, t) := by
  rw [readLoop, if_pos hlt]
  dsimp only
  split
  · next h => cases hget.symm.trans h
  · next h =>
      cases hget.symm.trans h
      rw [hnone]

theorem readLoop_copy {cache : Nat → Byte}
    (hget : s.get devs call ((call.off.toNat + bytes_read) % 2 ^ 32) = (none, t))
    (hcache : t.nand_cache = some cache) :
    readLoop devs call s bytes_read buf =
      readLoop devs call t
        (bytes_read + t.cpyBytes ((call.off.toNat + bytes_read) % 2 ^ 32)
          (call.size.toNat - bytes_read))
        (buf ++ slice cache ((call.off.toNat + bytes_read) % 2 ^ 32 - t.nand_cache_off)
          (t.cpyBytes ((call.off.toNat + bytes_read) % 2 ^ 32) (call.size.toNat - bytes_read))) := by
  rw [readLoop, if_pos hlt]
  dsimp only
  split
  · next h => cases hget.symm.trans h
  · next h =>
      cases hget.symm.trans h
      rw [hcache]

end Turn

/-- What a call leaves in the cache is not needed to be from its device, but it is from one. -/
theorem readLoop_filled (h : s.Filled devs) (bytes_read : Nat) (buf : List Byte) :
    (readLoop devs call s bytes_read buf).2.Filled devs := by
  induction s, bytes_read, buf using readLoop.induct devs call with
  | case1 s bytes_read buf hlt x error t hget =>
      rw [readLoop_error hlt hget]
      exact get_filled h hget
  | case2 s bytes_read buf hlt x t hget hnone =>
      rw [readLoop_null hlt hget hnone]
      exact get_filled h hget
  | case3 s bytes_read buf hlt x t hget cache hcache cpy_bytes ih =>
      rw [readLoop_copy hlt hget hcache]
      exact ih (get_filled h hget)
  | case4 s bytes_read buf hdone =>
      rw [readLoop, if_neg hdone]
      exact h

theorem after_filled (h : s.Filled devs) (calls : List Call) : (after devs s calls).Filled devs := by
  induction calls generalizing s with
  | nil => exact h
  | cons call calls ih => exact ih (readLoop_filled h 0 [])

/-! ## A call that meets the condition -/

theorem Call.FillsFrom.first {first : Nat} (h : call.FillsFrom devs first)
    (hlt : first < call.off.toNat + call.size.toNat) (hfail : ¬(devs call.num).Reads call first) :
    call.PageFails devs first := by
  have hzero := h 0
  rw [Nat.zero_mul, Nat.add_zero] at hzero
  exact hzero hlt (fun j hj => absurd hj (Nat.not_lt_zero j)) hfail

theorem Call.FillsFrom.next {first : Nat} (h : call.FillsFrom devs first)
    (hreads : (devs call.num).Reads call first) :
    call.FillsFrom devs (first + NAND_CACHE_SIZE) := by
  have hplace (k : Nat) : first + NAND_CACHE_SIZE + k * NAND_CACHE_SIZE =
      first + (k + 1) * NAND_CACHE_SIZE := by
    rw [Nat.succ_mul, Nat.add_right_comm, Nat.add_assoc]
  intro k hk hbefore hfail
  rw [hplace] at hk hfail ⊢
  refine h (k + 1) hk (fun j hj => ?_) hfail
  cases j with
  | zero => rwa [Nat.zero_mul, Nat.add_zero]
  | succ j =>
      rw [← hplace]
      exact hbefore j (Nat.lt_of_succ_lt_succ hj)

/-- What is so at the beginning of each turn of the loop: the condition on what is still asked for. -/
structure Ready (devs : Nat → Device) (call : Call) (s : State) (bytes_read : Nat) : Prop where
  filled : s.Filled devs
  fresh : ¬s.Misses (call.off.toNat + bytes_read) → s.filled = some (call.num, true)
  malloc : call.Inside devs → s.nand_cache = none → call.malloc = true
  fills : call.Inside devs → call.FillsFrom devs (s.firstFill (call.off.toNat + bytes_read))

/-- The byte is got from its device, or it is not and that is no fault of the cache. -/
theorem Ready.get {bytes_read : Nat} (h : Ready devs call s bytes_read)
    (hlt : bytes_read < call.size.toNat) :
    (∃ error t, s.get devs call (call.off.toNat + bytes_read) = (some error, t) ∧
      call.Transparent devs error) ∨
    ∃ t, s.get devs call (call.off.toNat + bytes_read) = (none, t) ∧
      t.filled = some (call.num, true) ∧
      (call.Inside devs → call.FillsFrom devs (t.nand_cache_off + NAND_CACHE_SIZE)) := by
  rw [State.get]
  split
  · next hmiss =>
      rw [State.fill]
      have hfills := h.fills
      rw [State.firstFill, if_pos hmiss] at hfills
      split
      · next hnone =>
          refine .inl ⟨_, _, rfl, fun hinside => ?_⟩
          exact absurd (h.malloc hinside hnone.1) (by rw [hnone.2]; decide)
      · split
        · next hreads =>
            exact .inr ⟨_, rfl, rfl, fun hinside => (hfills hinside).next hreads⟩
        · next hfail =>
            refine .inl ⟨_, _, rfl, fun hinside => (hfills hinside).first ?_ hfail⟩
            exact (Nat.div_mul_le_self _ _).trans_lt (Nat.add_lt_add_left hlt _)
  · next hhit =>
      have hfills := h.fills
      rw [State.firstFill, if_neg hhit] at hfills
      exact .inr ⟨_, rfl, h.fresh hhit, hfills⟩

theorem firstFill_next (h : s.nand_cache_off % NAND_PAGE_SIZE = 0) :
    s.firstFill (s.nand_cache_off + NAND_CACHE_SIZE) = s.nand_cache_off + NAND_CACHE_SIZE := by
  have hmiss : s.Misses (s.nand_cache_off + NAND_CACHE_SIZE) := .inr (Nat.mod_le _ _)
  rw [State.firstFill, if_pos hmiss]
  simp only [NAND_CACHE_SIZE, NAND_CACHE_PAGES, NAND_PAGE_SIZE] at h ⊢
  omega

/-- What the loop does when all is ready, in a device where no offset wraps. -/
theorem readLoop_transparent (below : call.off.toNat + call.size.toNat ≤ 2 ^ 32 ∨
      (devs call.num).size < 2 ^ 32)
    (hsize : call.Inside devs → call.size.toNat < 2 ^ 31)
    {bytes_read : Nat} (hle : bytes_read ≤ call.size.toNat)
    (ready : bytes_read < call.size.toNat →
      call.off.toNat + bytes_read < 2 ^ 32 ∧ Ready devs call s bytes_read) :
    call.Transparent devs
      (readLoop devs call s bytes_read
        (slice (devs call.num).data call.off.toNat bytes_read)).1 := by
  generalize hleft : call.size.toNat - bytes_read = left
  induction left using Nat.strong_induction_on generalizing s bytes_read with
  | _ left ih =>
      by_cases hlt : bytes_read < call.size.toNat
      · obtain ⟨hx, hready⟩ := ready hlt
        have hmod := Nat.mod_eq_of_lt hx
        obtain ⟨error, t, hget, herror⟩ | ⟨t, hget, hfilled, hfills⟩ := hready.get hlt
        · rw [readLoop_error hlt (by rwa [hmod])]
          exact herror
        · have hcovers := State.get_covers hget
          obtain ⟨halign, hend, cache, hcache, hdata⟩ := get_filled hready.filled hget _ hfilled
          rw [readLoop_copy hlt (by rwa [hmod]) hcache, hmod, hcovers.cpyBytes hx, hleft]
          generalize hcpy : min (t.nand_cache_off + NAND_CACHE_SIZE -
            (call.off.toNat + bytes_read)) left = cpy_bytes
          have hpos : 0 < left := hleft ▸ Nat.sub_pos_of_lt hlt
          obtain ⟨hcopied, hrest, hbehind, hwhole⟩ := hcovers.turn hpos hcpy
          have hpiece : slice cache (call.off.toNat + bytes_read - t.nand_cache_off) cpy_bytes =
              slice (devs call.num).data (call.off.toNat + bytes_read) cpy_bytes := by
            have hplace := Nat.add_sub_cancel' hcovers.1
            refine List.map_congr_left fun k hk => ?_
            have hin : call.off.toNat + bytes_read - t.nand_cache_off + k < NAND_CACHE_SIZE := by
              rw [← Nat.add_lt_add_iff_left (k := t.nand_cache_off), ← Nat.add_assoc, hplace]
              exact (Nat.add_lt_add_left (List.mem_range.mp hk) _).trans_le hbehind
            rw [hdata _ hin, ← Nat.add_assoc, hplace]
          rw [hpiece, ← slice_append]
          have hall : bytes_read + left = call.size.toNat := hleft ▸ Nat.add_sub_cancel' hle
          refine ih (left - cpy_bytes) (Nat.sub_lt hpos hcopied)
            (hall ▸ Nat.add_le_add_left hrest _) (fun hmore => ?_) (by rw [Nat.sub_add_eq, hleft])
          have hnext : call.off.toNat + (bytes_read + cpy_bytes) =
              t.nand_cache_off + NAND_CACHE_SIZE :=
            (Nat.add_assoc _ _ _).symm.trans (hwhole (Nat.lt_of_add_lt_add_left (hall ▸ hmore)))
          have hfits : call.off.toNat + (bytes_read + cpy_bytes) < 2 ^ 32 := by
            obtain hbelow | hsmall := below
            · exact (Nat.add_lt_add_left hmore _).trans_le hbelow
            · exact hnext ▸ hend.trans_lt hsmall
          refine ⟨hfits, get_filled hready.filled hget, ?_, ?_, ?_⟩
          · rw [hnext]
            exact fun hhit => absurd (.inr (Nat.mod_le _ _)) hhit
          · exact fun _ hnone => absurd (hcache.symm.trans hnone) (Option.some_ne_none _)
          · rw [hnext, firstFill_next halign]
            exact hfills
      · obtain rfl := Nat.le_antisymm hle (Nat.not_lt.mp hlt)
        rw [readLoop, if_neg hlt]
        exact ⟨rfl, hsize⟩

/-- In every run, a call that meets the condition is as if there were no cache. -/
theorem read_nand_cached_transparent (devs : Nat → Device) (calls : List Call) (call : Call)
    (h : call.Meets devs (after devs initial calls)) :
    call.Transparent devs (read_nand_cached devs (after devs initial calls) call).1 := by
  have hfilled : (after devs initial calls).Filled devs :=
    after_filled (fun _ hnum => by cases hnum) calls
  refine readLoop_transparent h.below h.size (Nat.zero_le _) fun hpos => ⟨call.off.isLt, ?_⟩
  exact ⟨hfilled, h.fresh hpos, fun hinside => h.malloc hinside hpos, h.fills⟩

end Calls

/-- Devices of 16 pages of 512 bytes, each with its number in all of them. -/
def sixteenPages (num : Nat) : Device := ⟨fun _ => BitVec.ofNat 8 num, 8192, 512⟩

/-- The first byte of a device is read, and nothing fails. -/
def firstByte (num : Nat) : Call := ⟨num, 0, 1, true, fun _ _ => true, fun _ _ => 0⟩

theorem firstByte_meets : (firstByte 1).Meets sixteenPages initial where
  fresh _ hhit := absurd (show initial.Misses 0 by decide) hhit
  below := .inl (by decide)
  size _ := by decide
  malloc _ _ _ := rfl
  fills _ k hk _ hfail := by
    have hzero : k = 0 := by
      have hfirst : initial.firstFill (firstByte 1).off.toNat = 0 := by decide
      have hend : (firstByte 1).off.toNat + (firstByte 1).size.toNat = 1 := by decide
      rw [hfirst, hend] at hk
      simp only [NAND_CACHE_SIZE, NAND_CACHE_PAGES, NAND_PAGE_SIZE] at hk
      omega
    subst hzero
    exact absurd ⟨by decide, fun _ _ => rfl⟩ hfail

/-- The first byte after start. -/
theorem read_nand_cached_transparent_first :
    (firstByte 1).Meets sixteenPages (after sixteenPages initial []) ∧
      (firstByte 1).Transparent sixteenPages
        (read_nand_cached sixteenPages (after sixteenPages initial []) (firstByte 1)).1 :=
  ⟨firstByte_meets,
    read_nand_cached_transparent sixteenPages [] (firstByte 1) (firstByte_meets)⟩

/-- A byte of the second device is looked for where one of the first has been read. -/
theorem not_read_nand_cached_transparent :
    ¬∀ (devs : Nat → Device) (calls : List Call) (call : Call),
      call.Transparent devs (read_nand_cached devs (after devs initial calls) call).1 := by
  intro h
  have hsecond := h sixteenPages [firstByte 0] (firstByte 1)
  let s : State := ⟨some fun _ => 0, 0, some (0, true)⟩
  have hreads : (sixteenPages 0).Reads (firstByte 0) 0 := ⟨by decide, fun _ _ => rfl⟩
  have hget : initial.get sixteenPages (firstByte 0) 0 = (none, s) := by
    rw [State.get, if_pos (by decide), State.fill, if_neg (by decide)]
    exact if_pos hreads
  have hafter : after sixteenPages initial [firstByte 0] = s := by
    have hlt : 0 < (firstByte 0).size.toNat := by decide
    rw [after, after, read_nand_cached, readLoop_copy hlt hget rfl, readLoop, if_neg (by decide)]
  have hread : read_nand_cached sixteenPages s (firstByte 1) = (.read [0], s) := by
    have hhit : s.get sixteenPages (firstByte 1) 0 = (none, s) := by
      rw [State.get, if_neg (by decide)]
    have hlt : 0 < (firstByte 1).size.toNat := by decide
    have hcpy : s.cpyBytes (((firstByte 1).off.toNat + 0) % 2 ^ 32)
        ((firstByte 1).size.toNat - 0) = 1 := by decide
    rw [read_nand_cached, readLoop_copy hlt hhit rfl, hcpy, readLoop, if_neg (by decide)]
    rfl
  rw [hafter, hread] at hsecond
  exact absurd hsecond.1 (by decide)

end UBoot.NandCache
