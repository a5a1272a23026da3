/-
# Loading the kernel

`bootm_load_os` of `common/cmd_bootm.c` with what it does to memory, and `memmove_wd` of
`common/image.c`. An image that is not compressed is moved from inside a blob to its load
address, in one piece or, where a watchdog has to be served, in chunks from the first to the
last. What the move has overwritten is found out afterwards, by comparing addresses.
-/

import UBoot.Image.Bootm
import UBoot.Lib.Moves

namespace UBoot.Bootm

open UBoot.Lib UBoot.Image

/-- A size of chunks when `CONFIG_HW_WATCHDOG` or `CONFIG_WATCHDOG` is set. -/
abbrev Watchdog := Option {n : Nat // 0 < n}

/-- `memmove_wd` -/
def memmove_wd (chunksz : Watchdog) (to_ src len : Nat) (m : Ram Byte) : Ram Byte :=
  match chunksz with
  | none => m.memmove to_ src len
  | some chunksz => m.moveChunks chunksz to_ src len

/-- The `switch` of `bootm_load_os` on memory. A decompressor leaves the memory and, unless it
fails, a length. -/
def unpackOs (chunksz : Watchdog) (decompress : Ram Byte → Ram Byte × Option U32) (os : ImageInfo)
    (m : Ram Byte) : Ram Byte × Option U32 :=
  if os.comp = 0 then
    if os.load = os.start then (m, none)
    else if os.load ≠ os.image_start then
      (memmove_wd chunksz os.load.toNat os.image_start.toNat os.image_len.toNat m, none)
    else (m, none)
  else decompress m

/-- What `bootm_load_os` leaves: memory, `*load_end` where it is set, and the return value. -/
structure LoadedOs where
  memory : Ram Byte
  load_end : Option U32
  ret : Int

/-- `bootm_load_os` on memory. -/
def loadOs (cfg : Config) (chunksz : Watchdog) (decompress : Ram Byte → Ram Byte × Option U32)
    (os : ImageInfo) (m : Ram Byte) : LoadedOs :=
  let (m', unpacked) := unpackOs chunksz decompress os m
  ⟨m', (loadEnd cfg unpacked os).toOption, bootm_load_os cfg unpacked os⟩

/-- An image that is not compressed, inside its blob, and that is not executed in place. -/
structure Uncompressed where
  os : ImageInfo
  comp : os.comp = 0
  start_le : os.start.toNat ≤ os.image_start.toNat
  le_stop : os.image_start.toNat + os.image_len.toNat ≤ os.stop.toNat
  load_ne : os.load ≠ os.start

/-- The addresses of a blob that are not those of its payload. -/
def ImageInfo.aroundPayload (os : ImageInfo) : Set Nat :=
  Set.Ico os.start.toNat os.stop.toNat \
    Set.Ico os.image_start.toNat (os.image_start.toNat + os.image_len.toNat)

/-- The payload is what is loaded. What is around it is intact when that is said, and said to be
overwritten when it was. -/
structure LoadsIntact (os : ImageInfo) (bytes : Nat → Byte) (r : LoadedOs) : Prop where
  load_end : r.load_end.map BitVec.toNat = some (os.load.toNat + os.image_len.toNat)
  payload : ∀ i < os.image_len.toNat,
    r.memory.byte (os.load.toNat + i) = bytes (os.image_start.toNat + i)
  intact : r.ret = 0 → ∀ x ∈ os.aroundPayload, r.memory.byte x = bytes x
  overlap : (∃ x ∈ os.aroundPayload, r.memory.stored x = true) → r.ret = BOOTM_ERR_OVERLAP

/-- The end of what is loaded is an address, and where chunks are moved, each byte of the payload
that is stored to before it is read is the same as the byte that is stored there. -/
def MovesWhole (chunksz : Watchdog) (os : ImageInfo) (bytes : Nat → Byte) : Prop :=
  os.load.toNat + os.image_len.toNat < 2 ^ 32 ∧
    ∀ c ∈ chunksz, ∀ i < os.image_len.toNat,
      Ram.Clobbered c.1 os.load.toNat os.image_start.toNat i →
        bytes (os.image_start.toNat + i) =
          bytes (os.image_start.toNat + (os.image_start.toNat + i - os.load.toNat))

/-! ## Moving -/

theorem memmove_wd_stored (chunksz : Watchdog) (to_ src len : Nat) (m : Ram Byte) (x : Nat) :
    (memmove_wd chunksz to_ src len m).stored x =
      (decide (to_ ≤ x ∧ x < to_ + len) || m.stored x) := by
  cases chunksz with
  | none => exact (m.memmove_moved to_ src len).stored x
  | some chunksz => exact Ram.moveChunks_stored to_ src len m x

theorem memmove_wd_outside {chunksz : Watchdog} {to_ src len x : Nat} (m : Ram Byte)
    (h : x < to_ ∨ to_ + len ≤ x) : (memmove_wd chunksz to_ src len m).byte x = m.byte x := by
  cases chunksz with
  | none => rw [memmove_wd, (m.memmove_moved to_ src len).byte, if_neg (by omega)]
  | some chunksz => exact Ram.moveChunks_outside m h

theorem memmove_wd_iff {chunksz : Watchdog} {to_ src len : Nat} (m : Ram Byte) :
    (∀ i < len, (memmove_wd chunksz to_ src len m).byte (to_ + i) = m.byte (src + i)) ↔
      ∀ c ∈ chunksz, ∀ i < len, Ram.Clobbered c.1 to_ src i →
        m.byte (src + i) = m.byte (src + (src + i - to_)) := by
  cases chunksz with
  | none =>
      apply iff_of_true
      · intro i hi
        rw [memmove_wd, (m.memmove_moved to_ src len).byte, if_pos (by omega),
          Nat.add_sub_cancel_left]
      · intro c hc
        cases hc
  | some chunksz =>
      simp only [Option.mem_some, forall_eq']
      exact m.moveChunks_iff

/-! ## Loading -/

variable {cfg : Config} {chunksz : Watchdog} {decompress : Ram Byte → Ram Byte × Option U32}

/-- An image that is not compressed is moved, unless it is where it is loaded to. -/
theorem loadOs_memory (image : Uncompressed) (m : Ram Byte) :
    (loadOs cfg chunksz decompress image.os m).memory =
      if image.os.load = image.os.image_start then m
      else memmove_wd chunksz image.os.load.toNat image.os.image_start.toNat
        image.os.image_len.toNat m := by
  simp only [loadOs, unpackOs, if_pos image.comp, if_neg image.load_ne]
  split_ifs <;> simp_all

theorem loadOs_load_end (image : Uncompressed) (m : Ram Byte) :
    (loadOs cfg chunksz decompress image.os m).load_end =
      some (image.os.load + image.os.image_len) := by
  simp only [loadOs, loadEnd, if_pos image.comp]
  rfl

theorem loadOs_ret (image : Uncompressed) (m : Ram Byte) :
    (loadOs cfg chunksz decompress image.os m).ret =
      if image.os.load < image.os.stop ∧ image.os.start < image.os.load + image.os.image_len ∧
          (image.os.load < image.os.image_start ∨
            image.os.image_start + image.os.image_len < image.os.load + image.os.image_len) then
        BOOTM_ERR_OVERLAP
      else 0 := by
  simp only [loadOs, bootm_load_os, loadEnd, if_pos image.comp]

/-- The payload is loaded as it was exactly when the move has not spoilt it. -/
theorem loadOs_payload_iff (image : Uncompressed) (bytes : Nat → Byte) :
    (∀ i < image.os.image_len.toNat,
      (loadOs cfg chunksz decompress image.os (.ofBytes bytes)).memory.byte
        (image.os.load.toNat + i) = bytes (image.os.image_start.toNat + i)) ↔
      ∀ c ∈ chunksz, ∀ i < image.os.image_len.toNat,
        Ram.Clobbered c.1 image.os.load.toNat image.os.image_start.toNat i →
          bytes (image.os.image_start.toNat + i) =
            bytes (image.os.image_start.toNat + (image.os.image_start.toNat + i -
              image.os.load.toNat)) := by
  rw [loadOs_memory]
  by_cases hload : image.os.load = image.os.image_start
  · rw [if_pos hload, hload]
    apply iff_of_true
    · intro i hi
      rfl
    · intro c hc i hi hclobbered
      rw [Nat.add_sub_cancel_left]
  · rw [if_neg hload]
    exact memmove_wd_iff (.ofBytes bytes)

/-- What was stored around the payload is found by the four comparisons. -/
theorem loadOs_overlap (image : Uncompressed) {bytes : Nat → Byte} {x : Nat}
    (hwrap : image.os.load.toNat + image.os.image_len.toNat < 2 ^ 32)
    (hx : x ∈ image.os.aroundPayload)
    (hstored : (loadOs cfg chunksz decompress image.os (.ofBytes bytes)).memory.stored x = true) :
    (loadOs cfg chunksz decompress image.os (.ofBytes bytes)).ret = BOOTM_ERR_OVERLAP := by
  rw [loadOs_memory] at hstored
  by_cases hload : image.os.load = image.os.image_start
  · rw [if_pos hload] at hstored
    cases hstored
  · rw [if_neg hload, memmove_wd_stored] at hstored
    simp only [Ram.ofBytes, Bool.or_false, decide_eq_true_eq] at hstored
    obtain ⟨hblob, hpayload⟩ := hx
    rw [Set.mem_Ico] at hblob hpayload
    have hstop := image.le_stop
    have hlt := image.os.stop.isLt
    have hend : (image.os.load + image.os.image_len).toNat =
        image.os.load.toNat + image.os.image_len.toNat := by
      rw [BitVec.toNat_add, Nat.mod_eq_of_lt hwrap]
    have himage : (image.os.image_start + image.os.image_len).toNat =
        image.os.image_start.toNat + image.os.image_len.toNat := by
      rw [BitVec.toNat_add, Nat.mod_eq_of_lt (by omega)]
    rw [loadOs_ret, if_pos]
    simp only [BitVec.lt_def, hend, himage]
    omega

/-- Bytes that were not stored to are as they were. -/
theorem loadOs_outside (image : Uncompressed) {bytes : Nat → Byte} {x : Nat}
    (hstored : (loadOs cfg chunksz decompress image.os (.ofBytes bytes)).memory.stored x = false) :
    (loadOs cfg chunksz decompress image.os (.ofBytes bytes)).memory.byte x = bytes x := by
  rw [loadOs_memory] at hstored ⊢
  by_cases hload : image.os.load = image.os.image_start
  · rw [if_pos hload]
    rfl
  · rw [if_neg hload, memmove_wd_stored] at hstored
    simp only [Ram.ofBytes, Bool.or_false, decide_eq_false_iff_not] at hstored
    rw [if_neg hload, memmove_wd_outside _ (by omega)]
    rfl

/-- `bootm_load_os` loads an image that is not compressed as it is, and says whether it has
overwritten anything around it, exactly when the loaded image ends at an address and no chunk was
stored over bytes that another chunk was still to move and that were different. -/
theorem loadOs_intact_iff (cfg : Config) (chunksz : Watchdog)
    (decompress : Ram Byte → Ram Byte × Option U32) (image : Uncompressed) (bytes : Nat → Byte) :
    LoadsIntact image.os bytes (loadOs cfg chunksz decompress image.os (.ofBytes bytes)) ↔
      MovesWhole chunksz image.os bytes := by
  constructor
  · intro h
    constructor
    · have hend := h.load_end
      rw [loadOs_load_end, Option.map_some, Option.some.injEq] at hend
      rw [← hend]
      exact BitVec.isLt _
    · exact (loadOs_payload_iff image bytes).mp h.payload
  · rintro ⟨hwrap, hmoves⟩
    constructor
    · rw [loadOs_load_end, Option.map_some, BitVec.toNat_add, Nat.mod_eq_of_lt hwrap]
    · exact (loadOs_payload_iff image bytes).mpr hmoves
    · intro hret x hx
      apply loadOs_outside image
      by_contra hstored
      rw [Bool.not_eq_false] at hstored
      rw [loadOs_overlap image hwrap hx hstored] at hret
      exact absurd hret (by decide)
    · rintro ⟨x, hx, hstored⟩
      exact loadOs_overlap image hwrap hx hstored

/-- A payload of one chunk and a byte, which is to be moved up by one byte. -/
def movedUp : Uncompressed where
  os := ⟨0xc0008000#32, 0xc0018041#32, 0xc0008040#32, 0x10001#32, 0xc0008041#32, 0, 2, 5⟩
  comp := rfl
  start_le := by decide
  le_stop := by decide
  load_ne := by decide

/-- Not every payload is loaded as it is: the second chunk begins with a byte that the first has
stored. -/
theorem not_loadOs_intact :
    ¬ ∀ (cfg : Config) (chunksz : Watchdog) (decompress : Ram Byte → Ram Byte × Option U32)
      (image : Uncompressed) (bytes : Nat → Byte),
      LoadsIntact image.os bytes (loadOs cfg chunksz decompress image.os (.ofBytes bytes)) := by
  intro h
  have hloaded := (h ⟨false, false, false, false, false, false, false, false⟩
    (some ⟨0x10000, by decide⟩) (fun m => (m, none)) movedUp (fun x => BitVec.ofNat 8 x)).payload
  have hbyte := (loadOs_payload_iff movedUp _).mp hloaded ⟨0x10000, by decide⟩ rfl 0x10000
    (by decide) (by decide)
  exact absurd hbyte (by decide)

end UBoot.Bootm
