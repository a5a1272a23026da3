/-
# Redundant environment copies

The data model of `include/environment.h` with
`CONFIG_SYS_REDUNDAND_ENVIRONMENT`: an `env_t` is a checksum, one flag byte and
`ENV_SIZE` bytes of data, and a board keeps two of them. What an interrupted
store operation leaves in a copy is part of the model. A copy of which only a
part was written is a `Torn` one, whose checksum does not match its data.
-/

import UBoot.LibGeneric.Crc32
import UBoot.Lib.Interrupt
import UBoot.Lib.Run

namespace UBoot.Env

/-- `env_t`; `size` is `ENV_SIZE`. -/
structure EnvT (size : Nat) where
  crc : BitVec 32
  flags : Byte
  data : Vector Byte size
  deriving DecidableEq

variable {size : Nat}

/-- The test `crc32(0, env->data, ENV_SIZE) == env->crc`. -/
def EnvT.CrcOk (env : EnvT size) : Prop :=
  crc32 0 env.data.toList = env.crc

instance (env : EnvT size) : Decidable env.CrcOk :=
  inferInstanceAs (Decidable (_ = _))

/-- An environment with the checksum `env_crc_update` gives it. -/
def EnvT.sealed (flags : Byte) (data : Vector Byte size) : EnvT size :=
  ⟨crc32 0 data.toList, flags, data⟩

theorem EnvT.sealed_crcOk (flags : Byte) (data : Vector Byte size) :
    (EnvT.sealed flags data).CrcOk := rfl

@[simp]
theorem EnvT.sealed_data (flags : Byte) (data : Vector Byte size) :
    (EnvT.sealed flags data).data = data := rfl

@[simp]
theorem EnvT.sealed_flags (flags : Byte) (data : Vector Byte size) :
    (EnvT.sealed flags data).flags = flags := rfl

/-- The checksum does not cover the flag byte. -/
@[simp]
theorem EnvT.crcOk_flags (env : EnvT size) (flags : Byte) :
    ({ env with flags := flags } : EnvT size).CrcOk ↔ env.CrcOk := Iff.rfl

/-- A copy that was only partly written. -/
abbrev Torn (size : Nat) := { env : EnvT size // ¬ env.CrcOk }

/-- The two places a copy is kept: `CONFIG_ENV_ADDR` (or `CONFIG_ENV_OFFSET`)
and its `_REDUND` counterpart. -/
inductive Area
  | env
  | redund
  deriving DecidableEq

/-- The area that is not this one. -/
def Area.other : Area → Area
  | .env => .redund
  | .redund => .env

@[simp]
theorem Area.other_other (a : Area) : a.other.other = a := by cases a <;> rfl

@[simp]
theorem Area.other_ne (a : Area) : a.other ≠ a := by cases a <;> decide

@[simp]
theorem Area.ne_other (a : Area) : a ≠ a.other := by cases a <;> decide

theorem Area.eq_or_eq_other (a b : Area) : b = a ∨ b = a.other := by
  cases a <;> cases b <;> simp [Area.other]

/-- The persistent store: what each area holds. -/
abbrev Store (size : Nat) := Area → EnvT size

/-- What an operation that did not report success left in its area: nothing
happened, a part happened, or the whole of it happened nevertheless. -/
inductive Left (size : Nat)
  | untouched
  | torn (env : Torn size)
  | complete

/-- The contents of the area after an operation that was to turn `before` into
`after`. -/
def Left.apply (before after : EnvT size) : Left size → EnvT size
  | .untouched => before
  | .torn env => env.1
  | .complete => after

/-- How one operation on the store ends: it succeeds, it returns the error
`code`, or power is lost in it. An operation on a whole area carries `Left`, one
on a single byte whether the byte was written. -/
inductive OpEnd (α : Type)
  | ok
  | err (code : { code : Nat // code ≠ 0 }) (left : α)
  | cut (left : α)

/-! ## Operations on an area -/

open UBoot.Lib

/-- A computation on the stored copies. -/
abbrev StoreM (size : Nat) := Interruptible (Store size)

/-- An operation on a whole area; the result is the error code, or 0. -/
def areaOp (op : OpEnd (Left size)) (a : Area) (after : EnvT size → EnvT size) :
    StoreM size Nat := fun store =>
  let leave (left : Left size) :=
    Function.update store a (left.apply (store a) (after (store a)))
  match op with
  | .ok => .ok 0 (leave .complete)
  | .err code left => .ok code.1 (leave left)
  | .cut left => .error .powerLoss (leave left)

/-- An erased copy: every byte is `0xFF`. -/
def erased : EnvT size :=
  ⟨0xFFFFFFFF#32, 0xFF#8, Vector.replicate size 0xFF#8⟩

/-- An operation on an area and the test of its result, when a failed or cut
operation may leave any state satisfying `C`. -/
theorem areaOp_step {α : Type} {R : α → Store size → Prop} {C : Store size → Prop}
    {leave : Nat → α} {k : Nat → StoreM size α} (store : Store size)
    (op : OpEnd (Left size)) (a : Area) (after : EnvT size → EnvT size)
    (left : ∀ l, (∃ code, op = .err code l) ∨ op = .cut l →
      C (Function.update store a (l.apply (store a) (after (store a)))))
    (stop : ∀ code, code ≠ 0 → ∀ s, C s → R (leave code) s)
    (rest : op = .ok →
      Triple (fun s => s = Function.update store a (after (store a))) (k 0) R C) :
    Triple (fun s => s = store)
      (areaOp op a after >>= fun code => if code ≠ 0 then pure (leave code) else k code) R C := by
  refine Triple.check (Q := fun code s => (code ≠ 0 → C s) ∧
    (code = 0 → op = .ok ∧ s = Function.update store a (after (store a)))) ?_ ?_ ?_
  · rintro _ rfl
    cases op with
    | ok => exact ⟨fun h => absurd rfl h, fun _ => ⟨rfl, rfl⟩⟩
    | err code l => exact ⟨fun _ => left l (.inl ⟨code, rfl⟩), fun h => absurd h code.2⟩
    | cut l => exact left l (.inr rfl)
  · exact fun code hcode s hs => stop code hcode s (hs.1 hcode)
  · exact (Triple.lift rest).pre fun s hs => ⟨(hs.2 rfl).2, (hs.2 rfl).1⟩

end UBoot.Env
