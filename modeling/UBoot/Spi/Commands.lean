/-
# Commands on an SPI bus

A driver sends commands to a chip one after the other and stops at the first that fails. A command
that fails may have done a part of what it does: what it would leave alone it leaves alone.
-/

import UBoot.Lib.Pages
import UBoot.LibGeneric.Crc32

namespace UBoot.Spi

/-- An address byte of a command. -/
def byteOf (n : Nat) : Byte := BitVec.ofNat 8 n

/-- The address in a command. -/
def address (high middle low : Byte) : Nat := high.toNat * 65536 + middle.toNat * 256 + low.toNat

theorem address_eq (n : Nat) :
    address (byteOf (n / 65536)) (byteOf (n / 256)) (byteOf n) = n % 2 ^ 24 := by
  simp only [address, byteOf, BitVec.toNat_ofNat]
  omega

/-- A chip has cells, and modes. -/
class HasCells (σ : Type) where
  cells : σ → Nat → Byte

/-- Which commands succeed, and what one that fails makes of the chip, whose state would have been
`after`. -/
structure Bus (σ : Type) [HasCells σ] where
  answers : Nat → Bool
  broken : Nat → (before after : σ) → σ
  broken_eq : ∀ n before after i, HasCells.cells after i = HasCells.cells before i →
    HasCells.cells (broken n before after) i = HasCells.cells before i

/-- The chip, and the number of commands so far. -/
structure Run (σ : Type) where
  chip : σ
  count : Nat

variable {σ : Type} [HasCells σ]

/-- A command is sent. -/
def Bus.send (bus : Bus σ) (effect : σ → σ) (r : Run σ) : Bool × Run σ :=
  if bus.answers r.count then (true, ⟨effect r.chip, r.count + 1⟩)
  else (false, ⟨bus.broken r.count r.chip (effect r.chip), r.count + 1⟩)

/-- What comes next is done if nothing has failed. -/
def andThen (x : Bool × Run σ) (next : Run σ → Bool × Run σ) : Bool × Run σ :=
  if x.1 then next x.2 else x

/-- Every command succeeds. -/
def Bus.Sound (bus : Bus σ) : Prop := ∀ n, bus.answers n = true

theorem Bus.Sound.andThen {bus : Bus σ} (h : bus.Sound) (effect : σ → σ) (r : Run σ)
    (next : Run σ → Bool × Run σ) :
    andThen (bus.send effect r) next = next ⟨effect r.chip, r.count + 1⟩ := by
  rw [Bus.send, if_pos (h _), Spi.andThen, if_pos rfl]

/-- What comes next is reached by commands that succeed only. -/
theorem andThen_ok {bus : Bus σ} {effect : σ → σ} {r : Run σ} {next : Run σ → Bool × Run σ}
    (h : (Spi.andThen (bus.send effect r) next).1 = true) :
    Spi.andThen (bus.send effect r) next = next ⟨effect r.chip, r.count + 1⟩ := by
  rw [Bus.send] at h ⊢
  split at h
  · next hok => rw [if_pos hok, Spi.andThen, if_pos rfl]
  · exact absurd h Bool.false_ne_true

theorem send_ok {bus : Bus σ} {effect : σ → σ} {r : Run σ} (h : (bus.send effect r).1 = true) :
    bus.send effect r = (true, ⟨effect r.chip, r.count + 1⟩) := by
  rw [Bus.send] at h ⊢
  split at h
  · next hok => rw [if_pos hok]
  · exact absurd h Bool.false_ne_true

end UBoot.Spi
