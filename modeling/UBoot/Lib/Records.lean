/-
# Records in memory

Records lie one behind the other in memory. The first word of a record is its length in words, the
second one tells what it is, and a record of no words is behind the last one. A record is written in
pieces, at the place behind the records so far, and each write is noted.
-/

import UBoot.Lib.Memory
import Mathlib.Algebra.Ring.Nat

namespace UBoot.Lib

/-! ## Words -/

/-- The bytes of a word, the low one first. -/
def bytesOf (w : BitVec 32) : List (BitVec 8) :=
  [w.extractLsb' 0 8, w.extractLsb' 8 8, w.extractLsb' 16 8, w.extractLsb' 24 8]

def wordAt (m : Nat → BitVec 8) (a : Nat) : BitVec 32 := m (a + 3) ++ m (a + 2) ++ m (a + 1) ++ m a

@[simp] theorem length_bytesOf (w : BitVec 32) : (bytesOf w).length = 4 := rfl

variable {m m' : Nat → BitVec 8}

theorem wordAt_eq {a : Nat} {w : BitVec 32} (h : slice m a 4 = bytesOf w) : wordAt m a = w := by
  have hcells : slice m a 4 = [m a, m (a + 1), m (a + 2), m (a + 3)] := rfl
  rw [hcells, bytesOf, List.cons.injEq, List.cons.injEq, List.cons.injEq, List.cons.injEq] at h
  obtain ⟨h₀, h₁, h₂, h₃, -⟩ := h
  rw [wordAt, h₀, h₁, h₂, h₃]
  ext i hi
  simp only [BitVec.getElem_append, BitVec.getElem_extractLsb', BitVec.getLsbD_eq_getElem?_getD]
  grind

/-! ## Writing -/

/-- A write for the record that begins at `record`. -/
structure Write where
  record : Nat
  start : Nat
  length : Nat

/-- Memory with the place of the record that is written, and the writes so far. -/
structure Area where
  mem : Nat → BitVec 8
  place : Nat
  writes : List Write

/-- Bytes are written into the record. -/
def Area.put (s : Area) (offset : Nat) (bytes : List (BitVec 8)) : Area where
  mem := store s.mem (s.place + offset) bytes
  place := s.place
  writes := s.writes ++ [⟨s.place, s.place + offset, bytes.length⟩]

def Area.putAll (s : Area) (pieces : List (Nat × List (BitVec 8))) : Area :=
  pieces.foldl (fun s piece => s.put piece.1 piece.2) s

/-- On to the next record, as the first word of this one tells. -/
def Area.next (s : Area) : Area :=
  { s with place := s.place + 4 * (wordAt s.mem s.place).toNat }

/-! ## Reading -/

structure Header where
  addr : Nat
  kind : BitVec 32
  words : Nat

/-- What is visited from an address on, with so many headers read at most. -/
def visit (last : BitVec 32) (m : Nat → BitVec 8) : Nat → Nat → Option (List Header)
  | 0, _ => none
  | fuel + 1, a =>
      let words := (wordAt m a).toNat
      if words = 0 then if wordAt m (a + 4) = last then some [] else none
      else (visit last m fuel (a + 4 * words)).map (⟨a, wordAt m (a + 4), words⟩ :: ·)

/-- The write is for this record and inside it. -/
def Write.Inside (w : Write) (r : Header) : Prop :=
  w.record = r.addr ∧ r.addr ≤ w.start ∧ w.start + w.length ≤ r.addr + 4 * r.words

/-- A record with what is in it: bytes at offsets. -/
structure Record extends Header where
  pieces : List (Nat × List (BitVec 8))

/-- The record is in memory. -/
structure Record.At (r : Record) (m : Nat → BitVec 8) : Prop where
  nonempty : r.words ≠ 0
  lt : r.words < 2 ^ 32
  words_mem : (0, bytesOf (BitVec.ofNat 32 r.words)) ∈ r.pieces
  kind_mem : (4, bytesOf r.kind) ∈ r.pieces
  room : ∀ piece ∈ r.pieces, piece.1 + piece.2.length ≤ 4 * r.words
  pieces_eq : ∀ piece ∈ r.pieces, slice m (r.addr + piece.1) piece.2.length = piece.2

/-- From one address to another one behind the other. -/
def Chain : Nat → List Record → Nat → Prop
  | start, [], stop => start = stop
  | start, r :: records, stop => r.addr = start ∧ Chain (start + 4 * r.words) records stop

/-- Records are written. -/
structure Built (start : Nat) (s : Area) (records : List Record) : Prop where
  chain : Chain start records s.place
  at_mem : ∀ r ∈ records, r.At s.mem
  inside : ∀ w ∈ s.writes, ∃ r ∈ records, w.Inside r.toHeader

/-- A record is being written: so far it is inside its words. -/
structure Open (s₀ : Area) (words : Nat) (s : Area) : Prop where
  place_eq : s.place = s₀.place
  frame : ∀ i, i < s₀.place → s.mem i = s₀.mem i
  inside : ∀ w ∈ s.writes, w ∈ s₀.writes ∨ w.record = s₀.place ∧ s₀.place ≤ w.start ∧
    w.start + w.length ≤ s₀.place + 4 * words

section Writing

variable {s s₀ : Area} {words offset start : Nat} {bytes : List (BitVec 8)}
  {pieces : List (Nat × List (BitVec 8))} {records : List Record}

theorem Open.refl (s : Area) (words : Nat) : Open s words s := ⟨rfl, fun _ _ => rfl, fun _ => .inl⟩

theorem Open.put (h : Open s₀ words s) (hroom : offset + bytes.length ≤ 4 * words) :
    Open s₀ words (s.put offset bytes) := by
  refine ⟨h.place_eq, fun i hi => ?_, fun w hw => ?_⟩
  · have hplace := h.place_eq
    exact (store_outside (by omega)).trans (h.frame i hi)
  · obtain hw | hw := List.mem_append.mp hw
    · exact h.inside w hw
    · obtain rfl := List.mem_singleton.mp hw
      rw [h.place_eq]
      exact .inr ⟨rfl, Nat.le_add_right _ _, by dsimp only; omega⟩

theorem Open.putAll (h : Open s₀ words s)
    (hroom : ∀ piece ∈ pieces, piece.1 + piece.2.length ≤ 4 * words) :
    Open s₀ words (s.putAll pieces) := by
  induction pieces generalizing s with
  | nil => exact h
  | cons piece pieces ih =>
      rw [List.forall_mem_cons] at hroom
      exact ih (h.put hroom.1) hroom.2

@[simp] theorem put_place : (s.put offset bytes).place = s.place := rfl

@[simp] theorem putAll_place : (s.putAll pieces).place = s.place := by
  induction pieces generalizing s with
  | nil => rfl
  | cons piece pieces ih => exact ih

/-- Bytes beside all pieces stay as they are. -/
theorem slice_putAll_beside {n : Nat} (h : ∀ piece ∈ pieces,
    offset + n ≤ piece.1 ∨ piece.1 + piece.2.length ≤ offset) :
    slice (s.putAll pieces).mem (s.place + offset) n = slice s.mem (s.place + offset) n := by
  induction pieces generalizing s with
  | nil => rfl
  | cons piece pieces ih =>
      rw [List.forall_mem_cons] at h
      have hbeside : s.place + offset + n ≤ s.place + piece.1 ∨
          s.place + piece.1 + piece.2.length ≤ s.place + offset := by omega
      exact (ih (s := s.put piece.1 piece.2) h.2).trans (slice_store_beside hbeside)

/-- Pieces beside each other are all there in the end. -/
theorem slice_putAll (h : pieces.Pairwise fun p q =>
    p.1 + p.2.length ≤ q.1 ∨ q.1 + q.2.length ≤ p.1) {piece : Nat × List (BitVec 8)}
    (hmem : piece ∈ pieces) :
    slice (s.putAll pieces).mem (s.place + piece.1) piece.2.length = piece.2 := by
  induction pieces generalizing s with
  | nil => exact absurd hmem List.not_mem_nil
  | cons first pieces ih =>
      rw [List.pairwise_cons] at h
      obtain rfl | hmem := List.mem_cons.mp hmem
      · exact (slice_putAll_beside (s := s.put piece.1 piece.2) h.1).trans (slice_store_same rfl)
      · exact ih (s := s.put first.1 first.2) h.2 hmem

theorem Chain.snoc {stop : Nat} (h : Chain start records stop) (r : Record) (hr : r.addr = stop) :
    Chain start (records ++ [r]) (stop + 4 * r.words) := by
  induction records generalizing start with
  | nil =>
      cases h
      exact ⟨hr, rfl⟩
  | cons first records ih => exact ⟨h.1, ih h.2⟩

/-- The records of a chain are between its ends. -/
theorem Chain.bounds {stop : Nat} (h : Chain start records stop) :
    start ≤ stop ∧ ∀ r ∈ records, r.addr + 4 * r.words ≤ stop := by
  induction records generalizing start with
  | nil => exact ⟨h.le, fun _ hr => absurd hr List.not_mem_nil⟩
  | cons first records ih =>
      obtain ⟨rfl, hrest⟩ := h
      obtain ⟨hle, hall⟩ := ih hrest
      exact ⟨by omega, List.forall_mem_cons.mpr ⟨hle, hall⟩⟩

theorem Record.At.congr {r : Record} (h : r.At m)
    (hsame : ∀ i, i < r.addr + 4 * r.words → m' i = m i) : r.At m' where
  nonempty := h.nonempty
  lt := h.lt
  words_mem := h.words_mem
  kind_mem := h.kind_mem
  room := h.room
  pieces_eq piece hpiece := by
    have hroom := h.room piece hpiece
    rw [← h.pieces_eq piece hpiece]
    simp only [length_slice]
    exact slice_congr fun i _ hi => hsame i (by omega)

theorem Record.At.words_eq {r : Record} (h : r.At m) : (wordAt m r.addr).toNat = r.words := by
  have hword : wordAt m r.addr = BitVec.ofNat 32 r.words := wordAt_eq (h.pieces_eq _ h.words_mem)
  rw [hword, BitVec.toNat_ofNat, Nat.mod_eq_of_lt h.lt]

theorem Record.At.kind_eq {r : Record} (h : r.At m) : wordAt m (r.addr + 4) = r.kind :=
  wordAt_eq (h.pieces_eq _ h.kind_mem)

/-- A record that is complete is one more. -/
theorem Built.close (hb : Built start s₀ records) {kind : BitVec 32} (ho : Open s₀ words s)
    (hat : Record.At ⟨⟨s₀.place, kind, words⟩, pieces⟩ s.mem) :
    Built start s.next (records ++ [⟨⟨s₀.place, kind, words⟩, pieces⟩]) := by
  have hwords := hat.words_eq
  dsimp only at hwords
  refine ⟨?_, ?_, ?_⟩
  · rw [Area.next, ho.place_eq, hwords]
    exact hb.chain.snoc _ rfl
  · intro r hr
    obtain hr | hr := List.mem_append.mp hr
    · have hbound := hb.chain.bounds.2 r hr
      exact (hb.at_mem r hr).congr fun i hi => ho.frame i (by omega)
    · obtain rfl := List.mem_singleton.mp hr
      exact hat
  · intro w hw
    obtain hw | hw := ho.inside w hw
    · obtain ⟨r, hr, hin⟩ := hb.inside w hw
      exact ⟨r, List.mem_append_left _ hr, hin⟩
    · exact ⟨_, List.mem_append_right _ (List.mem_singleton.mpr rfl), hw⟩

end Writing

/-- The records are visited, and then the end. -/
theorem Chain.visit {last : BitVec 32} {start stop : Nat} {records : List Record}
    (h : Chain start records stop) (hat : ∀ r ∈ records, r.At m)
    (hzero : wordAt m stop = 0) (hlast : wordAt m (stop + 4) = last) {fuel : Nat}
    (hfuel : records.length < fuel) :
    Lib.visit last m fuel start = some (records.map Record.toHeader) := by
  induction records generalizing start fuel with
  | nil =>
      obtain ⟨fuel, rfl⟩ := Nat.exists_eq_add_of_lt hfuel
      cases h
      simp [Lib.visit, hzero, hlast]
  | cons r records ih =>
      obtain ⟨fuel, rfl⟩ : ∃ n, fuel = n + 1 := ⟨fuel - 1, by omega⟩
      obtain ⟨rfl, hrest⟩ := h
      rw [List.forall_mem_cons] at hat
      rw [List.length_cons] at hfuel
      rw [Lib.visit, hat.1.words_eq, hat.1.kind_eq, if_neg hat.1.nonempty,
        ih hrest hat.2 (by omega)]
      rfl

end UBoot.Lib
