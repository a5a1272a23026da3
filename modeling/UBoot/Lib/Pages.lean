/-
# Pages

A memory whose address counter stays in a page: behind the last cell of a page comes its first one.
Cells that are written become something that depends on what they were. Where nothing comes behind
the last cell of the page, they are so many cells one behind the other.
-/

import UBoot.Lib.CStrings

namespace UBoot.Lib

variable {β : Type*}

/-- The cells from `at` on become what `f` makes of them and of the source. -/
def blend (f : β → β → β) (m : Nat → β) (start : Nat) (src : List β) : Nat → β :=
  fun i => if start ≤ i then (src[i - start]?).elim (m i) (f (m i)) else m i

/-- The cell behind `c` in its page. -/
def nextInPage (page c : Nat) : Nat := c / page * page + (c + 1) % page

def writePage (f : β → β → β) (page : Nat) (m : Nat → β) (c : Nat) : List β → Nat → β
  | [] => m
  | b :: src => writePage f page (blend f m c [b]) (nextInPage page c) src

def readPage (page : Nat) (m : Nat → β) (c : Nat) : Nat → List β
  | 0 => []
  | n + 1 => m c :: readPage page m (nextInPage page c) n

section Blend

variable {f : β → β → β} {m m' : Nat → β} {start i : Nat} {src : List β}

@[simp]
theorem blend_nil : blend f m start [] = m := by
  funext i
  simp [blend]

theorem blend_outside (h : i < start ∨ start + src.length ≤ i) : blend f m start src i = m i := by
  rw [blend]
  split
  · rw [List.getElem?_eq_none (by omega)]
    rfl
  · rfl

theorem blend_inside {b : β} (h : src[i]? = some b) :
    blend f m start src (start + i) = f (m (start + i)) b := by
  rw [blend, if_pos (Nat.le_add_right _ _), Nat.add_sub_cancel_left, h]
  rfl

/-- A second source right behind the first. -/
theorem blend_append (f : β → β → β) (m : Nat → β) (start : Nat) (first second : List β) :
    blend f (blend f m start first) (start + first.length) second =
      blend f m start (first ++ second) := by
  funext i
  by_cases hsecond : start + first.length ≤ i
  · have hfirst : blend f m start first i = m i := blend_outside (.inr hsecond)
    rw [blend, if_pos hsecond, hfirst, blend, if_pos (by omega),
      List.getElem?_append_right (by omega), show i - start - first.length =
        i - (start + first.length) by omega]
  · rw [blend, if_neg hsecond, blend, blend]
    split
    · rw [List.getElem?_append_left (by omega)]
    · rfl

/-- Where a cell becomes what is written to it, that is a copy. -/
theorem blend_eq_store : blend (fun _ b => b) m start src = store m start src := by
  funext i
  rw [blend, store]
  split
  · cases src[i - start]? with
    | none => rfl
    | some b => rfl
  · rfl

end Blend

section Pages

variable {page c : Nat}

theorem succ_mod (h : c % page + 1 < page) : (c + 1) % page = c % page + 1 := by
  rw [Nat.add_mod, Nat.mod_eq_of_lt (a := 1) (by omega), Nat.mod_eq_of_lt h]

theorem nextInPage_eq (h : c % page + 1 < page) : nextInPage page c = c + 1 := by
  have hdiv := Nat.div_add_mod' c page
  rw [nextInPage, succ_mod h]
  omega

/-- Cells of one page are written. -/
theorem writePage_eq_blend (f : β → β → β) (m : Nat → β) (src : List β)
    (h : c % page + src.length ≤ page) : writePage f page m c src = blend f m c src := by
  induction src generalizing m c with
  | nil => rw [blend_nil]; rfl
  | cons b src ih =>
      rw [List.length_cons] at h
      rw [writePage]
      cases src with
      | nil => rfl
      | cons b' src =>
          have hnext : c % page + 1 < page := by
            rw [List.length_cons] at h
            omega
          rw [nextInPage_eq hnext, ih _ (by rw [succ_mod hnext]; omega)]
          exact blend_append f m c [b] (b' :: src)

theorem nextInPage_div (hpage : 0 < page) : nextInPage page c / page = c / page := by
  rw [nextInPage, Nat.mul_comm, Nat.mul_add_div hpage, Nat.div_eq_of_lt (Nat.mod_lt _ hpage),
    Nat.add_zero]

/-- The other pages stay as they are. -/
theorem writePage_outside (f : β → β → β) (m : Nat → β) (src : List β) (hpage : 0 < page) {i : Nat}
    (h : i / page ≠ c / page) : writePage f page m c src i = m i := by
  induction src generalizing m c with
  | nil => rfl
  | cons b src ih =>
      have hne : i ≠ c := fun heq => h (by rw [heq])
      rw [writePage, ih _ (by rw [nextInPage_div hpage]; exact h), blend_outside]
      rw [List.length_singleton]
      omega

/-- Cells of one page are read. -/
theorem readPage_eq_slice (m : Nat → β) {n : Nat} (h : c % page + n ≤ page) :
    readPage page m c n = slice m c n := by
  induction n generalizing c with
  | zero => rfl
  | succ n ih =>
      rw [readPage, slice_succ]
      refine congrArg (m c :: ·) ?_
      cases n with
      | zero => rfl
      | succ n =>
          have hnext : c % page + 1 < page := by omega
          rw [nextInPage_eq hnext, ih (by rw [succ_mod hnext]; omega)]

end Pages

section Pieces

variable {σ : Type*}

/-- The range from `offset` to `stop` in pieces. -/
def transferLoop (limit : Nat → { n : Nat // 0 < n }) (stop : Nat) (transfer : Nat → Nat → σ → σ)
    (offset : Nat) (s : σ) : σ :=
  if offset < stop then
    transferLoop limit stop transfer (offset + min (stop - offset) (limit offset))
      (transfer offset (min (stop - offset) (limit offset)) s)
  else s
termination_by stop - offset
decreasing_by
  have := (limit offset).2
  omega

/-- What each piece keeps holds in the end. -/
theorem transferLoop_rule {limit : Nat → { n : Nat // 0 < n }} {stop : Nat}
    (transfer : Nat → Nat → σ → σ) (inv : Nat → σ → Prop)
    (hstep : ∀ offset s, offset < stop → inv offset s →
      inv (offset + min (stop - offset) (limit offset))
        (transfer offset (min (stop - offset) (limit offset)) s))
    {offset : Nat} {s : σ} (hle : offset ≤ stop) (h : inv offset s) :
    inv stop (transferLoop limit stop transfer offset s) := by
  fun_induction transferLoop limit stop transfer offset s with
  | case1 offset s hlt ih => exact ih (by omega) (hstep offset s hlt h)
  | case2 offset s hge => exact (Nat.le_antisymm hle (Nat.le_of_not_lt hge)) ▸ h

end Pieces

end UBoot.Lib

/-!
## Pages that are programmed through a buffer

A memory of pages with a buffer of one page. Cells are loaded to the buffer, which keeps its other
cells, and then the whole buffer is programmed into a page. A source that is longer than what is
left of its first page goes there in pieces. The cells beside it in the same pages take what the
buffer has at their place: the source one page before, or what was there in the beginning.
-/

namespace UBoot.Lib

variable {β : Type*}

/-- The cells, and the buffer. -/
structure Buffered (β : Type*) where
  mem : Nat → β
  buffer : Nat → β

namespace Buffered

/-- Cells of the buffer are loaded from `c` on; behind its last one comes the first one. -/
def load (page : Nat) (s : Buffered β) (c : Nat) (src : List β) : Buffered β :=
  { s with buffer := writePage (fun _ b => b) page s.buffer c src }

/-- The buffer is programmed into a page. -/
def program (f : β → β → β) (page : Nat) (s : Buffered β) (n : Nat) : Buffered β :=
  { s with mem := fun a => if a / page = n then f (s.mem a) (s.buffer (a % page)) else s.mem a }

end Buffered

/-- The page of the cell has a cell of the range. -/
def Touched (page offset len a : Nat) : Prop :=
  ∃ x, offset ≤ x ∧ x < offset + len ∧ x / page = a / page

/-- What the buffer has at the place of a cell beside the source, when the cell is programmed. -/
def stale (page : Nat) (buffer : Nat → β) (offset : Nat) (src : List β) : Nat → β :=
  store (fun a => buffer (a % page)) (offset + page) src

section Touched

variable {page offset len a : Nat}

theorem Touched.of_mem (hle : offset ≤ a) (hlt : a < offset + len) : Touched page offset len a :=
  ⟨a, hle, hlt, rfl⟩

theorem not_touched_zero : ¬Touched page offset 0 a := by
  rintro ⟨x, hle, hlt, -⟩
  omega

/-- A cell behind the range is less than a page behind it. -/
theorem Touched.lt (hpage : 0 < page) (h : Touched page offset len a) :
    a < offset + len + page := by
  obtain ⟨x, -, hlt, hdiv⟩ := h
  have hx := Nat.div_mul_le_self x page
  have ha := Nat.lt_div_mul_add hpage (a := a)
  rw [hdiv] at hx
  omega

/-- A range inside of a page. -/
theorem touched_in_page (hlen : 0 < len) (hin : offset % page + len ≤ page) :
    Touched page offset len a ↔ a / page = offset / page := by
  have hsame (x : Nat) (hle : offset ≤ x) (hlt : x < offset + len) : x / page = offset / page := by
    have hoffset := Nat.div_add_mod' offset page
    refine Nat.div_eq_of_lt_le (by omega) ?_
    rw [Nat.succ_mul]
    omega
  constructor
  · rintro ⟨x, hle, hlt, hdiv⟩
    rw [← hdiv, hsame x hle hlt]
  · intro h
    exact ⟨offset, le_rfl, by omega, h.symm⟩

theorem touched_append {n : Nat} : Touched page offset (n + len) a ↔
    Touched page offset n a ∨ Touched page (offset + n) len a := by
  constructor
  · rintro ⟨x, hle, hlt, hdiv⟩
    by_cases hx : x < offset + n
    · exact .inl ⟨x, hle, hx, hdiv⟩
    · exact .inr ⟨x, by omega, by omega, hdiv⟩
  · rintro (⟨x, hle, hlt, hdiv⟩ | ⟨x, hle, hlt, hdiv⟩)
    · exact ⟨x, hle, by omega, hdiv⟩
    · exact ⟨x, by omega, by omega, hdiv⟩

/-- The rest of a range begins with a page. -/
theorem Touched.next_page (hpage : 0 < page) {n : Nat} (hend : offset % page + n = page)
    (h : Touched page (offset + n) len a) : offset / page < a / page := by
  obtain ⟨x, hle, -, hdiv⟩ := h
  have hoffset := Nat.div_add_mod' offset page
  rw [← hdiv, Nat.lt_iff_add_one_le, Nat.le_div_iff_mul_le hpage, Nat.succ_mul]
  omega

end Touched

section Stores

variable {page offset a : Nat} {m m' : Nat → β} {src : List β}

theorem store_congr (h : m a = m' a) : store m offset src a = store m' offset src a := by
  rw [store, store, h]

theorem store_covered (hle : offset ≤ a) (hlt : a < offset + src.length) :
    store m offset src a = store m' offset src a := by
  have hcell : src[a - offset]? = some src[a - offset] := List.getElem?_eq_getElem (by omega)
  rw [store, store, if_pos hle, if_pos hle, hcell]
  rfl

/-- A source that is stored in a buffer of one page. -/
theorem store_mod (h : a / page = offset / page) :
    store m (offset % page) src (a % page) = store (fun a => m (a % page)) offset src a := by
  have ha := Nat.div_add_mod' a page
  have hoffset := Nat.div_add_mod' offset page
  rw [h] at ha
  have hle : offset % page ≤ a % page ↔ offset ≤ a := by omega
  have hsub : a % page - offset % page = a - offset := by omega
  rw [store, store, hsub]
  exact if_congr hle rfl rfl

end Stores

/-! ## Pieces -/

variable {f : β → β → β} {page : Nat}

/-- The cells of `s'` are what those of `s` become by a source that is programmed page by page. -/
structure Programmed (f : β → β → β) (page : Nat) (s s' : Buffered β) (offset : Nat)
    (src : List β) : Prop where
  touched : ∀ a, Touched page offset src.length a →
    s'.mem a = f (s.mem a) (store (stale page s.buffer offset src) offset src a)
  untouched : ∀ a, ¬Touched page offset src.length a → s'.mem a = s.mem a

section Programmed

variable {s s₁ s₂ : Buffered β} {offset : Nat} {src first second : List β}

theorem programmed_nil : Programmed f page s s offset [] where
  touched _ h := absurd h not_touched_zero
  untouched _ _ := rfl

/-- The place of a cell that is not behind the source was not reached before. -/
theorem stale_near {a : Nat} (buffer : Nat → β) (h : a < offset + page) :
    stale page buffer offset src a = buffer (a % page) := store_outside (.inl h)

/-- A page, or a part of one. -/
theorem programmed_piece (hsrc : src ≠ []) (hin : offset % page + src.length ≤ page) :
    ((s.load page (offset % page) src).program f page (offset / page)).buffer =
        store s.buffer (offset % page) src ∧
      Programmed f page s ((s.load page (offset % page) src).program f page (offset / page))
        offset src := by
  have hlen := List.length_pos_iff.mpr hsrc
  have hpage : 0 < page := by omega
  have hload : (s.load page (offset % page) src).buffer = store s.buffer (offset % page) src := by
    rw [Buffered.load, writePage_eq_blend _ _ _ (by rwa [Nat.mod_mod]), blend_eq_store]
  refine ⟨hload, fun a ha => ?_, fun a ha => ?_⟩
  · rw [touched_in_page hlen hin] at ha
    have hnear : a < offset + page := by
      have h := Nat.lt_div_mul_add hpage (a := a)
      have hle := Nat.div_mul_le_self offset page
      rw [ha] at h
      omega
    rw [Buffered.program, hload]
    dsimp only
    rw [if_pos ha, store_mod ha]
    exact congrArg (f _) (store_congr (stale_near _ hnear).symm)
  · rw [touched_in_page hlen hin] at ha
    exact if_neg ha

/-- What comes behind a piece up to the end of its page. -/
theorem Programmed.append (hpage : 0 < page) (hfirst : Programmed f page s s₁ offset first)
    (hbuffer : s₁.buffer = store s.buffer (offset % page) first) (hne : first ≠ [])
    (hend : offset % page + first.length = page)
    (hsecond : Programmed f page s₁ s₂ (offset + first.length) second) :
    Programmed f page s s₂ offset (first ++ second) := by
  have hlen := List.length_pos_iff.mpr hne
  have hoffset := Nat.div_add_mod' offset page
  constructor
  · intro a ha
    rw [List.length_append, touched_append, touched_in_page hlen hend.le] at ha
    obtain ha | ha := ha
    · -- the first page is not programmed again
      have hbelow := Nat.lt_div_mul_add hpage (a := a)
      rw [ha] at hbelow
      have hnot : ¬Touched page (offset + first.length) second.length a :=
        fun h => (h.next_page hpage hend).ne' ha
      rw [hsecond.untouched a hnot, hfirst.touched a ((touched_in_page hlen hend.le).mpr ha),
        ← store_append, store_outside (m := store _ offset first) (.inl (by omega))]
      refine congrArg (f _) (store_congr ?_)
      rw [stale_near _ (by omega), stale_near _ (by omega)]
    · have hpast := ha.next_page hpage hend
      have hnot : ¬Touched page offset first.length a := by
        rw [touched_in_page hlen hend.le]
        exact hpast.ne'
      rw [hsecond.touched a ha, hfirst.untouched a hnot, ← store_append]
      refine congrArg (f _) (store_congr ?_)
      have hstart : offset + first.length ≤ a := by
        rw [Nat.lt_iff_add_one_le, Nat.le_div_iff_mul_le hpage, Nat.succ_mul] at hpast
        omega
      rw [store_outside (m := stale _ _ _ _) (.inr hstart), stale, stale, ← store_append,
        Nat.add_right_comm]
      by_cases hnext : a / page = (offset + page) / page
      · refine store_congr ?_
        rw [← store_mod hnext, Nat.add_mod_right, hbuffer]
      · -- further behind, the source is at this place of the buffer
        rw [Nat.add_div_right _ hpage] at hnext
        have hfar : offset / page + 2 ≤ a / page := by omega
        rw [Nat.le_div_iff_mul_le hpage, Nat.add_mul] at hfar
        have hlt := ha.lt hpage
        exact store_covered (by omega) (by omega)
  · intro a ha
    rw [List.length_append, touched_append, not_or] at ha
    rw [hsecond.untouched a ha.2, hfirst.untouched a ha.1]

/-- Only the source goes there exactly if the buffer has nothing beside it that changes a cell. -/
theorem Programmed.eq_blend_iff (h : Programmed f page s s₁ offset src) :
    s₁.mem = blend f s.mem offset src ↔ ∀ a, Touched page offset src.length a →
      (a < offset ∨ offset + src.length ≤ a) →
        f (s.mem a) (stale page s.buffer offset src a) = s.mem a := by
  constructor
  · intro heq a ha hout
    have hcell := h.touched a ha
    rwa [heq, blend_outside hout, store_outside hout, eq_comm] at hcell
  · intro hstale
    funext a
    by_cases hout : a < offset ∨ offset + src.length ≤ a
    · rw [blend_outside hout]
      by_cases ha : Touched page offset src.length a
      · rw [h.touched a ha, store_outside hout, hstale a ha hout]
      · exact h.untouched a ha
    · have hcell : src[a - offset]? = some src[a - offset] :=
        List.getElem?_eq_getElem (by omega)
      rw [h.touched a (.of_mem (by omega) (by omega)), store, blend, if_pos (by omega),
        if_pos (by omega), hcell]
      rfl

end Programmed

end UBoot.Lib
