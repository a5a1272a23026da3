/-
# Pages with software error correction

`nand_write_page_swecc`, `nand_read_page_swecc` and `nand_read_subpage` of
`drivers/mtd/nand/nand_base.c`. A page is made of steps of 256 bytes; the codes of the steps stand
beside the data, at the places that the layout has for them. As long as at most one bit of a step has
changed, with its code, the step is read as it was written.
-/

import UBoot.Mtd.NandEcc

namespace UBoot.NandPage

open UBoot.NandEcc

/-- `chip->ecc.size` -/
def eccsize : Nat := 256

/-- `chip->ecc.bytes` -/
def eccbytes : Nat := 3

/-- `struct nand_ecclayout`, for the steps of a page. The bytes of the codes have places of their
own. -/
structure Layout where
  steps : Nat
  oobsize : Nat
  eccpos : List Nat
  length_eccpos : eccpos.length = steps * eccbytes
  nodup_eccpos : eccpos.Nodup
  eccpos_lt : ∀ pos ∈ eccpos, pos < oobsize

/-- `nand_oob_8` -/
def nand_oob_8 : Layout := ⟨1, 8, [0, 1, 2], rfl, by decide, by decide⟩

/-- `nand_oob_16` -/
def nand_oob_16 : Layout := ⟨2, 16, [0, 1, 2, 3, 6, 7], rfl, by decide, by decide⟩

/-- `nand_oob_64` -/
def nand_oob_64 : Layout := ⟨8, 64, List.range' 40 24, rfl, by decide, by decide⟩

/-- `nand_oob_128` -/
def nand_oob_128 : Layout := ⟨16, 128, List.range' 80 48, rfl, by decide, by decide⟩

/-- `eccpos[i]`; the array has zeros behind the last place. -/
def Layout.pos (l : Layout) (i : Nat) : Nat := l.eccpos.getD i 0

/-- A page in the flash. -/
structure Page where
  dat : Nat → Byte
  oob : Nat → Byte

/-- A byte of a code. -/
def codeByte (ecc : Ecc) : Nat → Byte
  | 0 => ecc.code0
  | 1 => ecc.code1
  | _ => ecc.code2

/-- The data of a step. -/
def stepAt (buf : Nat → Byte) (k : Nat) : Nat → Byte := fun i =>
  if i < eccsize then buf (k * eccsize + i) else 0

/-- `ecc_calc` -/
def ecc_calc (smc : Bool) (buf : Nat → Byte) (i : Nat) : Byte :=
  codeByte (nand_calculate_ecc smc (stepAt buf (i / eccbytes))) (i % eccbytes)

/-- `chip->oob_poi[eccpos[i]] = ecc_calc[i]` for the places from `i` on. -/
def putCodes (ecccalc : Nat → Byte) : List Nat → Nat → (Nat → Byte) → Nat → Byte
  | [], _, oob => oob
  | pos :: eccpos, i, oob => putCodes ecccalc eccpos (i + 1) (Function.update oob pos (ecccalc i))

/-- `nand_write_page_swecc`: what is handed to the chip; `oob_poi` has the same bytes then. -/
def nand_write_page_swecc (smc : Bool) (l : Layout) (buf oob_poi : Nat → Byte) : Page :=
  ⟨buf, putCodes (ecc_calc smc buf) l.eccpos 0 oob_poi⟩

/-- The code of a step, from its bytes. -/
def codeAt (code : Nat → Byte) (k : Nat) : Ecc :=
  ⟨code (k * eccbytes), code (k * eccbytes + 1), code (k * eccbytes + 2)⟩

/-- `mtd->ecc_stats` -/
@[ext]
structure Stats where
  corrected : BitVec 32
  failed : BitVec 32
deriving DecidableEq

/-- What is counted for a step. -/
def Stats.account (fails : Int → Bool) (stats : Stats) (stat : Int) : Stats :=
  if fails stat then { stats with failed := stats.failed + 1 }
  else { stats with corrected := stats.corrected + BitVec.ofInt 32 stat }

/-- The bytes of a step are put back. -/
def putStep (buf : Nat → Byte) (k : Nat) (dat : Nat → Byte) : Nat → Byte := fun i =>
  if i / eccsize = k then dat (i % eccsize) else buf i

/-- The loop that corrects steps from `start` on, with their codes in `code` and `ecccalc`. The two
functions that read differ in what they take for a failure. -/
def correctSteps (fails : Int → Bool) (smc : Bool) (start : Nat) (code ecccalc : Nat → Byte)
    (buf : Nat → Byte) (stats : Stats) : Nat → (Nat → Byte) × Stats
  | 0 => (buf, stats)
  | n + 1 =>
      let (buf, stats) := correctSteps fails smc start code ecccalc buf stats n
      let (stat, dat) := nand_correct_data smc (stepAt buf (start + n)) (codeAt code n)
        (codeAt ecccalc n)
      (putStep buf (start + n) dat, stats.account fails stat)

/-- `chip->buffers->databuf`, `chip->oob_poi` and the statistics after a page is read. -/
structure PageRead where
  buf : Nat → Byte
  oob_poi : Nat → Byte
  stats : Stats

/-- `nand_read_page_swecc` -/
def nand_read_page_swecc (smc : Bool) (l : Layout) (page : Page) (stats : Stats) : PageRead :=
  let code := fun i => page.oob (l.pos i)
  let (buf, stats) := correctSteps (fun stat => stat < 0) smc 0 code (ecc_calc smc page.dat)
    page.dat stats l.steps
  ⟨buf, page.oob, stats⟩

/-- `chip->read_buf` from a column on. -/
def readInto (column len : Nat) (src dst : Nat → Byte) : Nat → Byte := fun i =>
  if column ≤ i ∧ i < column + len then src i else dst i

/-- `gaps` -/
def gaps (l : Layout) (first len : Nat) : Prop :=
  ∃ i < len - 1, l.pos (first + i) + 1 ≠ l.pos (first + i + 1)

instance (l : Layout) (first len : Nat) : Decidable (gaps l first len) :=
  inferInstanceAs (Decidable (∃ i < len - 1, _))

/-- The bytes of the codes that are read when there are no gaps: whole words of the bus. -/
def readCodes (l : Layout) (busw first next len : Nat) (page : Page) (oob_poi : Nat → Byte) :
    Nat → Byte :=
  let aligned_pos := l.pos first / busw * busw
  let aligned_len := len + (if l.pos first % busw ≠ 0 then 1 else 0) +
    (if l.pos next % busw ≠ 0 then 1 else 0)
  readInto aligned_pos aligned_len page.oob oob_poi

/-- `nand_read_subpage` -/
def nand_read_subpage (smc : Bool) (l : Layout) (busw : Nat) (page : Page)
    (data_offs readlen : Nat) (bufpoi oob_poi : Nat → Byte) (stats : Stats) : PageRead :=
  let start_step := data_offs / eccsize
  let end_step := (data_offs + readlen - 1) / eccsize
  let num_steps := end_step - start_step + 1
  let eccfrag_len := num_steps * eccbytes
  let first := start_step * eccbytes
  let buf := readInto (start_step * eccsize) (num_steps * eccsize) page.dat bufpoi
  let ecccalc := ecc_calc smc fun i => buf (start_step * eccsize + i)
  let oob_poi :=
    if gaps l first eccfrag_len then readInto 0 l.oobsize page.oob oob_poi
    else readCodes l busw first ((start_step + num_steps) * eccbytes) eccfrag_len page oob_poi
  let ecccode := fun i => oob_poi (l.pos (i + first))
  let (buf, stats) := correctSteps (fun stat => stat = -1) smc start_step ecccode ecccalc buf stats
    num_steps
  ⟨buf, oob_poi, stats⟩

/-! ## Steps of a page -/

/-- A step as it is in the flash. -/
def Page.step (l : Layout) (page : Page) (k : Nat) : Stored :=
  ⟨stepAt page.dat k, codeAt (fun i => page.oob (l.pos i)) k⟩

section Steps

variable {smc : Bool} {l : Layout} {page : Page}

theorem stepAt_congr {buf buf' : Nat → Byte} {k : Nat}
    (h : ∀ i < eccsize, buf (k * eccsize + i) = buf' (k * eccsize + i)) :
    stepAt buf k = stepAt buf' k := by
  funext i
  rw [stepAt, stepAt]
  split
  · next hi => exact h i hi
  · rfl

theorem stepAt_lt {buf : Nat → Byte} {k i : Nat} (hi : i < eccsize) :
    stepAt buf k i = buf (k * eccsize + i) := if_pos hi

/-- A byte of a buffer in its step. -/
theorem stepAt_mod (buf : Nat → Byte) (i : Nat) :
    stepAt buf (i / eccsize) (i % eccsize) = buf i := by
  rw [stepAt_lt (Nat.mod_lt _ (by decide)), Nat.mul_comm, Nat.div_add_mod]

theorem codeAt_ecc_calc (smc : Bool) (buf : Nat → Byte) (k : Nat) :
    codeAt (ecc_calc smc buf) k = nand_calculate_ecc smc (stepAt buf k) := by
  have hdiv (i : Nat) (hi : i < 3) : (k * eccbytes + i) / eccbytes = k := by
    rw [eccbytes]
    omega
  have hmod (i : Nat) (hi : i < 3) : (k * eccbytes + i) % eccbytes = i := by
    rw [eccbytes]
    omega
  have hfirst := hdiv 0 (by decide)
  have hfirst' := hmod 0 (by decide)
  rw [Nat.add_zero] at hfirst hfirst'
  apply Ecc.ext
  · rw [codeAt]
    dsimp only
    rw [ecc_calc, hfirst, hfirst']
    rfl
  · rw [codeAt]
    dsimp only
    rw [ecc_calc, hdiv 1 (by decide), hmod 1 (by decide)]
    rfl
  · rw [codeAt]
    dsimp only
    rw [ecc_calc, hdiv 2 (by decide), hmod 2 (by decide)]
    rfl

theorem codeAt_congr {code code' : Nat → Byte} {k : Nat}
    (h : ∀ i < eccbytes, code (k * eccbytes + i) = code' (k * eccbytes + i)) :
    codeAt code k = codeAt code' k :=
  Ecc.ext (h 0 (by decide)) (h 1 (by decide)) (h 2 (by decide))

theorem Layout.pos_inj (l : Layout) {i j : Nat} (hi : i < l.steps * eccbytes)
    (hj : j < l.steps * eccbytes) (h : l.pos i = l.pos j) : i = j := by
  rw [← l.length_eccpos] at hi hj
  rw [Layout.pos, Layout.pos, List.getD_eq_getElem _ _ hi, List.getD_eq_getElem _ _ hj] at h
  exact (List.Nodup.getElem_inj_iff l.nodup_eccpos).mp h

theorem Layout.pos_lt (l : Layout) {i : Nat} (hi : i < l.steps * eccbytes) : l.pos i < l.oobsize := by
  rw [← l.length_eccpos] at hi
  rw [Layout.pos, List.getD_eq_getElem _ _ hi]
  exact l.eccpos_lt _ (List.getElem_mem hi)

/-! ### What is written -/

theorem putCodes_of_notMem (ecccalc : Nat → Byte) {eccpos : List Nat} {pos : Nat}
    (h : pos ∉ eccpos) (i : Nat) (oob : Nat → Byte) :
    putCodes ecccalc eccpos i oob pos = oob pos := by
  induction eccpos generalizing i oob with
  | nil => rfl
  | cons pos' eccpos ih =>
      rw [List.mem_cons, not_or] at h
      rw [putCodes, ih h.2, Function.update_of_ne h.1]

theorem putCodes_getElem (ecccalc : Nat → Byte) {eccpos : List Nat} (hnodup : eccpos.Nodup)
    {j : Nat} (hj : j < eccpos.length) (i : Nat) (oob : Nat → Byte) :
    putCodes ecccalc eccpos i oob eccpos[j] = ecccalc (i + j) := by
  induction eccpos generalizing i j oob with
  | nil => exact absurd hj (Nat.not_lt_zero j)
  | cons pos eccpos ih =>
      obtain ⟨hnot, hnodup⟩ := List.nodup_cons.mp hnodup
      rw [putCodes]
      cases j with
      | zero =>
          rw [List.getElem_cons_zero, putCodes_of_notMem ecccalc hnot, Function.update_self]
          rfl
      | succ j =>
          rw [List.getElem_cons_succ, ih hnodup (Nat.lt_of_succ_lt_succ hj)]
          congr 1
          omega

/-- A step that is written has the code of its data. -/
theorem step_write (smc : Bool) (l : Layout) (buf oob_poi : Nat → Byte) {k : Nat}
    (hk : k < l.steps) : (nand_write_page_swecc smc l buf oob_poi).step l k =
      ⟨stepAt buf k, nand_calculate_ecc smc (stepAt buf k)⟩ := by
  rw [Page.step, ← codeAt_ecc_calc smc buf k]
  congr 1
  apply codeAt_congr
  intro i hi
  have hlt : k * eccbytes + i < l.eccpos.length := by
    have : (k + 1) * eccbytes ≤ l.steps * eccbytes := Nat.mul_le_mul_right _ hk
    rw [l.length_eccpos]
    rw [Nat.succ_mul] at this
    omega
  rw [Layout.pos, List.getD_eq_getElem _ _ hlt, nand_write_page_swecc]
  dsimp only
  rw [putCodes_getElem _ l.nodup_eccpos hlt, Nat.zero_add]

/-! ### What is read -/

/-- The results for steps, one after the other. -/
def accounts (fails : Int → Bool) (stats : Stats) (stat : Nat → Int) : Nat → Stats
  | 0 => stats
  | n + 1 => (accounts fails stats stat n).account fails (stat n)

theorem mul_add_div (k : Nat) {i : Nat} (hi : i < eccsize) : (k * eccsize + i) / eccsize = k := by
  rw [Nat.mul_comm, Nat.mul_add_div (by decide), Nat.div_eq_of_lt hi]
  rfl

theorem mul_add_mod (k : Nat) {i : Nat} (hi : i < eccsize) : (k * eccsize + i) % eccsize = i := by
  rw [Nat.mul_comm, Nat.mul_add_mod, Nat.mod_eq_of_lt hi]

theorem accounts_congr {fails : Int → Bool} {stats : Stats} {stat stat' : Nat → Int} {n : Nat}
    (h : ∀ k < n, stat k = stat' k) : accounts fails stats stat n = accounts fails stats stat' n := by
  induction n with
  | zero => rfl
  | succ n ih =>
      rw [accounts, accounts, ih fun k hk => h k (Nat.lt_succ_of_lt hk), h n n.lt_succ_self]

/-- The loop corrects each step on its own. -/
theorem correctSteps_eq (fails : Int → Bool) (smc : Bool) (start n : Nat)
    (code ecccalc buf : Nat → Byte) (x : Nat → Stored) (stats : Stats)
    (hcode : ∀ k < n, codeAt code k = (x k).ecc) (hbuf : ∀ k < n, stepAt buf (start + k) = (x k).dat)
    (hcalc : ∀ k < n, codeAt ecccalc k = nand_calculate_ecc smc (x k).dat) :
    (∀ i, (correctSteps fails smc start code ecccalc buf stats n).1 i =
        if start ≤ i / eccsize ∧ i / eccsize < start + n then
          ((x (i / eccsize - start)).read smc).2 (i % eccsize)
        else buf i) ∧
      (correctSteps fails smc start code ecccalc buf stats n).2 =
        accounts fails stats (fun k => ((x k).read smc).1) n := by
  induction n with
  | zero => exact ⟨fun i => (if_neg fun h => absurd h.2 (Nat.not_lt_of_le h.1)).symm, rfl⟩
  | succ n ih =>
      obtain ⟨hbytes, hstats⟩ := ih (fun k hk => hcode k (Nat.lt_succ_of_lt hk))
        (fun k hk => hbuf k (Nat.lt_succ_of_lt hk)) fun k hk => hcalc k (Nat.lt_succ_of_lt hk)
      have hnow : stepAt (correctSteps fails smc start code ecccalc buf stats n).1 (start + n) =
          (x n).dat := by
        rw [← hbuf n n.lt_succ_self]
        apply stepAt_congr
        intro i hi
        rw [hbytes, mul_add_div _ hi, if_neg fun h => Nat.lt_irrefl _ h.2]
      have hread : nand_correct_data smc
          (stepAt (correctSteps fails smc start code ecccalc buf stats n).1 (start + n))
          (codeAt code n) (codeAt ecccalc n) = (x n).read smc := by
        rw [hnow, hcode n n.lt_succ_self, hcalc n n.lt_succ_self]
        rfl
      simp only [correctSteps, hread]
      constructor
      · intro i
        rw [putStep]
        by_cases hi : i / eccsize = start + n
        · rw [if_pos hi, if_pos (by omega), hi, Nat.add_sub_cancel_left]
        · rw [if_neg hi, hbytes]
          refine if_congr ?_ rfl rfl
          omega
      · rw [accounts, hstats]

/-- A page is read step by step. -/
theorem nand_read_page_swecc_eq (smc : Bool) (l : Layout) (page : Page) (stats : Stats) :
    (∀ i < l.steps * eccsize, (nand_read_page_swecc smc l page stats).buf i =
        ((page.step l (i / eccsize)).read smc).2 (i % eccsize)) ∧
      (nand_read_page_swecc smc l page stats).stats =
        accounts (fun stat => stat < 0) stats (fun k => ((page.step l k).read smc).1) l.steps := by
  obtain ⟨hbytes, hstats⟩ := correctSteps_eq (fun stat => stat < 0) smc 0 l.steps
    (fun i => page.oob (l.pos i)) (ecc_calc smc page.dat) page.dat (page.step l) stats
    (fun _ _ => rfl) (fun k _ => by rw [Nat.zero_add]; rfl) fun k _ => codeAt_ecc_calc smc page.dat k
  refine ⟨fun i hi => ?_, hstats⟩
  refine (hbytes i).trans ?_
  have hk : i / eccsize < 0 + l.steps := by
    rw [Nat.zero_add]
    exact Nat.div_lt_of_lt_mul (by rwa [Nat.mul_comm])
  rw [if_pos ⟨Nat.zero_le _, hk⟩, Nat.sub_zero]

theorem readInto_inside {column len i : Nat} (h : column ≤ i ∧ i < column + len)
    (src dst : Nat → Byte) : readInto column len src dst i = src i := if_pos h

/-- Without gaps the places follow one another. -/
theorem pos_of_not_gaps {first len : Nat} (h : ¬gaps l first len) {i : Nat} (hi : i < len) :
    l.pos (first + i) = l.pos first + i := by
  induction i with
  | zero => rfl
  | succ i ih =>
      have hnext : l.pos (first + i) + 1 = l.pos (first + i + 1) := by
        by_contra hne
        exact h ⟨i, by omega, hne⟩
      rw [← Nat.add_assoc, ← hnext, ih (Nat.lt_of_succ_lt hi), Nat.add_assoc]

/-- The bytes of the codes are read, with a bus of 8 or of 16 bits. -/
theorem readCodes_pos {busw : Nat} (hbusw : busw = 1 ∨ busw = 2) {first next len : Nat}
    (h : ¬gaps l first len) {i : Nat} (hi : i < len) (page : Page) (oob_poi : Nat → Byte) :
    readCodes l busw first next len page oob_poi (l.pos (first + i)) =
      page.oob (l.pos (first + i)) := by
  apply readInto_inside
  rw [pos_of_not_gaps h hi]
  obtain rfl | rfl := hbusw
  · omega
  · have hlow : l.pos first / 2 * 2 + l.pos first % 2 = l.pos first := by omega
    constructor
    · omega
    · split
      · omega
      · omega

/-- Steps of a page are read, and no others. -/
theorem nand_read_subpage_eq {busw : Nat} (hbusw : busw = 1 ∨ busw = 2) {data_offs readlen : Nat}
    (hlen : 0 < readlen) (hend : data_offs + readlen ≤ l.steps * eccsize) (bufpoi oob_poi : Nat → Byte)
    (stats : Stats) :
    (∀ i, data_offs ≤ i → i < data_offs + readlen →
        (nand_read_subpage smc l busw page data_offs readlen bufpoi oob_poi stats).buf i =
          ((page.step l (i / eccsize)).read smc).2 (i % eccsize)) ∧
      (nand_read_subpage smc l busw page data_offs readlen bufpoi oob_poi stats).stats =
        accounts (fun stat => stat = -1) stats
          (fun k => ((page.step l (data_offs / eccsize + k)).read smc).1)
          ((data_offs + readlen - 1) / eccsize - data_offs / eccsize + 1) := by
  have hlast : (data_offs + readlen - 1) / eccsize < l.steps :=
    Nat.div_lt_of_lt_mul (by rw [Nat.mul_comm]; omega)
  have hle : data_offs / eccsize ≤ (data_offs + readlen - 1) / eccsize :=
    Nat.div_le_div_right (by omega)
  let start := data_offs / eccsize
  let n := (data_offs + readlen - 1) / eccsize - data_offs / eccsize + 1
  let buf := readInto (start * eccsize) (n * eccsize) page.dat bufpoi
  let oob := if gaps l (start * eccbytes) (n * eccbytes) then readInto 0 l.oobsize page.oob oob_poi
    else readCodes l busw (start * eccbytes) ((start + n) * eccbytes) (n * eccbytes) page oob_poi
  have hstep (k : Nat) (hk : k < n) : stepAt buf (start + k) = stepAt page.dat (start + k) := by
    apply stepAt_congr
    intro i hi
    have hbelow : (start + k) * eccsize + eccsize ≤ start * eccsize + n * eccsize := by
      rw [← Nat.succ_mul, ← Nat.add_mul]
      exact Nat.mul_le_mul_right _ (by omega)
    have habove : start * eccsize ≤ (start + k) * eccsize :=
      Nat.mul_le_mul_right _ (Nat.le_add_right _ _)
    exact readInto_inside ⟨by omega, by omega⟩ _ _
  have hshift (k : Nat) : stepAt (fun i => buf (start * eccsize + i)) k = stepAt buf (start + k) := by
    funext i
    rw [stepAt, stepAt, Nat.add_mul, Nat.add_assoc]
  have hcode (i : Nat) (hi : i < n * eccbytes) :
      oob (l.pos (i + start * eccbytes)) = page.oob (l.pos (i + start * eccbytes)) := by
    rw [Nat.add_comm]
    by_cases hgaps : gaps l (start * eccbytes) (n * eccbytes)
    · rw [show oob = _ from if_pos hgaps]
      have hin : start * eccbytes + i < l.steps * eccbytes := by
        have : (start + n) * eccbytes ≤ l.steps * eccbytes := Nat.mul_le_mul_right _ (by omega)
        rw [Nat.add_mul] at this
        omega
      exact readInto_inside ⟨Nat.zero_le _, (Nat.zero_add _).symm ▸ l.pos_lt hin⟩ _ _
    · rw [show oob = _ from if_neg hgaps]
      exact readCodes_pos hbusw hgaps hi page oob_poi
  obtain ⟨hbytes, hstats⟩ := correctSteps_eq (fun stat => stat = -1) smc start n
    (fun i => oob (l.pos (i + start * eccbytes))) (ecc_calc smc fun i => buf (start * eccsize + i))
    buf (fun k => page.step l (start + k)) stats
    (fun k hk => by
      rw [Page.step]
      have hk3 : (k + 1) * eccbytes ≤ n * eccbytes := Nat.mul_le_mul_right _ hk
      have hsum (i : Nat) : k * eccbytes + i + start * eccbytes = (start + k) * eccbytes + i := by
        rw [Nat.add_mul]
        omega
      have hbyte (i : Nat) (hi : i < eccbytes) : oob (l.pos (k * eccbytes + i + start * eccbytes)) =
          page.oob (l.pos ((start + k) * eccbytes + i)) := by
        rw [hcode _ (by rw [Nat.succ_mul] at hk3; omega), hsum]
      exact Ecc.ext (hbyte 0 (by decide)) (hbyte 1 (by decide)) (hbyte 2 (by decide)))
    (fun k hk => hstep k hk)
    fun k hk => by rw [codeAt_ecc_calc, hshift, hstep k hk]; rfl
  refine ⟨fun i hfrom hto => ?_, hstats⟩
  have hge : start ≤ i / eccsize := Nat.div_le_div_right hfrom
  have hlt : i / eccsize ≤ (data_offs + readlen - 1) / eccsize :=
    Nat.div_le_div_right (by omega)
  refine (hbytes i).trans ?_
  rw [if_pos ⟨hge, by omega⟩, Nat.add_sub_cancel' hge]

/-! ### Bits of a page -/

/-- A bit of a step, in its page. -/
def Page.flip (l : Layout) (page : Page) (k : Nat) : Cell → Page
  | .data i j => { page with dat := NandEcc.flip page.dat (k * eccsize + i) j }
  | .code b j =>
      { page with
        oob := Function.update page.oob (l.pos (k * eccbytes + b))
          (page.oob (l.pos (k * eccbytes + b)) ^^^ 1#8 <<< j.val) }

theorem stepAt_update_same (buf : Nat → Byte) (k : Nat) {i : Nat} (hi : i < eccsize) (v : Byte) :
    stepAt (Function.update buf (k * eccsize + i) v) k = Function.update (stepAt buf k) i v := by
  funext m
  by_cases hm : m = i
  · rw [hm, stepAt_lt hi, Function.update_self, Function.update_self]
  · rw [Function.update_of_ne hm, stepAt, Function.update_of_ne (by omega)]
    rfl

theorem stepAt_update_of_ne (buf : Nat → Byte) {k k' : Nat} (hne : k' ≠ k) {i : Nat}
    (hi : i < eccsize) (v : Byte) :
    stepAt (Function.update buf (k * eccsize + i) v) k' = stepAt buf k' := by
  apply stepAt_congr
  intro m hm
  apply Function.update_of_ne
  intro hplace
  apply hne
  rw [← mul_add_div k' hm, hplace, mul_add_div k hi]

theorem codeAt_xor (code : Nat → Byte) (k : Nat) (b : Fin 3) (j : Fin 8) :
    codeAt (Function.update code (k * eccbytes + b) (code (k * eccbytes + b) ^^^ 1#8 <<< j.val)) k =
      (codeAt code k).xor (codeBit b j) := by
  rw [codeAt, codeAt, Ecc.xor]
  fin_cases b
  · simp [codeBit]
  · simp [codeBit]
  · simp [codeBit]

/-- Only the step that has the bit changes. -/
theorem Page.step_flip {k k' : Nat} (hk : k < l.steps) (hk' : k' < l.steps) (p : Cell) :
    (page.flip l k p).step l k' = if k' = k then (page.step l k).flip p else page.step l k' := by
  cases p with
  | data i j =>
      by_cases heq : k' = k
      · subst heq
        rw [if_pos rfl]
        apply congrArg (Stored.mk · _)
        refine (stepAt_update_same page.dat k' i.isLt _).trans ?_
        rw [← @stepAt_lt page.dat k' i i.isLt]
        rfl
      · rw [if_neg heq]
        exact congrArg (Stored.mk · _) (stepAt_update_of_ne page.dat heq i.isLt _)
  | code b j =>
      have hlt (k : Nat) (hk : k < l.steps) (b : Nat) (hb : b < eccbytes) :
          k * eccbytes + b < l.steps * eccbytes := by
        have : (k + 1) * eccbytes ≤ l.steps * eccbytes := Nat.mul_le_mul_right _ hk
        rw [Nat.succ_mul] at this
        omega
      have hcode (m : Nat) (hm : m < l.steps * eccbytes) :
          (page.flip l k (.code b j)).oob (l.pos m) =
            Function.update (fun i => page.oob (l.pos i)) (k * eccbytes + b)
              (page.oob (l.pos (k * eccbytes + b)) ^^^ 1#8 <<< j.val) m := by
        by_cases heq : m = k * eccbytes + b
        · subst heq
          rw [Page.flip, Function.update_self]
          exact Function.update_self ..
        · rw [Page.flip, Function.update_of_ne heq]
          exact Function.update_of_ne (fun h => heq (l.pos_inj hm (hlt k hk b b.isLt) h)) ..
      have hcodes : codeAt (fun i => (page.flip l k (.code b j)).oob (l.pos i)) k' =
          codeAt (Function.update (fun i => page.oob (l.pos i)) (k * eccbytes + b)
            (page.oob (l.pos (k * eccbytes + b)) ^^^ 1#8 <<< j.val)) k' :=
        codeAt_congr fun m hm => hcode _ (hlt k' hk' m hm)
      rw [Page.step, hcodes]
      by_cases heq : k' = k
      · subst heq
        rw [if_pos rfl, codeAt_xor (fun i => page.oob (l.pos i))]
        rfl
      · rw [if_neg heq, Page.step]
        congr 1
        apply codeAt_congr
        intro m hm
        apply Function.update_of_ne
        have := b.isLt
        rw [eccbytes] at *
        omega

end Steps

/-! ## Changed bits -/

/-- What has happened to a step since it was written. -/
inductive Harm
  | none
  | one (p : Cell)
  | two (p q : Cell) (ne : p ≠ q) (checked : ¬p.Spare ∧ ¬q.Spare)

/-- A step with its changed bits. -/
def Harm.apply : Harm → Stored → Stored
  | .none, x => x
  | .one p, x => x.flip p
  | .two p q _ _, x => (x.flip p).flip q

/-- What `nand_correct_data` says about a step. -/
def Harm.stat : Harm → Int
  | .none => 0
  | .one _ => 1
  | .two _ _ _ _ => EBADMSG

section Changed

variable {smc : Bool} {x : Stored}

theorem Harm.read_stat (h : x.Intact smc) (harm : Harm) :
    ((harm.apply x).read smc).1 = harm.stat := by
  cases harm with
  | none => exact congrArg Prod.fst (read_zero h.difference)
  | one p => exact congrArg Prod.fst (read_flip h p)
  | two p q ne checked => exact congrArg Prod.fst (read_flip_flip h ne checked.1 checked.2)

theorem Harm.read_dat (h : x.Intact smc) {harm : Harm} (hstat : harm.stat ≠ EBADMSG) :
    ((harm.apply x).read smc).2 = x.dat := by
  cases harm with
  | none => exact congrArg Prod.snd (read_zero h.difference)
  | one p => exact congrArg Prod.snd (read_flip h p)
  | two p q ne checked => exact absurd rfl hstat

/-- The steps before `n` with this result. -/
def tally (stat : Nat → Int) (v : Int) (n : Nat) : Nat := (List.range n).countP fun k => stat k = v

theorem tally_succ (stat : Nat → Int) (v : Int) (n : Nat) :
    tally stat v (n + 1) = tally stat v n + if stat n = v then 1 else 0 := by
  rw [tally, List.range_succ, List.countP_append, List.countP_singleton, tally]
  simp

/-- The statistics count the steps that are put right and those that cannot be. -/
theorem accounts_harm {stat : Nat → Int} {n : Nat} (stats : Stats)
    (h : ∀ k < n, stat k = 0 ∨ stat k = 1 ∨ stat k = EBADMSG) :
    accounts (fun stat => stat < 0) stats stat n =
      ⟨stats.corrected + BitVec.ofNat 32 (tally stat 1 n),
        stats.failed + BitVec.ofNat 32 (tally stat EBADMSG n)⟩ := by
  induction n with
  | zero => simp [accounts, tally]
  | succ n ih =>
      rw [accounts, ih fun k hk => h k (Nat.lt_succ_of_lt hk), tally_succ, tally_succ,
        Stats.account]
      obtain h0 | h1 | hbad := h n n.lt_succ_self
      · simp [h0, EBADMSG]
      · simp [h1, EBADMSG, BitVec.add_assoc, BitVec.ofNat_add]
      · simp [hbad, EBADMSG, BitVec.add_assoc, BitVec.ofNat_add]

/-- A page is read as it was written, whatever single bits of its steps have changed, and the
statistics say how many steps were put right and how many could not be. -/
theorem page_round_trip (smc : Bool) (l : Layout) (buf oob_poi : Nat → Byte) (stats : Stats)
    (harm : Nat → Harm) (page : Page)
    (hpage : ∀ k < l.steps,
      page.step l k = (harm k).apply ((nand_write_page_swecc smc l buf oob_poi).step l k)) :
    (∀ i < l.steps * eccsize, (harm (i / eccsize)).stat ≠ EBADMSG →
        (nand_read_page_swecc smc l page stats).buf i = buf i) ∧
      (nand_read_page_swecc smc l page stats).stats =
        ⟨stats.corrected + BitVec.ofNat 32 (tally (fun k => (harm k).stat) 1 l.steps),
          stats.failed + BitVec.ofNat 32 (tally (fun k => (harm k).stat) EBADMSG l.steps)⟩ := by
  obtain ⟨hbytes, hstats⟩ := nand_read_page_swecc_eq smc l page stats
  have hintact (k : Nat) (hk : k < l.steps) :
      ((nand_write_page_swecc smc l buf oob_poi).step l k).Intact smc := by
    rw [step_write smc l buf oob_poi hk]
    rfl
  constructor
  · intro i hi hstat
    have hk : i / eccsize < l.steps := Nat.div_lt_of_lt_mul (by rwa [Nat.mul_comm])
    rw [hbytes i hi, hpage _ hk, Harm.read_dat (hintact _ hk) hstat, step_write smc l buf oob_poi hk]
    exact stepAt_mod buf i
  · rw [hstats, ← accounts_harm stats]
    · apply accounts_congr
      intro k hk
      rw [hpage k hk, Harm.read_stat (hintact k hk)]
    · intro k _
      cases harm k with
      | none => exact .inl rfl
      | one p => exact .inr (.inl rfl)
      | two p q ne checked => exact .inr (.inr rfl)

end Changed

/-- A bit of the second step has changed. -/
theorem page_round_trip_changed :
    let buf := fun i => BitVec.ofNat 8 i
    let page := (nand_write_page_swecc false nand_oob_16 buf fun _ => 0xff).flip nand_oob_16 1
      (.data 5 3)
    (∀ i < 512, (nand_read_page_swecc false nand_oob_16 page ⟨0, 0⟩).buf i = buf i) ∧
      (nand_read_page_swecc false nand_oob_16 page ⟨0, 0⟩).stats = ⟨1, 0⟩ := by
  intro buf page
  obtain ⟨hbytes, hstats⟩ := page_round_trip false nand_oob_16 buf (fun _ => 0xff) ⟨0, 0⟩
    (fun k => if k = 1 then .one (.data 5 3) else .none) page (by
      intro k hk
      rw [Page.step_flip (by decide) hk]
      split
      · next h => rw [h]; rfl
      · rfl)
  refine ⟨fun i hi => hbytes i hi ?_, hstats⟩
  split <;> decide

end UBoot.NandPage
