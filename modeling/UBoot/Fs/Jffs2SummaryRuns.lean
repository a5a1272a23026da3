/-
# Runs of the build with summaries

A run goes from sector to sector as the scan does, whether a sector is scanned or its summary is
used. What is still to be found goes along with both, so that both builds end with the same lists.
The longest node is kept of those sectors only that are scanned.
-/

import UBoot.Fs.Jffs2SummaryLists

namespace UBoot.Jffs2Summary

open UBoot.Lib UBoot.Jffs2Scan

/-! ## The longest node -/

/-- Those nodes in the lists for which `p` holds are not longer than the longest one so far. -/
def Long (e : Setup) (p : Nat → Prop) (s : State) : Prop :=
  ∀ k, p k → e.part.offset + k ∈ s.frag ++ s.dir → totlen e.big e.content k ≤ s.max_totlen

section Long

variable {e : Setup} {p : Nat → Prop} {s s' : State}

theorem Long.of_eq (h : Long e p s) (hfrag : s'.frag = s.frag) (hdir : s'.dir = s.dir)
    (hmax : s'.max_totlen = s.max_totlen) : Long e p s' := by
  rw [Long, hfrag, hdir, hmax]
  exact h

/-- The node at the offset of the scan is put into a list. -/
theorem Long.insert (h : Long e p s) (hheld : Held e s) {frag dir : List Nat}
    (hmem : ∀ x ∈ frag ++ dir, x ∈ s.frag ++ s.dir ∨ x = add e.part.offset s.ofs) :
    Long e p { s with
      frag := frag
      dir := dir
      max_totlen := max s.max_totlen (totlen e.big s.buf s.inbuf_ofs) } := by
  intro k hp hk
  dsimp only at hk ⊢
  rw [hheld.totlen_eq]
  obtain hold | hnew := hmem _ hk
  · exact (h k hp hold).trans (Nat.le_max_left _ _)
  · rw [hheld.insert_offset] at hnew
    obtain rfl := Nat.add_left_cancel hnew
    exact Nat.le_max_right _ _

theorem Long.inode (h : Long e p s) (hheld : Held e s) : Long e p { s with
    frag := s.frag ++ [add e.part.offset s.ofs]
    max_totlen := max s.max_totlen (totlen e.big s.buf s.inbuf_ofs) } :=
  h.insert hheld fun x hx => by
    simp only [List.mem_append, List.mem_singleton] at hx ⊢
    tauto

theorem Long.dirent (h : Long e p s) (hheld : Held e s) : Long e p { s with
    dir := s.dir ++ [add e.part.offset s.ofs]
    max_totlen := max s.max_totlen (totlen e.big s.buf s.inbuf_ofs) } :=
  h.insert hheld fun x hx => by
    simp only [List.mem_append, List.mem_singleton] at hx ⊢
    tauto

theorem Long.passOver (h : Long e p s) : Long e p (passOver e s) := h.of_eq rfl rfl rfl

theorem body_long (h : Long e p s) (need : Nat) : Long e p (body e need s) := by
  rw [body]
  split
  · exact h.of_eq rfl rfl rfl
  · exact h

theorem inodeStep_long (h : Long e p s) (hheld : Held e s) (hinside : BodyInside e 68 s) :
    Long e p (inodeStep e s) := by
  have hbody := (hheld.body_held hinside).1
  have hlong := body_long h 68
  rw [inodeStep]
  split
  · exact hlong.of_eq rfl rfl rfl
  · split
    · exact hlong.of_eq rfl rfl rfl
    · exact (hlong.inode hbody).passOver

theorem direntStep_long (h : Long e p s) (hheld : Held e s)
    (hinside : BodyInside e (40 + nsize s.buf s.inbuf_ofs) s) : Long e p (direntStep e s) := by
  have hbody := (hheld.body_held hinside).1
  have hlong := body_long h (40 + nsize s.buf s.inbuf_ofs)
  rw [direntStep]
  split
  · exact hlong.of_eq rfl rfl rfl
  · split
    · exact hlong.of_eq rfl rfl rfl
    · exact (hlong.dirent hbody).passOver

theorem nodeStep_long (h : Long e p s) (hheld : Held e s) (hok : NodeOk e s) :
    Long e p (nodeStep e s) := by
  rw [nodeStep]
  split
  · exact h.of_eq rfl rfl rfl
  · next hword =>
      split
      · exact h.of_eq rfl rfl rfl
      · next haccepted =>
          obtain ⟨-, hinode, hdirent⟩ := hok hword (not_not.mp haccepted)
          split
          · next htype => exact inodeStep_long h hheld (hinode htype)
          · split
            · next htype => exact direntStep_long h hheld (hdirent htype)
            · exact h.of_eq rfl rfl rfl

theorem scanStep_long (h : Long e p s) (hcontrol : s.control = .scan) (hinv : Jffs2Scan.Inv e s)
    (hok : StepOk e s) : Long e p (scanStep e s) := by
  rw [Jffs2Scan.Inv, hcontrol] at hinv
  obtain ⟨hreq, hwindow⟩ := hinv
  rw [scanStep]
  split
  · exact h.of_eq rfl rfl rfl
  · next hlt =>
      split
      · exact h.of_eq rfl rfl rfl
      · next hne =>
          split
          · exact h.of_eq rfl rfl rfl
          · next hfits =>
              rw [Nat.not_lt] at hfits
              have hwindow' : Window e { s with prevofs := s.ofs } :=
                ⟨hwindow.buffer, hwindow.begins, hwindow.ofs_le, hwindow.aligned⟩
              have hheld := (header_held hwindow' hreq rfl hfits).1
              refine nodeStep_long ?_ hheld (hok.nodeOk hcontrol (not_not.mp hlt) hne hfits)
              rw [header]
              split
              · exact h.of_eq rfl rfl rfl
              · exact h.of_eq rfl rfl rfl

theorem sectorStep_long (h : Long e p s) : Long e p (sectorStep e s) := by
  rw [sectorStep]
  split
  · exact h.of_eq rfl rfl rfl
  · exact h.of_eq rfl rfl rfl

theorem step_long (h : Long e p s) (hinv : Jffs2Scan.Inv e s) (hok : StepOk e s) : Long e p (step e s) := by
  rw [step]
  cases hcontrol : s.control with
  | sector => exact sectorStep_long h
  | scan => exact scanStep_long h hcontrol hinv hok
  | empty scan_end =>
      dsimp only
      rw [emptyStep]
      split
      · split
        · exact h.of_eq rfl rfl rfl
        · exact h.of_eq rfl rfl rfl
      · split
        · exact h.of_eq rfl rfl rfl
        · exact h.of_eq rfl rfl rfl
  | done result => exact h

end Long

/-! ## What the summaries list -/

/-- The headers of the sectors, where each valid summary lists the inodes and the directory entries
among them. -/
structure Summarised (e : SumSetup) (nodes : Nat → List Nat) : Prop where
  met : ∀ i < e.nr_sectors, Met e.toSetup i (nodes i)
  lists : ∀ i < e.nr_sectors, Valid e i → Lists e i (nodes i)

theorem walk_bounds {e : Setup} {limit k : Nat} {nodes : List Nat} (h : Walk e limit k nodes) :
    ∀ n ∈ nodes, k ≤ n ∧ n + 12 ≤ limit := by
  induction h with
  | done _ => nofun
  | word _ _ _ ih => exact fun n hn => ⟨(Nat.le_add_right _ _).trans (ih n hn).1, (ih n hn).2⟩
  | junk _ _ _ _ ih => exact fun n hn => ⟨(Nat.le_add_right _ _).trans (ih n hn).1, (ih n hn).2⟩
  | node hfits _ _ ih =>
      refine List.forall_mem_cons.mpr ⟨⟨le_rfl, hfits⟩, fun n hn => ?_⟩
      exact ⟨(Nat.le_add_right _ _).trans (ih n hn).1, (ih n hn).2⟩

theorem met_bounds {e : Setup} {i : Nat} {nodes : List Nat} (h : Met e i nodes) :
    ∀ n ∈ nodes, e.sectorOfs i ≤ n ∧ n + 12 ≤ e.sectorEnd i := by
  rw [Met] at h
  split at h
  · rw [h]
    intro n hn
    cases hn
  · exact walk_bounds h

section Listed

variable {e : SumSetup} {s : State} {i : Nat} {nodes : List Nat} {entries : List Entry}

/-- What is inserted of a kind are the nodes of that kind. -/
theorem added_eq {belongs : Nat → Prop} [DecidablePred belongs] {kind : Nat}
    (hi : i < e.nr_sectors) (hmet : Met e.toSetup i nodes)
    (hentries : entries.map (fun x => (x.nodetype, x.offset e.big (summary e i))) =
      (nodes.filter (IsListed e)).map fun k => (nodetype e.big e.content k, k - e.sectorOfs i))
    (hbelongs : ∀ k, belongs k ↔ nodetype e.big e.content k = kind ∧ IsListed e k) :
    added e i kind entries = listed e.toSetup belongs nodes := by
  have hend := sectorEnd_le hi
  have hpart := e.part.end_le
  have hpairs : added e i kind entries =
      ((entries.map fun x => (x.nodetype, x.offset e.big (summary e i))).filter
        (·.1 = kind)).map fun x => add (add e.part.offset (e.sectorOfs i)) x.2 := by
    rw [added, List.filter_map, List.map_map]
    rfl
  rw [hpairs, hentries, List.filter_map, List.map_map, List.filter_filter, listed]
  refine (congrArg _ (List.filter_congr fun k _ => ?_)).trans (List.map_congr_left fun k hk => ?_)
  · rw [Function.comp_apply, decide_eq_decide.mpr (hbelongs k), Bool.decide_and]
  · obtain ⟨hlow, hhigh⟩ := met_bounds hmet k (List.mem_of_mem_filter hk)
    rw [Function.comp_apply, add, add]
    dsimp only
    omega

theorem isInode_iff (k : Nat) : IsInode e.toSetup k ↔
    nodetype e.big e.content k = JFFS2_NODETYPE_INODE ∧ IsListed e k := by
  constructor
  · exact fun h => ⟨h.1, .inl h⟩
  · rintro ⟨htype, h | h⟩
    · exact h
    · exact absurd h (not_isDirent_of_inode htype)

theorem isDirent_iff (k : Nat) : IsDirent e.toSetup k ↔
    nodetype e.big e.content k = JFFS2_NODETYPE_DIRENT ∧ IsListed e k := by
  constructor
  · exact fun h => ⟨h.1, .inr h⟩
  · rintro ⟨htype, h | h⟩
    · exact absurd h (not_isInode_of_dirent htype)
    · exact h

theorem listed_append {belongs : Nat → Prop} [DecidablePred belongs] (first second : List Nat) :
    listed e.toSetup belongs (first ++ second) =
      listed e.toSetup belongs first ++ listed e.toSetup belongs second := by
  rw [listed, List.filter_append, List.map_append]
  rfl

/-- After a summary is used, what is left to be found is in the later sectors. -/
theorem found_used {all rest : List Nat} (hi : i < e.nr_sectors) (hmet : Met e.toSetup i nodes)
    (hlists : recordsOf e i = .listed entries) (h : Lists e i nodes)
    (hfound : Found e.toSetup all s (nodes ++ rest)) :
    Found e.toSetup all { s with
      frag := s.frag ++ added e i JFFS2_NODETYPE_INODE entries
      dir := s.dir ++ added e i JFFS2_NODETYPE_DIRENT entries } rest := by
  obtain ⟨entries', hlisted, hentries⟩ := h
  obtain rfl : entries' = entries := by
    rw [hlists] at hlisted
    exact (Records.listed.inj hlisted).symm
  rw [added_eq hi hmet hentries isInode_iff, added_eq hi hmet hentries isDirent_iff]
  refine ⟨?_, ?_⟩
  · rw [List.append_assoc, ← listed_append]
    exact hfound.frag
  · rw [List.append_assoc, ← listed_append]
    exact hfound.dir

end Listed

/-! ## The invariant -/

/-- A node of a sector that is scanned. -/
def Scanned (e : SumSetup) (k : Nat) : Prop :=
  ∃ i < e.nr_sectors, ¬Valid e i ∧ e.sectorOfs i ≤ k ∧ k < e.sectorEnd i

/-- There was no memory for a summary. -/
def Refused (e : SumSetup) : Prop := ∃ len ≤ e.part.sector_size, e.malloc len = none

/-- What holds along a run of a partition whose summaries list its nodes. -/
structure Kept (e : SumSetup) (nodes : Nat → List Nat) (s : State) : Prop where
  todo : Todo e.toSetup nodes s ∨ s.control = .done false ∧ Refused e
  long : Long e.toSetup (Scanned e) s

section Steps

variable {e : SumSetup} {nodes : Nat → List Nat} {s s' : State}

theorem Loaded.inv (h : Loaded e s s') (hcontrol : s.control = .sector) (hi : s.i < e.nr_sectors) :
    Jffs2Scan.Inv e.toSetup s' := by
  refine ⟨h.requests, ?_⟩
  rw [h.control, hcontrol]
  dsimp only
  rw [h.i]
  exact hi

theorem sector_ok (hcontrol : s.control = .sector) : StepOk e.toSetup s := by
  rw [StepOk, hcontrol]
  trivial

theorem step_sector (hcontrol : s.control = .sector) :
    step e.toSetup s = sectorStep e.toSetup s := by
  rw [step, hcontrol]

/-- The start of a sector keeps the invariant of the scan, and counts down. -/
theorem starts_after (h : Starts e s) (hcontrol : s.control = .sector) (hi : s.i < e.nr_sectors) :
    ∃ s', summaryStep e s = some s' ∧ After e.toSetup s s' := by
  cases h with
  | scanned s' hloaded hstep _ =>
      have hcontrol' := hloaded.control.trans hcontrol
      obtain ⟨hinv, hdown⟩ := sectorStep_after (s := s') (e := e.toSetup) hcontrol'
        (by rw [hloaded.i]; exact hi) hloaded.requests
      refine ⟨_, hstep, hinv, ?_⟩
      have hmeasure : Jffs2Scan.measure e.toSetup s' = Jffs2Scan.measure e.toSetup s := by
        rw [Jffs2Scan.measure, Jffs2Scan.measure, hloaded.i, Jffs2Scan.inner, Jffs2Scan.inner,
          hcontrol', hcontrol]
      rw [← hmeasure]
      exact hdown
  | failed s' hloaded hstep _ =>
      refine ⟨_, hstep, ⟨hloaded.requests, trivial⟩, measure_lt hloaded.i ?_⟩
      rw [Jffs2Scan.inner, Jffs2Scan.inner, hcontrol]
      exact Nat.succ_pos _
  | used s' entries hloaded _ _ hstep =>
      refine ⟨_, hstep, nextSector_after ?_ hloaded.requests hloaded.i.symm⟩
      change s'.i < e.nr_sectors
      rw [hloaded.i]
      exact hi

theorem eq_div_of_sector {i k : Nat} (hlow : e.sectorOfs i ≤ k) (hhigh : k < e.sectorEnd i) :
    i = k / e.part.sector_size := by
  rw [Setup.sectorEnd, Setup.sectorOfs, ← Nat.succ_mul] at hhigh
  exact (Nat.div_eq_of_lt_le hlow hhigh).symm

/-- What a valid summary lists is not in a sector that is scanned. -/
theorem Long.used {entries : List Entry} {i : Nat} (hlong : Long e.toSetup (Scanned e) s)
    (hsum : Summarised e nodes) (hi : i < e.nr_sectors) (hvalid : Valid e i)
    (hlisted : recordsOf e i = .listed entries) :
    Long e.toSetup (Scanned e) { s with
      frag := s.frag ++ added e i JFFS2_NODETYPE_INODE entries
      dir := s.dir ++ added e i JFFS2_NODETYPE_DIRENT entries } := by
  intro k hk hmem
  obtain ⟨entries', hlisted', hentries⟩ := hsum.lists i hi hvalid
  obtain rfl : entries' = entries := by
    rw [hlisted] at hlisted'
    exact (Records.listed.inj hlisted').symm
  have hmet := hsum.met i hi
  have hnone (belongs : Nat → Prop) [DecidablePred belongs] :
      e.part.offset + k ∉ listed e.toSetup belongs (nodes i) := by
    intro hin
    obtain ⟨k', hk', heq⟩ := List.mem_map.mp hin
    obtain rfl := Nat.add_left_cancel heq
    obtain ⟨hlow, hhigh⟩ := met_bounds hmet k' (List.mem_of_mem_filter hk')
    obtain ⟨j, -, hscanned, hlow', hhigh'⟩ := hk
    have hij : i = j :=
      (eq_div_of_sector hlow (by omega)).trans (eq_div_of_sector hlow' hhigh').symm
    exact hscanned (hij ▸ hvalid)
  dsimp only at hmem
  rw [added_eq hi hmet hentries isInode_iff, added_eq hi hmet hentries isDirent_iff] at hmem
  simp only [List.mem_append, hnone, or_false] at hmem
  exact hlong k hk (List.mem_append.mpr hmem)

/-- The start of a sector keeps what is still to be found. -/
theorem starts_kept (h : Starts e s) (hsum : Summarised e nodes)
    (hwhole : ∀ i < e.nr_sectors, ∀ k ∈ nodes i, Whole e.toSetup (e.sectorEnd i) k)
    (hcontrol : s.control = .sector) (hi : s.i < e.nr_sectors) (hkept : Kept e nodes s) :
    ∀ s' ∈ summaryStep e s, Kept e nodes s' := by
  obtain ⟨htodo, hlong⟩ := hkept
  have hfound : Found e.toSetup (nodesFrom e.toSetup nodes 0) s (nodesFrom e.toSetup nodes s.i) := by
    obtain htodo | ⟨hdone, -⟩ := htodo
    · rw [Todo, hcontrol] at htodo
      exact htodo
    · rw [hcontrol] at hdone
      cases hdone
  intro next hnext
  cases h with
  | scanned s' hloaded hstep _ =>
      rw [hstep] at hnext
      obtain rfl := Option.some.inj hnext
      have hcontrol' := hloaded.control.trans hcontrol
      have htodo' : Todo e.toSetup nodes s' := by
        rw [Todo, hcontrol']
        dsimp only
        rw [hloaded.i]
        exact ⟨by rw [hloaded.frag]; exact hfound.frag, by rw [hloaded.dir]; exact hfound.dir⟩
      refine ⟨.inl ?_, sectorStep_long (hlong.of_eq hloaded.frag hloaded.dir hloaded.max_totlen)⟩
      rw [← step_sector hcontrol']
      exact step_todo hsum.met hwhole (hloaded.inv hcontrol hi) (sector_ok hcontrol') htodo'
  | failed s' hloaded hstep hwhy =>
      rw [hstep] at hnext
      obtain rfl := Option.some.inj hnext
      refine ⟨?_, hlong.of_eq hloaded.frag hloaded.dir hloaded.max_totlen⟩
      obtain hrefused | ⟨hvalid, halloc | ⟨nodetype, hunsupported⟩⟩ := hwhy
      · exact .inr ⟨rfl, hrefused⟩
      · exact .inl halloc
      · obtain ⟨entries, hlisted, -⟩ := hsum.lists _ hi hvalid
        rw [hunsupported] at hlisted
        cases hlisted
  | used s' entries hloaded hvalid hlisted hstep =>
      rw [hstep] at hnext
      obtain rfl := Option.some.inj hnext
      rw [nodesFrom_next hi] at hfound
      have hused := found_used hi (hsum.met _ hi) hlisted (hsum.lists _ hi hvalid) hfound
      refine ⟨.inl (nextSector_todo ?_), ?_⟩
      · dsimp only
        rw [hloaded.i]
        exact ⟨hused.frag, hused.dir⟩
      · have hnew := hlong.used hsum hi hvalid hlisted
        exact hnew.of_eq rfl rfl hloaded.max_totlen

end Steps

/-! ## The condition -/

/-- A sector has room for a marker, every marker says where there is room for a summary, and every
summary whose checks hold has its records in it. What is read of a node is in its sector. No node
that a summary lists is longer than all nodes of the sectors that are scanned. -/
structure Suits (e : SumSetup) : Prop where
  marker : 8 ≤ e.part.sector_size
  sectors : ∀ i < e.nr_sectors, SectorOk e i
  whole : ∀ nodes : Nat → List Nat, (∀ i < e.nr_sectors, Met e.toSetup i (nodes i)) →
    ∀ i < e.nr_sectors, ∀ k ∈ nodes i, Whole e.toSetup (e.sectorEnd i) k
  longest : ∀ nodes : Nat → List Nat, (∀ i < e.nr_sectors, Met e.toSetup i (nodes i)) →
    ∀ i < e.nr_sectors, Valid e i → ∀ k ∈ nodes i, IsListed e k →
      ∃ j < e.nr_sectors, ¬Valid e j ∧ ∃ k' ∈ nodes j, IsListed e k' ∧
        totlen e.big e.content k ≤ totlen e.big e.content k'

/-- No step of the run does one of the three things that the scan can do wrong. -/
def SumStepsOk (e : SumSetup) (buf : Nat → Byte) : Prop :=
  ∀ n, ∀ s ∈ sumRun e buf n, StepOk e.toSetup s

section Runs

variable {e : SumSetup} {nodes : Nat → List Nat} {buf : Nat → Byte}

theorem sumRun_succ (n : Nat) : sumRun e buf (n + 1) = (sumRun e buf n).bind (sumStep e) := by
  rw [sumRun, Function.iterate_succ_apply']
  rfl

theorem sumStep_sector {s : State} (hcontrol : s.control = .sector) :
    sumStep e s = summaryStep e s := by
  rw [sumStep, hcontrol]

theorem sumStep_other {s : State} (hcontrol : s.control ≠ .sector) :
    sumStep e s = some (step e.toSetup s) := by
  rw [sumStep]
  split
  · next h => exact absurd h hcontrol
  · rfl

/-- A step that is not the last one keeps the invariant of the scan, and counts down. -/
theorem sumStep_after {s : State} (hsuits : Suits e) (hinv : Jffs2Scan.Inv e.toSetup s)
    (hok : StepOk e.toSetup s) (hstop : ¬Stopped s) :
    ∃ s', sumStep e s = some s' ∧ After e.toSetup s s' := by
  by_cases hcontrol : s.control = .sector
  · rw [Jffs2Scan.Inv, hcontrol] at hinv
    obtain ⟨hreq, hi⟩ := hinv
    rw [sumStep_sector hcontrol]
    exact starts_after (summaryStep_starts hi hsuits.marker (hsuits.sectors _ hi) hreq) hcontrol hi
  · exact ⟨_, sumStep_other hcontrol, step_after hinv hok hstop⟩

theorem sumStep_inv {s : State} (hsuits : Suits e) (hinv : Jffs2Scan.Inv e.toSetup s)
    (hok : StepOk e.toSetup s) : ∃ s', sumStep e s = some s' ∧ Jffs2Scan.Inv e.toSetup s' := by
  by_cases hstop : Stopped s
  · obtain ⟨result, hcontrol⟩ := hstop
    refine ⟨s, ?_, hinv⟩
    rw [sumStep, hcontrol]
    dsimp only
    rw [step, hcontrol]
  · obtain ⟨s', hstep, hafter⟩ := sumStep_after hsuits hinv hok hstop
    exact ⟨s', hstep, hafter.1⟩

theorem sumStep_kept {s : State} (hsuits : Suits e) (hsum : Summarised e nodes)
    (hinv : Jffs2Scan.Inv e.toSetup s) (hok : StepOk e.toSetup s) (hkept : Kept e nodes s) :
    ∀ s' ∈ sumStep e s, Kept e nodes s' := by
  by_cases hcontrol : s.control = .sector
  · rw [Jffs2Scan.Inv, hcontrol] at hinv
    obtain ⟨hreq, hi⟩ := hinv
    rw [sumStep_sector hcontrol]
    exact starts_kept (summaryStep_starts hi hsuits.marker (hsuits.sectors _ hi) hreq) hsum
      (hsuits.whole nodes hsum.met) hcontrol hi hkept
  · rw [sumStep_other hcontrol]
    intro s' hs'
    obtain rfl := Option.some.inj hs'
    refine ⟨?_, step_long hkept.long hinv hok⟩
    obtain htodo | ⟨hdone, hrefused⟩ := hkept.todo
    · exact .inl (step_todo hsum.met (hsuits.whole nodes hsum.met) hinv hok htodo)
    · rw [step, hdone]
      exact .inr ⟨hdone, hrefused⟩

/-- The run as one of a machine whose state is there as long as all reads are inside. -/
theorem sumRun_along (hok : SumStepsOk e buf) :
    Along (fun o : Option State => o.bind (sumStep e)) (fun o => ∀ s ∈ o, StepOk e.toSetup s)
      (some (start e.toSetup buf)) := hok

theorem sumRun_inv (hsuits : Suits e) (hok : SumStepsOk e buf) (n : Nat) :
    ∃ s, sumRun e buf n = some s ∧ Jffs2Scan.Inv e.toSetup s := by
  have hrun : Along (fun o : Option State => o.bind (sumStep e))
      (fun o => ∃ s, o = some s ∧ Jffs2Scan.Inv e.toSetup s) (some (start e.toSetup buf)) := by
    refine (sumRun_along hok).invariant ⟨_, rfl, start_inv e.toSetup buf⟩ ?_
    rintro _ ⟨s, rfl, hinv⟩ hok
    exact sumStep_inv hsuits hinv (hok s rfl)
  exact hrun n

theorem sumRun_kept (hsuits : Suits e) (hsum : Summarised e nodes) (hok : SumStepsOk e buf) {n : Nat}
    {s : State} (hs : sumRun e buf n = some s) : Kept e nodes s := by
  induction n generalizing s with
  | zero =>
      obtain rfl := Option.some.inj hs
      refine ⟨.inl (start_todo _ _ _), ?_⟩
      rw [Long, start]
      exact fun _ _ h => absurd h List.not_mem_nil
  | succ n ih =>
      rw [sumRun_succ] at hs
      obtain ⟨s₀, hs₀, hinv⟩ := sumRun_inv hsuits hok n
      rw [hs₀, Option.bind_some] at hs
      exact sumStep_kept hsuits hsum hinv (hok n s₀ hs₀) (ih hs₀) s hs

theorem sumRun_stops (hsuits : Suits e) (hok : SumStepsOk e buf) :
    ∃ n s, sumRun e buf n = some s ∧ Stopped s := by
  obtain ⟨n, s, hs, hstop⟩ := (sumRun_along hok).stops
    (fun o => ∃ s, o = some s ∧ Jffs2Scan.Inv e.toSetup s) (fun o => ∃ s, o = some s ∧ Stopped s)
    (fun o => o.elim 0 (Jffs2Scan.measure e.toSetup)) ⟨_, rfl, start_inv e.toSetup buf⟩
    (by
      rintro _ ⟨s, rfl, hinv⟩ hok
      exact sumStep_inv hsuits hinv (hok s rfl))
    (by
      rintro _ ⟨s, rfl, hinv⟩ hok hstop
      obtain ⟨s', hstep, -, hdown⟩ := sumStep_after hsuits hinv (hok s rfl) fun h => hstop ⟨s, rfl, h⟩
      rw [Option.bind_some, hstep]
      exact hdown)
  exact ⟨n, s, hs, hstop⟩

end Runs

/-! ## The claim of the summaries -/

/-- The run stays inside of the summaries, comes to an end, and scans every sector without a valid
summary. If the summaries are right, both builds have the same lists, and `readbuf`, which is as
large as the longest node so far, has room for every node in them. There is no success only where
there was no memory. -/
structure SummariesRight (e : SumSetup) (buf buf' : Nat → Byte) : Prop where
  inside : ∀ n, sumRun e buf' n ≠ none
  stops : (∃ n, Stopped ((step e.toSetup)^[n] (start e.toSetup buf))) ∧
    ∃ n s, sumRun e buf' n = some s ∧ Stopped s
  fallback : ∀ n s, sumRun e buf' n = some s → s.control = .sector → ¬Valid e s.i → ¬Refused e →
    ∃ s', Loaded e s s' ∧ sumRun e buf' (n + 1) = some (sectorStep e.toSetup s')
  lists : ∀ nodes, Summarised e nodes → ∀ m n s,
    ((step e.toSetup)^[m] (start e.toSetup buf)).control = .done true →
      sumRun e buf' n = some s → s.control = .done true →
        s.frag = ((step e.toSetup)^[m] (start e.toSetup buf)).frag ∧
        s.dir = ((step e.toSetup)^[m] (start e.toSetup buf)).dir
  readbuf : ∀ nodes, Summarised e nodes → ∀ n s,
    s = (step e.toSetup)^[n] (start e.toSetup buf) ∨ sumRun e buf' n = some s →
      s.control = .done true → ∀ k, e.part.offset + k ∈ s.frag ++ s.dir →
        totlen e.big e.content k ≤ s.max_totlen
  memory : ∀ nodes, Summarised e nodes → ∀ n s,
    s = (step e.toSetup)^[n] (start e.toSetup buf) ∨ sumRun e buf' n = some s →
      s.control = .done false → (∃ k, e.alloc k = false) ∨ Refused e

section Claim

variable {e : SumSetup} {nodes : Nat → List Nat} {buf buf' : Nat → Byte}

theorem mem_nodesFrom {k : Nat} :
    k ∈ nodesFrom e.toSetup nodes 0 ↔ ∃ i < e.nr_sectors, k ∈ nodes i := by
  rw [nodesFrom, List.mem_flatMap]
  simp only [List.mem_range'_1, Nat.zero_le, true_and, Nat.zero_add, Nat.sub_zero]

theorem mem_listed {belongs : Nat → Prop} [DecidablePred belongs] {k : Nat} {l : List Nat} :
    e.part.offset + k ∈ listed e.toSetup belongs l ↔ k ∈ l ∧ belongs k := by
  rw [listed, List.mem_map]
  constructor
  · rintro ⟨k', hk', heq⟩
    obtain rfl := Nat.add_left_cancel heq
    exact ⟨List.mem_of_mem_filter hk', by simpa using List.of_mem_filter hk'⟩
  · rintro ⟨hk, hbelongs⟩
    exact ⟨k, List.mem_filter.mpr ⟨hk, by simpa using hbelongs⟩, rfl⟩

/-- The lists in the end. -/
theorem found_all {s : State} (hcontrol : s.control = .done true)
    (htodo : Todo e.toSetup nodes s) :
    s.frag = listed e.toSetup (IsInode e.toSetup) (nodesFrom e.toSetup nodes 0) ∧
      s.dir = listed e.toSetup (IsDirent e.toSetup) (nodesFrom e.toSetup nodes 0) := by
  rw [Todo, hcontrol] at htodo
  obtain ⟨hfrag, hdir⟩ := htodo
  exact ⟨(List.append_nil _).symm.trans hfrag, (List.append_nil _).symm.trans hdir⟩

theorem mem_lists {s : State} (hcontrol : s.control = .done true)
    (htodo : Todo e.toSetup nodes s) {k : Nat} :
    e.part.offset + k ∈ s.frag ++ s.dir ↔ (∃ i < e.nr_sectors, k ∈ nodes i) ∧ IsListed e k := by
  obtain ⟨hfrag, hdir⟩ := found_all hcontrol htodo
  rw [List.mem_append, hfrag, hdir, mem_listed, mem_listed, mem_nodesFrom, ← and_or_left, IsListed]

theorem Kept.todo_done {s : State} (h : Kept e nodes s) (hcontrol : s.control = .done true) :
    Todo e.toSetup nodes s := by
  obtain htodo | ⟨hfailed, -⟩ := h.todo
  · exact htodo
  · rw [hcontrol] at hfailed
    cases hfailed

/-- The scan, as far as it concerns its lists and its longest node. -/
theorem plain_kept (hsuits : Suits e) (hsum : Summarised e nodes)
    (hok : Along (step e.toSetup) (StepOk e.toSetup) (start e.toSetup buf)) :
    Along (step e.toSetup) (fun s => Jffs2Scan.Inv e.toSetup s ∧ Todo e.toSetup nodes s ∧
      Long e.toSetup (fun _ => True) s) (start e.toSetup buf) := by
  refine hok.invariant ⟨start_inv _ _, start_todo _ _ _, ?_⟩ fun s ⟨hinv, htodo, hlong⟩ hok => ?_
  · rw [Long, start]
    exact fun _ _ h => absurd h List.not_mem_nil
  · exact ⟨step_inv s hinv hok, step_todo hsum.met (hsuits.whole nodes hsum.met) hinv hok htodo,
      step_long hlong hinv hok⟩

theorem sumRun_readbuf (hsuits : Suits e) (hsum : Summarised e nodes) (hok : SumStepsOk e buf')
    {n : Nat} {s : State} (hs : sumRun e buf' n = some s) (hcontrol : s.control = .done true) :
    ∀ k, e.part.offset + k ∈ s.frag ++ s.dir → totlen e.big e.content k ≤ s.max_totlen := by
  have hkept := sumRun_kept hsuits hsum hok hs
  have htodo := hkept.todo_done hcontrol
  have hscanned (j : Nat) (hj : j < e.nr_sectors) (hscan : ¬Valid e j) (k : Nat)
      (hk : k ∈ nodes j) (hlisted : IsListed e k) : totlen e.big e.content k ≤ s.max_totlen := by
    obtain ⟨hlow, hhigh⟩ := met_bounds (hsum.met j hj) k hk
    exact hkept.long k ⟨j, hj, hscan, hlow, by omega⟩
      ((mem_lists hcontrol htodo).mpr ⟨⟨j, hj, hk⟩, hlisted⟩)
  intro k hk
  obtain ⟨⟨i, hi, hmem⟩, hlisted⟩ := (mem_lists hcontrol htodo).mp hk
  by_cases hvalid : Valid e i
  · obtain ⟨j, hj, hscan, k', hk', hlisted', hle⟩ :=
      hsuits.longest nodes hsum.met i hi hvalid k hmem hlisted
    exact hle.trans (hscanned j hj hscan k' hk' hlisted')
  · exact hscanned i hi hvalid k hmem hlisted

/-- Where the summaries suit, and no step of the two builds does one of the three things that the
scan can do wrong, all of it is right. -/
theorem summariesRight_of_suits {e : SumSetup} {buf buf' : Nat → Byte} (hsuits : Suits e)
    (hplain : Along (step e.toSetup) (StepOk e.toSetup) (start e.toSetup buf))
    (hsteps : SumStepsOk e buf') : SummariesRight e buf buf' where
  inside n := by
    obtain ⟨s, hs, -⟩ := sumRun_inv hsuits hsteps n
    rw [hs]
    exact Option.some_ne_none s
  stops := ⟨scan_stops hplain, sumRun_stops hsuits hsteps⟩
  fallback n s hs hcontrol hinvalid hmemory := by
    obtain ⟨_, hs', hinv⟩ := sumRun_inv hsuits hsteps n
    rw [hs] at hs'
    obtain rfl := Option.some.inj hs'
    rw [Jffs2Scan.Inv, hcontrol] at hinv
    obtain ⟨hreq, hi⟩ := hinv
    rw [sumRun_succ, hs, Option.bind_some, sumStep_sector hcontrol]
    cases summaryStep_starts hi hsuits.marker (hsuits.sectors _ hi) hreq with
    | scanned s' hloaded hstep _ => exact ⟨s', hloaded, hstep⟩
    | failed s' _ _ hwhy =>
        obtain hrefused | ⟨hvalid, -⟩ := hwhy
        · exact absurd hrefused hmemory
        · exact absurd hvalid hinvalid
    | used s' _ _ hvalid _ _ => exact absurd hvalid hinvalid
  lists nodes hsum m n s hm hs hcontrol := by
    obtain ⟨hfrag, hdir⟩ := found_all hm (plain_kept hsuits hsum hplain m).2.1
    obtain ⟨hfrag', hdir'⟩ :=
      found_all hcontrol ((sumRun_kept hsuits hsum hsteps hs).todo_done hcontrol)
    exact ⟨hfrag'.trans hfrag.symm, hdir'.trans hdir.symm⟩
  readbuf nodes hsum n s hs hcontrol := by
    obtain rfl | hs := hs
    · exact fun k => (plain_kept hsuits hsum hplain n).2.2 k trivial
    · exact sumRun_readbuf hsuits hsum hsteps hs hcontrol
  memory nodes hsum n s hs hcontrol := by
    obtain rfl | hs := hs
    · have htodo := (plain_kept hsuits hsum hplain n).2.1
      rw [Todo, hcontrol] at htodo
      exact .inl htodo
    · obtain htodo | ⟨-, hrefused⟩ := (sumRun_kept hsuits hsum hsteps hs).todo
      · rw [Todo, hcontrol] at htodo
        exact .inl htodo
      · exact .inr hrefused

end Claim

/-! ## Partitions of one sector -/

/-- A sector of 48 bytes whose summary counts no records, with memory for any summary. -/
def summarySector : SumSetup where
  toSetup := oneSector 48 [255, 255, 255, 255, 255, 255, 255, 255, 133, 25, 6, 32, 40, 0, 0, 0, 107,
    25, 131, 155, 0, 0, 0, 0, 0, 0, 0, 0, 0, 0, 0, 0, 86, 162, 173, 179, 0, 0, 0, 0, 8, 0, 0, 0, 133,
    24, 133, 2] (by decide)
  malloc _ := some fun _ => 0

/-- The summary node is the only node of the sector. -/
theorem met_summarySector {nodes : List Nat} (h : Met summarySector.toSetup 0 nodes) :
    nodes = [8] := by
  rw [Met, if_neg (by decide)] at h
  have hfirst : Walk summarySector.toSetup (summarySector.sectorEnd 0) 8 nodes :=
    (h.of_word (by decide)).of_word (by decide)
  obtain ⟨rest, rfl, hrest⟩ := hfirst.of_header (by decide)
    ⟨by decide +kernel, by decide +kernel, by decide +kernel⟩
  rw [hrest.eq_nil (by decide)]

theorem suits_summarySector : Suits summarySector := by
  have hone {i : Nat} (hi : i < summarySector.nr_sectors) : i = 0 := Nat.lt_one_iff.mp hi
  refine ⟨by decide, fun i hi => ?_, fun nodes hmet i hi k hk => ?_, fun nodes hmet i hi _ k hk hl => ?_⟩
  · obtain rfl := hone hi
    have hrecords : recordsOf summarySector 0 = .listed [] := by decide
    refine ⟨fun _ => ⟨by decide, by decide⟩, fun _ _ => ?_⟩
    rw [RecordsInside, hrecords]
    intro k hk
    cases hk
  · obtain rfl := hone hi
    rw [met_summarySector (hmet 0 hi), List.mem_singleton] at hk
    subst hk
    exact ⟨fun h => absurd h (by decide), fun h => absurd h (by decide)⟩
  · obtain rfl := hone hi
    rw [met_summarySector (hmet 0 hi), List.mem_singleton] at hk
    subst hk
    exact absurd hl (by decide)

theorem summarySector_run (n : Nat) : ∃ s, sumRun summarySector (fun _ => 0) (n + 1) = some s ∧
    s.control = .done true := by
  induction n with
  | zero =>
      have hdone : (sumRun summarySector (fun _ => 0) 1).map State.control = some (.done true) := by
        decide +kernel
      exact Option.map_eq_some_iff.mp hdone
  | succ n ih =>
      obtain ⟨s, hs, hcontrol⟩ := ih
      refine ⟨s, ?_, hcontrol⟩
      rw [sumRun_succ, hs, Option.bind_some, sumStep_other (by rw [hcontrol]; decide), step, hcontrol]

set_option maxRecDepth 2000 in
/-- The build without summaries scans the sector, and the other one does not. -/
theorem summariesRight_summarySector : SummariesRight summarySector (fun _ => 0) fun _ => 0 := by
  refine summariesRight_of_suits suits_summarySector
    (along_of_stopped 3 (by decide) (by decide)) fun n s hs => ?_
  cases n with
  | zero =>
      obtain rfl := Option.some.inj hs
      exact sector_ok rfl
  | succ n =>
      obtain ⟨_, hs', hcontrol⟩ := summarySector_run n
      rw [hs'] at hs
      obtain rfl := Option.some.inj hs
      rw [StepOk, hcontrol]
      trivial

theorem sixteen_sector : 0 < 16 ∧ 4 ∣ 16 ∧ 16 < 2 ^ 32 := by decide

/-- A sector whose marker says that the summary begins where the sector ends. -/
def lateSummary : SumSetup where
  toSetup := oneSector 16 [255, 255, 255, 255, 255, 255, 255, 255, 16, 0, 0, 0, 133, 24, 133, 2]
    sixteen_sector
  malloc _ := some fun _ => 0

/-- The header of a summary of no bytes is read behind the buffer. -/
theorem not_summariesRight :
    ¬∀ (e : SumSetup) (buf buf' : Nat → Byte), SummariesRight e buf buf' := by
  intro h
  refine (h lateSummary (fun _ => 0) fun _ => 0).inside 1 ?_
  have hnone : (sumRun lateSummary (fun _ => 0) 1).isNone = true := by decide
  exact Option.isNone_iff_eq_none.mp hnone

end UBoot.Jffs2Summary
