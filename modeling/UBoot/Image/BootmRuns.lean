/-
# The order in which the sub-commands of bootm run

A session is any sequence of sub-commands, with any answers of the functions they
call. The machine promises an order: since the last attempt to start, an action
runs at most once and after no later one. The word `state` carries it, because an
action that runs leaves the word at least as large as its own bit.

The order is all of it. A sub-command may be left out, so that `go` gives control
away without `loados`, and nothing asks for the bit that `start` sets.
-/

import UBoot.Image.Bootm

namespace UBoot.Bootm

open UBoot.Lib UBoot.Image

variable {cfg : Config}

/-- A sub-command as it is given, and what the functions it calls answer. -/
structure Command where
  argv1 : List Byte
  answers : Answers

/-- `images`, and what the sub-commands came to, the latest first. -/
structure Session where
  images : Images
  history : List Entry

/-- The static `images` before the first command. -/
def Session.init : Session := ⟨.zero, []⟩

/-- One command of a session. -/
def Session.step (cfg : Config) (s : Session) (command : Command) : Session :=
  let r := do_bootm_subcommand cfg command.answers command.argv1 s.images
  ⟨r.1, r.2.2 :: s.history⟩

/-- `commands` lead from power-up to `s`. -/
def Reaches (cfg : Config) (commands : List Command) (s : Session) : Prop :=
  Run (fun s command t => t = Session.step cfg s command) Session.init commands s

/-- An attempt to start, whatever comes of it. -/
def Entry.isStart : Entry → Bool
  | .start _ => true
  | _ => false

/-- What happened since the last attempt to start. -/
def sinceStart (history : List Entry) : List Entry :=
  history.takeWhile fun e => !e.isStart

/-- The last attempt to start succeeded. -/
def Started (history : List Entry) : Prop :=
  history.find? Entry.isStart = some (.start 0)

/-- `loados` has succeeded since the last start that did. -/
def Loaded (history : List Entry) : Prop :=
  .start 0 ∈ history ∧ .ran .loados 0 ∈ history.takeWhile (· ≠ .start 0)

/-- Every action that ran since the last attempt to start comes before `c`. -/
def InOrder (before : List Entry) (c : SubCommand) : Prop :=
  ∀ d ret, .ran d ret ∈ sinceStart before → d.place < c.place

/-- What every action that runs finds in the contract of the sub-commands. -/
def Contract (history : List Entry) : Prop :=
  ∀ after before c ret, history = after ++ .ran c ret :: before →
    Started before ∧ InOrder before c ∧ (c = .go → Loaded before)

/-- Each action of a history comes after earlier ones only. -/
def Ordered : List Entry → Prop
  | [] => True
  | .ran c _ :: before => InOrder before c ∧ Ordered before
  | _ :: before => Ordered before

theorem Ordered.tail {e : Entry} {before : List Entry} (h : Ordered (e :: before)) :
    Ordered before := by
  cases e with
  | ran c ret => exact h.2
  | start ret => exact h
  | idle c => exact h
  | refused => exact h

theorem Ordered.suffix {after before : List Entry} (h : Ordered (after ++ before)) :
    Ordered before := by
  induction after with
  | nil => exact h
  | cons e after ih => exact ih h.tail

/-- What `images` holds after one part of `bootm_start`, whether it goes on or not. -/
def partImages : Except Images Images → Images
  | .ok images => images
  | .error images => images

theorem partImages_bind_state {first : Except Images Images} {next : Images → Except Images Images}
    (h : ∀ images, (partImages (next images)).state = images.state) :
    (partImages (first >>= next)).state = (partImages first).state := by
  cases first with
  | error images => rfl
  | ok images => exact h images

theorem osParameters_state (header : OsHeader) (images : Images) :
    (partImages (osParameters cfg header images)).state = images.state := by
  unfold osParameters
  cases header with
  | legacy type comp os stop load => rfl
  | unknown => rfl
  | fit type comp os stop load =>
      cases cfg.fit with
      | false => rfl
      | true => cases type <;> cases comp <;> cases os <;> cases load <;> rfl

theorem entryPoint_state (found : Found) (images : Images) :
    (partImages (entryPoint cfg found images)).state = images.state := by
  unfold entryPoint
  split
  · rfl
  · split
    · cases found.fit_ep <;> rfl
    · rfl

theorem ramdiskAndTree_state (found : Found) (images : Images) :
    (partImages (ramdiskAndTree cfg found images)).state = images.state := by
  unfold ramdiskAndTree
  split
  · cases found.ramdisk with
    | none => rfl
    | some rd =>
        cases cfg.ofLibfdt with
        | false => rfl
        | true => cases found.fdt <;> rfl
  · rfl

theorem readImages_state (found : Found) (images : Images) :
    (partImages (readImages cfg found images)).state = images.state := by
  unfold readImages
  rw [partImages_bind_state, osParameters_state]
  intro images
  rw [partImages_bind_state, entryPoint_state]
  exact ramdiskAndTree_state found

/-- An attempt to start leaves the bit of `start` on success and nothing on failure. -/
theorem bootm_start_state (found : Found) :
    (bootm_start cfg found).1.state =
      if (bootm_start cfg found).2 = 0 then SubCommand.start.state else 0 := by
  unfold bootm_start
  split
  · rfl
  · have state : (partImages (readImages cfg found found.images)).state = 0 :=
      readImages_state found found.images
    cases hread : readImages cfg found found.images with
    | error images =>
        rw [hread] at state
        exact state
    | ok images => rfl

/-- No action writes the word `state`. -/
theorem action_state (answers : Answers) (images : Images) (c : SubCommand) :
    (action cfg answers images c).1.state = images.state := by
  cases c <;> simp only [action, callOs]
  case ramdisk =>
    split
    · split <;> rfl
    · rfl
  case fdt => split <;> rfl

/-- The three things a sub-command can come to. -/
theorem subcommand_cases (cfg : Config) (answers : Answers) (argv1 : List Byte)
    (images : Images) :
    do_bootm_subcommand cfg answers argv1 images = (images, 1, .refused) ∨
    (∃ images' ret, do_bootm_subcommand cfg answers argv1 images = (images', ret, .start ret) ∧
      images'.state = if ret = 0 then SubCommand.start.state else 0) ∨
    (∃ images' ret e c, do_bootm_subcommand cfg answers argv1 images = (images', ret, e) ∧
      (e = .ran c ret ∨ e = .idle c) ∧ c ≠ .start ∧ images.state < c.state ∧
      images'.state = images.state ||| c.state) := by
  unfold do_bootm_subcommand
  cases find_cmd_tbl SubCommand.name argv1 (cmd_bootm_sub cfg) with
  | none => exact .inl rfl
  | some c =>
      dsimp only
      by_cases hstart : c.state = SubCommand.start.state
      · rw [if_pos hstart]
        exact .inr (.inl ⟨_, _, rfl, bootm_start_state answers.found⟩)
      · by_cases hlate : c.state ≤ images.state
        · rw [if_neg hstart, if_pos hlate]
          exact .inl rfl
        · rw [if_neg hstart, if_neg hlate]
          apply Or.inr
          apply Or.inr
          exists (action cfg answers { images with state := images.state ||| c.state } c).1
          refine ⟨_, _, c, rfl, ?_, ?_, by omega, action_state ..⟩
          · split
            · exact .inl rfl
            · exact .inr rfl
          · rintro rfl
            exact hstart rfl

/-- The sub-command that the machine let through, with an action or without. -/
def Entry.passed : Entry → Option SubCommand
  | .ran c _ => some c
  | .idle c => some c
  | .start _ => none
  | .refused => none

/-- The bits of what happened since the last attempt to start. -/
def mask : List Entry → Nat
  | [] => 0
  | .start ret :: _ => if ret = 0 then SubCommand.start.state else 0
  | .refused :: before => mask before
  | .ran c _ :: before => mask before ||| c.state
  | .idle c :: before => mask before ||| c.state

theorem mem_sinceStart_cons {e e' : Entry} {before : List Entry} :
    e' ∈ sinceStart (e :: before) ↔ e.isStart = false ∧ (e' = e ∨ e' ∈ sinceStart before) := by
  unfold sinceStart
  rw [List.takeWhile_cons]
  cases e.isStart <;> simp

theorem mask_cons_of_passed {e : Entry} {c : SubCommand} (h : e.passed = some c)
    (before : List Entry) : mask (e :: before) = mask before ||| c.state := by
  cases e <;> cases h <;> rfl

/-- The mask is at least as large as the bit of everything let through. -/
theorem state_le_mask {history : List Entry} {e : Entry} {d : SubCommand}
    (mem : e ∈ sinceStart history) (hd : e.passed = some d) : d.state ≤ mask history := by
  induction history with
  | nil => cases mem
  | cons first before ih =>
      rw [mem_sinceStart_cons] at mem
      obtain ⟨hfirst, rfl | mem⟩ := mem
      · rw [mask_cons_of_passed hd]
        exact Nat.right_le_or
      · cases first with
        | start ret => cases hfirst
        | refused => exact ih mem
        | ran c ret => exact (ih mem).trans Nat.left_le_or
        | idle c => exact (ih mem).trans Nat.left_le_or

theorem SubCommand.state_eq_two_pow (c : SubCommand) : c.state = 2 ^ c.place := by
  cases c <;> rfl

/-- A mask of earlier bits is smaller than the bit of `c`. -/
theorem mask_lt_state {history : List Entry} {c : SubCommand} (hc : c ≠ .start)
    (earlier : ∀ e ∈ sinceStart history, ∀ d, e.passed = some d → d.place < c.place) :
    mask history < c.state := by
  have start_lt : SubCommand.start.state < c.state := by
    cases c <;> first | contradiction | decide
  have or_lt {m : Nat} {d : SubCommand} (hm : m < c.state) (hd : d.place < c.place) :
      m ||| d.state < c.state := by
    have hds := SubCommand.state_lt_state.mpr hd
    rw [c.state_eq_two_pow] at hm hds ⊢
    exact Nat.or_lt_two_pow hm hds
  induction history with
  | nil => exact Nat.lt_of_le_of_lt (Nat.zero_le _) start_lt
  | cons first before ih =>
      cases first with
      | start ret =>
          unfold mask
          split
          · exact start_lt
          · exact Nat.lt_of_le_of_lt (Nat.zero_le _) start_lt
      | refused =>
          apply ih
          intro e mem
          exact earlier e (mem_sinceStart_cons.mpr ⟨rfl, .inr mem⟩)
      | ran d ret =>
          apply or_lt
          · apply ih
            intro e mem
            exact earlier e (mem_sinceStart_cons.mpr ⟨rfl, .inr mem⟩)
          · exact earlier _ (mem_sinceStart_cons.mpr ⟨rfl, .inl rfl⟩) d rfl
      | idle d =>
          apply or_lt
          · apply ih
            intro e mem
            exact earlier e (mem_sinceStart_cons.mpr ⟨rfl, .inr mem⟩)
          · exact earlier _ (mem_sinceStart_cons.mpr ⟨rfl, .inl rfl⟩) d rfl

/-- The word is the mask of the history, and every action that ran came after earlier
ones only. -/
structure Session.Inv (s : Session) : Prop where
  state : s.images.state = mask s.history
  ordered : Ordered s.history

theorem Session.inv_step {s : Session} (inv : s.Inv) (command : Command) :
    (s.step cfg command).Inv := by
  unfold Session.step
  obtain heq | ⟨images', ret, heq, hstate⟩ | ⟨images', ret, e, c, heq, he, -, hlt, hstate⟩ :=
    subcommand_cases cfg command.answers command.argv1 s.images
  · rw [heq]
    exact ⟨inv.state, inv.ordered⟩
  · rw [heq]
    exact ⟨hstate, inv.ordered⟩
  · rw [heq]
    rw [inv.state] at hlt hstate
    obtain rfl | rfl := he
    · have inOrder : InOrder s.history c := by
        intro d dret mem
        apply SubCommand.state_lt_state.mp
        exact Nat.lt_of_le_of_lt (state_le_mask mem rfl) hlt
      exact ⟨hstate, inOrder, inv.ordered⟩
    · exact ⟨hstate, inv.ordered⟩

theorem Reaches.inv {commands : List Command} {s : Session} (h : Reaches cfg commands s) :
    s.Inv := by
  apply Run.invariant _ h ⟨rfl, trivial⟩
  rintro s command t inv rfl
  exact s.inv_step inv command

/-- What the machine asks of a sub-command is its place in the order and nothing else:
it refuses exactly those that something at their place or later was let through for. -/
theorem refused_iff {commands : List Command} {s : Session} (h : Reaches cfg commands s)
    (answers : Answers) {argv1 : List Byte} {c : SubCommand} (hc : c ≠ .start)
    (hfind : find_cmd_tbl SubCommand.name argv1 (cmd_bootm_sub cfg) = some c) :
    do_bootm_subcommand cfg answers argv1 s.images = (s.images, 1, .refused) ↔
      ∃ e ∈ sinceStart s.history, ∃ d, e.passed = some d ∧ c.place ≤ d.place := by
  have start_ne : c.state ≠ SubCommand.start.state := by
    cases c <;> first | contradiction | decide
  unfold do_bootm_subcommand
  rw [hfind]
  dsimp only
  rw [if_neg start_ne, h.inv.state]
  constructor
  · intro hrefused
    by_contra none
    push Not at none
    rw [if_neg (Nat.not_le.mpr (mask_lt_state hc none))] at hrefused
    have entry := congrArg (·.2.2) hrefused
    dsimp only at entry
    split at entry <;> cases entry
  · rintro ⟨e, mem, d, hd, hle⟩
    rw [if_pos]
    by_contra hlt
    have := SubCommand.state_lt_state.mp
      (Nat.lt_of_le_of_lt (state_le_mask mem hd) (Nat.not_le.mp hlt))
    omega

/-- In every session, an action runs at most once since the last attempt to start, and
only after actions that come before it. -/
theorem subcommand_order {commands : List Command} {s : Session} (h : Reaches cfg commands s)
    (after before : List Entry) (c : SubCommand) (ret : Int)
    (hran : s.history = after ++ .ran c ret :: before) : InOrder before c := by
  have ordered := h.inv.ordered
  rw [hran] at ordered
  exact ordered.suffix.1

/-- A board with every sub-command, and a legacy kernel without ramdisk. -/
def fullConfig : Config := ⟨true, true, true, true, true, true, true, true⟩

def kernelAnswers : Answers where
  found := ⟨false, 0x1000, 0x1040, 0x100, true, false, .legacy 2 0 5 0x1140 0x8000, 0x8000,
    none, some (0, 0), some (0, 0)⟩
  unpacked := none
  boot_ramdisk_high := .ok (0, 0)
  boot_relocate_fdt := (0, 0, 0)
  boot_fn := fun _ images => (images, 0)

/-- `bootm start 1000`, `bootm go` -/
def startAndGo : List Command :=
  [⟨ascii "start", kernelAnswers⟩, ⟨ascii "go", kernelAnswers⟩]

theorem reaches_startAndGo :
    ∃ s, Reaches fullConfig startAndGo s ∧ s.history = [.ran .go 0, .start 0] :=
  ⟨_, .cons rfl (.cons rfl (.nil _)), by decide⟩

/-- After `bootm start` and `bootm go` the history shows `go` behind `start`. -/
theorem subcommand_order_go :
    ∃ s, Reaches fullConfig startAndGo s ∧ InOrder [.start 0] .go := by
  obtain ⟨s, reaches, history⟩ := reaches_startAndGo
  exact ⟨s, reaches, subcommand_order reaches [] [.start 0] .go 0 history⟩

/-- `go` gives control away without `loados`. -/
theorem not_subcommand_contract :
    ¬ ∀ (cfg : Config) (commands : List Command) (s : Session),
      Reaches cfg commands s → Contract s.history := by
  intro contract
  obtain ⟨s, reaches, history⟩ := reaches_startAndGo
  have go := contract fullConfig startAndGo s reaches [] [.start 0] .go 0 history
  obtain ⟨-, loaded⟩ := go.2.2 rfl
  revert loaded
  decide

end UBoot.Bootm
