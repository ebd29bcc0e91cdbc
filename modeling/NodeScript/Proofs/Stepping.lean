import NodeScript.Proofs.Histories

/-!
Steps by hand. A program that is stepped by hand goes on by one node for each release, and a step can be released
only where the program waits for it.
-/

namespace NodeScript

open List Script

namespace Run

def entries (run : Run) : Nat :=
  run.heard.countP Event.isEntry

section Entries

variable {run run' : Run} {phase : Phase} {task : Option Task} {change : Option Phase}

theorem Moves.options (h : run.Moves task run' change) : run'.options = run.options := by
  cases h <;> rfl

theorem Handles.entries {errored : Bool} {event : Event} {host : HostTask} {permits permits' : Nat}
    (h : Handles .manual errored permits event host permits' change)
    : [event].countP Event.isEntry = (change.getD .running).stepsHeld := by
  cases h with
  | pass hpass =>
    cases event with
    | log _ | error _ | varUpdate _ _ => rfl
    | _ => cases hpass
  | prompt _ => rfl
  | release _ hmode | delay _ hmode => cases hmode
  | suspend _ _ => rfl
  | finish => cases errored <;> rfl

theorem Fits.entries (h : run.Fits phase) (hmode : run.options.stepMode = .manual) (hmoves : run.Moves task run' change)
    : run'.entries + phase.stepsHeld = run.entries + (change.getD phase).stepsHeld := by
  have hshows := h.shows
  unfold Run.entries
  cases hmoves with
  | post _ _ | goOn _ _ | read _ _ | wake _ | answer _ => rfl
  | listen hhost =>
    rw [hhost] at hshows
    obtain rfl : phase = .loading := hshows
    rfl
  | hear hhost hposted hhandles =>
    obtain rfl := h.phase_eq_running hhost (.inl (by simp [hposted]))
    rw [hmode] at hhandles
    rw [countP_append, hhandles.entries]
    rfl
  | lose hhost hposted hsandbox =>
    obtain rfl := h.phase_eq_running hhost (.inr hsandbox)
    simp [Event.isEntry, Phase.stepsHeld]
  | reply hhost =>
    rw [hhost] at hshows
    obtain rfl : phase = .suspendedOnInput := hshows
    rfl

end Entries

namespace Executor

variable {executor executor' : Executor} {action : Action}

def releases (executor : Executor) (action : Action) (number : Nat) : Nat :=
  match action with
  | .advance => if executor.advance.1 ∧ executor.past.length = number then 1 else 0
  | _ => 0

def releasesIn [Generator] (bound : Nat) (executor : Executor) : List Action → Nat → Nat
  | [], _ => 0
  | action :: rest, number =>
    executor.releases action number + releasesIn bound (executor.act bound action) rest number

def entriesOf (executor : Executor) (number : Nat) : Nat :=
  (executor.runs[number]?.map entries).getD 0

structure Counts (executor : Executor) (count : Nat → Nat) : Prop where
  active : ∀ run, executor.active = some run → run.options.stepMode = .manual
    → run.entries = count executor.past.length + executor.phase.stepsHeld
  past : ∀ number run, executor.past[number]? = some run → run.options.stepMode = .manual
    → run.entries ≤ count number + 1
  coming : ∀ number, executor.runs.length ≤ number → count number = 0

theorem length_runs_of_none (h : executor.active = none) : executor.runs.length = executor.past.length := by
  simp [runs, h]

variable {run : Run}

theorem length_runs_of_some (h : executor.active = some run) : executor.runs.length = executor.past.length + 1 := by
  simp [runs, h]

theorem Coherent.permits_le_one (h : executor.Coherent) (hrun : run ∈ executor.runs) : run.permits ≤ 1 := by
  rw [runs, mem_append, Option.mem_toList] at hrun
  obtain hpast | hactive := hrun
  · obtain ⟨before, phase, hfits, hfades⟩ := h.past run hpast
    have hsteps := hfits.steps
    have hone := before.sandbox.wanted_le_one
    have hfewer := hfades.steps
    dsimp only at hfewer
    omega
  · have hsteps := (h.active run hactive).steps
    have hone := run.sandbox.wanted_le_one
    omega

namespace Counts

variable {count : Nat → Nat}

theorem new : Executor.new.Counts fun _ => 0 where
  active _ h := nomatch h
  past _ _ h := nomatch h
  coming _ _ := rfl

variable (h : executor.Counts count)

include h

theorem entries_le_of_active (hactive : executor.active = some run) (hmode : run.options.stepMode = .manual)
    : run.entries ≤ count executor.past.length + 1 := by
  rw [h.active run hactive hmode]
  exact Nat.add_le_add_left (by cases executor.phase <;> simp [Phase.stepsHeld]) _

theorem cancel : executor.cancel.Counts count := by
  cases hactive : executor.active with
  | none =>
    rw [cancel_of_none hactive]
    exact h
  | some run =>
    have hentries := h.entries_le_of_active hactive
    have hcoming := h.coming
    rw [length_runs_of_some hactive] at hcoming
    rw [cancel_of_some hactive]
    refine ⟨fun _ h => (nomatch h), ?_, ?_⟩
    · intro number earlier hearlier
      obtain hlt | rfl | hgt := Nat.lt_trichotomy number executor.past.length
      · rw [getElem?_append_left hlt] at hearlier
        exact h.past number earlier hearlier
      · -- The run that is cancelled keeps its number.
        rw [getElem?_concat_length] at hearlier
        cases hearlier
        exact hentries
      · rw [getElem?_eq_none (by rw [length_append]; exact hgt)] at hearlier
        cases hearlier
    · intro number hnumber
      rw [length_runs_of_none rfl, length_append] at hnumber
      exact hcoming number hnumber

theorem start (hactive : executor.active = none) (source : String) (options : Options)
    : { executor with phase := .loading, active := some (Run.start source options) }.Counts count := by
  have hcoming := h.coming
  rw [length_runs_of_none hactive] at hcoming
  refine ⟨?_, h.past, ?_⟩
  · rintro _ ⟨⟩ -
    exact (hcoming _ (Nat.le_refl _)).symm
  · intro number hnumber
    rw [length_runs_of_some rfl] at hnumber
    exact hcoming number (Nat.le_of_succ_le hnumber)

theorem moves (hcoherent : executor.Coherent) {run' : Run} {task : Option Task} {change : Option Phase}
    (hactive : executor.active = some run) (hmoves : run.Moves task run' change)
    : { executor with active := some run', phase := change.getD executor.phase }.Counts count := by
  have hcoming := h.coming
  rw [length_runs_of_some hactive] at hcoming
  refine ⟨?_, h.past, ?_⟩
  · rintro _ ⟨⟩ hmode
    rw [hmoves.options] at hmode
    have hentries := (hcoherent.active run hactive).entries hmode hmoves
    have hcount := h.active run hactive hmode
    dsimp only
    omega
  · rw [length_runs_of_some rfl]
    exact hcoming

theorem advance (hactive : executor.active = some run) (hphase : executor.phase = .suspendedOnStep)
    : { executor with phase := .running, active := some { run with permits := run.permits + 1 } }.Counts
        fun number => count number + if executor.past.length = number then 1 else 0 := by
  have hcoming := h.coming
  rw [length_runs_of_some hactive] at hcoming
  refine ⟨?_, ?_, ?_⟩
  · rintro _ ⟨⟩ hmode
    have hcount := h.active run hactive hmode
    rw [hphase] at hcount
    rw [if_pos rfl]
    exact hcount
  · intro number earlier hearlier hmode
    have hentries := h.past number earlier hearlier hmode
    omega
  · intro number hnumber
    rw [length_runs_of_some rfl] at hnumber
    rw [if_neg (Nat.ne_of_lt hnumber), hcoming number hnumber]

theorem fades {number : Nat} {run' : Run} (hrun : executor.past[number]? = some run) (hfades : run.Fades run')
    : { executor with past := executor.past.set number run' }.Counts count := by
  refine ⟨?_, ?_, ?_⟩
  · simp only [length_set]
    exact h.active
  · intro number' earlier hearlier hmode
    rw [getElem?_set] at hearlier
    split at hearlier
    · rename_i hnumber
      subst hnumber
      simp only [Option.ite_none_right_eq_some, Option.some.injEq] at hearlier
      obtain ⟨-, rfl⟩ := hearlier
      rw [entries, hfades.heard]
      exact h.past number run hrun (hfades.options ▸ hmode)
    · exact h.past number' earlier hearlier hmode
  · simp only [runs, length_append, length_set]
    simpa only [runs, length_append] using h.coming

theorem changes (hcoherent : executor.Coherent) (hchanges : executor.Changes action executor')
    : executor'.Counts fun number => count number + executor.releases action number := by
  cases hchanges with
  | refused _ _ | unanswered _ _ | waited _ _ => exact h
  | started source options => exact h.cancel.start executor.active_cancel source options
  | cancelled => exact h.cancel
  | kept hadvance =>
    simp only [releases, hadvance]
    exact h
  | released hactive hphase hadvance =>
    simp only [releases, hadvance, true_and]
    exact h.advance hactive hphase
  | answeredLate hrun hfades | turnedLate hrun hfades => exact h.fades hrun hfades
  | answered hactive hmoves | turned hactive hmoves => exact h.moves hcoherent hactive hmoves

theorem acts [Generator] (hcoherent : executor.Coherent) (bound : Nat) (actions : List Action)
    : (executor.acts bound actions).Counts fun number => count number + executor.releasesIn bound actions number := by
  induction actions generalizing executor count with
  | nil => exact h
  | cons action rest ih =>
    have hrest := ih (h.changes hcoherent (hcoherent.changes_act bound action)) (hcoherent.act action)
    simp only [Nat.add_assoc] at hrest
    exact hrest

end Counts

theorem counts_after [Generator] (bound : Nat) (history : List Action)
    : (after bound history).Counts (Executor.new.releasesIn bound history) := by
  have h := Counts.new.acts coherent_new bound history
  simp only [Nat.zero_add] at h
  exact h

theorem releasesIn_append [Generator] (bound : Nat) (executor : Executor) (actions later : List Action) (number : Nat)
    : executor.releasesIn bound (actions ++ later) number =
      executor.releasesIn bound actions number + (executor.acts bound actions).releasesIn bound later number := by
  induction actions generalizing executor with
  | nil => exact (Nat.zero_add _).symm
  | cons action rest ih =>
    rw [cons_append, releasesIn, releasesIn, ih, Nat.add_assoc]
    rfl

theorem length_past_cancel_le (executor : Executor) : executor.past.length ≤ executor.cancel.past.length := by
  cases hactive : executor.active with
  | none => exact Nat.le_of_eq (by rw [cancel_of_none hactive])
  | some run =>
    rw [cancel_of_some hactive, length_append]
    exact Nat.le_add_right _ _

theorem Changes.length_past_le (h : executor.Changes action executor')
    : executor.past.length ≤ executor'.past.length := by
  cases h with
  | started _ _ | cancelled => exact executor.length_past_cancel_le
  | answeredLate _ _ | turnedLate _ _ => exact Nat.le_of_eq length_set.symm
  | _ => exact Nat.le_refl _

theorem Coherent.length_past_le [Generator] (h : executor.Coherent) (bound : Nat) (actions : List Action)
    : executor.past.length ≤ (executor.acts bound actions).past.length := by
  induction actions generalizing executor with
  | nil => exact Nat.le_refl _
  | cons action rest ih => exact Nat.le_trans (h.changes_act bound action).length_past_le (ih (h.act action))

theorem Counts.entries_le {count : Nat → Nat} (h : executor.Counts count) {number : Nat}
    (hrun : executor.runs[number]? = some run) (hmode : run.options.stepMode = .manual)
    : run.entries ≤ count number + 1 := by
  obtain hlt | hge := Nat.lt_or_ge number executor.past.length
  · rw [runs, getElem?_append_left hlt] at hrun
    exact h.past number run hrun hmode
  · rw [runs, getElem?_append_right hge] at hrun
    cases hactive : executor.active with
    | none => simp [hactive] at hrun
    | some active =>
      simp only [hactive, Option.toList_some, getElem?_singleton, Option.ite_none_right_eq_some,
        Option.some.injEq] at hrun
      obtain ⟨hsub, rfl⟩ := hrun
      obtain rfl : executor.past.length = number := by omega
      exact h.entries_le_of_active hactive hmode

theorem Counts.entriesOf_of_advance {count : Nat → Nat} (h : executor.Counts count) (hcoherent : executor.Coherent)
    (hadvance : executor.advance.1)
    : executor.entriesOf executor.past.length = count executor.past.length + 1
        ∧ ∀ number, executor.past.length < number → executor.entriesOf number = 0 := by
  obtain ⟨heq, -⟩ | ⟨run, hactive, hmode, hphase, -⟩ := hcoherent.advance_cases
  · rw [heq] at hadvance
    cases hadvance
  · have hentries := h.active run hactive hmode
    rw [hphase] at hentries
    constructor
    · simp only [entriesOf, runs, hactive, Option.toList_some, getElem?_concat_length, Option.map_some,
        Option.getD_some]
      exact hentries
    · intro number hnumber
      rw [entriesOf, getElem?_eq_none (by rw [length_runs_of_some hactive]; exact hnumber)]
      rfl

theorem entriesOf_lt_of_advance [Generator] {bound : Nat} {history later : List Action}
    (hfirst : (after bound history).advance.1) (hsecond : (after bound (history ++ .advance :: later)).advance.1)
    : (after bound history).entriesOf (after bound (history ++ .advance :: later)).past.length <
      (after bound (history ++ .advance :: later)).entriesOf
        (after bound (history ++ .advance :: later)).past.length := by
  obtain ⟨hentries, hnone⟩ := (counts_after bound history).entriesOf_of_advance (coherent_after bound _) hfirst
  obtain ⟨hentries', -⟩ :=
    (counts_after bound (history ++ .advance :: later)).entriesOf_of_advance (coherent_after bound _) hsecond
  have hlength := (coherent_after bound history).length_past_le bound (.advance :: later)
  rw [← after_append] at hlength
  rw [hentries']
  obtain heq | hlt := Nat.eq_or_lt_of_le hlength
  · -- The first release is one of those that the second one is counted with.
    rw [← heq, hentries, releasesIn_append, releasesIn, releases, if_pos ⟨hfirst, rfl⟩]
    omega
  · rw [hnone _ hlt]
    exact Nat.zero_lt_succ _

theorem Coherent.advance_eq_true_iff (h : executor.Coherent) : executor.advance.1 = true
        ↔ ∃ run, executor.active = some run ∧ run.options.stepMode = .manual ∧ executor.phase = .suspendedOnStep := by
  obtain ⟨heq, hno⟩ | ⟨run, hactive, hmode, hphase, heq⟩ := h.advance_cases
  · rw [heq]
    refine ⟨nofun, ?_⟩
    rintro ⟨run, hactive, hmode, hphase⟩
    exact absurd hphase (hno run hactive hmode)
  · rw [heq]
    exact ⟨fun _ => ⟨run, hactive, hmode, hphase⟩, fun _ => rfl⟩

theorem Coherent.advance_eq_of_false (h : executor.Coherent) (hadvance : executor.advance.1 = false)
    : executor.advance.2 = executor := by
  obtain ⟨heq, -⟩ | ⟨run, -, -, -, heq⟩ := h.advance_cases
  · rw [heq]
  · rw [heq] at hadvance
    cases hadvance

theorem Coherent.advance (h : executor.Coherent) (hadvance : executor.advance.1 = true)
    : ∃ run resume, executor.active = some run ∧ run.sandbox = .awaitingStep resume ∧ run.permits = 0
        ∧ executor.advance.2 = { executor with phase := .running, active := some { run with permits := 1 } } := by
  obtain ⟨heq, -⟩ | ⟨run, hactive, -, hphase, heq⟩ := h.advance_cases
  · rw [heq] at hadvance
    cases hadvance
  · have hfits := h.active run hactive
    rw [hphase] at hfits
    obtain ⟨-, hpermits, resume, hsandbox⟩ := hfits.of_suspendedOnStep
    exact ⟨run, resume, hactive, hsandbox, hpermits, by rw [heq, hpermits]⟩

theorem Coherent.awaitingStep_of_permits (h : executor.Coherent) (hactive : executor.active = some run)
    (hpermits : 0 < run.permits) : ∃ resume, run.sandbox = .awaitingStep resume := by
  have hsteps := (h.active run hactive).steps
  exact run.sandbox.awaiting_of_wanted (by omega)

/-- A program that is stepped by hand goes on by one node a step. A call releases a step exactly if the active run is
stepped by hand and has published that it waits for a step. Then the sandbox waits and has no permission, and it has
one after the call. A sandbox never has more than one, and then only while it waits for it. A run enters at most one
node more than steps have been released of it, and between two releases a node is entered. -/
theorem one_entry_per_release [Generator] (bound : Nat) (history : List Action) : ((after bound history).advance.1 = true
          ↔ ∃ run, (after bound history).active = some run ∧ run.options.stepMode = .manual
            ∧ (after bound history).phase = .suspendedOnStep)
        ∧ ((after bound history).advance.1 = false → (after bound history).advance.2 = after bound history)
        ∧ ((after bound history).advance.1 = true
          → ∃ run resume, (after bound history).active = some run ∧ run.sandbox = .awaitingStep resume ∧ run.permits = 0
            ∧ (after bound history).advance.2 =
              { after bound history with phase := .running, active := some { run with permits := 1 } })
        ∧ (∀ run, (after bound history).active = some run → run.options.stepMode = .manual
          → (0 < run.permits → ∃ resume, run.sandbox = .awaitingStep resume) ∧ run.entries =
              Executor.new.releasesIn bound history (after bound history).past.length
                + (after bound history).phase.stepsHeld)
        ∧ (∀ number run, (after bound history).runs[number]? = some run → run.options.stepMode = .manual
          → run.permits ≤ 1 ∧ run.entries ≤ Executor.new.releasesIn bound history number + 1)
        ∧ ∀ later, (after bound history).advance.1 = true
          → (after bound (history ++ .advance :: later)).advance.1 = true
          → (after bound history).entriesOf (after bound (history ++ .advance :: later)).past.length <
            (after bound (history ++ .advance :: later)).entriesOf
              (after bound (history ++ .advance :: later)).past.length := by
  have hcoherent := coherent_after bound history
  have hcounts := counts_after bound history
  refine ⟨hcoherent.advance_eq_true_iff, hcoherent.advance_eq_of_false, hcoherent.advance, ?_, ?_, ?_⟩
  · intro run hactive hmode
    exact ⟨hcoherent.awaitingStep_of_permits hactive, hcounts.active run hactive hmode⟩
  · intro number run hrun hmode
    exact ⟨hcoherent.permits_le_one (mem_of_getElem? hrun), hcounts.entries_le hrun hmode⟩
  · intro later
    exact entriesOf_lt_of_advance

theorem one_entry_per_release_twoNodes
    : (after 20 [.start "__onNode(1); __onNode(2);" ⟨.manual, none, 64⟩ true, .turn 0 .sandbox, .turn 0 .host,
          .turn 0 .host]).advance.1 = true
        ∧ (after 20 ([.start "__onNode(1); __onNode(2);" ⟨.manual, none, 64⟩ true, .turn 0 .sandbox, .turn 0 .host,
          .turn 0 .host] ++ [.advance, .turn 0 .sandbox, .turn 0 .sandbox, .turn 0 .host])).advance.1 = true
        ∧ (after 20 [.start "__onNode(1); __onNode(2);" ⟨.manual, none, 64⟩ true, .turn 0 .sandbox, .turn 0 .host,
          .turn 0 .host]).entriesOf 0 <
          (after 20 ([.start "__onNode(1); __onNode(2);" ⟨.manual, none, 64⟩ true, .turn 0 .sandbox, .turn 0 .host,
            .turn 0 .host] ++ [.advance, .turn 0 .sandbox, .turn 0 .sandbox, .turn 0 .host])).entriesOf 0 := by
  have hfirst : (after 20 [.start "__onNode(1); __onNode(2);" ⟨.manual, none, 64⟩ true, .turn 0 .sandbox,
      .turn 0 .host, .turn 0 .host]).advance.1 = true := by
    decide +kernel
  have hsecond : (after 20 ([.start "__onNode(1); __onNode(2);" ⟨.manual, none, 64⟩ true, .turn 0 .sandbox,
      .turn 0 .host, .turn 0 .host] ++ [.advance, .turn 0 .sandbox, .turn 0 .sandbox, .turn 0 .host])).advance.1
      = true := by
    decide +kernel
  have hpast : (after 20 ([.start "__onNode(1); __onNode(2);" ⟨.manual, none, 64⟩ true, .turn 0 .sandbox,
      .turn 0 .host, .turn 0 .host] ++ [.advance, .turn 0 .sandbox, .turn 0 .sandbox, .turn 0 .host])).past.length
      = 0 := by
    decide +kernel
  obtain ⟨-, -, -, -, -, hlt⟩ := one_entry_per_release 20 [.start "__onNode(1); __onNode(2);" ⟨.manual, none, 64⟩ true,
    .turn 0 .sandbox, .turn 0 .host, .turn 0 .host]
  have h := hlt [.turn 0 .sandbox, .turn 0 .sandbox, .turn 0 .host] hfirst hsecond
  rw [hpast] at h
  exact ⟨hfirst, hsecond, h⟩

end Executor

end Run

end NodeScript
