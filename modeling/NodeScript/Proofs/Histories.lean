import NodeScript.Proofs.Turns

/-!
All that can happen to an executor: calls, answers, and turns of the tasks of all runs that it has ever started,
in any order. After every history the runs that were cancelled only fade away, and the active run fits the published
phase.
-/

namespace NodeScript

open Script

variable {number : Nat}

namespace Run

/-- Something that happens to an executor. Its runs are numbered in the order in which they were started; the
prompts and tasks of runs that were cancelled are still around. -/
inductive Action where
  | start (source : String) (options : Options) (hasRuntime : Bool)
  | cancel
  | advance
  | answer (number : Nat) (text : String)
  | turn (number : Nat) (task : Task)

namespace Executor

def answerTo (executor : Executor) (number : Nat) (text : String) : Executor :=
  if number = executor.past.length then
    (executor.answer text).2
  else
    match executor.past[number]?.bind (·.answer? text) with
    | some run => { executor with past := executor.past.set number run }
    | none => executor

/-- It is the turn of a task of a run. All runs publish their phase at the same place. -/
def turn [Generator] (bound : Nat) (executor : Executor) (number : Nat) (task : Task) : Executor :=
  if number = executor.past.length then
    (executor.step? bound task).getD executor
  else
    match executor.past[number]?.bind (·.step? bound task) with
    | some (run, change) =>
      { executor with past := executor.past.set number run, phase := run.publish executor.phase change }
    | none => executor

def act [Generator] (bound : Nat) (executor : Executor) : Action → Executor
  | .start source options hasRuntime =>
    match executor.start source options hasRuntime with
    | .ok executor => executor
    | .error _ => executor
  | .cancel => executor.cancel
  | .advance => executor.advance.2
  | .answer number text => executor.answerTo number text
  | .turn number task => executor.turn bound number task

def acts [Generator] (bound : Nat) (executor : Executor) (actions : List Action) : Executor :=
  actions.foldl (act bound) executor

def after [Generator] (bound : Nat) (history : List Action) : Executor :=
  Executor.new.acts bound history

end Executor

section Fading

variable {bound : Nat} {run run' run'' : Run}

/-- All that can still become of a run that was cancelled. Nothing more is heard of it, it gets no more steps, and
its host task can end only as one that was cancelled. -/
structure Fades (run run' : Run) : Prop where
  cancelled : run'.cancelled = run.cancelled
  options : run'.options = run.options
  heard : run'.heard = run.heard
  outcome : run'.host.outcome? = run.host.outcome?
    ∨ run.host.outcome? = none ∧ run'.host.outcome? = some .cancelled
  steps : run'.permits + run'.host.stepsHeld ≤ run.permits + run.host.stepsHeld

theorem Fades.refl (run : Run) : run.Fades run :=
  ⟨rfl, rfl, rfl, .inl rfl, Nat.le_refl _⟩

theorem Fades.trans (h : run.Fades run') (h' : run'.Fades run'') : run.Fades run'' where
  cancelled := h'.cancelled.trans h.cancelled
  options := h'.options.trans h.options
  heard := h'.heard.trans h.heard
  outcome := by
    obtain heq | ⟨hnone, hsome⟩ := h'.outcome
    · rw [heq]
      exact h.outcome
    · obtain heq | ⟨-, hover⟩ := h.outcome
      · exact .inr ⟨heq ▸ hnone, hsome⟩
      · rw [hover] at hnone
        cases hnone
  steps := Nat.le_trans h'.steps h.steps

theorem Fades.outcome?_eq (h : run.Fades run') (hcancelled : run.cancelled = true)
    : run'.outcome? = some (run.host.outcome?.getD .cancelled) := by
  rw [outcome?, h.cancelled, hcancelled]
  obtain heq | ⟨hnone, hsome⟩ := h.outcome
  · rw [heq]
    cases run.host.outcome? <;> rfl
  · rw [hnone, hsome]
    rfl

/-- Whatever the program asks or comes to, the flag keeps the sandbox from posting it. -/
theorem advanceDialog_of_cancelled (h : run.cancelled = true) (dialog : Dialog Verdict)
    : ∃ sandbox, run.advanceDialog dialog = { run with sandbox } := by
  cases dialog with
  | done verdict => exact ⟨.stopped, by simp [advanceDialog, conclude, h]⟩
  | exhausted => exact ⟨.stopped, rfl⟩
  | ask request resume => exact ⟨.running (resume .disconnected), by simp [advanceDialog, post?, h]⟩

theorem fades_of_sandboxStep [Generator] (hcancelled : run.cancelled = true) (h : run.sandboxStep? bound = some run')
    : run.Fades run' := by
  have hdialog (dialog : Dialog Verdict) : run.Fades (run.advanceDialog dialog) := by
    obtain ⟨sandbox, heq⟩ := advanceDialog_of_cancelled hcancelled dialog
    rw [heq]
    exact ⟨rfl, rfl, rfl, .inl rfl, Nat.le_refl _⟩
  unfold sandboxStep? at h
  split at h
  · cases h
    exact hdialog _
  · cases h
    exact hdialog _
  · split at h
    · cases h
      exact ⟨rfl, rfl, rfl, .inl rfl, Nat.add_le_add_right (Nat.sub_le _ _) _⟩
    · split at h
      · cases h
        exact ⟨rfl, rfl, rfl, .inl rfl, Nat.le_refl _⟩
      · cases h
  · split at h
    · cases h
      exact ⟨rfl, rfl, rfl, .inl rfl, Nat.le_refl _⟩
    · split at h
      · cases h
        exact ⟨rfl, rfl, rfl, .inl rfl, Nat.le_refl _⟩
      · cases h
  · cases h

theorem fades_giveUp (hhost : run.host.outcome? = none) (posted : List Event)
    : run.Fades { run with posted, host := .finished .cancelled } :=
  ⟨rfl, rfl, rfl, .inr ⟨hhost, rfl⟩, Nat.add_le_add_left (Nat.zero_le _) _⟩

theorem fades_of_hostStep {change : Option Phase} (hcancelled : run.cancelled = true)
    (h : run.hostStep? = some (run', change)) : run.Fades run' := by
  unfold hostStep? at h
  split at h
  · rename_i hhost
    cases h
    exact ⟨rfl, rfl, rfl, .inl (by rw [hhost]; rfl), Nat.add_le_add_left (Nat.zero_le _) _⟩
  · rename_i hhost
    have hopen : run.host.outcome? = none := by rw [hhost]; rfl
    split at h
    · dsimp only at h
      rw [if_pos hcancelled] at h
      cases h
      exact fades_giveUp hopen _
    · split at h
      · cases h
        exact fades_giveUp hopen _
      · cases h
  · rename_i text hhost
    rw [if_pos hcancelled] at h
    cases h
    exact fades_giveUp (by rw [hhost]; rfl) _
  all_goals cases h

theorem fades_of_timerStep (h : run.timerStep? = some run') : run.Fades run' := by
  unfold timerStep? at h
  split at h
  · rename_i hhost
    cases h
    unfold release
    -- The step that the timer held becomes a permit, or it gets lost.
    split
    · exact ⟨rfl, rfl, rfl, .inl (by rw [hhost]; rfl), Nat.add_le_add_left (Nat.zero_le _) _⟩
    · exact ⟨rfl, rfl, rfl, .inl (by rw [hhost]; rfl), by rw [hhost]; exact Nat.le_refl _⟩
  · cases h

theorem fades_of_step [Generator] {task : Task} {change : Option Phase} (hcancelled : run.cancelled = true)
    (h : run.step? bound task = some (run', change)) : run.Fades run' := by
  cases task with
  | host => exact fades_of_hostStep hcancelled h
  | sandbox =>
    obtain ⟨_, hrun, ⟨⟩⟩ := Option.map_eq_some_iff.mp h
    exact fades_of_sandboxStep hcancelled hrun
  | timer =>
    obtain ⟨_, hrun, ⟨⟩⟩ := Option.map_eq_some_iff.mp h
    exact fades_of_timerStep hrun
  | dropHost =>
    simp only [step?, HostTask.isOver, Bool.and_eq_true, Bool.not_eq_true', Option.isSome_eq_false_iff,
      Option.isNone_iff_eq_none, Option.ite_none_right_eq_some, Option.some.injEq, Prod.mk.injEq] at h
    obtain ⟨⟨-, hhost⟩, rfl, -⟩ := h
    exact ⟨rfl, rfl, rfl, .inr ⟨hhost, rfl⟩, Nat.add_le_add_left (Nat.zero_le _) _⟩
  | dropSandbox =>
    simp only [step?, Option.ite_none_right_eq_some, Option.some.injEq, Prod.mk.injEq] at h
    obtain ⟨-, rfl, -⟩ := h
    exact ⟨rfl, rfl, rfl, .inl rfl, Nat.le_refl _⟩

theorem fades_of_answer {text : String} (h : run.answer? text = some run') : run.Fades run' := by
  unfold answer? at h
  split at h
  · rename_i hhost
    cases h
    exact ⟨rfl, rfl, rfl, .inl (by rw [hhost]; rfl), Nat.add_le_add_left (Nat.zero_le _) _⟩
  · cases h

/-- The run is what has become of one that fitted its phase when it was cancelled. -/
def Abandoned (run : Run) : Prop :=
  ∃ before phase, Fits before phase ∧ { before with cancelled := true }.Fades run

theorem Fits.abandoned {phase : Phase} (h : run.Fits phase) : { run with cancelled := true }.Abandoned :=
  ⟨run, phase, h, .refl _⟩

theorem Abandoned.fades (h : run.Abandoned) (hfades : run.Fades run') : run'.Abandoned := by
  obtain ⟨before, phase, hfits, hbefore⟩ := h
  exact ⟨before, phase, hfits, hbefore.trans hfades⟩

theorem Abandoned.cancelled (h : run.Abandoned) : run.cancelled = true := by
  obtain ⟨before, phase, -, hfades⟩ := h
  exact hfades.cancelled

end Fading

namespace Executor

variable {bound : Nat} {executor : Executor}

structure Coherent (executor : Executor) : Prop where
  past : ∀ run ∈ executor.past, run.Abandoned
  active : ∀ run, executor.active = some run → run.Fits executor.phase
  idle : executor.active = none → executor.phase = .idle ∨ executor.phase.isFinished

inductive Changes (executor : Executor) : Action → Executor → Prop where
  | refused (source : String) (options : Options) : Changes executor (.start source options false) executor
  | started (source : String) (options : Options)
    : Changes executor (.start source options true)
      { executor.cancel with phase := .loading, active := some (.start source options) }
  | cancelled : Changes executor .cancel executor.cancel
  | kept (h : executor.advance = (false, executor)) : Changes executor .advance executor
  | released {run : Run} (hactive : executor.active = some run) (hphase : executor.phase = .suspendedOnStep)
      (h : executor.advance =
        (true, { executor with phase := .running, active := some { run with permits := run.permits + 1 } }))
    : Changes executor .advance
      { executor with phase := .running, active := some { run with permits := run.permits + 1 } }
  | answered {number : Nat} {text : String} {run run' : Run} (hactive : executor.active = some run)
      (hmoves : run.Moves none run' none)
    : Changes executor (.answer number text) { executor with active := some run' }
  | unanswered (number : Nat) (text : String) : Changes executor (.answer number text) executor
  | answeredLate {number : Nat} {text : String} {run run' : Run} (hrun : executor.past[number]? = some run)
      (hfades : run.Fades run')
    : Changes executor (.answer number text) { executor with past := executor.past.set number run' }
  | turned {number : Nat} {task : Task} {run run' : Run} {change : Option Phase}
      (hactive : executor.active = some run) (hmoves : run.Moves (some task) run' change)
    : Changes executor (.turn number task)
      { executor with active := some run', phase := change.getD executor.phase }
  | waited (number : Nat) (task : Task) : Changes executor (.turn number task) executor
  | turnedLate {number : Nat} {task : Task} {run run' : Run} (hrun : executor.past[number]? = some run)
      (hfades : run.Fades run')
    : Changes executor (.turn number task) { executor with past := executor.past.set number run' }

variable {run : Run}

theorem Coherent.advance_cases (h : executor.Coherent) : executor.advance = (false, executor)
        ∧ (∀ run, executor.active = some run → run.options.stepMode = .manual → executor.phase ≠ .suspendedOnStep)
      ∨ ∃ run, executor.active = some run ∧ run.options.stepMode = .manual ∧ executor.phase = .suspendedOnStep
        ∧ executor.advance =
          (true, { executor with phase := .running, active := some { run with permits := run.permits + 1 } }) := by
  unfold advance
  cases hactive : executor.active with
  | none => exact .inl ⟨rfl, fun _ h => nomatch h⟩
  | some run =>
    dsimp only
    split
    · rename_i hcond
      have hfits := h.active run hactive
      rw [hcond.2] at hfits
      rw [hfits.release]
      exact .inr ⟨run, rfl, hcond.1, hcond.2, rfl⟩
    · rename_i hcond
      refine .inl ⟨rfl, ?_⟩
      rintro _ ⟨⟩ hmode hphase
      exact hcond ⟨hmode, hphase⟩

theorem step?_of_active [Generator] (hactive : executor.active = some run) (bound : Nat) (task : Task)
    : executor.step? bound task = (run.step? bound task).map fun next =>
        { executor with active := some next.1, phase := next.1.publish executor.phase next.2 } := by
  cases h : run.step? bound task <;> simp [step?, hactive, h]

section Steps

variable (h : executor.Coherent)

include h

theorem Coherent.changes_step [Generator] {task : Task}
    : executor.Changes (.turn number task) ((executor.step? bound task).getD executor) := by
  cases hactive : executor.active with
  | none =>
    rw [step?, hactive]
    exact .waited number task
  | some run =>
    rw [step?_of_active hactive]
    have hfits := h.active run hactive
    cases hrun : run.step? bound task with
    | none => exact .waited number task
    | some next =>
      have hmoves := moves_of_step hfits hrun
      rw [Option.map_some, Option.getD_some, publish_of_live (hfits.moves hmoves).live]
      exact .turned hactive hmoves

theorem Coherent.changes_turn [Generator] {task : Task}
    : executor.Changes (.turn number task) (executor.turn bound number task) := by
  unfold turn
  split
  · exact h.changes_step
  · cases hrun : executor.past[number]? with
    | none => exact .waited number task
    | some run =>
      rw [Option.bind_some]
      have hcancelled := (h.past run (List.mem_of_getElem? hrun)).cancelled
      cases hstep : run.step? bound task with
      | none => exact .waited number task
      | some next =>
        -- The phase that the turn asks for is not published.
        have hfades := fades_of_step hcancelled hstep
        dsimp only
        rw [publish, hfades.cancelled, hcancelled, if_pos rfl]
        exact .turnedLate hrun hfades

omit h

theorem changes_answerTo {text : String} : executor.Changes (.answer number text) (executor.answerTo number text) := by
  unfold answerTo
  split
  · unfold answer
    cases hactive : executor.active with
    | none => exact .unanswered number text
    | some run =>
      rw [Option.bind_some]
      cases hrun : run.answer? text with
      | none => exact .unanswered number text
      | some run' => exact .answered hactive (moves_of_answer hrun)
  · cases hrun : executor.past[number]? with
    | none => exact .unanswered number text
    | some run =>
      rw [Option.bind_some]
      cases hanswer : run.answer? text with
      | none => exact .unanswered number text
      | some run' => exact .answeredLate hrun (fades_of_answer hanswer)

include h

theorem Coherent.changes_act [Generator] (bound : Nat) (action : Action)
    : executor.Changes action (executor.act bound action) := by
  cases action with
  | start source options hasRuntime =>
    cases hasRuntime with
    | false => exact .refused source options
    | true => exact .started source options
  | cancel => exact .cancelled
  | advance =>
    rw [act]
    obtain ⟨heq, -⟩ | ⟨run, hactive, -, hphase, heq⟩ := h.advance_cases
    · rw [heq]
      exact .kept heq
    · rw [heq]
      exact .released hactive hphase heq
  | answer number text => exact changes_answerTo
  | turn number task => exact h.changes_turn

end Steps

theorem coherent_new : Executor.new.Coherent where
  past _ h := nomatch h
  active _ h := nomatch h
  idle _ := .inl rfl

theorem finished_of_outcome {phase : Phase} {outcome : Outcome} (h : run.Fits phase)
    (houtcome : run.outcome? = some outcome)
    : phase = outcome.phase ∧ (outcome = .completed ∨ outcome = .errored) := by
  have hshows := h.shows
  rw [h.outcome?_eq] at houtcome
  cases hhost : run.host with
  | finished outcome' =>
    rw [hhost] at hshows houtcome
    obtain rfl : outcome' = outcome := Option.some.inj houtcome
    refine ⟨hshows, ?_⟩
    rw [(h.told.finished outcome' hhost).2]
    split
    · exact .inr rfl
    · exact .inl rfl
  | aborted =>
    rw [hhost] at hshows
    exact hshows.elim
  | _ =>
    rw [hhost] at houtcome
    cases houtcome

theorem cancel_of_none (h : executor.active = none) : executor.cancel = executor := by
  rw [cancel, h]

theorem cancel_of_some (h : executor.active = some run) : executor.cancel =
      { phase := if run.host.isOver then executor.phase else .cancelled
        past := executor.past ++ [{ run with cancelled := true }]
        active := none } := by
  rw [cancel, h]

theorem active_cancel (executor : Executor) : executor.cancel.active = none := by
  cases hactive : executor.active with
  | none => rw [cancel_of_none hactive, hactive]
  | some run => rw [cancel_of_some hactive]

theorem Coherent.cancel (h : executor.Coherent) : executor.cancel.Coherent := by
  cases hactive : executor.active with
  | none =>
    rw [cancel_of_none hactive]
    exact h
  | some run =>
    rw [cancel_of_some hactive]
    have hfits := h.active run hactive
    refine ⟨?_, fun _ h => (nomatch h), fun _ => .inr ?_⟩
    · simp only [List.mem_append, List.mem_singleton]
      rintro earlier (hearlier | rfl)
      · exact h.past earlier hearlier
      · exact hfits.abandoned
    · rw [HostTask.isOver, ← hfits.outcome?_eq]
      cases houtcome : run.outcome? with
      | none => rfl
      | some outcome =>
        rw [Option.isSome_some, if_pos rfl, (finished_of_outcome hfits houtcome).1]
        cases outcome <;> rfl

theorem Coherent.changes (h : executor.Coherent) {action : Action} {executor' : Executor}
    (hchanges : executor.Changes action executor') : executor'.Coherent := by
  cases hchanges with
  | refused source options | kept _ | unanswered _ _ | waited _ _ => exact h
  | started source options =>
    refine ⟨h.cancel.past, ?_, nofun⟩
    rintro run ⟨⟩
    exact .start source options
  | cancelled => exact h.cancel
  | released hactive hphase =>
    have hfits := h.active _ hactive
    rw [hphase] at hfits
    refine ⟨h.past, ?_, nofun⟩
    rintro _ ⟨⟩
    exact hfits.advance
  | answered hactive hmoves | turned hactive hmoves =>
    refine ⟨h.past, ?_, nofun⟩
    rintro _ ⟨⟩
    exact (h.active _ hactive).moves hmoves
  | answeredLate hrun hfades | turnedLate hrun hfades =>
    refine ⟨fun run hmem => ?_, h.active, h.idle⟩
    obtain hmem | rfl := List.mem_or_eq_of_mem_set hmem
    · exact h.past run hmem
    · exact (h.past _ (List.mem_of_getElem? hrun)).fades hfades

variable [Generator]

theorem Coherent.act (h : executor.Coherent) (action : Action) : (executor.act bound action).Coherent :=
  h.changes (h.changes_act bound action)

theorem Coherent.acts (h : executor.Coherent) (actions : List Action) : (executor.acts bound actions).Coherent := by
  induction actions generalizing executor with
  | nil => exact h
  | cons action rest ih => exact ih (h.act action)

theorem after_append (bound : Nat) (history later : List Action)
    : after bound (history ++ later) = (after bound history).acts bound later :=
  List.foldl_append

theorem coherent_after (bound : Nat) (history : List Action) : (after bound history).Coherent :=
  coherent_new.acts history

end Executor

end Run

end NodeScript
