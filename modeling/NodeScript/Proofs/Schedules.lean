import Mathlib.Logic.Relation
import NodeScript.Proofs.Connection
import NodeScript.Proofs.Turns

/-!
Runs do not depend on the order in which their tasks take turns. Whatever the schedule, a run that is
not cancelled comes to an end, and what its host has heard by then is what the program asks when it runs
on its own.
-/

namespace NodeScript

open List Script

namespace Run

def lastEvents : Verdict → List Event
  | .ok () => [.done]
  | .error e => [.error e.message, .done]

def outcomeOf : Verdict → Outcome
  | .ok () => .completed
  | .error _ => .errored

def eventsOf (requests : List Request) (verdict : Verdict) : List Event :=
  requests.map .ofRequest ++ lastEvents verdict

def alone [Generator] (bound : Nat) (source : String) (options : Options) (answers : List String)
    : Transcript (Verdict × Machine) :=
  (Exec.runSource bound source (.start options.seed options.maxCalls)).play ⟨answers, none⟩

/-- With these answers the dialog comes to an end and causes these events. -/
inductive Tells : List String → Dialog Verdict → List Event → Prop where
  | done {answers : List String} {verdict : Verdict} (h : verdict ≠ .error .disconnected)
    : Tells answers (.done verdict) (lastEvents verdict)
  | prompt {answers : List String} {message : String} {resume : Reply → Dialog Verdict} {events : List Event}
      (h : Tells answers.tail (resume (.answer (answers.head?.getD ""))) events)
    : Tells answers (.ask (.prompt message) resume) (.prompt message :: events)
  | other {answers : List String} {request : Request} {resume : Reply → Dialog Verdict} {events : List Event}
      (hrequest : ∀ message, request ≠ .prompt message) (h : Tells answers (resume (.answer "")) events)
    : Tells answers (.ask request resume) (.ofRequest request :: events)

theorem tells_of_play {m : Machine} {d : Dialog (Verdict × Machine)} {verdict : Verdict} {answers : List String}
    (hsteady : d.Results (· ≠ .disconnected) fun result => result.1 ≠ .error .disconnected)
    (hresult : (d.play ⟨answers, none⟩).result = some (verdict, m))
    : Tells answers (d.bind fun (verdict, _) => .done verdict)
      (eventsOf (d.play ⟨answers, none⟩).requests verdict) := by
  induction hsteady generalizing answers with
  | @done result h =>
    obtain ⟨rfl⟩ : result = (verdict, m) := by simpa [Dialog.play] using hresult
    exact .done h
  | exhausted => cases hresult
  | @ask request resume _ ih =>
    cases request with
    | prompt message => exact .prompt (ih (.answer _) (by simp) hresult)
    | _ => exact .other (by simp) (ih (.answer _) (by simp) hresult)

def incoming? (run : Run) : Option String :=
  match run.host with
  | .answered text => some text
  | _ => run.inputs.head?

/-- The program will still cause the events `rest` if the prompts that are not answered yet get these answers. -/
def Continues [Generator] (bound : Nat) (run : Run) (answers : List String) (rest : List Event) : Prop :=
  match run.sandbox with
  | .loaded source => Tells answers (dialog bound source run.options) rest
  | .running dialog => Tells answers dialog rest
  | .awaitingStep resume => Tells answers (resume (.answer "")) rest
  | .awaitingInput resume =>
    match run.incoming? with
    | some text => Tells answers (resume (.answer text)) rest
    | none => Tells answers.tail (resume (.answer (answers.head?.getD ""))) rest
  | .stopped => rest = []

def HostTask.effort : HostTask → Nat
  | starting => 1
  | prompting => 3
  | answered _ | sleeping => 2
  | receiving | finished _ | aborted => 0

def effort (run : Run) (phase : Phase) (rest : List Event) : Nat :=
  5 * rest.length + 4 * run.posted.length + run.permits + run.inputs.length + run.host.effort + 2 * phase.stepsHeld

structure Passage (run : Run) (phase : Phase) (rest : List Event) (run' : Run) (phase' : Phase)
    (rest' : List Event) : Prop where
  events : run'.heard ++ run'.posted ++ rest' = run.heard ++ run.posted ++ rest
  effort : run'.effort phase' rest' < run.effort phase rest

theorem Handles.effort {mode : StepMode} {errored : Bool} {permits permits' : Nat} {event : Event} {host : HostTask}
    {change : Option Phase} (h : Handles mode errored permits event host permits' change)
    : permits' + host.effort + 2 * (change.getD .running).stepsHeld < permits + 4 := by
  cases h with
  | finish => cases errored <;> simp [HostTask.effort, Phase.stepsHeld]
  | _ => simp [HostTask.effort, Phase.stepsHeld]

theorem passage_post (run : Run) (phase : Phase) (sandbox : Sandbox) {events : List Event} (h : events ≠ [])
    (rest : List Event)
    : Passage run phase (events ++ rest) { run with sandbox, posted := run.posted ++ events } phase rest := by
  have hlength := length_pos_iff.mpr h
  constructor
  · simp only [append_assoc]
  · simp only [Run.effort, length_append]
    omega

section Turns

variable {run run' : Run} {phase : Phase} {task : Option Task} {change : Option Phase}

theorem Fits.incoming?_eq_none (h : run.Fits phase) (hwanted : run.sandbox.inputsWanted = 0) : run.incoming? = none := by
  have hinputs := h.inputs
  have hnil : run.inputs = [] := eq_nil_of_length_eq_zero (by omega)
  unfold incoming?
  rw [hnil]
  cases hhost : run.host with
  | answered text =>
    rw [hhost, HostTask.inputsHeld] at hinputs
    omega
  | _ => rfl

theorem Fits.passage (h : run.Fits phase) (hmoves : run.Moves task run' change)
    (hwaits : task = some .sandbox → run.sandbox.isGoing = false)
    (hends : run.sandbox = .stopped → .done ∈ run.heard ++ run.posted) (rest : List Event)
    : Passage run phase rest run' (change.getD phase) rest := by
  have hrunning : Phase.running.stepsHeld = 0 := rfl
  cases hmoves with
  | post hgoing => exact absurd hgoing (by simp [hwaits rfl])
  | goOn _ hpermits =>
    refine ⟨rfl, ?_⟩
    simp only [Run.effort, Option.getD_none]
    omega
  | read _ hinputs => exact ⟨rfl, by simp [Run.effort, hinputs]⟩
  | listen hhost | reply hhost =>
    refine ⟨rfl, ?_⟩
    simp only [Run.effort, hhost, HostTask.effort, Option.getD_some, hrunning, length_append, length_singleton]
    omega
  | hear hhost hposted hhandles =>
    obtain rfl := h.phase_eq_running hhost (.inl (by simp [hposted]))
    have heffort := hhandles.effort
    refine ⟨by simp [hposted], ?_⟩
    simp only [Run.effort, hposted, length_cons, hhost, HostTask.effort, Phase.stepsHeld] at heffort ⊢
    omega
  | lose hhost hposted hsandbox =>
    have hdone := hends hsandbox
    rw [hposted, append_nil] at hdone
    exact absurd hdone (h.told.not_mem_of_receiving hhost)
  | wake hhost | answer hhost =>
    refine ⟨rfl, ?_⟩
    simp only [Run.effort, hhost, HostTask.effort, Option.getD_none]
    omega

variable [Generator] {bound : Nat} {answers : List String} {rest : List Event}

theorem Continues.congr (h : run.Continues bound answers rest) (hsandbox : run'.sandbox = run.sandbox)
    (hoptions : run'.options = run.options) (hincoming : run'.incoming? = run.incoming?)
    : run'.Continues bound answers rest := by
  unfold Continues at h ⊢
  rw [hsandbox, hoptions, hincoming]
  exact h

theorem Continues.moves {task : Task} (h : run.Continues bound answers rest) (hfits : run.Fits phase)
    (hmoves : run.Moves (some task) run' change) (hwaits : some task = some .sandbox → run.sandbox.isGoing = false)
    : run'.Continues bound answers rest := by
  have hinputs := hfits.inputs
  have hone := run.sandbox.wanted_le_one
  cases hmoves with
  | post hgoing => exact absurd hgoing (by simp [hwaits rfl])
  | goOn hsandbox =>
    rw [Continues, hsandbox] at h
    exact h
  | @read _ text _ hsandbox hread =>
    have hincoming : run.incoming? = some text := by
      unfold incoming?
      rw [hread] at hinputs ⊢
      cases hhost : run.host with
      | answered text =>
        rw [hhost, HostTask.inputsHeld, length_cons] at hinputs
        omega
      | _ => rfl
    rw [Continues, hsandbox] at h
    dsimp only at h
    rw [hincoming] at h
    exact h
  | listen hhost | lose hhost | wake hhost => exact h.congr rfl rfl (by rw [incoming?, incoming?, hhost])
  | hear hhost hposted hhandles =>
    refine h.congr rfl rfl ?_
    rw [incoming?, incoming?, hhost]
    cases hhandles <;> rfl
  | reply hhost =>
    rw [hhost, HostTask.inputsHeld] at hinputs
    have hnil : run.inputs = [] := eq_nil_of_length_eq_zero (by omega)
    refine h.congr rfl rfl ?_
    rw [incoming?, incoming?, hhost, hnil]
    rfl

theorem Continues.answer {text : String} (h : run.Continues bound answers rest) (hfits : run.Fits phase)
    (hmoves : run.answer? text = some run') (htext : text = answers.head?.getD "")
    : run'.Continues bound answers.tail rest := by
  have hinputs := hfits.inputs
  have hone := run.sandbox.wanted_le_one
  unfold answer? at hmoves
  split at hmoves
  · rename_i hhost
    cases hmoves
    rw [hhost, HostTask.inputsHeld] at hinputs
    obtain ⟨resume, hsandbox⟩ := run.sandbox.asking_of_wanted (by omega)
    have hnil : run.inputs = [] := eq_nil_of_length_eq_zero (by omega)
    have hincoming : run.incoming? = none := by rw [incoming?, hhost, hnil]; rfl
    rw [Continues, hsandbox] at h ⊢
    dsimp only at h ⊢
    rw [hincoming] at h
    rw [htext]
    exact h
  · cases hmoves

theorem Continues.advanceDialog {dialog : Dialog Verdict} (htells : Tells answers dialog rest) (hfits : run.Fits phase)
    (hgoing : run.sandbox.isGoing)
    : ∃ rest', (run.advanceDialog dialog).Continues bound answers rest'
        ∧ Passage run phase rest (run.advanceDialog dialog) phase rest' := by
  obtain ⟨-, hinputs, hsandbox⟩ := Sandbox.wanted_of_isGoing hgoing
  have hopen := hfits.outcome?_host hsandbox
  cases htells with
  | @done _ verdict hverdict =>
    refine ⟨[], ?_⟩
    rw [← append_nil (lastEvents verdict)]
    cases verdict with
    | ok _ =>
      rw [Run.advanceDialog, conclude_ok hfits.live hopen]
      exact ⟨rfl, passage_post run phase .stopped (cons_ne_nil _ _) []⟩
    | error e =>
      have he : e ≠ .disconnected := fun h => hverdict (by rw [h])
      rw [Run.advanceDialog, conclude_error hfits.live hopen he, append_assoc]
      exact ⟨rfl, passage_post run phase .stopped (cons_ne_nil _ _) []⟩
  | @prompt _ message resume events htells =>
    rw [advanceDialog_ask hfits.live hopen]
    refine ⟨events, ?_, passage_post run phase _ (cons_ne_nil _ []) events⟩
    have hincoming : ({ run with posted := run.posted ++ [.ofRequest (.prompt message)],
                                 sandbox := .after (.prompt message) resume } : Run).incoming? = none :=
      hfits.incoming?_eq_none hinputs
    unfold Continues
    rw [hincoming]
    exact htells
  | @other _ request resume events hrequest htells =>
    rw [advanceDialog_ask hfits.live hopen]
    refine ⟨events, ?_, passage_post run phase _ (cons_ne_nil _ []) events⟩
    cases request with
    | prompt message => exact absurd rfl (hrequest message)
    | _ => exact htells

theorem Continues.sandboxStep (h : run.Continues bound answers rest) (hfits : run.Fits phase)
    (hgoing : run.sandbox.isGoing) (hstep : run.sandboxStep? bound = some run')
    : ∃ rest', run'.Continues bound answers rest' ∧ Passage run phase rest run' phase rest' := by
  unfold Continues at h
  unfold sandboxStep? at hstep
  cases hsandbox : run.sandbox with
  | loaded source | running dialog =>
    rw [hsandbox] at h hstep
    cases hstep
    exact advanceDialog h hfits hgoing
  | _ =>
    rw [hsandbox] at hgoing
    cases hgoing

theorem Continues.step {task : Task} (h : run.Continues bound answers rest) (hfits : run.Fits phase)
    (hends : run.sandbox = .stopped → .done ∈ run.heard ++ run.posted)
    (hstep : run.step? bound task = some (run', change))
    : ∃ rest', run'.Continues bound answers rest' ∧ Passage run phase rest run' (change.getD phase) rest' := by
  by_cases hgoing : task = .sandbox ∧ run.sandbox.isGoing
  · obtain ⟨rfl, hgoing⟩ := hgoing
    obtain ⟨_, hrun, ⟨⟩⟩ := Option.map_eq_some_iff.mp hstep
    exact h.sandboxStep hfits hgoing hrun
  · have hmoves := moves_of_step hfits hstep
    have hwaits (htask : some task = some .sandbox) : run.sandbox.isGoing = false :=
      Bool.eq_false_iff.mpr fun hsandbox => hgoing ⟨Option.some.inj htask, hsandbox⟩
    exact ⟨rest, h.moves hfits hmoves hwaits, hfits.passage hmoves hwaits hends rest⟩

end Turns

structure Stage where
  executor : Executor
  answers : List String

/-- What can happen as long as nobody cancels the run: a task takes a turn, a prompt is answered, or a manual
step is released. -/
inductive Step [Generator] (bound : Nat) : Stage → Stage → Prop where
  | turn (task : Task) {executor executor' : Executor} {answers : List String}
      (h : executor.step? bound task = some executor')
    : Step bound ⟨executor, answers⟩ ⟨executor', answers⟩
  | answer {executor executor' : Executor} {answers : List String}
      (h : executor.answer (answers.head?.getD "") = (true, executor'))
    : Step bound ⟨executor, answers⟩ ⟨executor', answers.tail⟩
  | advance {executor executor' : Executor} {answers : List String} (h : executor.advance = (true, executor'))
    : Step bound ⟨executor, answers⟩ ⟨executor', answers⟩

structure Stage.Keeps [Generator] (bound : Nat) (total : List Event) (stage : Stage) (run : Run) (rest : List Event) : Prop where
  active : stage.executor.active = some run
  fits : run.Fits stage.executor.phase
  events : run.heard ++ run.posted ++ rest = total
  continues : run.Continues bound stage.answers rest
  done : .done ∈ total

namespace Stage.Keeps

variable [Generator] {bound : Nat} {total : List Event} {stage stage' : Stage} {run : Run} {rest : List Event}
  (h : stage.Keeps bound total run rest)

include h

theorem rest_eq_nil (hsandbox : run.sandbox = .stopped) : rest = [] := by
  have hcontinues := h.continues
  rw [Continues, hsandbox] at hcontinues
  exact hcontinues

theorem of_passage {run' : Run} {rest' : List Event} (hactive : stage'.executor.active = some run')
    (hfits : run'.Fits stage'.executor.phase) (hcontinues : run'.Continues bound stage'.answers rest')
    (hpassage : Passage run stage.executor.phase rest run' stage'.executor.phase rest')
    : ∃ run' rest', stage'.Keeps bound total run' rest'
        ∧ run'.effort stage'.executor.phase rest' < run.effort stage.executor.phase rest :=
  ⟨run', rest', ⟨hactive, hfits, hpassage.events.trans h.events, hcontinues, h.done⟩, hpassage.effort⟩

theorem step (hstep : Step bound stage stage') : ∃ run' rest', stage'.Keeps bound total run' rest'
        ∧ run'.effort stage'.executor.phase rest' < run.effort stage.executor.phase rest := by
  have hactive := h.active
  have hends (hsandbox : run.sandbox = .stopped) : .done ∈ run.heard ++ run.posted := by
    have hevents := h.events
    rw [h.rest_eq_nil hsandbox, append_nil] at hevents
    exact hevents ▸ h.done
  cases hstep with
  | @turn task executor executor' answers hturn =>
    dsimp only at hactive
    unfold Executor.step? at hturn
    rw [hactive] at hturn
    cases hrun : run.step? bound task with
    | none => simp [hrun] at hturn
    | some next =>
      obtain ⟨run', change⟩ := next
      simp only [hrun, Option.bind_eq_bind, Option.bind_some, Option.pure_def, Option.some.injEq] at hturn
      subst hturn
      have hfits := h.fits.moves (moves_of_step h.fits hrun)
      obtain ⟨rest', hcontinues, hpassage⟩ := h.continues.step h.fits hends hrun
      rw [← publish_of_live hfits.live] at hfits hpassage
      exact h.of_passage rfl hfits hcontinues hpassage
  | @answer executor executor' answers hanswer =>
    dsimp only at hactive
    unfold Executor.answer at hanswer
    rw [hactive, Option.bind_some] at hanswer
    cases hrun : run.answer? (answers.head?.getD "") with
    | none => simp [hrun] at hanswer
    | some run' =>
      simp only [hrun, Prod.mk.injEq, true_and] at hanswer
      subst hanswer
      have hmoves := moves_of_answer hrun
      exact h.of_passage rfl (h.fits.moves hmoves) (h.continues.answer h.fits hrun rfl)
        (h.fits.passage hmoves (by simp) hends rest)
  | @advance executor executor' answers hadvance =>
    dsimp only at hactive
    unfold Executor.advance at hadvance
    rw [hactive] at hadvance
    dsimp only at hadvance
    split at hadvance
    · rename_i hcond
      have hfits : run.Fits executor.phase := h.fits
      rw [hcond.2] at hfits
      rw [hfits.release] at hadvance
      simp only [Prod.mk.injEq, true_and] at hadvance
      subst hadvance
      refine h.of_passage rfl hfits.advance (h.continues.congr rfl rfl rfl) ⟨rfl, ?_⟩
      simp only [Run.effort, hcond.2, Phase.stepsHeld]
      omega
    · cases hadvance

theorem exists_step (hrun : run.outcome? = none) : ∃ stage', Step bound stage stage' := by
  obtain ⟨executor, answers⟩ := stage
  have hactive : executor.active = some run := h.active
  have hfits : run.Fits executor.phase := h.fits
  obtain ⟨task, htask⟩ | hhost | ⟨hmode, hphase⟩ := hfits.progress hrun bound
  · obtain ⟨next, hnext⟩ := Option.isSome_iff_exists.mp htask
    exact ⟨_, .turn task (by rw [Executor.step?, hactive, Option.bind_eq_bind, Option.bind_some, hnext]; rfl)⟩
  · exact ⟨_, .answer (by rw [Executor.answer, hactive, Option.bind_some, answer?, hhost])⟩
  · rw [hphase] at hfits
    exact ⟨_, .advance (by rw [Executor.advance, hactive]; simp [hmode, hphase, hfits.release]; rfl)⟩

theorem acc : Acc (fun stage' stage => Step bound stage stage') stage := by
  induction hn : run.effort stage.executor.phase rest using Nat.strongRecOn generalizing stage run rest with
  | ind n ih =>
    refine .intro stage fun stage' hstep => ?_
    obtain ⟨run', rest', hkeeps, heffort⟩ := h.step hstep
    exact ih _ (hn ▸ heffort) hkeeps rfl

theorem reaches (hsteps : Relation.ReflTransGen (Step bound) stage stage')
    : ∃ run' rest', stage'.Keeps bound total run' rest' := by
  induction hsteps with
  | refl => exact ⟨run, rest, h⟩
  | tail _ hstep ih =>
    obtain ⟨run', rest', hkeeps⟩ := ih
    obtain ⟨run'', rest'', hkeeps', _⟩ := hkeeps.step hstep
    exact ⟨run'', rest'', hkeeps'⟩

theorem ended {outcome : Outcome} (houtcome : run.outcome? = some outcome)
    : run.heard = total ∧ outcome = if total.any Event.isError then .errored else .completed := by
  rw [h.fits.outcome?_eq] at houtcome
  obtain ⟨outcome', hhost, rfl⟩ : ∃ outcome', run.host = .finished outcome' ∧ outcome' = outcome := by
    cases hhost : run.host with
    | finished outcome' =>
      rw [hhost] at houtcome
      exact ⟨outcome', rfl, Option.some.inj houtcome⟩
    | aborted => exact ((hhost ▸ h.fits.shows : HostTask.aborted.Shows ..)).elim
    | _ =>
      rw [hhost] at houtcome
      cases houtcome
  obtain ⟨hdone, hfinished⟩ := h.fits.told.finished outcome' hhost
  obtain ⟨before, after, hheard⟩ := append_of_mem hdone
  have hevents : run.heard ++ run.posted = before ++ .done :: (after ++ run.posted) := by
    rw [hheard, append_assoc, cons_append]
  obtain ⟨hnil, hsandbox, -⟩ := h.fits.told.eq_of_done hevents
  have htotal := h.events
  rw [h.rest_eq_nil hsandbox, (append_eq_nil_iff.mp hnil).2, append_nil, append_nil] at htotal
  exact ⟨htotal, htotal ▸ hfinished⟩

end Stage.Keeps

theorem error_mem_eventsOf_iff (requests : List Request) (verdict : Verdict)
    : (eventsOf requests verdict).any Event.isError ↔ outcomeOf verdict = .errored := by
  have hrequests : (requests.map Event.ofRequest).any Event.isError = false := by
    rw [any_eq_false]
    simp only [mem_map]
    rintro _ ⟨request, _, rfl⟩
    cases request <;> nofun
  rw [eventsOf, any_append, hrequests, Bool.false_or]
  cases verdict with
  | ok _ | error e => simp [lastEvents, outcomeOf, Event.isError]

/-- Every schedule of a run refines the program run on its own. If the program comes to an end with these answers,
then so does every schedule of its run that is not cancelled, and the run can go on until it is over. Then the host
has heard the requests of the program, its error if it failed, and that it is done, and the outcome tells whether
there was an error. -/
theorem Executor.heard_of_schedule [Generator] {bound : Nat} {source : String} {options : Options} {answers : List String}
    {before executor : Executor} (hstart : before.start source options true = .ok executor) {verdict : Verdict}
    {machine : Machine} (halone : (alone bound source options answers).result = some (verdict, machine))
    : Acc (fun stage' stage => Step bound stage stage') ⟨executor, answers⟩
        ∧ ∀ stage, Relation.ReflTransGen (Step bound) ⟨executor, answers⟩ stage
          → ∃ run, stage.executor.active = some run ∧ (run.outcome? = none → ∃ stage', Step bound stage stage')
            ∧ ∀ outcome, run.outcome? = some outcome
              → run.heard = eventsOf (alone bound source options answers).requests verdict ∧ outcome = outcomeOf verdict
                ∧ (outcome = .errored ↔ run.heard.any Event.isError) := by
  have hkeeps : Stage.Keeps bound (eventsOf (alone bound source options answers).requests verdict)
      ⟨executor, answers⟩ (.start source options) (eventsOf (alone bound source options answers).requests verdict) := by
    have htells := tells_of_play (Exec.steady_runSource bound source _) halone
    simp only [Executor.start, if_true, Except.ok.injEq] at hstart
    subst hstart
    exact ⟨rfl, .start source options, rfl, htells, by cases verdict <;> simp [eventsOf, lastEvents]⟩
  refine ⟨hkeeps.acc, fun stage hsteps => ?_⟩
  obtain ⟨run, rest, hstage⟩ := hkeeps.reaches hsteps
  refine ⟨run, hstage.active, hstage.exists_step, fun outcome houtcome => ?_⟩
  obtain ⟨hheard, houtcome⟩ := hstage.ended houtcome
  have herror := error_mem_eventsOf_iff (alone bound source options answers).requests verdict
  have houtcome' : outcome = outcomeOf verdict := by
    rw [houtcome]
    split
    · rename_i hany
      exact (herror.mp hany).symm
    · rename_i hany
      cases verdict with
      | ok _ => rfl
      | error e => exact absurd (herror.mpr rfl) hany
  exact ⟨hheard, houtcome', by rw [hheard, herror, houtcome']⟩

theorem Executor.heard_of_schedule_undefinedName
    : ∃ executor machine, Executor.new.start "await __onNode(\"a\"); console.log(prompt(\"who\")); gone;" ⟨.manual, none, 64⟩ true
          = .ok executor
        ∧ (alone 30 "await __onNode(\"a\"); console.log(prompt(\"who\")); gone;" ⟨.manual, none, 64⟩ ["me"]).result
          = some (.error (.undefinedName "gone"), machine)
        ∧ ∀ stage run outcome, Relation.ReflTransGen (Step 30) ⟨executor, ["me"]⟩ stage
          → stage.executor.active = some run → run.outcome? = some outcome
          → run.heard = [.nodeEnter "a", .prompt "who", .log "me", .error "ReferenceError: gone is not defined", .done]
            ∧ outcome = .errored := by
  have hrequests : (alone 30 "await __onNode(\"a\"); console.log(prompt(\"who\")); gone;" ⟨.manual, none, 64⟩ ["me"]).requests
      = [.enter "a", .prompt "who", .log "me"] := Request.eq_of_isEqv (by decide +kernel)
  have hfails : (alone 30 "await __onNode(\"a\"); console.log(prompt(\"who\")); gone;" ⟨.manual, none, 64⟩
      ["me"]).result.map Prod.fst = some (.error (.undefinedName "gone")) := Dialog.eq_of_isFailure (by decide +kernel)
  obtain ⟨⟨_, machine⟩, halone, rfl⟩ := Option.map_eq_some_iff.mp hfails
  refine ⟨_, machine, rfl, halone, fun stage run outcome hsteps hactive houtcome => ?_⟩
  obtain ⟨_, hschedule⟩ := heard_of_schedule rfl halone
  obtain ⟨run', hactive', _, hover⟩ := hschedule stage hsteps
  obtain rfl : run = run' := Option.some.inj (hactive.symm.trans hactive')
  obtain ⟨hheard, houtcome, _⟩ := hover outcome houtcome
  rw [hrequests] at hheard
  exact ⟨hheard, houtcome⟩


end Run

end NodeScript
