import Mathlib.Data.List.Chain
import NodeScript.Proofs.Histories

/-!
The published phase follows one diagram, whoever writes it, and a run that is not cancelled reports its end once and
in agreement with the phase and with its outcome.
-/

namespace NodeScript

open List Script

namespace Run

/-- The diagram of the phases. The mode is the one of the active run. -/
inductive Phase.Leads (mode : Option StepMode) : Phase → Phase → Prop where
  | start {phase : Phase} (h : phase = .idle ∨ phase.isFinished) : Leads mode phase .loading
  | listen : Leads mode .loading .running
  | prompt : Leads mode .running .suspendedOnInput
  | suspend (h : mode = some .manual) : Leads mode .running .suspendedOnStep
  | complete : Leads mode .running .completed
  | fail : Leads mode .running .errored
  | reply : Leads mode .suspendedOnInput .running
  | release : Leads mode .suspendedOnStep .running
  | cancel {phase : Phase} (hstarted : phase ≠ .idle) (hgoing : phase.isFinished = false)
    : Leads mode phase .cancelled

/-- What is heard at the end of a run that has ended like this, or that has not ended. -/
inductive Closes : Option Outcome → List Event → Prop where
  | completed : Closes (some .completed) [.done]
  | errored (text : String) : Closes (some .errored) [.error text, .done]
  | going {outcome : Option Outcome} (h : outcome = none ∨ outcome = some .cancelled) : Closes outcome []
  | failing {outcome : Option Outcome} (h : outcome = none ∨ outcome = some .cancelled) (text : String)
    : Closes outcome [.error text]

theorem Outcome.phase_injective {outcome outcome' : Outcome} (h : outcome.phase = outcome'.phase)
    : outcome = outcome' := by
  cases outcome <;> cases outcome' <;> simp_all [phase]

section Reports

variable {run run' : Run} {phase : Phase} {change : Option Phase}

theorem Handles.leads {mode : StepMode} {errored : Bool} {permits permits' : Nat} {event : Event} {host : HostTask}
    (h : Handles mode errored permits event host permits' change)
    : change.getD .running = .running ∨ Phase.Leads (some mode) .running (change.getD .running) := by
  cases h with
  | pass _ | release _ _ | delay _ _ => exact .inl rfl
  | prompt _ => exact .inr .prompt
  | suspend _ hmode => exact .inr (.suspend (congrArg some hmode))
  | finish =>
    cases errored with
    | false => exact .inr .complete
    | true => exact .inr .fail

theorem Fits.leads {task : Option Task} (h : run.Fits phase) (hmoves : run.Moves task run' change)
    : change.getD phase = phase ∨ Phase.Leads (some run'.options.stepMode) phase (change.getD phase) := by
  have hshows := h.shows
  cases hmoves with
  | post _ _ | goOn _ _ | read _ _ | wake _ | answer _ => exact .inl rfl
  | listen hhost =>
    rw [hhost] at hshows
    obtain rfl : phase = .loading := hshows
    exact .inr .listen
  | hear hhost hposted hhandles =>
    obtain rfl := h.phase_eq_running hhost (.inl (by simp [hposted]))
    exact hhandles.leads
  | lose hhost hposted hsandbox =>
    obtain rfl := h.phase_eq_running hhost (.inr hsandbox)
    exact .inr .fail
  | reply hhost =>
    rw [hhost] at hshows
    obtain rfl : phase = .suspendedOnInput := hshows
    exact .inr .reply

theorem Fits.phase_of_going (h : run.Fits phase) (houtcome : run.outcome? = none)
    : phase ≠ .idle ∧ phase.isFinished = false := by
  have hshows := h.shows
  rw [h.outcome?_eq] at houtcome
  cases hhost : run.host with
  | finished outcome | aborted => simp [HostTask.outcome?, hhost] at houtcome
  | receiving =>
    rw [hhost] at hshows
    obtain rfl | ⟨-, rfl⟩ := hshows
    all_goals exact ⟨by simp, rfl⟩
  | _ =>
    rw [hhost] at hshows
    subst hshows
    exact ⟨by simp, rfl⟩

theorem any_isError_of_not_isClosing {body : List Event} (h : ∀ event ∈ body, event.isClosing = false)
    : body.any Event.isError = false := by
  rw [any_eq_false]
  intro event hevent
  cases event with
  | error text => exact nomatch h _ hevent
  | _ => exact nofun

theorem Ending.closes {init : List Event} (h : Ending (init ++ [.done]))
    : Closes (some (if init.any Event.isError then .errored else .completed)) (init ++ [.done]) := by
  generalize hending : init ++ [.done] = ending at h
  cases h with
  | silent => simp at hending
  | done =>
    obtain rfl : init = [] := by simpa using hending
    exact .completed
  | error text =>
    obtain rfl : init = [.error text] := append_cancel_right hending
    exact .errored text

theorem Ending.closes_of_not_done {heard posted : List Event} {outcome : Option Outcome}
    (h : Ending (heard ++ posted)) (hdone : .done ∉ heard) (houtcome : outcome = none ∨ outcome = some .cancelled)
    : Closes outcome heard := by
  generalize hending : heard ++ posted = ending at h
  cases h with
  | silent =>
    obtain ⟨rfl, -⟩ := append_eq_nil_iff.mp hending
    exact .going houtcome
  | done =>
    obtain ⟨rfl, -⟩ | ⟨rfl, -⟩ := append_eq_singleton_iff.mp hending
    · exact .going houtcome
    · exact absurd (mem_singleton_self _) hdone
  | error text =>
    obtain ⟨rfl, -⟩ | ⟨rest, rfl, hrest⟩ := append_eq_cons_iff.mp hending
    · exact .going houtcome
    · obtain ⟨rfl, -⟩ | ⟨rfl, -⟩ := append_eq_singleton_iff.mp hrest.symm
      · exact .failing houtcome text
      · exact absurd (by simp) hdone

def Reports (run : Run) (outcome : Option Outcome) : Prop :=
  ∃ body ending, run.heard = body ++ ending ∧ (∀ event ∈ body, event.isClosing = false) ∧ Closes outcome ending

theorem Told.closes_of_done (h : run.Told) (hdone : .done ∈ run.heard) : run.Reports run.host.outcome? := by
  obtain ⟨outcome, hhost⟩ := h.ended hdone
  obtain ⟨-, houtcome⟩ := h.finished outcome hhost
  obtain ⟨pre, post, hheard⟩ := append_of_mem hdone
  have hevents : run.heard ++ run.posted = pre ++ .done :: (post ++ run.posted) := by rw [hheard]; simp
  obtain ⟨hpost, -, body, init, rfl, hbody, hending⟩ := h.eq_of_done hevents
  obtain ⟨rfl, -⟩ := append_eq_nil_iff.mp hpost
  have herror : run.heard.any Event.isError = init.any Event.isError := by
    rw [hheard, append_assoc, any_append, any_isError_of_not_isClosing hbody, Bool.false_or, any_append]
    exact Bool.or_false _
  refine ⟨body, init ++ [.done], by rw [hheard, append_assoc], hbody, ?_⟩
  rw [herror] at houtcome
  rw [hhost, houtcome]
  exact hending.closes

theorem Told.closes_of_not_done (h : run.Told) (hdone : .done ∉ run.heard) : run.Reports run.host.outcome? := by
  have houtcome : run.host.outcome? = none ∨ run.host.outcome? = some .cancelled := by
    cases hhost : run.host with
    | finished outcome => exact absurd (h.finished outcome hhost).1 hdone
    | aborted => exact .inr rfl
    | _ => exact .inl rfl
  obtain ⟨body, ending, hevents, hbody, hending, -⟩ := h.events
  -- What has been heard stops before the last events or in the middle of them.
  obtain ⟨more, rfl, -⟩ | ⟨ending', hheard, hsplit⟩ := append_eq_append_iff.mp hevents
  · refine ⟨run.heard, [], (append_nil _).symm, ?_, .going houtcome⟩
    exact fun event hevent => hbody event (mem_append_left _ hevent)
  · refine ⟨body, ending', hheard, hbody, ?_⟩
    rw [hheard, mem_append, not_or] at hdone
    rw [hsplit] at hending
    exact hending.closes_of_not_done hdone.2 houtcome

theorem Told.closes (h : run.Told) : run.Reports run.host.outcome? := by
  by_cases hdone : .done ∈ run.heard
  · exact h.closes_of_done hdone
  · exact h.closes_of_not_done hdone

theorem Closes.cancel {outcome : Option Outcome} {ending : List Event} (h : Closes outcome ending)
    : Closes (some (outcome.getD .cancelled)) ending := by
  have hgetD (h : outcome = none ∨ outcome = some .cancelled) : some (outcome.getD .cancelled) = some .cancelled := by
    obtain rfl | rfl := h <;> rfl
  cases h with
  | completed => exact .completed
  | errored text => exact .errored text
  | going h => exact .going (.inr (hgetD h))
  | failing h text => exact .failing (.inr (hgetD h)) text

theorem Abandoned.closes (h : run.Abandoned) : run.Reports run.outcome? := by
  obtain ⟨before, phase, hfits, hfades⟩ := h
  obtain ⟨body, ending, hheard, hbody, hcloses⟩ := hfits.told.closes
  rw [Reports, hfades.heard, hfades.outcome?_eq rfl]
  exact ⟨body, ending, hheard, hbody, hcloses.cancel⟩

end Reports

namespace Executor

variable {executor executor' : Executor} {action : Action}

def between (executor : Executor) : Action → List Executor
  | .start _ _ true => [executor.cancel]
  | _ => []

def visited [Generator] (bound : Nat) (executor : Executor) : List Action → List Executor
  | [] => [executor]
  | action :: rest => executor :: (executor.between action ++ visited bound (executor.act bound action) rest)

def Follows (executor executor' : Executor) : Prop :=
  executor'.phase = executor.phase
    ∨ Phase.Leads (executor'.active.map (·.options.stepMode)) executor.phase executor'.phase

theorem Coherent.follows_cancel (h : executor.Coherent) : executor.Follows executor.cancel := by
  cases hactive : executor.active with
  | none =>
    rw [cancel_of_none hactive]
    exact .inl rfl
  | some run =>
    have hfits := h.active run hactive
    rw [cancel_of_some hactive, HostTask.isOver, ← hfits.outcome?_eq]
    cases houtcome : run.outcome? with
    | some outcome => exact .inl rfl
    | none =>
      obtain ⟨hstarted, hgoing⟩ := hfits.phase_of_going houtcome
      exact .inr (.cancel hstarted hgoing)

theorem Coherent.isChain_changes (h : executor.Coherent) (hchanges : executor.Changes action executor')
    : (executor :: (executor.between action ++ [executor'])).IsChain Follows := by
  have hstays : [executor, executor].IsChain Follows := isChain_pair.mpr (.inl rfl)
  cases hchanges with
  | refused _ _ | kept _ | unanswered _ _ | waited _ _ => exact hstays
  | answeredLate _ _ | turnedLate _ _ => exact isChain_pair.mpr (.inl rfl)
  | started source options =>
    apply List.IsChain.cons_cons h.follows_cancel
    apply isChain_pair.mpr
    exact .inr (.start (h.cancel.idle executor.active_cancel))
  | cancelled => exact isChain_pair.mpr h.follows_cancel
  | released hactive hphase =>
    apply isChain_pair.mpr
    unfold Follows
    rw [hphase]
    exact .inr .release
  | answered hactive hmoves | turned hactive hmoves => exact isChain_pair.mpr ((h.active _ hactive).leads hmoves)

theorem Coherent.isChain_visited [Generator] (h : executor.Coherent) (bound : Nat) (actions : List Action)
    : (executor.visited bound actions).IsChain Follows := by
  induction actions generalizing executor with
  | nil => exact isChain_singleton _
  | cons action rest ih =>
    have haction := h.isChain_changes (h.changes_act bound action)
    obtain ⟨tail, htail⟩ : ∃ tail, (executor.act bound action).visited bound rest = executor.act bound action :: tail := by
      cases rest <;> exact ⟨_, rfl⟩
    -- The last state of the action is the first one of the rest.
    rw [visited, htail, ← cons_append, isChain_split, ← htail]
    exact ⟨haction, ih (h.act action)⟩

theorem getLast?_visited [Generator] (bound : Nat) (executor : Executor) (actions : List Action)
    : (executor.visited bound actions).getLast? = some (executor.acts bound actions) := by
  induction actions generalizing executor with
  | nil => rfl
  | cons action rest ih =>
    rw [visited, ← cons_append, getLast?_append, ih]
    rfl

theorem Coherent.closes (h : executor.Coherent) {run : Run} (hrun : run ∈ executor.runs) : run.Reports run.outcome? := by
  rw [runs, mem_append, Option.mem_toList] at hrun
  obtain hpast | hactive := hrun
  · exact (h.past run hpast).closes
  · have hfits := h.active run hactive
    rw [hfits.outcome?_eq]
    exact hfits.told.closes

theorem Coherent.outcome?_eq_iff (h : executor.Coherent) {run : Run} (hactive : executor.active = some run)
    (outcome : Outcome) : run.outcome? = some outcome ↔ executor.phase = outcome.phase := by
  have hfits := h.active run hactive
  refine ⟨fun houtcome => (finished_of_outcome hfits houtcome).1, fun hphase => ?_⟩
  cases houtcome : run.outcome? with
  | none =>
    obtain ⟨-, hgoing⟩ := hfits.phase_of_going houtcome
    rw [hphase] at hgoing
    cases outcome <;> cases hgoing
  | some outcome' =>
    rw [(finished_of_outcome hfits houtcome).1] at hphase
    rw [Outcome.phase_injective hphase]

theorem Coherent.progress [Generator] (h : executor.Coherent) {run : Run} (hactive : executor.active = some run)
    (houtcome : run.outcome? = none) (bound : Nat)
    : (∃ task, (executor.step? bound task).isSome) ∨ (∀ text, (executor.answer text).1 = true)
      ∨ executor.advance.1 = true := by
  obtain ⟨task, htask⟩ | hhost | ⟨hmode, hphase⟩ := (h.active run hactive).progress houtcome bound
  · refine .inl ⟨task, ?_⟩
    rw [step?_of_active hactive, Option.isSome_map]
    exact htask
  · exact .inr (.inl fun text => by simp [answer, hactive, answer?, hhost])
  · obtain ⟨-, hno⟩ | ⟨run', -, -, -, heq⟩ := h.advance_cases
    · exact absurd hphase (hno run hactive hmode)
    · exact .inr (.inr (by rw [heq]))

/-- The published phase follows its diagram. In every run one can hear an error at most once, and after it nothing but
the end; the end is heard once, and last, if the run is over and was not cancelled, and there was an error if and only
if this is its outcome. What is published is the outcome of the active run as soon as it has one, and a run that has
none can go on. Without a runtime nothing is started, and nothing changes. -/
theorem follows_diagram [Generator] (bound : Nat) (history : List Action) : (Executor.new.visited bound history).IsChain Follows
        ∧ (Executor.new.visited bound history).getLast? = some (after bound history)
        ∧ (∀ run ∈ (after bound history).runs, ∃ body ending, run.heard = body ++ ending
          ∧ (∀ event ∈ body, event.isClosing = false) ∧ Closes run.outcome? ending)
        ∧ (∀ run, (after bound history).active = some run
          → (∀ outcome, run.outcome? = some outcome ↔ (after bound history).phase = outcome.phase)
            ∧ run.outcome? ≠ some .cancelled
            ∧ (run.outcome? = none → (∃ task, ((after bound history).step? bound task).isSome)
                ∨ (∀ text, ((after bound history).answer text).1 = true)
                ∨ (after bound history).advance.1 = true))
        ∧ ∀ source options, (after bound history).start source options false = .error .noRuntime
          ∧ after bound (history ++ [.start source options false]) = after bound history := by
  have hcoherent := coherent_after bound history
  refine ⟨coherent_new.isChain_visited bound history, getLast?_visited bound _ history, ?_, ?_, ?_⟩
  · intro run hrun
    exact hcoherent.closes hrun
  · intro run hactive
    refine ⟨hcoherent.outcome?_eq_iff hactive, ?_, fun houtcome => hcoherent.progress hactive houtcome bound⟩
    intro hcancelled
    obtain ⟨-, h | h⟩ := finished_of_outcome (hcoherent.active run hactive) hcancelled
    all_goals cases h
  · intro source options
    refine ⟨rfl, ?_⟩
    rw [after_append]
    rfl

def undefinedName : List Action :=
  [.start "__onNode(1); x;" ⟨.manual, none, 64⟩ true, .turn 0 .sandbox, .turn 0 .host, .turn 0 .host, .advance,
   .turn 0 .sandbox, .turn 0 .sandbox, .turn 0 .host, .turn 0 .host]

theorem follows_diagram_undefinedName : ∃ run, (after 20 undefinedName).active = some run
        ∧ run.outcome? = some .errored ∧ (after 20 undefinedName).phase = .errored
        ∧ ∃ body text, run.heard = body ++ [.error text, .done] ∧ ∀ event ∈ body, event.isClosing = false := by
  have hbefore : (after 20 undefinedName).active.any (fun run => run.outcome? = some .errored) = true := by
    decide +kernel
  rw [Option.any_eq_true] at hbefore
  obtain ⟨run, hactive, hrun⟩ := hbefore
  rw [decide_eq_true_eq] at hrun
  obtain ⟨-, -, hheard, hphase, -⟩ := follows_diagram 20 undefinedName
  obtain ⟨body, ending, heq, hbody, hending⟩ := hheard run (by simp [runs, hactive])
  refine ⟨run, hactive, hrun, ((hphase run hactive).1 .errored).mp hrun, body, ?_⟩
  rw [hrun] at hending
  cases hending with
  | errored text => exact ⟨text, heq, hbody⟩
  | going h | failing h text => exact absurd h (by simp)

end Executor

end Run

end NodeScript
