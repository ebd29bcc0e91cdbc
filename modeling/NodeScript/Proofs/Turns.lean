import Mathlib.Data.List.Basic
import NodeScript.Run.Executor

/-!
What the tasks of a run do in one turn, and what then always holds of the tasks, of what is on its way
between them and of the published phase, whatever the host answers and however the tasks take turns.
-/

namespace NodeScript

open List Script

namespace Run

variable {host : HostTask} {permits : Nat} {change : Option Phase} {sandbox : Sandbox} {mode : StepMode}
  {events : List Event}

namespace Event

def isError : Event → Bool
  | error _ => true
  | _ => false

def isPassing : Event → Bool
  | log _ | varUpdate _ _ | error _ => true
  | _ => false

def isQuestion : Event → Bool
  | prompt _ => true
  | _ => false

def isEntry : Event → Bool
  | nodeEnter _ => true
  | _ => false

/-- The event does not come from a request of the program. -/
def isClosing : Event → Bool
  | error _ | done => true
  | _ => false

end Event

section Steps

variable {run : Run}

section Open

variable (hlive : run.cancelled = false) (hhost : run.host.outcome? = none)

include hlive hhost

theorem advanceDialog_ask (request : Request) (resume : Reply → Dialog Verdict)
    : run.advanceDialog (.ask request resume) =
      { run with posted := run.posted ++ [.ofRequest request], sandbox := .after request resume } := by
  simp [advanceDialog, post?, send, hlive, HostTask.isOver, hhost]

theorem conclude_ok : run.conclude (.ok ()) = { run with sandbox := .stopped, posted := run.posted ++ [.done] } := by
  simp [conclude, send, hlive, HostTask.isOver, hhost]

theorem conclude_error {e : RuntimeError} (h : e ≠ .disconnected) : run.conclude (.error e) =
      { run with sandbox := .stopped, posted := run.posted ++ [.error e.message] ++ [.done] } := by
  cases e with
  | disconnected => exact absurd rfl h
  | _ => simp [conclude, send, hlive, HostTask.isOver, hhost]

end Open

theorem publish_of_live (h : run.cancelled = false) (phase : Phase) (change : Option Phase)
    : run.publish phase change = change.getD phase := by
  simp [publish, h]

theorem release_of_awaiting {resume : Reply → Dialog Verdict} (h : run.sandbox = .awaitingStep resume)
    : run.release = (true, { run with permits := run.permits + 1 }) := by
  simp [release, hasStopped, h]

theorem supply_of_awaiting {resume : Reply → Dialog Verdict} (h : run.sandbox = .awaitingInput resume) (text : String)
    : run.supply text = { run with inputs := run.inputs ++ [text] } := by
  simp [supply, hasStopped, h]

theorem receive_of_isPassing {event : Event} (h : event.isPassing) (run : Run) : run.receive event =
      ({ run with heard := run.heard ++ [event], errored := run.errored || event.isError }, none) := by
  cases event with
  | log text | error text | varUpdate name value => simp [receive, hear, Event.isError]
  | prompt message | nodeEnter node | done => cases h

theorem receive_done (run : Run) : run.receive .done =
      ({ run with heard := run.heard ++ [.done]
                  host := .finished (if run.errored then .errored else .completed) },
        some (if run.errored then .errored else .completed)) := by
  unfold receive complete hear
  cases run.errored <;> rfl

end Steps

inductive Ending : List Event → Prop where
  | silent : Ending []
  | done : Ending [.done]
  | error (text : String) : Ending [.error text, .done]

namespace Sandbox

def isGoing : Sandbox → Bool
  | loaded _ | running _ => true
  | _ => false

def stepsWanted : Sandbox → Nat
  | awaitingStep _ => 1
  | _ => 0

def inputsWanted : Sandbox → Nat
  | awaitingInput _ => 1
  | _ => 0

inductive Posts : Sandbox → List Event → Prop where
  | stopped {events : List Event} (h : Ending events) : Posts .stopped events
  | log (dialog : Dialog Verdict) (text : String) : Posts (.running dialog) [.log text]
  | update (dialog : Dialog Verdict) (name : String) (value : Json)
    : Posts (.running dialog) [.varUpdate name value]
  | prompt (resume : Reply → Dialog Verdict) (message : String)
    : Posts (.awaitingInput resume) [.prompt message]
  | enter (resume : Reply → Dialog Verdict) (node : String)
    : Posts (.awaitingStep resume) [.nodeEnter node]

end Sandbox

inductive Handles (mode : StepMode) (errored : Bool) (permits : Nat)
    : Event → HostTask → Nat → Option Phase → Prop where
  | pass {event : Event} (h : event.isPassing) : Handles mode errored permits event .receiving permits none
  | prompt (message : String)
    : Handles mode errored permits (.prompt message) .prompting permits (some .suspendedOnInput)
  | release (node : String) (hmode : mode = .instant)
    : Handles mode errored permits (.nodeEnter node) .receiving (permits + 1) none
  | delay (node : String) {delay : Nat} (hmode : mode = .timed delay)
    : Handles mode errored permits (.nodeEnter node) .sleeping permits none
  | suspend (node : String) (hmode : mode = .manual)
    : Handles mode errored permits (.nodeEnter node) .receiving permits (some .suspendedOnStep)
  | finish
    : Handles mode errored permits .done (.finished (if errored then .errored else .completed)) permits
      (some (if errored then .errored else .completed))

/-- All that a turn of a task or an answer can do to a run, and the phase that is published then. -/
inductive Moves (run : Run) : Option Task → Run → Option Phase → Prop where
  | post {sandbox : Sandbox} {events : List Event} (hgoing : run.sandbox.isGoing) (hposts : sandbox.Posts events)
    : Moves run (some .sandbox) { run with sandbox, posted := run.posted ++ events } none
  | goOn {resume : Reply → Dialog Verdict} (hsandbox : run.sandbox = .awaitingStep resume)
      (hpermits : 0 < run.permits)
    : Moves run (some .sandbox) { run with permits := run.permits - 1, sandbox := .running (resume (.answer "")) } none
  | read {resume : Reply → Dialog Verdict} {text : String} {rest : List String}
      (hsandbox : run.sandbox = .awaitingInput resume) (hinputs : run.inputs = text :: rest)
    : Moves run (some .sandbox) { run with inputs := rest, sandbox := .running (resume (.answer text)) } none
  | listen (hhost : run.host = .starting) : Moves run (some .host) { run with host := .receiving } (some .running)
  | hear {event : Event} {rest : List Event} {host : HostTask} {permits : Nat} {change : Option Phase}
      (hhost : run.host = .receiving) (hposted : run.posted = event :: rest)
      (hhandles : Handles run.options.stepMode run.errored run.permits event host permits change)
    : Moves run (some .host)
      { run with posted := rest, heard := run.heard ++ [event], errored := run.errored || event.isError, host, permits }
      change
  | lose (hhost : run.host = .receiving) (hposted : run.posted = []) (hsandbox : run.sandbox = .stopped)
    : Moves run (some .host)
      { run with heard := run.heard ++ [.error "Execution context terminated unexpectedly"] ++ [.done]
                 host := .finished .errored }
      (some .errored)
  | reply {text : String} (hhost : run.host = .answered text)
    : Moves run (some .host) { run with host := .receiving, inputs := run.inputs ++ [text] } (some .running)
  | wake (hhost : run.host = .sleeping)
    : Moves run (some .timer) { run with host := .receiving, permits := run.permits + 1 } none
  | answer {text : String} (hhost : run.host = .prompting) : Moves run none { run with host := .answered text } none

def Outcome.phase : Outcome → Phase
  | completed => .completed
  | errored => .errored
  | cancelled => .cancelled

namespace HostTask

def stepsHeld : HostTask → Nat
  | sleeping => 1
  | _ => 0

def inputsHeld : HostTask → Nat
  | prompting | answered _ => 1
  | _ => 0

def Shows (mode : StepMode) (phase : Phase) : HostTask → Prop
  | starting => phase = .loading
  | receiving => phase = .running ∨ mode = .manual ∧ phase = .suspendedOnStep
  | prompting | answered _ => phase = .suspendedOnInput
  | sleeping => phase = .running
  | finished outcome => phase = outcome.phase
  | aborted => False

end HostTask

theorem HostTask.Shows.of_suspendedOnStep (h : host.Shows mode .suspendedOnStep)
    : host = .receiving ∧ mode = .manual := by
  cases host with
  | receiving =>
    obtain h | ⟨hmode, -⟩ := h
    · cases h
    · exact ⟨rfl, hmode⟩
  | finished outcome => cases outcome <;> cases h
  | _ => cases h

def Phase.stepsHeld : Phase → Nat
  | suspendedOnStep => 1
  | _ => 0

structure Told (run : Run) : Prop where
  events : ∃ body ending, run.heard ++ run.posted = body ++ ending ∧ (∀ event ∈ body, event.isClosing = false)
    ∧ Ending ending ∧ (ending ≠ [] → run.sandbox = .stopped)
  errored : .done ∉ run.heard → run.errored = run.heard.any Event.isError
  ended : .done ∈ run.heard → ∃ outcome, run.host = .finished outcome
  finished : ∀ outcome, run.host = .finished outcome
    → .done ∈ run.heard ∧ outcome = if run.heard.any Event.isError then .errored else .completed

/-- The tasks, the tokens between them and the published phase fit together. -/
structure Fits (run : Run) (phase : Phase) : Prop where
  steps : run.posted.countP Event.isEntry + run.permits + run.host.stepsHeld + phase.stepsHeld = run.sandbox.stepsWanted
  inputs : run.posted.countP Event.isQuestion + run.inputs.length + run.host.inputsHeld = run.sandbox.inputsWanted
  last : run.sandbox.stepsWanted + run.sandbox.inputsWanted = 1
    → ∀ event ∈ run.posted.getLast?, event.isEntry ∨ event.isQuestion
  shows : run.host.Shows run.options.stepMode phase
  told : run.Told
  live : run.cancelled = false

theorem Sandbox.wanted_le_one (sandbox : Sandbox) : sandbox.stepsWanted + sandbox.inputsWanted ≤ 1 := by
  cases sandbox with
  | awaitingStep resume | awaitingInput resume => exact Nat.le_refl 1
  | _ => exact Nat.zero_le 1

theorem Sandbox.awaiting_of_wanted (sandbox : Sandbox) (h : 0 < sandbox.stepsWanted) : ∃ resume, sandbox = .awaitingStep resume := by
  cases sandbox with
  | awaitingStep resume => exact ⟨resume, rfl⟩
  | _ => exact absurd h (Nat.lt_irrefl 0)

theorem Sandbox.asking_of_wanted (sandbox : Sandbox) (h : 0 < sandbox.inputsWanted) : ∃ resume, sandbox = .awaitingInput resume := by
  cases sandbox with
  | awaitingInput resume => exact ⟨resume, rfl⟩
  | _ => exact absurd h (Nat.lt_irrefl 0)

theorem Sandbox.wanted_of_isGoing (h : sandbox.isGoing)
    : sandbox.stepsWanted = 0 ∧ sandbox.inputsWanted = 0 ∧ sandbox ≠ .stopped := by
  cases sandbox with
  | loaded source | running dialog => exact ⟨rfl, rfl, nofun⟩
  | _ => cases h

theorem Sandbox.Posts.wanted (h : sandbox.Posts events)
    : events.countP Event.isEntry = sandbox.stepsWanted ∧ events.countP Event.isQuestion = sandbox.inputsWanted := by
  cases h with
  | stopped hending => cases hending <;> exact ⟨rfl, rfl⟩
  | _ => exact ⟨rfl, rfl⟩

variable {event : Event}

theorem Handles.held {errored : Bool} {permits' : Nat} (h : Handles mode errored permits event host permits' change)
    : permits' + host.stepsHeld + (change.getD .running).stepsHeld = permits + [event].countP Event.isEntry
        ∧ host.inputsHeld = [event].countP Event.isQuestion := by
  cases h with
  | pass hpass =>
    cases event with
    | log _ | error _ | varUpdate _ _ => exact ⟨rfl, rfl⟩
    | _ => cases hpass
  | finish => cases errored <;> exact ⟨rfl, rfl⟩
  | _ => exact ⟨rfl, rfl⟩

theorem Handles.shows {errored : Bool} {permits' : Nat} (h : Handles mode errored permits event host permits' change)
    : host.Shows mode (change.getD .running) := by
  cases h with
  | pass _ | release _ _ => exact .inl rfl
  | prompt _ | delay _ _ => exact rfl
  | suspend _ hmode => exact .inr ⟨hmode, rfl⟩
  | finish => cases errored <;> rfl

theorem Ending.eq_nil_or {ending : List Event} (h : Ending ending)
    : ending = [] ∨ ∃ init, ending = init ++ [.done] ∧ .done ∉ init := by
  cases h with
  | silent => exact .inl rfl
  | done => exact .inr ⟨[], rfl, nofun⟩
  | error text => exact .inr ⟨[.error text], rfl, by simp⟩

namespace Told

variable {run run' : Run}

theorem eq_of_done (h : run.Told) {pre post : List Event} (heq : run.heard ++ run.posted = pre ++ .done :: post)
    : post = [] ∧ run.sandbox = .stopped ∧ ∃ body init, pre = body ++ init ∧ (∀ event ∈ body, event.isClosing = false)
          ∧ Ending (init ++ [.done]) := by
  obtain ⟨body, ending, hevents, hbody, hending, hstopped⟩ := h.events
  have hdone : Event.done ∉ body := fun hmem => nomatch hbody _ hmem
  rw [hevents] at heq
  obtain rfl | ⟨init, rfl, hinit⟩ := hending.eq_nil_or
  · rw [append_nil] at heq
    exact absurd (by simp [heq]) hdone
  · rw [← append_assoc, append_cons_inj_of_notMem (by simp [hdone, hinit]) not_mem_nil] at heq
    obtain ⟨rfl, -, rfl⟩ := heq
    exact ⟨rfl, hstopped (by simp), body, init, rfl, hbody, hending⟩

theorem of_silent (h : run.Told) (hheard : run'.heard = run.heard) (hposted : run'.posted = run.posted)
    (herrored : run'.errored = run.errored)
    (hhost : ∀ outcome, run'.host = .finished outcome ↔ run.host = .finished outcome)
    (hsandbox : run.sandbox = .stopped → run'.sandbox = .stopped) : run'.Told := by
  obtain ⟨⟨body, ending, hevents, hbody, hending, hstopped⟩, herr, hended, hfinished⟩ := h
  constructor
  · rw [hheard, hposted]
    exact ⟨body, ending, hevents, hbody, hending, fun hne => hsandbox (hstopped hne)⟩
  · rw [hheard, herrored]
    exact herr
  · rw [hheard]
    intro hdone
    obtain ⟨outcome, hfin⟩ := hended hdone
    exact ⟨outcome, (hhost outcome).mpr hfin⟩
  · rw [hheard]
    exact fun outcome hfin => hfinished outcome ((hhost outcome).mp hfin)

theorem post (h : run.Told) (hgoing : run.sandbox.isGoing) (hposts : sandbox.Posts events)
    : { run with sandbox, posted := run.posted ++ events }.Told := by
  obtain ⟨⟨body, ending, hevents, hbody, _, hstopped⟩, herr, hended, hfinished⟩ := h
  obtain ⟨-, -, hgoes⟩ := Sandbox.wanted_of_isGoing hgoing
  obtain rfl : ending = [] := by
    by_contra hne
    exact hgoes (hstopped hne)
  rw [append_nil] at hevents
  refine ⟨?_, herr, hended, hfinished⟩
  dsimp only
  rw [← append_assoc, hevents]
  have hbody' {event : Event} (hevent : event.isClosing = false) : ∀ e ∈ body ++ [event], e.isClosing = false := by
    simp only [mem_append, mem_singleton]
    rintro e (he | rfl)
    · exact hbody e he
    · exact hevent
  cases hposts with
  | stopped hending => exact ⟨body, events, rfl, hbody, hending, fun _ => rfl⟩
  | log dialog text | update dialog name value | prompt resume message | enter resume node =>
    exact ⟨_, [], (append_nil _).symm, hbody' rfl, .silent, nofun⟩

theorem not_mem_of_receiving (h : run.Told) (hhost : run.host = .receiving) : Event.done ∉ run.heard := by
  intro hdone
  obtain ⟨outcome, hfinished⟩ := h.ended hdone
  rw [hhost] at hfinished
  cases hfinished

theorem hear (h : run.Told) (hhost : run.host = .receiving) {rest : List Event} (hposted : run.posted = event :: rest)
    (hhandles : Handles run.options.stepMode run.errored run.permits event host permits change)
    : { run with posted := rest, heard := run.heard ++ [event], errored := run.errored || event.isError, host,
                 permits }.Told := by
  have hdone := h.not_mem_of_receiving hhost
  have herrored := h.errored hdone
  refine ⟨?_, ?_, ?_, ?_⟩
  · obtain ⟨body, ending, hevents, hrest⟩ := h.events
    refine ⟨body, ending, ?_, hrest⟩
    rw [← hevents, hposted, append_assoc]
    rfl
  · intro _
    simp [herrored]
  · intro hmem
    simp only [mem_append, hdone, mem_singleton, false_or] at hmem
    subst hmem
    cases hhandles with
    | pass hpass => cases hpass
    | finish => exact ⟨_, rfl⟩
  · intro outcome hfinished
    cases hhandles with
    | finish =>
      cases hfinished
      simp [herrored, Event.isError]
    | _ => cases hfinished

theorem lose (h : run.Told) (hhost : run.host = .receiving) (hposted : run.posted = [])
    (hsandbox : run.sandbox = .stopped) (text : String)
    : { run with heard := run.heard ++ [Event.error text] ++ [Event.done], host := .finished .errored }.Told := by
  have hdone := h.not_mem_of_receiving hhost
  constructor
  · obtain ⟨body, ending, hevents, hbody, hending, -⟩ := h.events
    rw [hposted, append_nil] at hevents
    obtain rfl | ⟨init, rfl, -⟩ := hending.eq_nil_or
    · refine ⟨body, [.error text, .done], ?_, hbody, .error text, fun _ => hsandbox⟩
      rw [hposted, hevents]
      simp
    · exact absurd (by simp [hevents]) hdone
  · exact fun hmem => absurd (by simp) hmem
  · exact fun _ => ⟨_, rfl⟩
  · rintro outcome ⟨⟩
    simp [Event.isError]

end Told

namespace Fits

variable {run run' : Run} {phase : Phase}

theorem start (source : String) (options : Options) : (Run.start source options).Fits .loading where
  steps := rfl
  inputs := rfl
  last := nofun
  shows := rfl
  told := ⟨⟨[], [], rfl, nofun, .silent, fun h => absurd rfl h⟩, fun _ => rfl, nofun, nofun⟩
  live := rfl

theorem of_suspendedOnStep (h : run.Fits .suspendedOnStep)
    : run.posted = [] ∧ run.permits = 0 ∧ ∃ resume, run.sandbox = .awaitingStep resume := by
  have hsteps := h.steps
  have hinputs := h.inputs
  have hone := run.sandbox.wanted_le_one
  simp only [Phase.stepsHeld] at hsteps
  refine ⟨?_, by omega, ?_⟩
  · by_contra hne
    have hlast := h.last (by omega) _ (getLast?_eq_some_getLast hne)
    have hmem := getLast_mem hne
    obtain hentry | hquestion := hlast
    · have := countP_pos_iff.mpr ⟨_, hmem, hentry⟩
      omega
    · have := countP_pos_iff.mpr ⟨_, hmem, hquestion⟩
      omega
  · exact run.sandbox.awaiting_of_wanted (by omega)

theorem phase_eq_running (h : run.Fits phase) (hhost : run.host = .receiving)
    (hbusy : run.posted ≠ [] ∨ run.sandbox = .stopped) : phase = .running := by
  have hshows := h.shows
  rw [hhost] at hshows
  obtain hrunning | ⟨-, rfl⟩ := hshows
  · exact hrunning
  · obtain ⟨hposted, -, resume, hsandbox⟩ := h.of_suspendedOnStep
    obtain hne | hstopped := hbusy
    · exact absurd hposted hne
    · rw [hstopped] at hsandbox
      cases hsandbox

theorem post (h : run.Fits phase) (hgoing : run.sandbox.isGoing) (hposts : sandbox.Posts events)
    : { run with sandbox, posted := run.posted ++ events }.Fits phase := by
  obtain ⟨hsteps, hinputs, -⟩ := Sandbox.wanted_of_isGoing hgoing
  obtain ⟨hentries, hquestions⟩ := hposts.wanted
  refine ⟨?_, ?_, ?_, h.shows, h.told.post hgoing hposts, h.live⟩
  · have := h.steps
    simp only [countP_append]
    omega
  · have := h.inputs
    simp only [countP_append]
    omega
  · intro hwanted event hevent
    cases hposts with
    | prompt resume message =>
      rw [getLast?_concat, Option.mem_some_iff] at hevent
      subst hevent
      exact .inr rfl
    | enter resume node =>
      rw [getLast?_concat, Option.mem_some_iff] at hevent
      subst hevent
      exact .inl rfl
    | _ => cases hwanted

theorem hear (h : run.Fits phase) (hhost : run.host = .receiving) {rest : List Event}
    (hposted : run.posted = event :: rest)
    (hhandles : Handles run.options.stepMode run.errored run.permits event host permits change)
    : { run with posted := rest, heard := run.heard ++ [event], errored := run.errored || event.isError, host,
                 permits }.Fits (change.getD phase) := by
  -- While the run is running the phase holds no step, so what the event carries is all there is.
  obtain rfl := h.phase_eq_running hhost (.inl (by simp [hposted]))
  obtain ⟨hstepsHeld, hinputsHeld⟩ := hhandles.held
  refine ⟨?_, ?_, ?_, hhandles.shows, h.told.hear hhost hposted hhandles, h.live⟩
  · have hsteps := h.steps
    rw [hposted, hhost, ← singleton_append, countP_append] at hsteps
    simp only [HostTask.stepsHeld, Phase.stepsHeld] at hsteps hstepsHeld ⊢
    omega
  · have hinputs := h.inputs
    rw [hposted, hhost, ← singleton_append, countP_append] at hinputs
    simp only [HostTask.inputsHeld] at hinputs hinputsHeld ⊢
    omega
  · intro hwanted last hlast
    refine h.last hwanted last ?_
    rw [hposted, getLast?_cons, Option.mem_def.mp hlast]
    rfl

theorem moves {task : Option Task} (h : run.Fits phase) (hmoves : run.Moves task run' change)
    : run'.Fits (change.getD phase) := by
  have hsteps := h.steps
  have hinputs := h.inputs
  cases hmoves with
  | post hgoing hposts => exact h.post hgoing hposts
  | hear hhost hposted hhandles => exact h.hear hhost hposted hhandles
  | goOn hsandbox hpermits =>
    rw [hsandbox] at hsteps hinputs
    refine ⟨?_, hinputs, nofun, h.shows, h.told.of_silent rfl rfl rfl (fun _ => .rfl) (by simp [hsandbox]), h.live⟩
    simp only [Sandbox.stepsWanted, Option.getD_none] at hsteps ⊢
    omega
  | read hsandbox hread =>
    rw [hsandbox] at hsteps hinputs
    refine ⟨hsteps, ?_, nofun, h.shows, h.told.of_silent rfl rfl rfl (fun _ => .rfl) (by simp [hsandbox]), h.live⟩
    rw [hread] at hinputs
    simp only [Sandbox.inputsWanted, length_cons] at hinputs ⊢
    omega
  | listen hhost =>
    have hshows := h.shows
    rw [hhost] at hsteps hinputs hshows
    obtain rfl : phase = .loading := hshows
    exact ⟨hsteps, hinputs, h.last, .inl rfl, h.told.of_silent rfl rfl rfl (by simp [hhost]) id, h.live⟩
  | lose hhost hposted hsandbox =>
    obtain rfl := h.phase_eq_running hhost (.inr hsandbox)
    rw [hhost] at hsteps hinputs
    exact ⟨hsteps, hinputs, h.last, rfl, h.told.lose hhost hposted hsandbox _, h.live⟩
  | reply hhost =>
    have hshows := h.shows
    rw [hhost] at hsteps hinputs hshows
    obtain rfl : phase = .suspendedOnInput := hshows
    refine ⟨hsteps, ?_, h.last, .inl rfl, h.told.of_silent rfl rfl rfl (by simp [hhost]) id, h.live⟩
    simp only [HostTask.inputsHeld, length_append, length_singleton] at hinputs ⊢
    omega
  | wake hhost =>
    have hshows := h.shows
    rw [hhost] at hsteps hinputs hshows
    refine ⟨?_, hinputs, h.last, .inl hshows, h.told.of_silent rfl rfl rfl (by simp [hhost]) id, h.live⟩
    simp only [HostTask.stepsHeld, Option.getD_none] at hsteps ⊢
    omega
  | answer hhost =>
    have hshows := h.shows
    rw [hhost] at hsteps hinputs hshows
    exact ⟨hsteps, hinputs, h.last, hshows, h.told.of_silent rfl rfl rfl (by simp [hhost]) id, h.live⟩

theorem release (h : run.Fits .suspendedOnStep) : run.release = (true, { run with permits := run.permits + 1 }) := by
  obtain ⟨-, -, resume, hsandbox⟩ := h.of_suspendedOnStep
  exact release_of_awaiting hsandbox

theorem advance (h : run.Fits .suspendedOnStep) : { run with permits := run.permits + 1 }.Fits .running := by
  have hsteps := h.steps
  refine ⟨?_, h.inputs, h.last, ?_, h.told.of_silent rfl rfl rfl (fun _ => .rfl) id, h.live⟩
  · simp only [Phase.stepsHeld] at hsteps ⊢
    omega
  · rw [h.shows.of_suspendedOnStep.1]
    exact .inl rfl

theorem outcome?_eq (h : run.Fits phase) : run.outcome? = run.host.outcome? := by
  simp [outcome?, h.live]

theorem outcome?_host (h : run.Fits phase) (hsandbox : run.sandbox ≠ .stopped) : run.host.outcome? = none := by
  cases hhost : run.host with
  | finished outcome =>
    obtain ⟨pre, post, hheard⟩ := append_of_mem (h.told.finished outcome hhost).1
    have hevents : run.heard ++ run.posted = pre ++ .done :: (post ++ run.posted) := by
      rw [hheard, append_assoc, cons_append]
    exact absurd (h.told.eq_of_done hevents).2.1 hsandbox
  | aborted =>
    have hshows := h.shows
    rw [hhost] at hshows
    exact hshows.elim
  | _ => rfl

end Fits

section Inversion

variable {bound : Nat} {run run' : Run} {phase : Phase}

theorem posts_advanceDialog (hlive : run.cancelled = false) (hhost : run.host.outcome? = none) (dialog : Dialog Verdict)
    : ∃ sandbox events, sandbox.Posts events
        ∧ run.advanceDialog dialog = { run with sandbox, posted := run.posted ++ events } := by
  have hsilent : { run with sandbox := .stopped } = { run with sandbox := .stopped, posted := run.posted ++ [] } := by
    rw [append_nil]
  cases dialog with
  | done verdict =>
    rw [advanceDialog]
    cases verdict with
    | ok _ => exact ⟨_, _, .stopped .done, conclude_ok hlive hhost⟩
    | error e =>
      by_cases he : e = .disconnected
      · subst he
        refine ⟨_, _, .stopped .silent, ?_⟩
        rw [← hsilent]
        simp [conclude, hlive]
      · rw [conclude_error hlive hhost he, append_assoc]
        exact ⟨_, _, .stopped (.error e.message), rfl⟩
  | exhausted => exact ⟨_, _, .stopped .silent, hsilent⟩
  | ask request resume =>
    rw [advanceDialog_ask hlive hhost]
    cases request with
    | log text => exact ⟨_, _, .log (resume (.answer "")) text, rfl⟩
    | update name value => exact ⟨_, _, .update (resume (.answer "")) name value.toJson, rfl⟩
    | prompt message => exact ⟨_, _, .prompt resume message, rfl⟩
    | enter node => exact ⟨_, _, .enter resume node, rfl⟩

theorem moves_of_sandboxStep [Generator] (hfits : run.Fits phase) (h : run.sandboxStep? bound = some run')
    : run.Moves (some .sandbox) run' none := by
  have hmoves (hgoing : run.sandbox.isGoing) (dialog : Dialog Verdict)
      : run.Moves (some .sandbox) (run.advanceDialog dialog) none := by
    obtain ⟨-, -, hsandbox⟩ := Sandbox.wanted_of_isGoing hgoing
    obtain ⟨sandbox, events, hposts, heq⟩ := posts_advanceDialog hfits.live (hfits.outcome?_host hsandbox) dialog
    rw [heq]
    exact .post hgoing hposts
  unfold sandboxStep? at h
  split at h
  · rename_i source hsandbox
    cases h
    exact hmoves (by rw [hsandbox]; rfl) _
  · rename_i dialog hsandbox
    cases h
    exact hmoves (by rw [hsandbox]; rfl) _
  · rename_i resume hsandbox
    split at h
    · rename_i hpermits
      cases h
      exact .goOn hsandbox hpermits
    · simp [hfits.live] at h
  · rename_i resume hsandbox
    split at h
    · rename_i text rest hinputs
      cases h
      exact .read hsandbox hinputs
    · simp [HostTask.isOver, hfits.outcome?_host (by simp [hsandbox])] at h
  · cases h

theorem handles_receive (run : Run) (hhost : run.host = .receiving) (event : Event)
    (hentry : event.isEntry → ∃ resume, run.sandbox = .awaitingStep resume)
    : ∃ host permits change, Handles run.options.stepMode run.errored run.permits event host permits change
        ∧ run.receive event =
          ({ run with heard := run.heard ++ [event], errored := run.errored || event.isError, host, permits },
            change) := by
  cases event with
  | log text | error text | varUpdate name value =>
    refine ⟨_, _, _, .pass rfl, ?_⟩
    rw [receive_of_isPassing rfl, ← hhost]
  | prompt message =>
    refine ⟨_, _, _, .prompt message, ?_⟩
    simp [receive, hear, Event.isError]
  | nodeEnter node =>
    obtain ⟨resume, hsandbox⟩ := hentry rfl
    have hrelease : (run.hear (.nodeEnter node)).release = (true, _) := release_of_awaiting hsandbox
    simp only [receive, hrelease]
    simp only [hear]
    cases hmode : run.options.stepMode with
    | instant =>
      refine ⟨_, _, _, .release node rfl, ?_⟩
      simp [hhost, Event.isError]
    | timed delay =>
      refine ⟨_, _, _, .delay node rfl, ?_⟩
      simp [Event.isError]
    | manual =>
      refine ⟨_, _, _, .suspend node rfl, ?_⟩
      simp [hhost, Event.isError]
  | done =>
    refine ⟨_, _, _, .finish, ?_⟩
    rw [receive_done]
    simp [Event.isError]

theorem moves_of_hostStep (hfits : run.Fits phase) (h : run.hostStep? = some (run', change)) : run.Moves (some .host) run' change := by
  have hsteps := hfits.steps
  have hinputs := hfits.inputs
  have hlive : ¬run.cancelled = true := by simp [hfits.live]
  unfold hostStep? at h
  split at h
  · rename_i hhost
    cases h
    exact .listen hhost
  · rename_i hhost
    split at h
    · rename_i event rest hposted
      dsimp only at h
      rw [if_neg hlive] at h
      obtain ⟨host, permits, change', hhandles, heq⟩ :=
        handles_receive { run with posted := rest } hhost event fun hentry => by
          rw [hposted, countP_cons_of_pos hentry] at hsteps
          exact run.sandbox.awaiting_of_wanted (by omega)
      rw [heq] at h
      cases h
      exact .hear hhost hposted hhandles
    · rename_i hposted
      split at h
      · rename_i hstopped
        cases h
        refine .lose hhost hposted ?_
        unfold hasStopped at hstopped
        split at hstopped
        · assumption
        · cases hstopped
      · cases h
  · rename_i text hhost
    rw [hhost] at hinputs
    simp only [HostTask.inputsHeld] at hinputs
    obtain ⟨resume, hsandbox⟩ := run.sandbox.asking_of_wanted (by omega)
    rw [if_neg hlive, supply_of_awaiting hsandbox] at h
    cases h
    exact .reply hhost
  all_goals cases h

theorem moves_of_timerStep (hfits : run.Fits phase) (h : run.timerStep? = some run') : run.Moves (some .timer) run' none := by
  unfold timerStep? at h
  split at h
  · rename_i hhost
    have hsteps := hfits.steps
    rw [hhost] at hsteps
    simp only [HostTask.stepsHeld] at hsteps
    obtain ⟨resume, hsandbox⟩ := run.sandbox.awaiting_of_wanted (by omega)
    rw [release_of_awaiting hsandbox] at h
    cases h
    exact .wake hhost
  · cases h

theorem moves_of_step [Generator] {task : Task} (hfits : run.Fits phase)
    (h : run.step? bound task = some (run', change)) : run.Moves (some task) run' change := by
  cases task with
  | host => exact moves_of_hostStep hfits h
  | sandbox =>
    obtain ⟨_, hrun, ⟨⟩⟩ := Option.map_eq_some_iff.mp h
    exact moves_of_sandboxStep hfits hrun
  | timer =>
    obtain ⟨_, hrun, ⟨⟩⟩ := Option.map_eq_some_iff.mp h
    exact moves_of_timerStep hfits hrun
  | dropHost | dropSandbox => simp [step?, hfits.live] at h

theorem moves_of_answer {text : String} (h : run.answer? text = some run') : run.Moves none run' none := by
  unfold answer? at h
  split at h
  · rename_i hhost
    cases h
    exact .answer hhost
  · cases h

theorem Phase.eq_of_stepsHeld (h : phase.stepsHeld = 1) : phase = .suspendedOnStep := by
  cases phase with
  | suspendedOnStep => rfl
  | _ => cases h

theorem Fits.progress [Generator] (h : run.Fits phase) (houtcome : run.outcome? = none) (bound : Nat)
    : (∃ task, (run.step? bound task).isSome) ∨ run.host = .prompting
      ∨ run.options.stepMode = .manual ∧ phase = .suspendedOnStep := by
  rw [h.outcome?_eq] at houtcome
  cases hhost : run.host with
  | starting | answered text => exact .inl ⟨.host, by simp [step?, hostStep?, hhost]⟩
  | prompting => exact .inr (.inl rfl)
  | sleeping => exact .inl ⟨.timer, by simp [step?, timerStep?, hhost]⟩
  | finished outcome | aborted => simp [HostTask.outcome?, hhost] at houtcome
  | receiving =>
    cases hposted : run.posted with
    | cons event rest => exact .inl ⟨.host, by simp [step?, hostStep?, hhost, hposted]⟩
    | nil =>
      -- What a sandbox waits for is nowhere else but on its way to the sandbox or in the phase.
      have hsteps := h.steps
      have hinputs := h.inputs
      rw [hhost, hposted] at hsteps hinputs
      cases hsandbox : run.sandbox with
      | loaded source | running dialog => exact .inl ⟨.sandbox, by simp [step?, sandboxStep?, hsandbox]⟩
      | stopped => exact .inl ⟨.host, by simp [step?, hostStep?, hhost, hposted, hasStopped, hsandbox, h.live]⟩
      | awaitingInput resume =>
        cases hread : run.inputs with
        | nil => simp [hsandbox, hread, HostTask.inputsHeld, Sandbox.inputsWanted] at hinputs
        | cons text rest => exact .inl ⟨.sandbox, by simp [step?, sandboxStep?, hsandbox, hread]⟩
      | awaitingStep resume =>
        by_cases hpermits : 0 < run.permits
        · exact .inl ⟨.sandbox, by simp [step?, sandboxStep?, hsandbox, hpermits]⟩
        · have hheld : phase.stepsHeld = 1 := by
            simp only [hsandbox, countP_nil, HostTask.stepsHeld, Sandbox.stepsWanted] at hsteps
            omega
          obtain rfl := Phase.eq_of_stepsHeld hheld
          exact .inr (.inr ⟨h.shows.of_suspendedOnStep.2, rfl⟩)

end Inversion

end Run

end NodeScript
