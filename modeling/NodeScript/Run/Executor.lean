import NodeScript.Run.Event
import NodeScript.Run.Options
import NodeScript.Run.Phase
import NodeScript.Script.Session

/-!
Runs of programs under the control of a host.

A run has two tasks. The sandbox runs the program and posts events. The host task takes the events
in order, passes them on, and lets the sandbox go on where it waits. The tasks take turns in any
order; `Run.step?` is one turn of one task, from one place where it may wait to the next. An executor
has at most one active run, and what it publishes is the phase of that run. The tasks of a run that
was cancelled are dropped sooner or later. Until then they take turns like others, and it is by looking
at the flag that they keep silent.
-/

namespace NodeScript

open Script (Dialog Exec Generator Machine Reply Request RuntimeError)

namespace Run

abbrev Verdict := Except RuntimeError Unit

inductive Sandbox where
  | loaded (source : String)
  | running (dialog : Dialog Verdict)
  | awaitingStep (resume : Reply → Dialog Verdict)
  | awaitingInput (resume : Reply → Dialog Verdict)
  | stopped

/-- Only prompts and steps are waited for. -/
def Sandbox.after (request : Request) (resume : Reply → Dialog Verdict) : Sandbox :=
  match request with
  | .prompt _ => awaitingInput resume
  | .enter _ => awaitingStep resume
  | .log _ | .update _ _ => running (resume (.answer ""))

inductive HostTask where
  | starting
  | receiving
  | prompting
  | answered (text : String)
  | sleeping
  | finished (outcome : Outcome)
  | aborted
  deriving DecidableEq, Repr

def HostTask.outcome? : HostTask → Option Outcome
  | finished outcome => some outcome
  | aborted => some .cancelled
  | _ => none

def HostTask.isOver (host : HostTask) : Bool :=
  host.outcome?.isSome

end Run

structure Run where
  options : Run.Options
  sandbox : Run.Sandbox
  host : Run.HostTask
  posted : List Run.Event
  permits : Nat
  inputs : List String
  heard : List Run.Event
  errored : Bool
  cancelled : Bool

namespace Run

def start (source : String) (options : Options) : Run where
  options := options
  sandbox := .loaded source
  host := .starting
  posted := []
  permits := 0
  inputs := []
  heard := []
  errored := false
  cancelled := false

/-- What the run comes to. That is settled when it is cancelled, even if its tasks go on. -/
def outcome? (run : Run) : Option Outcome :=
  run.host.outcome?.or (if run.cancelled then some .cancelled else none)

def hasStopped (run : Run) : Bool :=
  match run.sandbox with
  | .stopped => true
  | _ => false

def hear (run : Run) (event : Event) : Run :=
  { run with heard := run.heard ++ [event] }

/-! ### The sandbox -/

def dialog [Generator] (bound : Nat) (source : String) (options : Options) : Dialog Verdict :=
  (Exec.runSource bound source (Machine.start options.seed options.maxCalls)).bind
    fun (verdict, _) => .done verdict

/-- Events that nobody receives any more get lost. -/
def send (run : Run) (event : Event) : Run :=
  if run.host.isOver then run else { run with posted := run.posted ++ [event] }

def post? (run : Run) (event : Event) : Option Run :=
  if run.cancelled || run.host.isOver then none else some (run.send event)

/-- A program that is over reports its error, if there is one, and that it is done. One that was
given up reports nothing. -/
def conclude (run : Run) (verdict : Verdict) : Run :=
  let run := { run with sandbox := .stopped }
  if run.cancelled then
    run
  else
    match verdict with
    | .ok () => run.send .done
    | .error .disconnected => run
    | .error e => (run.send (.error e.message)).send .done

def advanceDialog (run : Run) : Dialog Verdict → Run
  | .done verdict => run.conclude verdict
  | .exhausted => { run with sandbox := .stopped }
  | .ask request resume =>
    match run.post? (.ofRequest request) with
    | none => { run with sandbox := .running (resume .disconnected) }
    | some run => { run with sandbox := .after request resume }

/-- A turn of the sandbox, unless it waits or has stopped. It waits in vain where nobody is left who
could send what it waits for: inputs come from the host task, and steps from the executor too. -/
def sandboxStep? [Generator] (bound : Nat) (run : Run) : Option Run :=
  match run.sandbox with
  | .loaded source => some (run.advanceDialog (dialog bound source run.options))
  | .running dialog => some (run.advanceDialog dialog)
  | .awaitingStep resume =>
    if 0 < run.permits then
      some { run with permits := run.permits - 1, sandbox := .running (resume (.answer "")) }
    else if run.cancelled && run.host.isOver then
      some { run with sandbox := .running (resume .disconnected) }
    else
      none
  | .awaitingInput resume =>
    match run.inputs with
    | text :: rest => some { run with inputs := rest, sandbox := .running (resume (.answer text)) }
    | [] =>
      if run.host.isOver then some { run with sandbox := .running (resume .disconnected) } else none
  | .stopped => none

/-! ### The host task -/

def complete (run : Run) (errored : Bool) : Run × Phase :=
  let (outcome, phase) : Outcome × Phase :=
    if errored then (.errored, .errored) else (.completed, .completed)
  ({ run.hear .done with host := .finished outcome }, phase)

def giveUp (run : Run) : Run × Option Phase :=
  ({ run with host := .finished .cancelled }, none)

/-- Permits the sandbox a step, unless it is gone. -/
def release (run : Run) : Bool × Run :=
  if run.hasStopped then (false, run) else (true, { run with permits := run.permits + 1 })

def supply (run : Run) (text : String) : Run :=
  if run.hasStopped then run else { run with inputs := run.inputs ++ [text] }

/-- Passes an event on. The phase is the one to be published then, if it changes. -/
def receive (run : Run) : Event → Run × Option Phase
  | .log text => (run.hear (.log text), none)
  | .error text => ({ run.hear (.error text) with errored := true }, none)
  | .prompt message =>
    ({ run.hear (.prompt message) with host := .prompting }, some .suspendedOnInput)
  | .nodeEnter node =>
    let run := run.hear (.nodeEnter node)
    match run.options.stepMode with
    | .instant => (run.release.2, none)
    | .timed _ => ({ run with host := .sleeping }, none)
    | .manual => (run, some .suspendedOnStep)
  | .varUpdate name value => (run.hear (.varUpdate name value), none)
  | .done =>
    let (run, phase) := run.complete run.errored
    (run, some phase)

/-- A turn of the host task, unless it waits or has finished. A sandbox that stops without a word is
an error too. -/
def hostStep? (run : Run) : Option (Run × Option Phase) :=
  match run.host with
  | .starting => some ({ run with host := .receiving }, some .running)
  | .receiving =>
    match run.posted with
    | event :: rest =>
      let run := { run with posted := rest }
      some (if run.cancelled then run.giveUp else run.receive event)
    | [] =>
      if run.hasStopped then
        if run.cancelled then
          some run.giveUp
        else
          let run := run.hear (.error "Execution context terminated unexpectedly")
          let (run, phase) := run.complete true
          some (run, some phase)
      else
        none
  | .answered text =>
    some <|
      if run.cancelled then run.giveUp
      else ({ run.supply text with host := .receiving }, some .running)
  | .prompting | .sleeping | .finished _ | .aborted => none

def timerStep? (run : Run) : Option Run :=
  match run.host with
  | .sleeping => some { run.release.2 with host := .receiving }
  | _ => none

def answer? (run : Run) (text : String) : Option Run :=
  match run.host with
  | .prompting => some { run with host := .answered text }
  | _ => none

/-! ### Turns -/

inductive Task where
  | host | sandbox | timer
  /-- A task of a run that was cancelled is dropped where it waits. -/
  | dropHost | dropSandbox
  deriving DecidableEq, Repr

/-- A turn of a task. The phase is the one to be published then, if it changes. -/
def step? [Generator] (bound : Nat) (run : Run) : Task → Option (Run × Option Phase)
  | .host => run.hostStep?
  | .sandbox => (run.sandboxStep? bound).map (·, none)
  | .timer => run.timerStep?.map (·, none)
  | .dropHost =>
    if run.cancelled && !run.host.isOver then some ({ run with host := .aborted }, none) else none
  | .dropSandbox =>
    if run.cancelled && !run.hasStopped then some ({ run with sandbox := .stopped }, none) else none

/-- The published phase after a turn of the run. -/
def publish (run : Run) (current : Phase) (change : Option Phase) : Phase :=
  if run.cancelled then current else change.getD current

structure Executor where
  phase : Phase
  past : List Run
  active : Option Run

inductive StartError where
  /-- There is nothing that could run the host task. -/
  | noRuntime
  deriving DecidableEq, Repr

def StartError.message : StartError → String
  | noRuntime => "Executor::start must be called from within a Tokio runtime"

namespace Executor

def new : Executor where
  phase := .idle
  past := []
  active := none

def runs (executor : Executor) : List Run :=
  executor.past ++ executor.active.toList

/-- Cancels the active run. The phase of one that had already finished stays published. -/
def cancel (executor : Executor) : Executor :=
  match executor.active with
  | none => executor
  | some run =>
    { phase := if run.host.isOver then executor.phase else .cancelled
      past := executor.past ++ [{ run with cancelled := true }]
      active := none }

def start (executor : Executor) (source : String) (options : Options) (hasRuntime : Bool) :
    Except StartError Executor :=
  if hasRuntime then
    .ok { executor.cancel with phase := .loading, active := some (.start source options) }
  else
    .error .noRuntime

def advance (executor : Executor) : Bool × Executor :=
  match executor.active with
  | some run =>
    if run.options.stepMode = .manual ∧ executor.phase = .suspendedOnStep then
      let (released, run) := run.release
      (released, { executor with phase := .running, active := some run })
    else
      (false, executor)
  | none => (false, executor)

def answer (executor : Executor) (text : String) : Bool × Executor :=
  match executor.active.bind fun run => run.answer? text with
  | some run => (true, { executor with active := some run })
  | none => (false, executor)

def step? [Generator] (bound : Nat) (executor : Executor) (task : Task) : Option Executor := do
  let run ← executor.active
  let (run, change) ← run.step? bound task
  return { executor with active := some run, phase := run.publish executor.phase change }

def settle [Generator] (bound : Nat) : (turns : Nat) → Executor → Executor
  | 0, executor => executor
  | turns + 1, executor =>
    match [Task.host, .sandbox, .timer].findSome? (executor.step? bound) with
    | some executor => settle bound turns executor
    | none => executor

def finish [Generator] (bound : Nat) : (turns : Nat) → List String → Executor → Executor
  | 0, _, executor => executor
  | turns + 1, answers, executor =>
    let executor := executor.settle bound bound
    match executor.answer (answers.head?.getD "") with
    | (true, executor) => finish bound turns answers.tail executor
    | (false, executor) =>
      match executor.advance with
      | (true, executor) => finish bound turns answers executor
      | (false, executor) => executor

end Executor

end Run

end NodeScript
