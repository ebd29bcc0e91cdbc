import NodeScript.Cli.Arguments
import NodeScript.Cli.Process
import NodeScript.Compile
import NodeScript.Run.Executor

/-!
What the commands do.
-/

namespace NodeScript.Cli

open Compile (Diagnostic)
open Run (Event Executor)

def printLine (channel : Channel) (text : String) (next : Unit → Process) : Process :=
  .write channel (text ++ "\n") next

def failWith (message : String) : Process :=
  printLine .err ("\nError: " ++ message) fun _ => .exit 1

def withGraph (input : Input) (next : Graph → Process) : Process :=
  .readFile input.path fun
    | .error reason =>
      failWith ("Failed to read graph file '" ++ input.path ++ "': " ++ reason)
    | .ok source =>
      match Graph.load input.format source with
      | .error e => failWith ("Failed to load graph: " ++ e.message)
      | .ok graph => next graph

def printLines (channel : Channel) (next : Unit → Process) : List String → Process
  | [] => next ()
  | text :: rest => printLine channel text fun _ => printLines channel next rest

def withCode (input : Input) (next : String → Process) : Process :=
  withGraph input fun graph =>
    .readClock fun start =>
      let result := Compile.Job.compile ⟨graph, ⟨input.instrument⟩, {}⟩
      .readClock fun stop =>
        printLine .err ("Compiled in " ++ Nat.repr (stop - start) ++ "ns") fun _ =>
          printLines .err
            (fun _ =>
              if result.diagnostics.contains .missingEntry then
                failWith "The graph has no start node"
              else
                next result.code)
            (result.errors.map ("warning: " ++ ·))

def printEvent (events : Bool) (event : Event) (next : Unit → Process) : Process :=
  if events then
    printLine .out event.toJson.compact next
  else
    match event with
    | .log text => printLine .out text next
    | .error text => printLine .err text next
    | .prompt message => .write .out (message ++ " ") next
    | .nodeEnter _ | .varUpdate _ _ | .done => next ()

def printEvents (events : Bool) (next : Unit → Process) : List Event → Process
  | [] => next ()
  | event :: rest => printEvent events event fun _ => printEvents events next rest

def heard (executor : Executor) : List Event :=
  executor.active.elim [] Run.heard

def drive (events : Bool) : (turns : Nat) → Executor → Process
  | 0, _ => .exit 1
  | turns + 1, executor =>
    match executor.step? Script.defaultBound .host with
    | some next =>
      printEvents events (fun _ => drive events turns next)
        ((heard next).drop (heard executor).length)
    | none =>
      match executor.step? Script.defaultBound .sandbox with
      | some next => drive events turns next
      | none =>
        match executor.active with
        | none => .exit 1
        | some run =>
          match run.host, executor.phase with
          | .finished outcome, _ => .exit (if outcome = .completed then 0 else 1)
          | .prompting, _ =>
            .readLine fun line => drive events turns (executor.answer (line.getD "")).2
          | .sleeping, _ =>
            .pause run.options.stepMode.delay.toNat fun _ =>
              drive events turns ((executor.step? Script.defaultBound .timer).getD executor)
          | _, .suspendedOnStep =>
            .write .err "[step] press Enter to continue" fun _ =>
              .readLine fun _ => drive events turns executor.advance.2
          | _, _ => .exit 1

def Command.process : Command → Process
  | compile input => withCode input fun code => printLine .out code fun _ => .exit 0
  | run input stepDelay events seed =>
    withCode input fun code =>
      match Executor.new.start code { stepMode := .ofDelay stepDelay, seed } true with
      | .error e => failWith e.message
      | .ok executor => drive events Script.defaultBound executor

def process (arguments : List String) : Process :=
  match Command.parse? arguments with
  | some command => command.process
  | none => .write .err usage fun _ => .exit 2

end NodeScript.Cli
