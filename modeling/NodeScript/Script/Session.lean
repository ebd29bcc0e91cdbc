import NodeScript.Script.Eval

/-!
Sessions: several sources run one after the other on one machine, with a host whose answers are
known beforehand.
-/

namespace NodeScript.Script

/-- A host that gives these answers to prompts and empty ones after them. With a budget it is there
for so many requests only. -/
structure Host where
  answers : List String
  budget : Option Nat
  deriving DecidableEq, Repr

namespace Host

def reply (host : Host) (request : Request) : Reply × Host :=
  if host.budget = some 0 then
    (.disconnected, host)
  else
    let host := { host with budget := host.budget.map (· - 1) }
    match request with
    | .prompt _ =>
      (.answer (host.answers.head?.getD ""), { host with answers := host.answers.tail })
    | _ => (.answer "", host)

def hears (host : Host) : Bool :=
  host.budget ≠ some 0

end Host

structure Transcript (α : Type) where
  requests : List Request
  result : Option α
  host : Host

def Dialog.play {α : Type} (host : Host) : Dialog α → Transcript α
  | done result => ⟨[], some result, host⟩
  | exhausted => ⟨[], none, host⟩
  | ask request resume =>
    let (reply, after) := host.reply request
    let rest := (resume reply).play after
    if host.hears then { rest with requests := request :: rest.requests } else rest

def defaultBound : Nat := 1000000000000

structure Session where
  machine : Machine
  host : Host

structure Report where
  requests : List Request
  outcome : Option (Except RuntimeError Unit)

def Session.feed (bound : Nat) (session : Session) (source : String) : Report × Session :=
  let transcript := (Exec.runSource bound source session.machine).play session.host
  match transcript.result with
  | some (outcome, machine) =>
    (⟨transcript.requests, some outcome⟩, ⟨machine, transcript.host⟩)
  | none => (⟨transcript.requests, none⟩, { session with host := transcript.host })

def Session.feedAll (bound : Nat) (session : Session) : List String → List Report
  | [] => []
  | source :: rest =>
    let (report, session) := session.feed bound source
    report :: session.feedAll bound rest

end NodeScript.Script
