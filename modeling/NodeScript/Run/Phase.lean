/-!
The phases of a run, and how it can end.
-/

namespace NodeScript.Run

inductive Phase where
  | idle | loading | running | suspendedOnInput | suspendedOnStep
  | completed | errored | cancelled
  deriving DecidableEq, Repr

namespace Phase

def isFinished : Phase → Bool
  | completed | errored | cancelled => true
  | _ => false

def name : Phase → String
  | idle => "idle"
  | loading => "loading"
  | running => "running"
  | suspendedOnInput => "suspended-on-input"
  | suspendedOnStep => "suspended-on-step"
  | completed => "completed"
  | errored => "errored"
  | cancelled => "cancelled"

def ofName? : String → Option Phase
  | "idle" => some idle
  | "loading" => some loading
  | "running" => some running
  | "suspended-on-input" => some suspendedOnInput
  | "suspended-on-step" => some suspendedOnStep
  | "completed" => some completed
  | "errored" => some errored
  | "cancelled" => some cancelled
  | _ => none

end Phase

inductive Outcome where
  | completed | errored | cancelled
  deriving DecidableEq, Repr

def Outcome.name : Outcome → String
  | completed => "completed"
  | errored => "errored"
  | cancelled => "cancelled"

end NodeScript.Run
