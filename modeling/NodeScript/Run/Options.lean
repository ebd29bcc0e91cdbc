import NodeScript.Json.Decode
import NodeScript.Script.Machine

/-!
How a program is to be run.
-/

namespace NodeScript.Run

inductive StepMode where
  | instant
  | timed (delay : Nat)
  | manual
  deriving DecidableEq, Repr

namespace StepMode

def ofDelay (delay : Int) : StepMode :=
  if delay = 0 then instant else if 0 < delay then timed delay.toNat else manual

def delay : StepMode → Int
  | instant => 0
  | timed delay => delay
  | manual => -1

end StepMode

structure Options where
  stepMode : StepMode := .instant
  seed : Option Nat := none
  maxCalls : Nat := Script.defaultMaxCalls
  deriving DecidableEq, Repr

namespace Options

def ofJson? (j : Json) : Option Options := do
  let record ← j.record? [⟨"stepDelay", []⟩, ⟨"seed", []⟩, ⟨"maxCallDepth", []⟩]
  let delay ← record.optional? "stepDelay" 0
    (Json.intBetween? Word.leastSigned Word.greatestSigned)
  let seed ← record.optional? "seed" none (Json.option? Json.word?)
  let maxCalls ← record.optional? "maxCallDepth" Script.defaultMaxCalls Json.word?
  return { stepMode := .ofDelay delay, seed, maxCalls }

def toJson (options : Options) : Json :=
  .obj [("stepDelay", .int options.stepMode.delay),
    ("seed", options.seed.elim .null fun seed => .int seed),
    ("maxCallDepth", .int options.maxCalls)]

end Options

end NodeScript.Run
