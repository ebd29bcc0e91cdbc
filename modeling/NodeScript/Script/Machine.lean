import NodeScript.Script.Dialog
import NodeScript.Script.Random
import NodeScript.Script.Scope
import NodeScript.Script.Tree

/-!
The state of a running program, and computations that change it.

`Exec α` is a computation that yields an `α` or fails. A failure keeps the state, so that a program
can be followed by another one. The combinators `descend`, `inScope` and `calling` undo what they
did to the state, whether what they enclose yields or fails.
-/

namespace NodeScript.Script

def maxDescent : Nat := 1000

def defaultMaxCalls : Nat := 64

structure Machine where
  env : Env
  functions : List (String × Function)
  random : Random
  calls : Nat
  maxCalls : Nat
  descent : Nat

def Machine.start [Generator] (seed : Option Nat) (maxCalls : Nat) : Machine where
  env := .empty
  functions := []
  random := .ofSeed seed
  calls := 0
  maxCalls := maxCalls
  descent := 0

def Machine.function? (m : Machine) (name : String) : Option Function :=
  m.functions.lookup name

def Machine.define (m : Machine) (name : String) (function : Function) : Machine :=
  { m with functions := (name, function) :: m.functions }

def Machine.defineAll (m : Machine) (functions : List (String × Function)) : Machine :=
  functions.foldl (fun m (name, function) => m.define name function) m

def Exec (α : Type) : Type :=
  Machine → Dialog (Except RuntimeError α × Machine)

namespace Exec

variable {α β : Type}

instance : Monad Exec where
  pure a := fun m => .done (.ok a, m)
  bind x f := fun m => (x m).bind fun
    | (.ok a, m) => f a m
    | (.error e, m) => .done (.error e, m)

def fail (e : RuntimeError) : Exec α :=
  fun m => .done (.error e, m)

def exhausted : Exec α :=
  fun _ => .exhausted

def ofExcept : Except RuntimeError α → Exec α
  | .ok a => pure a
  | .error e => fail e

def get : Exec Machine :=
  fun m => .done (.ok m, m)

def modify (f : Machine → Machine) : Exec Unit :=
  fun m => .done (.ok (), f m)

def ask (request : Request) : Exec String :=
  fun m => .ask request fun
    | .answer text => .done (.ok text, m)
    | .disconnected => .done (.error .disconnected, m)

/-- Runs `x` and then changes the state, whatever came of `x`. -/
def closing (x : Exec α) (f : Machine → Machine) : Exec α :=
  fun m => (x m).bind fun (result, m) => .done (result, f m)

def descend (x : Exec α) : Exec α := fun m =>
  if maxDescent ≤ m.descent then
    .done (.error .stackOverflow, m)
  else
    x.closing (fun m => { m with descent := m.descent - 1 }) { m with descent := m.descent + 1 }

def inScope (x : Exec α) : Exec α := fun m =>
  x.closing (fun m => { m with env := m.env.pop }) { m with env := m.env.push }

/-- Runs `x` as the body of a function: it sees the scope of the program and its parameters, but no
local scope of its caller. -/
def calling (params : List String) (args : List Value) (x : Exec α) : Exec α := fun m =>
  if m.maxCalls ≤ m.calls then
    .done (.error .stackOverflow, m)
  else
    match Scope.ofParams {} params args with
    | .error e => .done (.error e, m)
    | .ok scope =>
      x.closing (fun after => { after with
          env := { after.env with locals := m.env.locals }
          calls := after.calls - 1 })
        { m with env := { m.env with locals := [scope] }, calls := m.calls + 1 }

/-! ### Variables -/

def lookup? (name : String) : Exec (Option Value) := do
  return (← get).env.get? name

def lookup (name : String) : Exec Value := do
  match ← lookup? name with
  | some value => return value
  | none => fail (.undefinedName name)

def declare (name : String) (value : Value) : Exec Unit := do
  let env ← ofExcept ((← get).env.declare name value)
  modify fun m => { m with env }

def assign (name : String) (value : Value) : Exec Unit :=
  modify fun m => { m with env := m.env.assign name value }

end Exec

end NodeScript.Script
