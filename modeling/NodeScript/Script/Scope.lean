import NodeScript.Script.RuntimeError
import NodeScript.Script.Value

/-!
Variables of a running program, in nested scopes.
-/

namespace NodeScript.Script

abbrev Scope := Table Value

namespace Scope

def declare (scope : Scope) (name : String) (value : Value) : Except RuntimeError Scope :=
  if scope.contains name then .error (.redeclared name) else .ok (scope.insert name value)

/-- The scope in which a function starts: its parameters. Missing arguments are undefined, and
superfluous ones are ignored. -/
def ofParams (scope : Scope) : List String → List Value → Except RuntimeError Scope
  | [], _ => .ok scope
  | param :: params, args => do
    let scope ← scope.declare param (args.head?.getD .undefined)
    ofParams scope params args.tail

end Scope

structure Env where
  globals : Scope
  locals : List Scope
  deriving Repr

namespace Env

def empty : Env := ⟨{}, []⟩

def push (env : Env) : Env :=
  { env with locals := {} :: env.locals }

def pop (env : Env) : Env :=
  { env with locals := env.locals.tail }

def get? (env : Env) (name : String) : Option Value :=
  (env.locals.findSome? fun scope => scope.get? name).or (env.globals.get? name)

def declare (env : Env) (name : String) (value : Value) : Except RuntimeError Env :=
  match env.locals with
  | [] => (fun globals => { env with globals }) <$> env.globals.declare name value
  | scope :: rest =>
    (fun scope => { env with locals := scope :: rest }) <$> scope.declare name value

def updateLocals (name : String) (value : Value) : List Scope → List Scope
  | [] => []
  | scope :: rest =>
    if scope.contains name then scope.insert name value :: rest
    else scope :: updateLocals name value rest

/-- Changes the nearest variable of the name. Where there is none the program gets a new one. -/
def assign (env : Env) (name : String) (value : Value) : Env :=
  if env.locals.any fun scope => scope.contains name then
    { env with locals := updateLocals name value env.locals }
  else
    { env with globals := env.globals.insert name value }

end Env

end NodeScript.Script
