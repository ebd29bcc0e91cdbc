import NodeScript.Script.Eval

/-!
What the interpreter does at a name and at a round of a loop, as equations.
-/

namespace NodeScript.Script

theorem Machine.defineAll_eq (m : Machine) (functions : List (String × Function))
    : m.defineAll functions = { m with functions := functions.reverse ++ m.functions } := by
  induction functions generalizing m with
  | nil => rfl
  | cons function rest ih =>
    rw [Machine.defineAll, List.foldl_cons, ← Machine.defineAll, ih, List.reverse_cons, List.append_assoc]
    rfl

namespace Exec

variable {m : Machine} {name : String} {value : Value}

theorem get_bind {α : Type} (f : Machine → Exec α) (m : Machine) : (get >>= f) m = f m m :=
  rfl

theorem lookup?_bind {α : Type} (name : String) (f : Option Value → Exec α) (m : Machine)
    : (lookup? name >>= f) m = f (m.env.get? name) m :=
  rfl

theorem lookup_of_some (h : m.env.get? name = some value) : lookup name m = .done (.ok value, m) := by
  rw [lookup, lookup?_bind, h]
  rfl

theorem lookup_of_none (h : m.env.get? name = none) : lookup name m = .done (.error (.undefinedName name), m) := by
  rw [lookup, lookup?_bind, h]
  rfl

theorem identifier_of_some (h : m.env.get? name = some value) : identifier name m = .done (.ok value, m) := by
  rw [identifier, lookup?_bind, h]
  rfl

theorem identifier_of_none (h : m.env.get? name = none) : identifier name m = constant name m := by
  rw [identifier, lookup?_bind, h]

theorem call_of_none (h : m.function? name = none) (bound : Nat) (args : List Value)
    : call (bound + 1) (.identifier name) args m = builtinCall name args m := by
  rw [call, get_bind, h]

def afterStatement (rest : Exec Flow) : Flow → Exec Flow
  | .normal => rest
  | flow => return flow

theorem execAll_cons_eq (bound : Nat) (stmt : Stmt) (rest : List Stmt)
    : execAll (bound + 1) (stmt :: rest) = exec bound stmt >>= afterStatement (execAll bound rest) := by
  rw [execAll]
  exact congrArg (Bind.bind _) (funext fun flow => by cases flow <;> rfl)

def holds (bound : Nat) : Option Expr → Exec Bool
  | some cond => Value.isTruthy <$> eval bound cond
  | none => return true

def afterRound (again : Exec Flow) : Flow → Exec Flow
  | .broke => return .normal
  | .returned value => return .returned value
  | .normal | .continued => again

theorem execLoop_eq (bound : Nat) (cond : Option Expr) (update : Option Stmt) (body : List Stmt)
    : execLoop (bound + 1) cond update body = do
        if ← holds bound cond then
          inScope (execAll bound body) >>= afterRound do
            execOption bound update
            execLoop bound cond update body
        else
          return .normal := by
  cases cond
  all_goals
    rw [execLoop]
    refine congrArg (Bind.bind _) (funext fun test => ?_)
    cases test with
    | false => rfl
    | true => exact congrArg (Bind.bind _) (funext fun flow => by cases flow <;> rfl)

end Exec

end NodeScript.Script
