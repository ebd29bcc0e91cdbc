import NodeScript.Script.Builtin
import NodeScript.Script.Grammar
import NodeScript.Script.Machine
import NodeScript.Script.Value.Elements
import NodeScript.Script.Value.Operators

/-!
Running programs.

Loops need not end, so every function here has a bound on how many others it may stand inside of and
how often a loop may go round. A run that reaches it is `exhausted`, which is neither a value nor a
failure.
-/

namespace NodeScript.Script

inductive Flow where
  | normal
  | broke
  | continued
  | returned (value : Value)
  deriving Repr

def Flow.result : Flow → Value
  | returned value => value
  | _ => .undefined

namespace Exec

def constant (name : String) : Exec Value :=
  match name with
  | "NaN" => return .number (0.0 / 0.0)
  | "Infinity" => return .number (1.0 / 0.0)
  | _ => fail (.undefinedName name)

def identifier (name : String) : Exec Value := do
  match ← lookup? name with
  | some value => return value
  | none => constant name

def isMath (holder : Expr) : Exec Bool :=
  match holder with
  | .identifier "Math" => return (← lookup? "Math").isNone
  | _ => return false

def mathConstant (property : String) : Exec Value :=
  match Builtin.constant? property with
  | some x => return .number x
  | none => fail (.unsupportedMember "Math" property)

def mathCall (name : String) (args : List Value) : Exec Value := do
  match Builtin.math? name args (← get).random with
  | some (x, random) =>
    modify fun m => { m with random }
    return .number x
  | none => fail (.notAFunction ("Math." ++ name))

def store (target : Target) (position : Value) (op : AssignOp) (value : Value) : Exec Unit :=
  match target with
  | .variable name =>
    if op.reads then do
      let current ← lookup name
      assign name (op.apply current value)
    else
      assign name value
  | .element name _ => do
    let holder ← lookup name
    let updated ← ofExcept (holder.updateElement position name (op.apply · value))
    assign name updated

def methodCall (name : String) (method : Value.Method) (args : List Value) : Exec Value := do
  let holder ← lookup name
  let (updated, result) ← ofExcept (method.call name holder args)
  assign name updated
  return result

def builtinCall (name : String) (args : List Value) : Exec Value := do
  if (← lookup? name).isSome then
    fail (.notAFunction name)
  else
    match name, args with
    | "prompt", _ => return .str (← ask (.prompt (args.head?.elim "" Value.text)))
    | "__onNode", _ =>
      let _ ← ask (.enter (args.head?.elim "" Value.text))
      return .undefined
    | "__onVar", _ =>
      let _ ← ask (.update (args.head?.elim "" Value.text) (args[1]?.getD .undefined))
      return .undefined
    | _, _ =>
      match Builtin.convert? name args with
      | some value => return value
      | none => fail (.undefinedName name)

mutual

def eval : (bound : Nat) → Expr → Exec Value
  | 0, _ => exhausted
  | bound + 1, expr => descend <|
    match expr with
    | .number x => return .number x
    | .str s => return .str s
    | .bool b => return .bool b
    | .undefined => return .undefined
    | .null => return .null
    | .identifier name => identifier name
    | .array items => return .array (← evalItems bound items)
    | .object fields => return .object (← evalFields bound fields)
    | .unary op operand => return op.apply (← eval bound operand)
    | .binary op left right => do
      let left ← eval bound left
      let right ← eval bound right
      return op.apply left right
    | .logical op left right => do
      let left ← eval bound left
      match op, left.isTruthy with
      | .and, false | .or, true => return left
      | _, _ => eval bound right
    | .member holder property => do
      if ← isMath holder then
        mathConstant property
      else
        let holder ← eval bound holder
        ofExcept (holder.readProperty property)
    | .index holder position => do
      let holder ← eval bound holder
      let position ← eval bound position
      ofExcept (holder.readElement position)
    | .call callee arguments => do
      let args ← evalItems bound arguments
      call bound callee args
    | .await operand => eval bound operand

def evalItems : (bound : Nat) → List Expr → Exec (List Value)
  | 0, _ => exhausted
  | _, [] => return []
  | bound + 1, item :: rest => do
    let value ← eval bound item
    return value :: (← evalItems bound rest)

def evalFields : (bound : Nat) → List (String × Expr) → Exec (List (String × Value))
  | 0, _ => exhausted
  | _, [] => return []
  | bound + 1, (name, field) :: rest => do
    let value ← eval bound field
    return (name, value) :: (← evalFields bound rest)

def call : (bound : Nat) → Expr → List Value → Exec Value
  | 0, _, _ => exhausted
  | bound + 1, callee, args =>
    match callee with
    | .identifier name => do
      match (← get).function? name with
      | some function => callFunction bound function args
      | none => builtinCall name args
    | .member (.identifier "console") "log" => do
      let _ ← ask (.log (" ".intercalate (args.map Value.text)))
      return .undefined
    | .member holder property => do
      if ← isMath holder then
        mathCall property args
      else
        match Value.Method.ofName? property, holder with
        | some method, .identifier name => methodCall name method args
        | some method, holder =>
          -- The method changes a value that nobody keeps.
          let value ← eval bound holder
          let (_, result) ← ofExcept (method.call holder.describe value args)
          return result
        | none, _ => fail (.notAFunction callee.describe)
    | callee => fail (.notAFunction callee.describe)

def callFunction : (bound : Nat) → Function → List Value → Exec Value
  | 0, _, _ => exhausted
  | bound + 1, function, args =>
    calling function.params args do
      return (← execAll bound function.body).result

def exec : (bound : Nat) → Stmt → Exec Flow
  | 0, _ => exhausted
  | bound + 1, stmt => descend <|
    match stmt with
    | .declare name value => do
      declare name (← evalOption bound value)
      return .normal
    | .assign target op value => do
      let value ← eval bound value
      let position ← match target with
        | .variable _ => pure .undefined
        | .element _ position => eval bound position
      store target position op value
      return .normal
    | .expr value => do
      let _ ← eval bound value
      return .normal
    | .ifElse condition thenBody elseBody => do
      let test ← eval bound condition
      if test.isTruthy then
        inScope (execAll bound thenBody)
      else
        match elseBody with
        | some elseBody => inScope (execAll bound elseBody)
        | none => return .normal
    | .whileLoop condition body => execLoop bound (some condition) none body
    | .forLoop init condition update body => inScope do
      execOption bound init
      execLoop bound condition update body
    | .breakLoop => return .broke
    | .continueLoop => return .continued
    | .returnValue value => return .returned (← evalOption bound value)
    | .block body => inScope (execAll bound body)
    | .function name params body => do
      modify fun m => m.define name ⟨params, body⟩
      return .normal

def evalOption : (bound : Nat) → Option Expr → Exec Value
  | 0, _ => exhausted
  | _, none => return .undefined
  | bound + 1, some expr => eval bound expr

def execOption : (bound : Nat) → Option Stmt → Exec Unit
  | 0, _ => exhausted
  | _, none => return ()
  | bound + 1, some stmt => do
    let _ ← exec bound stmt
    return ()

def execAll : (bound : Nat) → List Stmt → Exec Flow
  | 0, _ => exhausted
  | _, [] => return .normal
  | bound + 1, stmt :: rest => do
    match ← exec bound stmt with
    | .normal => execAll bound rest
    | flow => return flow

def execLoop : (bound : Nat) → Option Expr → Option Stmt → List Stmt → Exec Flow
  | 0, _, _, _ => exhausted
  | bound + 1, condition, update, body => do
    let holds ← match condition with
      | some condition => Value.isTruthy <$> eval bound condition
      | none => pure true
    if holds then
      match ← inScope (execAll bound body) with
      | .broke => return .normal
      | .returned value => return .returned value
      | .normal | .continued =>
        execOption bound update
        execLoop bound condition update body
    else
      return .normal

end

def run (bound : Nat) (program : Program) : Exec Unit := do
  modify fun m => m.defineAll program.functions
  match ← execAll bound program.body with
  | .normal | .returned _ => return ()
  | .broke => fail .illegalBreak
  | .continued => fail .illegalContinue

def runSource (bound : Nat) (source : String) : Exec Unit := do
  match Program.parse source with
  | .ok program => run bound program
  | .error e => fail (.malformed e)

end Exec

end NodeScript.Script
