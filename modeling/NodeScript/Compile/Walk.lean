import NodeScript.Compile.Tour

/-!
From tours to statements: a walk along a tour writes down a statement for each node it comes to.
-/

namespace NodeScript.Compile

namespace Build

def declare (name : String) : Build Bool := do
  let fresh := !(← get).declared.contains name
  if fresh then
    modify fun s => { s with declared := name :: s.declared }
  return fresh

def temporary (routine : Routine) (base : String) : Build String := do
  let candidate (n : Nat) : String := base ++ "_" ++ Nat.repr n
  let taken := routine.functions.taken
  let n := firstFree taken candidate (taken.length + 1) (← get).nextTemporary
  modify fun s => { s with nextTemporary := n + 1 }
  return candidate n

def bindTemporary (output : Endpoint) (code : Code) : Build Unit :=
  modify fun s => { s with temporaries := (output, code) :: s.temporaries, memo := [] }

def enter (routine : Routine) (node : Node) : List Item :=
  if routine.instrument then [.line (.enter node.id)] else []

def notify (routine : Routine) (name : String) : List Item :=
  if routine.instrument then [.line (.notify name)] else []

def inputs (routine : Routine) (node : Node) (ports : List Port) : Build (List Code) :=
  ports.mapM fun port => input routine node port.id port.dataType.fallback

/-- A return ends a function; elsewhere it only ends a path. -/
def returnItems (routine : Routine) (node : Node) : Build (List Item) := do
  match routine.signature with
  | none => return []
  | some signature =>
    let values ← inputs routine node signature.function.returns
    let line : Line := match values with
      | [] => .returnNothing
      | [value] => .returnValue value
      | values => .returnRecord (signature.returns.zip values)
    return enter routine node ++ [.line line]

def bindResults (node : Node) (result : String) (signature : Signature) : Build Unit :=
  match signature.function.returns with
  | [] => return ()
  | [port] => bindTemporary ⟨node.id, port.id⟩ (.ident result)
  | ports => (ports.zip signature.returns).forM fun (port, field) =>
    bindTemporary ⟨node.id, port.id⟩ (.member result field)

def callItems (routine : Routine) (node : Node) : Build (List Item) := do
  let id := node.data.functionId.getD ""
  match routine.functions.get? id with
  | none =>
    report (.unknownFunction node.id id)
    return enter routine node ++ [.line (.unknownFunction id)]
  | some signature =>
    let arguments ← inputs routine node signature.function.params
    if signature.function.returns.isEmpty then
      return enter routine node ++ [.line (.call none signature.name arguments)]
    else
      let result ← temporary routine "__ret"
      bindResults node result signature
      return enter routine node ++ [.line (.call (some result) signature.name arguments)]

def message (routine : Routine) (node : Node) : Build Code :=
  match routine.wiring.source? node.id "prompt" with
  | some _ => input routine node "prompt" "\"\""
  | none => return .quoted (node.data.prompt.getD "")

def passItems (routine : Routine) (node : Node) : Build (List Item) :=
  let before := enter routine node
  match routine.kindOf node with
  | .input => do
    let name := variableOf node "_input"
    let message ← message routine node
    let fresh ← declare name
    return before ++ [.line (.ask fresh name message)] ++ notify routine name
  | .output => do
    let value ← input routine node "value" "0"
    return before ++ [.line (.print value)]
  | .set => do
    let name := variableOf node "_var"
    let value ← input routine node "value" "0"
    let fresh ← declare name
    return before ++ [.line (.assign fresh name value)] ++ notify routine name
  | .arrayCreate => do
    let name := variableOf node "_arr"
    let fresh ← declare name
    return before ++ [.line (.assign fresh name (.raw "[]"))] ++ notify routine name
  | .arrayPush => do
    let name := variableOf node "_arr"
    let value ← input routine node "value" "0"
    return before ++ [.line (.push name value)] ++ notify routine name
  | .arrayPop => do
    let name := variableOf node "_arr"
    let result ← temporary routine "__pop"
    bindTemporary ⟨node.id, "value"⟩ (.ident result)
    return before ++ [.line (.pop result name)] ++ notify routine name
  | .arraySet => do
    let name := variableOf node "_arr"
    let index ← input routine node "index" "0"
    let value ← input routine node "value" "0"
    return before ++ [.line (.store name index value)] ++ notify routine name
  | .callFunction => callItems routine node
  | _ => return []

def lastItems (routine : Routine) (node : Node) : Build (List Item) :=
  let before := enter routine node
  match routine.kindOf node with
  | .stop => return before
  | .breakLoop => return before ++ [.line .breakLoop]
  | .continueLoop => return before ++ [.line .continueLoop]
  | .functionReturn => returnItems routine node
  | _ => return []

def loopHead (routine : Routine) (node : Node) : Build (List Item → Item) :=
  let before := enter routine node
  match routine.kindOf node with
  | .forLoop => do
    let name := variableOf node "i"
    let start ← input routine node "from" "0"
    let limit ← input routine node "to" "10"
    let step ← input routine node "step" "1"
    let _ ← declare name
    return fun body => .forLoop name start limit step (before ++ notify routine name ++ body)
  | _ => do
    let condition ← input routine node "condition" "false"
    return fun body => .whileLoop condition (before ++ body)

def walk (routine : Routine) : Tour → Build (List Item)
  | .stop => return []
  | .cut node => do
    report (.nestingTooDeep node.id)
    return [.line .nestingTooDeep]
  | .pass node rest => return (← passItems routine node) ++ (← walk routine rest)
  | .last node => lastItems routine node
  | .branch node onTrue onFalse => do
    let condition ← input routine node "condition" "false"
    let thenItems ← walk routine onTrue
    let elseItems ← walk routine onFalse
    return enter routine node ++ [.ifElse condition thenItems elseItems]
  | .loop node body rest => do
    let head ← loopHead routine node
    let body ← walk routine body
    let rest ← walk routine rest
    return enter routine node ++ [head body] ++ rest

end Build

def Routine.compileFrom (routine : Routine) (entry : Node) (depth : Nat) :
    List Item × List Diagnostic :=
  let (items, state) := (Build.walk routine (routine.tourFrom entry depth)).run routine.start
  (items, state.diagnostics)

end NodeScript.Compile
