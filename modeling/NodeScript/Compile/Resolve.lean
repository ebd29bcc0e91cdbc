import NodeScript.Compile.Code
import NodeScript.Compile.Naming
import NodeScript.Compile.Wiring

/-!
From data edges to expressions.

The expression of an output is found by following data edges backwards. A path that comes back to an
output it has passed, or that passes too many of them, ends in a marker. Expressions without markers
are remembered until a new temporary name is bound, because they may depend on it.
-/

namespace NodeScript.Compile

structure Routine where
  wiring : Wiring
  functions : Signatures
  aliases : Table NodeKind
  signature : Option Signature
  instrument : Bool

structure State where
  declared : List String
  temporaries : List (Endpoint × Code)
  memo : List (Endpoint × Code)
  reportedCycles : List Endpoint
  depthReported : Bool
  nextTemporary : Nat
  diagnostics : List Diagnostic

abbrev Build := StateM State

namespace Routine

def kindOf (routine : Routine) (node : Node) : NodeKind :=
  match node.kind with
  | .unknown tag => (routine.aliases.get? tag).getD node.kind
  | kind => kind

def entry? (routine : Routine) (kind : NodeKind) : Option Node :=
  routine.wiring.nodes.find? fun node => routine.kindOf node = kind

def start (routine : Routine) : State where
  declared := routine.signature.elim [] Signature.params
  temporaries := []
  memo := []
  reportedCycles := []
  depthReported := false
  nextTemporary := 0
  diagnostics := routine.wiring.duplicates

end Routine

def variableOf (node : Node) (default : String) : String :=
  sanitize (node.data.boundName?.getD default)

def maxExpressionDepth : Nat := 128

namespace Build

def report (diagnostic : Diagnostic) : Build Unit :=
  modify fun s => { s with diagnostics := s.diagnostics ++ [diagnostic] }

def reportCycle (output : Endpoint) : Build Unit := do
  if !(← get).reportedCycles.contains output then
    modify fun s => { s with reportedCycles := output :: s.reportedCycles }
    report (.circularDependency output.node output.socket)

def reportDepth (node : String) : Build Unit := do
  if !(← get).depthReported then
    modify fun s => { s with depthReported := true }
    report (.expressionTooDeep node)

def remember (output : Endpoint) (code : Code) : Build Unit :=
  unless code.isProvisional do
    modify fun s => { s with memo := (output, code) :: s.memo }

abbrev Resolver := Endpoint → Build Code

/-- The value of an input: that of the output connected with it, or else the text typed into it, or
else a fallback. -/
def operand (routine : Routine) (resolve : Resolver) (node : Node) (socket fallback : String) :
    Build Code :=
  match routine.wiring.source? node.id socket with
  | some output => resolve output
  | none => return .raw ((node.data.inline? socket).getD fallback)

def textOperand (routine : Routine) (resolve : Resolver) (node : Node) (socket : String) :
    Build Code :=
  match routine.wiring.source? node.id socket with
  | some output => resolve output
  | none => return .quoted ((node.data.inline? socket).getD "")

def resolveNode (routine : Routine) (resolve : Resolver) (node : Node) (socket : String) :
    Build Code := do
  let kind := routine.kindOf node
  match kind.operator? with
  | some operator =>
    let a ← operand routine resolve node "a" "0"
    let b ← operand routine resolve node "b" "0"
    return .binary operator a b
  | none =>
    match kind, socket with
    | .get, _ => return .ident (variableOf node "_var")
    | .concat, _ =>
      let a ← textOperand routine resolve node "a"
      let b ← textOperand routine resolve node "b"
      return .binary "+" a b
    | .random, _ =>
      let least ← operand routine resolve node "min" "0"
      let greatest ← operand routine resolve node "max" "100"
      return .random least greatest
    | .not, _ => return .not (← operand routine resolve node "value" "false")
    | .set, "out-value" => return .ident (variableOf node "_var")
    | .input, "out-value" => return .ident (variableOf node "_input")
    | .forLoop, "i" => return .ident (variableOf node "i")
    | .arrayLength, _ => return .length (variableOf node "_arr")
    | .arrayGet, _ =>
      let index ← operand routine resolve node "index" "0"
      return .element (variableOf node "_arr") index
    | .arrayPop, _ | .callFunction, _ =>
      return ((← get).temporaries.lookup ⟨node.id, socket⟩).getD .undefined
    | .functionEntry, _ =>
      return (routine.signature.bind (·.paramName? socket)).elim .undefined .ident
    | _, _ => return .raw "0"

/-- The expression of an output that is not remembered. Outputs of no node read as zero. -/
def resolveOutput (routine : Routine) (resolve : Resolver) (output : Endpoint) : Build Code :=
  match routine.wiring.node? output.node with
  | some node => resolveNode routine resolve node output.socket
  | none => return .raw "0"

/-- The expression of an output. `room` is how many more outputs the path may pass, and `passed` are
those it has. -/
def resolve (routine : Routine) (room : Nat) (passed : List Endpoint) (output : Endpoint) :
    Build Code := do
  match (← get).memo.lookup output with
  | some code => return code
  | none =>
    if passed.contains output then
      reportCycle output
      return .circular
    else
      match room with
      | 0 =>
        reportDepth output.node
        return .tooDeep
      | room + 1 =>
        let code ← resolveOutput routine (resolve routine room (output :: passed)) output
        remember output code
        return code

def input (routine : Routine) (node : Node) (socket fallback : String) : Build Code :=
  operand routine (resolve routine maxExpressionDepth []) node socket fallback

end Build

end NodeScript.Compile
