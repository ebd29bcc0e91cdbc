import NodeScript.Graph.Basic

/-!
Sockets: where edges are attached to nodes.

Most kinds of nodes have the same sockets everywhere. Those of nodes that belong to a function
follow from its parameters and return values.
-/

namespace NodeScript

inductive SocketKind where
  | control
  | data (type : DataType)
  deriving DecidableEq, Repr

namespace SocketKind

def edgeKind : SocketKind → EdgeKind
  | control => .control
  | data _ => .data

def dataType? : SocketKind → Option DataType
  | control => none
  | data type => some type

end SocketKind

structure Socket where
  id : String
  kind : SocketKind
  deriving DecidableEq, Repr

structure Shape where
  inputs : List Socket
  outputs : List Socket
  deriving DecidableEq, Repr

namespace Shape

def input? (shape : Shape) (id : String) : Option Socket :=
  shape.inputs.find? fun socket => socket.id = id

def output? (shape : Shape) (id : String) : Option Socket :=
  shape.outputs.find? fun socket => socket.id = id

def empty : Shape := ⟨[], []⟩

def enter : Socket := ⟨"exec-in", .control⟩

def leave : Socket := ⟨"exec-out", .control⟩

def operation (operand result : DataType) : Shape where
  inputs := [⟨"a", .data operand⟩, ⟨"b", .data operand⟩]
  outputs := [⟨"result", .data result⟩]

end Shape

open Shape in
def NodeKind.shape? : NodeKind → Option Shape
  | start => some ⟨[], [leave]⟩
  | stop => some ⟨[enter], []⟩
  | input => some ⟨[enter, ⟨"prompt", .data .string⟩], [leave, ⟨"out-value", .data .number⟩]⟩
  | output => some ⟨[enter, ⟨"value", .data .any⟩], [leave]⟩
  | set => some ⟨[enter, ⟨"value", .data .any⟩], [leave, ⟨"out-value", .data .any⟩]⟩
  | get => some ⟨[], [⟨"value", .data .any⟩]⟩
  | branch =>
    some ⟨[enter, ⟨"condition", .data .boolean⟩], [⟨"true", .control⟩, ⟨"false", .control⟩]⟩
  | whileLoop =>
    some ⟨[enter, ⟨"condition", .data .boolean⟩], [⟨"body", .control⟩, ⟨"done", .control⟩]⟩
  | forLoop =>
    some ⟨[enter, ⟨"from", .data .number⟩, ⟨"to", .data .number⟩, ⟨"step", .data .number⟩],
      [⟨"body", .control⟩, ⟨"done", .control⟩, ⟨"i", .data .number⟩]⟩
  | breakLoop | continueLoop => some ⟨[enter], []⟩
  | add | subtract | multiply | divide | modulo => some (operation .number .number)
  | greater | less | equal | greaterEq | lessEq | notEqual => some (operation .number .boolean)
  | concat => some (operation .string .string)
  | random =>
    some ⟨[⟨"min", .data .number⟩, ⟨"max", .data .number⟩], [⟨"value", .data .number⟩]⟩
  | not => some ⟨[⟨"value", .data .boolean⟩], [⟨"result", .data .boolean⟩]⟩
  | arrayCreate => some ⟨[enter], [leave]⟩
  | arrayPush => some ⟨[enter, ⟨"value", .data .any⟩], [leave]⟩
  | arrayPop => some ⟨[enter], [leave, ⟨"value", .data .any⟩]⟩
  | arrayLength => some ⟨[], [⟨"value", .data .number⟩]⟩
  | arrayGet => some ⟨[⟨"index", .data .number⟩], [⟨"value", .data .any⟩]⟩
  | arraySet => some ⟨[enter, ⟨"index", .data .number⟩, ⟨"value", .data .any⟩], [leave]⟩
  | functionEntry => some ⟨[], [leave]⟩
  | functionReturn => some ⟨[enter], []⟩
  | callFunction => some ⟨[enter], [leave]⟩
  | comment => some ⟨[], []⟩
  | unknown _ => none

def Port.socket (port : Port) : Socket :=
  ⟨port.id, .data port.dataType⟩

def FunctionDef.shape? (function : FunctionDef) (kind : NodeKind) : Option Shape :=
  let params := function.params.map Port.socket
  let returns := function.returns.map Port.socket
  match kind with
  | .callFunction => some ⟨Shape.enter :: params, Shape.leave :: returns⟩
  | .functionEntry => some ⟨[], Shape.leave :: params⟩
  | .functionReturn => some ⟨Shape.enter :: returns, []⟩
  | kind => kind.shape?

def Shape.of (kind : NodeKind) (function : Option FunctionDef) : Shape :=
  let shape := match function with
    | some function => if kind.isFunctionKind then function.shape? kind else kind.shape?
    | none => kind.shape?
  shape.getD .empty

/-- The function to which a node belongs: the one that it names, or else, for the ends of a
function, the one that owns the node. -/
def Node.function? (node : Node) (functions : Table FunctionDef) (owner : Option FunctionDef) :
    Option FunctionDef :=
  match node.data.functionId.bind functions.get? with
  | some function => some function
  | none =>
    match node.kind with
    | .functionEntry | .functionReturn => owner
    | _ => none

end NodeScript
