import NodeScript.Socket.Basic

/-!
Which sockets may be connected, and which nodes could follow a loose edge.
-/

namespace NodeScript

def DataType.compatible (a b : DataType) : Bool :=
  a = b || a = any || b = any

def SocketKind.compatible : SocketKind → SocketKind → Bool
  | control, control => true
  | data a, data b => a.compatible b
  | _, _ => false

/-! ### Suggestions -/

inductive Role where
  | source | target
  deriving DecidableEq, Repr

def Shape.candidates (shape : Shape) : Role → List Socket
  | .source => shape.inputs
  | .target => shape.outputs

def suggestSocket (kind : NodeKind) (role : Role) (origin : SocketKind)
    (function : Option FunctionDef) : Option String :=
  (((Shape.of kind function).candidates role).find? fun socket => origin.compatible socket.kind).map
    Socket.id

structure Suggestion where
  kind : NodeKind
  functionId : Option String
  socket : String
  deriving DecidableEq, Repr

def suggestNodes (role : Role) (origin : SocketKind) (functions : Table FunctionDef) :
    List Suggestion :=
  let kinds := NodeKind.menu.filterMap fun kind =>
    (suggestSocket kind role origin none).map fun socket => ⟨kind, none, socket⟩
  let sorted := functions.values.mergeSort fun a b => a.id ≤ b.id
  let calls := sorted.filterMap fun function =>
    (suggestSocket .callFunction role origin (some function)).map fun socket =>
      ⟨.callFunction, some function.id, socket⟩
  kinds ++ calls

/-! ### Checks -/

inductive ConnectionError where
  | unknownSocket (socket : String) (output : Bool)
  | kindMismatch
  | typeMismatch (source target : DataType)
  deriving DecidableEq, Repr

def ConnectionError.message : ConnectionError → String
  | unknownSocket socket output =>
    let side := if output then "output" else "input"
    s!"Socket '{socket}' does not exist on the {side} side of the node"
  | kindMismatch => "Cannot connect a control socket to a data socket"
  | typeMismatch source target =>
    let source := source.name
    let target := target.name
    s!"Cannot connect a {source} output to a {target} input"

def checkConnection (source : Shape) (sourceSocket : String) (target : Shape)
    (targetSocket : String) : Except ConnectionError (EdgeKind × Option DataType) :=
  match source.output? sourceSocket, target.input? targetSocket with
  | none, _ => .error (.unknownSocket sourceSocket true)
  | _, none => .error (.unknownSocket targetSocket false)
  | some start, some stop =>
    match start.kind, stop.kind with
    | .control, .control => .ok (.control, none)
    | .data a, .data b => if a.compatible b then .ok (.data, some a) else .error (.typeMismatch a b)
    | _, _ => .error .kindMismatch

end NodeScript
