import NodeScript.Graph.Document
import NodeScript.Socket.Basic

/-!
Graphs as editors store them. An editor does not tell whether an edge carries control or data; it
follows from the socket at which the edge starts.
-/

namespace NodeScript.Editor

open Json (Field)

structure Edge where
  id : Option String
  source : String
  sourceSocket : String
  target : String
  targetSocket : String
  deriving DecidableEq, Repr

structure Function where
  id : String
  name : String
  color : Option String
  params : List Port
  returns : List Port
  nodes : List Node
  edges : List Edge

structure Flow where
  nodes : List Node
  edges : List Edge
  functions : Table Function

/-! ### Reading -/

def nodeFields : List Field :=
  [⟨"id", []⟩, ⟨"type", []⟩, ⟨"position", []⟩, ⟨"data", []⟩]

def nodeOfJson? (j : Json) : Option Node := do
  let record ← j.record? nodeFields
  let id ← record.required? "id" Json.text?
  let kind ← record.required? "type" Json.text?
  let position ← record.optional? "position" none (Json.option? Position.ofJson?)
  let data ← record.optional? "data" {} NodeData.ofJson?
  return { id, kind := .ofTag kind, position, data }

def Edge.fields : List Field :=
  [⟨"id", []⟩, ⟨"source", []⟩, ⟨"source_handle", ["sourceHandle"]⟩, ⟨"target", []⟩,
   ⟨"target_handle", ["targetHandle"]⟩]

def Edge.ofJson? (j : Json) : Option Edge := do
  let record ← j.record? fields
  let id ← record.optional? "id" none (Json.option? Json.text?)
  let source ← record.required? "source" Json.text?
  let sourceSocket ← record.required? "source_handle" Json.text?
  let target ← record.required? "target" Json.text?
  let targetSocket ← record.required? "target_handle" Json.text?
  return { id, source, sourceSocket, target, targetSocket }

def Function.ofJson? (j : Json) : Option Function := do
  let record ← j.record? FunctionDef.fields
  let id ← record.required? "id" Json.text?
  let name ← record.required? "name" Json.text?
  let color ← record.optional? "color" none (Json.option? Json.text?)
  let params ← record.optional? "params" [] (Json.list? Port.ofJson?)
  let returns ← record.optional? "returns" [] (Json.list? Port.ofJson?)
  let nodes ← record.optional? "nodes" [] (Json.list? nodeOfJson?)
  let edges ← record.optional? "edges" [] (Json.list? Edge.ofJson?)
  return { id, name, color, params, returns, nodes, edges }

def Flow.ofJson? (j : Json) : Option Flow := do
  let record ← j.record? Graph.fields
  let nodes ← record.optional? "nodes" [] (Json.list? nodeOfJson?)
  let edges ← record.optional? "edges" [] (Json.list? Edge.ofJson?)
  let functions ← record.optional? "functions" {} (Json.table? Function.ofJson?)
  return { nodes, edges, functions }

/-! ### Conversion -/

inductive FlowError where
  | duplicateNode (id : String)
  | unknownSource (id : String)
  | unknownTarget (id : String)
  deriving DecidableEq, Repr

def FlowError.message : FlowError → String
  | duplicateNode id => s!"Duplicate node id '{id}'"
  | unknownSource id => s!"Edge references unknown source node '{id}'"
  | unknownTarget id => s!"Edge references unknown target node '{id}'"

def controlSockets : List String :=
  ["exec-in", "exec-out", "true", "false", "body", "done"]

def classify (source : Node) (socket : String) (functions : Table FunctionDef)
    (owner : Option FunctionDef) : SocketKind :=
  match (Shape.of source.kind (source.function? functions owner)).output? socket with
  | some declared => declared.kind
  | none => if controlSockets.contains socket then .control else .data .any

def firstDuplicate? (seen : List String) : List Node → Option String
  | [] => none
  | node :: rest =>
    if seen.contains node.id then some node.id else firstDuplicate? (node.id :: seen) rest

def Edge.convert (edge : Edge) (nodes : List Node) (functions : Table FunctionDef)
    (owner : Option FunctionDef) : Except FlowError NodeScript.Edge :=
  match nodes.find? fun node => node.id = edge.source with
  | none => .error (.unknownSource edge.source)
  | some source =>
    if nodes.any fun node => node.id = edge.target then
      let kind := classify source edge.sourceSocket functions owner
      .ok {
        id := edge.id.getD (NodeScript.Edge.deriveId edge.source edge.sourceSocket edge.target
          edge.targetSocket)
        source := edge.source
        sourceSocket := edge.sourceSocket
        target := edge.target
        targetSocket := edge.targetSocket
        kind := kind.edgeKind
        dataType := kind.dataType? }
    else
      .error (.unknownTarget edge.target)

def convertEdges (nodes : List Node) (edges : List Edge) (functions : Table FunctionDef)
    (owner : Option FunctionDef) : Except FlowError (List NodeScript.Edge) :=
  match firstDuplicate? [] nodes with
  | some id => .error (.duplicateNode id)
  | none => edges.mapM fun edge => edge.convert nodes functions owner

def Function.signature (function : Function) : FunctionDef where
  id := function.id
  name := function.name
  params := function.params
  returns := function.returns

def Function.convert (function : Function) (functions : Table FunctionDef) :
    Except FlowError FunctionDef := do
  let edges ← convertEdges function.nodes function.edges functions (some function.signature)
  return {
    id := function.id
    name := function.name
    color := function.color
    params := function.params
    returns := function.returns
    nodes := function.nodes
    edges }

def Flow.toGraph (flow : Flow) : Except FlowError Graph := do
  let signatures := flow.functions.map Function.signature
  let functions ← flow.functions.entries.mapM fun (key, function) =>
    (key, ·) <$> function.convert signatures
  let edges ← convertEdges flow.nodes flow.edges signatures none
  return { nodes := flow.nodes, edges, functions := .ofList functions }

end NodeScript.Editor
