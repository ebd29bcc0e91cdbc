import NodeScript.Graph.Basic
import NodeScript.Json.Decode
import NodeScript.Json.Printer
import NodeScript.Json.Reader

/-!
Graphs as JSON documents. `Graph.toJson` writes what `Graph.ofJson?` reads: values that are missing
are left out, and so are the empty tables of inline values and of functions.
-/

namespace NodeScript

open Json (Field)

/-! ### Reading -/

def DataType.ofJson? (j : Json) : Option DataType :=
  DataType.ofName <$> j.alternative?

def EdgeKind.ofJson? (j : Json) : Option EdgeKind :=
  j.alternative?.bind EdgeKind.ofName?

def Position.fields : List Field :=
  [⟨"x", []⟩, ⟨"y", []⟩]

def Position.ofJson? (j : Json) : Option Position := do
  let record ← j.record? fields
  let x ← record.required? "x" Json.float?
  let y ← record.required? "y" Json.float?
  return { x, y }

def NodeData.fields : List Field :=
  [⟨"variable", []⟩, ⟨"prompt", []⟩, ⟨"inlineValues", []⟩, ⟨"functionId", []⟩]

def NodeData.ofJson? : Json → Option NodeData
  | .obj given => do
    let record ← (Json.obj given).record? fields
    let variableName ← record.optional? "variable" none (Json.option? Json.text?)
    let prompt ← record.optional? "prompt" none (Json.option? Json.text?)
    let inlineValues ← record.optional? "inlineValues" {} (Json.table? Json.text?)
    let functionId ← record.optional? "functionId" none (Json.option? Json.text?)
    let extra ← Json.canonicalFields? {} (Json.otherFields fields given)
    return { variableName, prompt, inlineValues, functionId, extra }
  | _ => none

def Node.fields : List Field :=
  [⟨"id", []⟩, ⟨"kind", []⟩, ⟨"position", []⟩, ⟨"data", []⟩]

def Node.ofJson? (j : Json) : Option Node := do
  let record ← j.record? fields
  let id ← record.required? "id" Json.text?
  let kind ← record.required? "kind" Json.text?
  let position ← record.optional? "position" none (Json.option? Position.ofJson?)
  let data ← record.optional? "data" {} NodeData.ofJson?
  return { id, kind := .ofTag kind, position, data }

def Edge.fields : List Field :=
  [⟨"id", []⟩, ⟨"source", []⟩, ⟨"sourceSocket", []⟩, ⟨"target", []⟩, ⟨"targetSocket", []⟩,
   ⟨"kind", []⟩, ⟨"dataType", []⟩]

def Edge.ofJson? (j : Json) : Option Edge := do
  let record ← j.record? fields
  let id ← record.required? "id" Json.text?
  let source ← record.required? "source" Json.text?
  let sourceSocket ← record.required? "sourceSocket" Json.text?
  let target ← record.required? "target" Json.text?
  let targetSocket ← record.required? "targetSocket" Json.text?
  let kind ← record.required? "kind" EdgeKind.ofJson?
  let dataType ← record.optional? "dataType" none (Json.option? DataType.ofJson?)
  return { id, source, sourceSocket, target, targetSocket, kind, dataType }

def Port.fields : List Field :=
  [⟨"id", []⟩, ⟨"name", []⟩, ⟨"dataType", ["type"]⟩]

def Port.ofJson? (j : Json) : Option Port := do
  let record ← j.record? fields
  let id ← record.required? "id" Json.text?
  let name ← record.required? "name" Json.text?
  let dataType ← record.optional? "dataType" .any DataType.ofJson?
  return { id, name, dataType }

def FunctionDef.fields : List Field :=
  [⟨"id", []⟩, ⟨"name", []⟩, ⟨"color", []⟩, ⟨"params", []⟩, ⟨"returns", []⟩, ⟨"nodes", []⟩,
   ⟨"edges", []⟩]

def FunctionDef.ofJson? (j : Json) : Option FunctionDef := do
  let record ← j.record? fields
  let id ← record.required? "id" Json.text?
  let name ← record.required? "name" Json.text?
  let color ← record.optional? "color" none (Json.option? Json.text?)
  let params ← record.optional? "params" [] (Json.list? Port.ofJson?)
  let returns ← record.optional? "returns" [] (Json.list? Port.ofJson?)
  let nodes ← record.optional? "nodes" [] (Json.list? Node.ofJson?)
  let edges ← record.optional? "edges" [] (Json.list? Edge.ofJson?)
  return { id, name, color, params, returns, nodes, edges }

def Graph.fields : List Field :=
  [⟨"nodes", []⟩, ⟨"edges", []⟩, ⟨"functions", []⟩]

def Graph.ofJson? (j : Json) : Option Graph := do
  let record ← j.record? fields
  let nodes ← record.optional? "nodes" [] (Json.list? Node.ofJson?)
  let edges ← record.optional? "edges" [] (Json.list? Edge.ofJson?)
  let functions ← record.optional? "functions" {} (Json.table? FunctionDef.ofJson?)
  return { nodes, edges, functions }

def Graph.read? (source : String) : Option Graph :=
  (Json.read? source).bind Graph.ofJson?

/-! ### Writing -/

def Json.fieldOf {α : Type} (name : String) (write : α → Json) : Option α → List (String × Json)
  | some value => [(name, write value)]
  | none => []

def Position.toJson (position : Position) : Json :=
  .obj [("x", .float position.x), ("y", .float position.y)]

def NodeData.toJson (data : NodeData) : Json :=
  .obj (Json.fieldOf "variable" .str data.variableName
    ++ Json.fieldOf "prompt" .str data.prompt
    ++ (if data.inlineValues.isEmpty then []
        else [("inlineValues", .obj (data.inlineValues.map Json.str).entries)])
    ++ Json.fieldOf "functionId" .str data.functionId
    ++ data.extra.entries)

def Node.toJson (node : Node) : Json :=
  .obj ([("id", .str node.id), ("kind", .str node.kind.tag)]
    ++ Json.fieldOf "position" Position.toJson node.position
    ++ [("data", node.data.toJson)])

def DataType.toJson (dataType : DataType) : Json :=
  .str dataType.name

def Edge.toJson (edge : Edge) : Json :=
  .obj ([("id", .str edge.id), ("source", .str edge.source),
      ("sourceSocket", .str edge.sourceSocket), ("target", .str edge.target),
      ("targetSocket", .str edge.targetSocket), ("kind", .str edge.kind.name)]
    ++ Json.fieldOf "dataType" DataType.toJson edge.dataType)

def Port.toJson (port : Port) : Json :=
  .obj [("id", .str port.id), ("name", .str port.name), ("dataType", port.dataType.toJson)]

def FunctionDef.toJson (function : FunctionDef) : Json :=
  .obj ([("id", .str function.id), ("name", .str function.name)]
    ++ Json.fieldOf "color" .str function.color
    ++ [("params", .arr (function.params.map Port.toJson)),
      ("returns", .arr (function.returns.map Port.toJson)),
      ("nodes", .arr (function.nodes.map Node.toJson)),
      ("edges", .arr (function.edges.map Edge.toJson))])

def Graph.toJson (graph : Graph) : Json :=
  .obj ([("nodes", .arr (graph.nodes.map Node.toJson)),
      ("edges", .arr (graph.edges.map Edge.toJson))]
    ++ (if graph.functions.isEmpty then []
        else [("functions", .obj (graph.functions.map FunctionDef.toJson).entries)]))

def Graph.write (graph : Graph) : String :=
  graph.toJson.pretty 0

def Graph.reloads (graph : Graph) : Bool :=
  match Graph.read? graph.write with
  | some again => again.toJson.same graph.toJson
  | none => false

end NodeScript
