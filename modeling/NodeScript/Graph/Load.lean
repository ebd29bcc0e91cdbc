import NodeScript.Graph.Editor

/-!
Loading graphs in either of their two formats.
-/

namespace NodeScript

inductive GraphFormat where
  | canonical | editor
  deriving DecidableEq, Repr

inductive LoadError where
  | malformed
  | invalid (error : Editor.FlowError)
  deriving DecidableEq, Repr

def LoadError.message : LoadError → String
  | malformed => "Failed to parse graph JSON: the text does not describe a graph"
  | invalid error => "Invalid graph data: " ++ error.message

def Graph.ofJson (format : GraphFormat) (j : Json) : Except LoadError Graph :=
  match format with
  | .canonical => (Graph.ofJson? j).elim (.error .malformed) .ok
  | .editor =>
    match Editor.Flow.ofJson? j with
    | none => .error .malformed
    | some flow => flow.toGraph.mapError .invalid

def Graph.load (format : GraphFormat) (source : String) : Except LoadError Graph :=
  match Json.read? source with
  | none => .error .malformed
  | some j => Graph.ofJson format j

end NodeScript
