import NodeScript.Compile.Diagnostic
import NodeScript.Graph.Basic

/-!
The wiring of a graph: where control goes from an output socket, and where the value of an input
socket comes from. Of several edges at one socket the last one counts.
-/

namespace NodeScript.Compile

structure Endpoint where
  node : String
  socket : String
  deriving DecidableEq, Repr

structure Wiring where
  nodes : List Node
  control : List (Endpoint × String)
  data : List (Endpoint × Endpoint)
  duplicates : List Diagnostic

namespace Wiring

def addEdge (wiring : Wiring) (edge : Edge) : Wiring :=
  match edge.kind with
  | .control =>
    { wiring with control := (⟨edge.source, edge.sourceSocket⟩, edge.target) :: wiring.control }
  | .data =>
    let input : Endpoint := ⟨edge.target, edge.targetSocket⟩
    let duplicate := Diagnostic.duplicateDataEdge edge.target edge.targetSocket
    { wiring with
      data := (input, ⟨edge.source, edge.sourceSocket⟩) :: wiring.data
      duplicates :=
        if (wiring.data.lookup input).isSome ∧ duplicate ∉ wiring.duplicates then
          wiring.duplicates ++ [duplicate]
        else
          wiring.duplicates }

def ofEdges (nodes : List Node) (edges : List Edge) : Wiring :=
  edges.foldl addEdge ⟨nodes, [], [], []⟩

def node? (wiring : Wiring) (id : String) : Option Node :=
  wiring.nodes.reverse.find? fun node => node.id = id

def next? (wiring : Wiring) (node socket : String) : Option String :=
  wiring.control.lookup ⟨node, socket⟩

def source? (wiring : Wiring) (node socket : String) : Option Endpoint :=
  wiring.data.lookup ⟨node, socket⟩

end Wiring

end NodeScript.Compile
