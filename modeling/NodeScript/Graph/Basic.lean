import NodeScript.Graph.Kind
import NodeScript.Json

/-!
Graphs: nodes, the edges between their sockets, and functions with graphs of their own.
-/

namespace NodeScript

inductive DataType where
  | number | string | boolean | array | any
  deriving DecidableEq, Repr

namespace DataType

def name : DataType → String
  | number => "number"
  | string => "string"
  | boolean => "boolean"
  | array => "array"
  | any => "any"

/-- The type of a name; types that are not known accept everything. -/
def ofName : String → DataType
  | "number" => number
  | "string" => string
  | "boolean" => boolean
  | "array" => array
  | _ => any

def fallback : DataType → String
  | number | any => "0"
  | boolean => "false"
  | string => "\"\""
  | array => "[]"

end DataType

structure Position where
  x : Float
  y : Float
  deriving Repr

structure NodeData where
  variableName : Option String := none
  prompt : Option String := none
  inlineValues : Table String := {}
  functionId : Option String := none
  extra : SortedTable Json := {}
  deriving Repr, Inhabited

namespace NodeData

def boundName? (data : NodeData) : Option String :=
  data.variableName.filter fun name => !name.isEmpty

def inline? (data : NodeData) (socket : String) : Option String :=
  (data.inlineValues.get? socket).filter fun value => !value.isEmpty

end NodeData

structure Node where
  id : String
  kind : NodeKind
  position : Option Position := none
  data : NodeData := {}
  deriving Repr

inductive EdgeKind where
  | control | data
  deriving DecidableEq, Repr

namespace EdgeKind

def name : EdgeKind → String
  | control => "control"
  | data => "data"

def ofName? : String → Option EdgeKind
  | "control" => some control
  | "data" => some data
  | _ => none

end EdgeKind

structure Edge where
  id : String
  source : String
  sourceSocket : String
  target : String
  targetSocket : String
  kind : EdgeKind
  dataType : Option DataType := none
  deriving DecidableEq, Repr

namespace Edge

def deriveId (source sourceSocket target targetSocket : String) : String :=
  s!"e-{source}-{sourceSocket}-{target}-{targetSocket}"

def control (source sourceSocket target : String) : Edge where
  id := deriveId source sourceSocket target "exec-in"
  source := source
  sourceSocket := sourceSocket
  target := target
  targetSocket := "exec-in"
  kind := .control

def data (source sourceSocket target targetSocket : String) : Edge where
  id := deriveId source sourceSocket target targetSocket
  source := source
  sourceSocket := sourceSocket
  target := target
  targetSocket := targetSocket
  kind := .data

end Edge

structure Port where
  id : String
  name : String
  dataType : DataType := .any
  deriving DecidableEq, Repr

structure FunctionDef where
  id : String
  name : String
  color : Option String := none
  params : List Port := []
  returns : List Port := []
  nodes : List Node := []
  edges : List Edge := []
  deriving Repr

structure Graph where
  nodes : List Node := []
  edges : List Edge := []
  functions : Table FunctionDef := {}
  deriving Repr, Inhabited

namespace Graph

def node? (graph : Graph) (id : String) : Option Node :=
  graph.nodes.find? fun node => node.id = id

end Graph

end NodeScript
