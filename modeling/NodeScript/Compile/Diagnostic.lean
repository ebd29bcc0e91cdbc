/-!
What a compilation has to say about a graph. Only a missing start keeps it from producing code.
-/

namespace NodeScript.Compile

inductive Diagnostic where
  | missingEntry
  | missingFunctionEntry (function : String)
  | unknownFunction (node functionId : String)
  | duplicateDataEdge (node socket : String)
  | circularDependency (node socket : String)
  | expressionTooDeep (node : String)
  | nestingTooDeep (node : String)
  deriving DecidableEq, Repr

def Diagnostic.message : Diagnostic → String
  | missingEntry => "No start node found"
  | missingFunctionEntry function => s!"Function '{function}' has no entry node"
  | unknownFunction node functionId =>
    s!"Node '{node}' calls function '{functionId}', which does not exist"
  | duplicateDataEdge node socket =>
    s!"Socket '{socket}' on node '{node}' has more than one incoming data edge; the last one wins"
  | circularDependency node socket =>
    s!"Circular data dependency through socket '{socket}' of node '{node}'"
  | expressionTooDeep node =>
    s!"Data inputs of node '{node}' are nested too deeply; the rest reads as undefined"
  | nestingTooDeep node =>
    s!"Control flow after node '{node}' is nested too deeply and was left out"

end NodeScript.Compile
