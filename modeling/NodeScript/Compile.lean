import NodeScript.Compile.Walk
import NodeScript.Json.Decode

/-!
From graphs to programs. A program is a function for each function of the graph, in the order of
their keys, and then the statements from the start node on.
-/

namespace NodeScript.Compile

structure Options where
  /-- Whether the program tells its host about the nodes it enters and the variables it writes. -/
  instrument : Bool
  deriving DecidableEq, Repr

def Options.default : Options := ⟨false⟩

def Options.ofJson? (j : Json) : Option Options := do
  let record ← j.record? [⟨"instrument", []⟩]
  let instrument ← record.optional? "instrument" false fun
    | .bool value => some value
    | _ => none
  return { instrument }

structure Result where
  code : String
  diagnostics : List Diagnostic
  deriving DecidableEq, Repr

namespace Result

def errors (result : Result) : List String :=
  result.diagnostics.map Diagnostic.message

def hasErrors (result : Result) : Bool :=
  !result.diagnostics.isEmpty

end Result

structure Job where
  graph : Graph
  options : Options
  aliases : Table NodeKind

namespace Job

def routine (job : Job) (functions : Signatures) (nodes : List Node) (edges : List Edge)
    (signature : Option Signature) : Routine where
  wiring := .ofEdges nodes edges
  functions := functions
  aliases := job.aliases
  signature := signature
  instrument := job.options.instrument

def compileMain? (job : Job) (functions : Signatures) : Option (List Item × List Diagnostic) :=
  let routine := job.routine functions job.graph.nodes job.graph.edges none
  (routine.entry? .start).map fun entry => routine.compileFrom entry 0

def compileFunction (job : Job) (functions : Signatures) (signature : Signature) :
    List Item × List Diagnostic :=
  let function := signature.function
  let routine := job.routine functions function.nodes function.edges (some signature)
  match routine.entry? .functionEntry with
  | some entry => routine.compileFrom entry 1
  | none => ([], routine.start.diagnostics ++ [.missingFunctionEntry function.name])

def functionText (signature : Signature) (items : List Item) : String :=
  let header := "async function " ++ signature.name ++ "(" ++ ", ".intercalate signature.params
    ++ ") \x7b"
  "\n".intercalate (header :: linesOf 1 items ++ ["\x7d"])

def programText (functions : List String) (main : List Item) : String :=
  let mainText := "\n".intercalate (linesOf 0 main)
  "\n\n".intercalate
    (if main.isEmpty && !functions.isEmpty then functions else functions ++ [mainText])

def compile (job : Job) : Result :=
  let functions := Signatures.ofGraph job.graph
  match job.compileMain? functions with
  | none => ⟨"// Error: No start node found", [.missingEntry]⟩
  | some (main, mainDiagnostics) =>
    let units := functions.list.map fun signature =>
      (signature, job.compileFunction functions signature)
    { code := programText (units.map fun (signature, items, _) => functionText signature items) main
      diagnostics := (units.flatMap fun (_, _, diagnostics) => diagnostics) ++ mainDiagnostics }

end Job

end NodeScript.Compile
