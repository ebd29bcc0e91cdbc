import NodeScript.Graph.Basic
import NodeScript.Text.Blank

/-!
Names in generated code.

Variables and parameters are named first, functions after them, so that no function hides a
variable. The names in use are kept for the choice of temporary ones.
-/

namespace NodeScript.Compile

def reservedWords : List String :=
  ["arguments", "async", "await", "break", "case", "catch", "class", "const", "continue",
   "debugger", "default", "delete", "do", "else", "enum", "eval", "export", "extends",
   "false", "finally", "for", "function", "if", "implements", "import", "in", "instanceof",
   "interface", "let", "new", "null", "of", "package", "private", "protected", "public",
   "return", "static", "super", "switch", "this", "throw", "true", "try", "typeof",
   "undefined", "var", "void", "while", "with", "yield", "NaN", "Infinity",
   "console", "Math", "prompt", "parseFloat", "String", "Number"]

def sanitizeChar (c : Char) : Char :=
  if c.isAlphanum || c = '_' || c = '$' then c else '_'

def sanitize (raw : String) : String :=
  let name := (Text.trim raw.toList).map sanitizeChar
  if name.isEmpty then "_"
  else if name.head?.any Char.isDigit || reservedWords.contains (String.ofList name) then
    String.ofList ('_' :: name)
  else
    String.ofList name

/-- The first of the candidates that is not taken. One more candidate than taken names suffices. -/
def firstFree (taken : List String) (candidate : Nat → String) : (tries : Nat) → Nat → Nat
  | 0, n => n
  | tries + 1, n =>
    if taken.contains (candidate n) then firstFree taken candidate tries (n + 1) else n

/-- A name that is not taken: the given one, or else the given one with a number from 2 on. -/
def claim (taken : List String) (base : String) : String :=
  if taken.contains base then
    let candidate (n : Nat) : String := base ++ "_" ++ Nat.repr n
    candidate (firstFree taken candidate (taken.length + 1) 2)
  else
    base

def claimAll (texts : List String) : List String :=
  texts.foldl (fun names text => names ++ [claim names (sanitize text)]) []

def defaultBindings : List String :=
  ["_var", "_arr", "_input", "i"]

def bindingNames (graph : Graph) : List String :=
  let nodes := graph.nodes ++ graph.functions.values.flatMap FunctionDef.nodes
  let bound := nodes.filterMap fun node => node.data.boundName?
  let params := graph.functions.values.flatMap fun function => function.params.map Port.name
  let names := defaultBindings ++ (bound ++ params).map sanitize
  (SortedTable.ofList (names.map fun name => (name, ()))).keys

structure Signature where
  key : String
  function : FunctionDef
  name : String
  params : List String
  returns : List String

def Signature.paramName? (signature : Signature) (port : String) : Option String :=
  ((signature.function.params.zip signature.params).find? fun (p, _) => p.id = port).map Prod.snd

structure Signatures where
  list : List Signature
  taken : List String

namespace Signatures

def add (signatures : Signatures) (key : String) (function : FunctionDef) : Signatures :=
  let name := claim signatures.taken (sanitize function.name)
  let params := claimAll (function.params.map Port.name)
  let returns := claimAll (function.returns.map Port.name)
  { list := signatures.list ++ [{ key, function, name, params, returns }]
    taken := signatures.taken ++ name :: params }

def ofGraph (graph : Graph) : Signatures :=
  graph.functions.sorted.entries.foldl
    (fun signatures (key, function) => signatures.add key function) ⟨[], bindingNames graph⟩

def get? (signatures : Signatures) (key : String) : Option Signature :=
  signatures.list.find? fun signature => signature.key = key

def isTaken (signatures : Signatures) (name : String) : Bool :=
  signatures.taken.contains name

end Signatures

end NodeScript.Compile
