/-!
Kinds of nodes.
-/

namespace NodeScript

/-- What a node does. Tags that no kind has are kept, so that nothing is lost of graphs with nodes
of kinds yet to come. -/
inductive NodeKind where
  | start | stop | input | output | set | get
  | branch | whileLoop | forLoop | breakLoop | continueLoop
  | add | subtract | multiply | divide | modulo
  | greater | less | equal | greaterEq | lessEq | notEqual
  | concat | random | not
  | arrayCreate | arrayPush | arrayPop | arrayLength | arrayGet | arraySet
  | functionEntry | functionReturn | callFunction
  | comment
  | unknown (tag : String)
  deriving DecidableEq, Repr

namespace NodeKind

def menu : List NodeKind :=
  [start, stop, input, output, set, get, branch, whileLoop, forLoop, breakLoop, continueLoop,
   add, subtract, multiply, divide, modulo,
   greater, less, equal, greaterEq, lessEq, notEqual,
   concat, random, not,
   arrayCreate, arrayPush, arrayPop, arrayLength, arrayGet, arraySet,
   comment]

def tag : NodeKind → String
  | start => "start"
  | stop => "end"
  | input => "input"
  | output => "output"
  | set => "set"
  | get => "get"
  | branch => "if"
  | whileLoop => "while"
  | forLoop => "for"
  | breakLoop => "break"
  | continueLoop => "continue"
  | add => "add"
  | subtract => "subtract"
  | multiply => "multiply"
  | divide => "divide"
  | modulo => "modulo"
  | greater => "greater"
  | less => "less"
  | equal => "equal"
  | greaterEq => "greater-eq"
  | lessEq => "less-eq"
  | notEqual => "not-equal"
  | concat => "concat"
  | random => "random"
  | not => "not"
  | arrayCreate => "array-create"
  | arrayPush => "array-push"
  | arrayPop => "array-pop"
  | arrayLength => "array-length"
  | arrayGet => "array-get"
  | arraySet => "array-set"
  | functionEntry => "function-entry"
  | functionReturn => "function-return"
  | callFunction => "call-function"
  | comment => "comment"
  | unknown tag => tag

def ofTag : String → NodeKind
  | "start" => start
  | "end" => stop
  | "input" => input
  | "output" => output
  | "set" => set
  | "get" => get
  | "if" => branch
  | "while" => whileLoop
  | "for" => forLoop
  | "break" => breakLoop
  | "continue" => continueLoop
  | "add" => add
  | "subtract" => subtract
  | "multiply" => multiply
  | "divide" => divide
  | "modulo" => modulo
  | "greater" => greater
  | "less" => less
  | "equal" => equal
  | "greater-eq" | "greaterEq" => greaterEq
  | "less-eq" | "lessEq" => lessEq
  | "not-equal" | "notEqual" => notEqual
  | "concat" => concat
  | "random" => random
  | "not" => not
  | "array-create" | "arrayCreate" => arrayCreate
  | "array-push" | "arrayPush" => arrayPush
  | "array-pop" | "arrayPop" => arrayPop
  | "array-length" | "arrayLength" => arrayLength
  | "array-get" | "arrayGet" => arrayGet
  | "array-set" | "arraySet" => arraySet
  | "function-entry" | "functionEntry" => functionEntry
  | "function-return" | "functionReturn" => functionReturn
  | "call-function" | "callFunction" => callFunction
  | "comment" => comment
  | tag => unknown tag

def operator? : NodeKind → Option String
  | add => some "+"
  | subtract => some "-"
  | multiply => some "*"
  | divide => some "/"
  | modulo => some "%"
  | greater => some ">"
  | less => some "<"
  | equal => some "==="
  | greaterEq => some ">="
  | lessEq => some "<="
  | notEqual => some "!=="
  | _ => none

def isFunctionKind : NodeKind → Bool
  | functionEntry | functionReturn | callFunction => true
  | _ => false

def isUnknown : NodeKind → Bool
  | unknown _ => true
  | _ => false

end NodeKind

end NodeScript
