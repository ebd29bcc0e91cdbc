import NodeScript.Script.SyntaxError

/-!
Why a run fails.
-/

namespace NodeScript.Script

inductive RuntimeError where
  | undefinedName (name : String)
  | notAFunction (callee : String)
  | unsupportedMember (object property : String)
  | unreadable (holder property : String)
  | unwritable (typeName name : String)
  | stackOverflow
  | invalidArrayLength
  | invalidArrayIndex (index name : String)
  | redeclared (name : String)
  | illegalBreak
  | illegalContinue
  | malformed (error : SyntaxError)
  | disconnected
  deriving Repr

namespace RuntimeError

inductive Family where
  | reference | type | range | grammar | disconnected
  deriving DecidableEq, Repr

def family : RuntimeError → Family
  | undefinedName _ => .reference
  | notAFunction _ | unsupportedMember _ _ | unreadable _ _ | unwritable _ _ => .type
  | stackOverflow | invalidArrayLength | invalidArrayIndex _ _ => .range
  | redeclared _ | illegalBreak | illegalContinue | malformed _ => .grammar
  | disconnected => .disconnected

def Family.label : Family → String
  | reference => "ReferenceError: "
  | type => "TypeError: "
  | range => "RangeError: "
  | grammar => "SyntaxError: "
  | disconnected => ""

def detail : RuntimeError → String
  | undefinedName name => s!"{name} is not defined"
  | notAFunction callee => s!"{callee} is not a function"
  | unsupportedMember object property => s!"{object}.{property} is not supported"
  | unreadable holder property => s!"Cannot read properties of {holder} (reading '{property}')"
  | unwritable typeName name => s!"Cannot set properties of {typeName} ({name})"
  | stackOverflow => "Maximum call stack size exceeded"
  | invalidArrayLength => "Invalid array length"
  | invalidArrayIndex index name => s!"Invalid array index {index} for {name}"
  | redeclared name => s!"Identifier '{name}' has already been declared"
  | illegalBreak => "Illegal break statement"
  | illegalContinue => "Illegal continue statement: no surrounding iteration statement"
  | malformed error => error.message
  | disconnected => "execution context disconnected"

def message (e : RuntimeError) : String :=
  e.family.label ++ e.detail

end RuntimeError

end NodeScript.Script
