/-!
Generated code: expressions, statements, and their text.
-/

namespace NodeScript.Compile

/-! ### Strings -/

def quoteChar (c : Char) : List Char :=
  match c with
  | '\\' => ['\\', '\\']
  | '"' => ['\\', '"']
  | '\n' => ['\\', 'n']
  | '\r' => ['\\', 'r']
  | '\t' => ['\\', 't']
  | c => [c]

def quote (text : String) : String :=
  String.ofList ('"' :: text.toList.flatMap quoteChar ++ ['"'])

/-! ### Expressions -/

def circularMarker : String := "undefined /* circular */"

def depthMarker : String := "undefined /* too deep */"

inductive Code where
  | ident (name : String)
  | member (record field : String)
  /-- Text that was typed into a socket, or that stands for a missing value. -/
  | raw (text : String)
  | quoted (text : String)
  | binary (operator : String) (left right : Code)
  | random (least greatest : Code)
  | not (operand : Code)
  | length (array : String)
  | element (array : String) (index : Code)
  | undefined
  | circular
  | tooDeep
  deriving Repr

def Code.text : Code → String
  | ident name => name
  | member record field => record ++ "." ++ field
  | raw text => text
  | quoted text => quote text
  | binary operator left right => "(" ++ left.text ++ " " ++ operator ++ " " ++ right.text ++ ")"
  | random least greatest =>
    "(Math.floor(Math.random() * (" ++ greatest.text ++ " - " ++ least.text ++ " + 1)) + "
      ++ least.text ++ ")"
  | not operand => "(!" ++ operand.text ++ ")"
  | length array => array ++ ".length"
  | element array index => array ++ "[" ++ index.text ++ "]"
  | undefined => "undefined"
  | circular => circularMarker
  | tooDeep => depthMarker

def occurs (part : List Char) : List Char → Bool
  | [] => part.isEmpty
  | c :: rest => part.isPrefixOf (c :: rest) || occurs part rest

/-- Whether the text contains one of the markers, so that it depends on where it was asked for. -/
def Code.isProvisional (code : Code) : Bool :=
  occurs circularMarker.toList code.text.toList || occurs depthMarker.toList code.text.toList

/-! ### Statements -/

inductive Line where
  | enter (node : String)
  | notify (name : String)
  /-- A fresh variable is also declared. -/
  | assign (fresh : Bool) (name : String) (value : Code)
  | ask (fresh : Bool) (name : String) (message : Code)
  | print (value : Code)
  | breakLoop
  | continueLoop
  | push (array : String) (value : Code)
  | pop (temporary array : String)
  | store (array : String) (index value : Code)
  | returnNothing
  | returnValue (value : Code)
  | returnRecord (fields : List (String × Code))
  | call (temporary : Option String) (function : String) (arguments : List Code)
  | unknownFunction (id : String)
  | nestingTooDeep
  deriving Repr

def declaration (fresh : Bool) : String :=
  if fresh then "let " else ""

def Line.text : Line → String
  | enter node => "await __onNode(" ++ quote node ++ ");"
  | notify name => "__onVar(" ++ quote name ++ ", " ++ name ++ ");"
  | assign fresh name value => declaration fresh ++ name ++ " = " ++ value.text ++ ";"
  | ask fresh name message =>
    declaration fresh ++ name ++ " = parseFloat(await prompt(" ++ message.text ++ "));"
  | print value => "console.log(" ++ value.text ++ ");"
  | breakLoop => "break;"
  | continueLoop => "continue;"
  | push array value => array ++ ".push(" ++ value.text ++ ");"
  | pop temporary array => "let " ++ temporary ++ " = " ++ array ++ ".pop();"
  | store array index value => array ++ "[" ++ index.text ++ "] = " ++ value.text ++ ";"
  | returnNothing => "return;"
  | returnValue value => "return " ++ value.text ++ ";"
  | returnRecord fields =>
    "return \x7b " ++ ", ".intercalate (fields.map fun (name, value) => name ++ ": " ++ value.text)
      ++ " \x7d;"
  | call temporary function arguments =>
    temporary.elim "" (fun name => "let " ++ name ++ " = ")
      ++ "await " ++ function ++ "(" ++ ", ".intercalate (arguments.map Code.text) ++ ");"
  | unknownFunction id => "// Error: function '" ++ id ++ "' not found"
  | nestingTooDeep => "// Error: control flow nested too deeply"

inductive Item where
  | line (line : Line)
  | ifElse (condition : Code) (thenItems elseItems : List Item)
  | whileLoop (condition : Code) (body : List Item)
  | forLoop (name : String) (start limit step : Code) (body : List Item)
  deriving Repr

def indented (depth : Nat) (text : String) : String :=
  "".pushn ' ' (2 * depth) ++ text

mutual

def Item.lines (depth : Nat) : Item → List String
  | .line line => [indented depth line.text]
  | .ifElse condition thenItems elseItems =>
    [indented depth ("if (" ++ condition.text ++ ") \x7b")]
      ++ linesOf (depth + 1) thenItems
      ++ [indented depth "\x7d else \x7b"]
      ++ linesOf (depth + 1) elseItems
      ++ [indented depth "\x7d"]
  | .whileLoop condition body =>
    [indented depth ("while (" ++ condition.text ++ ") \x7b")]
      ++ linesOf (depth + 1) body
      ++ [indented depth "\x7d"]
  | .forLoop name start limit step body =>
    [indented depth ("for (let " ++ name ++ " = " ++ start.text ++ "; " ++ name ++ " < "
        ++ limit.text ++ "; " ++ name ++ " += " ++ step.text ++ ") \x7b")]
      ++ linesOf (depth + 1) body
      ++ [indented depth "\x7d"]

def linesOf (depth : Nat) : List Item → List String
  | [] => []
  | item :: rest => item.lines depth ++ linesOf depth rest

end

end NodeScript.Compile
