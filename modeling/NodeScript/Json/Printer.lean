import NodeScript.Decimal.Layout
import NodeScript.Json
import NodeScript.Text.Hex

/-!
Writing JSON texts, compact or indented.
-/

namespace NodeScript.Json

/-- Floats are written with a point or an exponent, so that they differ from integers. An exponent
always has its sign. -/
def floatLayout : Decimal.Layout where
  positional := fun e => -5 ≤ e && e ≤ 15
  pointZero := true
  plus := true
  signedZero := true
  tie := .toEven
  nan := "null"
  infinity := "null"

def escape (c : Char) : String :=
  match c with
  | '"' => "\\\""
  | '\\' => "\\\\"
  | '\x08' => "\\b"
  | '\x0c' => "\\f"
  | '\n' => "\\n"
  | '\r' => "\\r"
  | '\t' => "\\t"
  | c => if c.toNat < 0x20 then "\\u" ++ Text.toHex 4 c.toNat else c.toString

def quote (text : String) : String :=
  "\"" ++ text.foldl (fun out c => out ++ escape c) "" ++ "\""

def writeLeaf : Json → String
  | bool true => "true"
  | bool false => "false"
  | int value => toString value
  | float value => floatLayout.write value
  | str value => quote value
  | _ => "null"

mutual

def compact : Json → String
  | arr items => "[" ++ ",".intercalate (compactItems items) ++ "]"
  | obj fields => "\x7b" ++ ",".intercalate (compactFields fields) ++ "\x7d"
  | value => writeLeaf value

def compactItems : List Json → List String
  | [] => []
  | item :: rest => compact item :: compactItems rest

def compactFields : List (String × Json) → List String
  | [] => []
  | (key, value) :: rest => (quote key ++ ":" ++ compact value) :: compactFields rest

end

def newline (level : Nat) : String :=
  "\n".pushn ' ' (2 * level)

mutual

def pretty (level : Nat) : Json → String
  | arr [] => "[]"
  | arr items => "[" ++ ",".intercalate (prettyItems (level + 1) items) ++ newline level ++ "]"
  | obj [] => "\x7b\x7d"
  | obj fields =>
    "\x7b" ++ ",".intercalate (prettyFields (level + 1) fields) ++ newline level ++ "\x7d"
  | value => writeLeaf value

def prettyItems (level : Nat) : List Json → List String
  | [] => []
  | item :: rest => (newline level ++ pretty level item) :: prettyItems level rest

def prettyFields (level : Nat) : List (String × Json) → List String
  | [] => []
  | (key, value) :: rest =>
    (newline level ++ quote key ++ ": " ++ pretty level value) :: prettyFields level rest

end

end NodeScript.Json
