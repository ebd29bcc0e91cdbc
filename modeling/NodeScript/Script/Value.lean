import NodeScript.Decimal.Numeral
import NodeScript.Json
import NodeScript.Script.NumberText
import NodeScript.Text.Blank

/-!
Values of running programs: their text, their number, their truth, and the two equalities.

Arrays and objects are plain values. Every variable has its own copy, and nothing is shared.
-/

namespace NodeScript.Script

inductive Value where
  | undefined
  | null
  | bool (value : Bool)
  | number (value : Float)
  | str (value : String)
  | array (items : List Value)
  /-- The fields in the order in which they were added. A literal may repeat a name. -/
  | object (fields : List (String × Value))
  deriving Repr, Inhabited

namespace Value

def typeName : Value → String
  | undefined => "undefined"
  | null => "null"
  | bool _ => "boolean"
  | number _ => "number"
  | str _ => "string"
  | array _ | object _ => "object"

def isNullish : Value → Bool
  | undefined | null => true
  | _ => false

def isTruthy : Value → Bool
  | undefined | null => false
  | bool b => b
  | number x => x != 0 && !x.isNaN
  | str s => !s.isEmpty
  | array _ | object _ => true

/-! ### Text -/

mutual

def text : Value → String
  | undefined => "undefined"
  | null => "null"
  | bool true => "true"
  | bool false => "false"
  | number x => numberText x
  | str s => s
  | array items => ",".intercalate (itemTexts items)
  | object _ => "[object Object]"

def itemTexts : List Value → List String
  | [] => []
  | item :: rest => (if item.isNullish then "" else text item) :: itemTexts rest

end

/-! ### Number -/

def textToNumber (text : String) : Float :=
  match String.ofList (Text.trim text.toList) with
  | "" => 0
  | "Infinity" | "+Infinity" => 1.0 / 0.0
  | "-Infinity" => -1.0 / 0.0
  | numeral => Decimal.readFloat numeral.toList

def toNumber : Value → Float
  | undefined => 0.0 / 0.0
  | null => 0
  | bool b => if b then 1 else 0
  | number x => x
  | str s => textToNumber s
  | array [] => 0
  | array [item] => textToNumber item.text
  | array _ => 0.0 / 0.0
  | object _ => 0.0 / 0.0

/-! ### Equality -/

mutual

/-- Equality without conversions, part by part. The number that is not one differs from itself. -/
def strictEquals : Value → Value → Bool
  | undefined, undefined => true
  | null, null => true
  | bool a, bool b => a == b
  | number a, number b => a == b
  | str a, str b => a == b
  | array a, array b => itemsEqual a b
  | object a, object b => fieldsEqual a b
  | _, _ => false

def itemsEqual : List Value → List Value → Bool
  | [], [] => true
  | a :: as, b :: bs => strictEquals a b && itemsEqual as bs
  | _, _ => false

def fieldsEqual : List (String × Value) → List (String × Value) → Bool
  | [], [] => true
  | (k, a) :: as, (l, b) :: bs => k == l && strictEquals a b && fieldsEqual as bs
  | _, _ => false

end

/-- Equality with conversions: missing values are equal to each other only, and values of different
types are compared as numbers. -/
def looseEquals (a b : Value) : Bool :=
  if a.isNullish || b.isNullish then a.isNullish && b.isNullish
  else if a.typeName = b.typeName then a.strictEquals b
  else a.toNumber == b.toNumber

/-! ### Fields -/

def field? (fields : List (String × Value)) (name : String) : Option Value :=
  fields.lookup name

/-! ### JSON -/

/-- Whole numbers of less than 54 bits are integers. Numbers beyond all floats are texts. -/
def numberToJson (x : Float) : Json :=
  if Decimal.isWhole x && x.abs < 9007199254740992 then .int x.toInt64.toInt
  else if x.isFinite then .float x
  else .str (numberText x)

mutual

def toJson : Value → Json
  | undefined | null => .null
  | bool b => .bool b
  | number x => numberToJson x
  | str s => .str s
  | array items => .arr (itemsToJson items)
  | object fields => .obj (fieldsToJson .empty fields).entries

def itemsToJson : List Value → List Json
  | [] => []
  | item :: rest => toJson item :: itemsToJson rest

def fieldsToJson (seen : SortedTable Json) : List (String × Value) → SortedTable Json
  | [] => seen
  | (name, value) :: rest => fieldsToJson (seen.insert name (toJson value)) rest

end

end Value

end NodeScript.Script
