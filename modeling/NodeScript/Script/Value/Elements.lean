import NodeScript.Script.RuntimeError
import NodeScript.Script.Value

/-!
Properties and elements of values, and the two methods of arrays.
-/

namespace NodeScript.Script.Value

/-- The longest array that a program can make by writing to an element or by appending. -/
def maxArrayLength : Nat := 1048576

def position? (index : Value) : Option Nat :=
  let n := index.toNumber
  if 0 ≤ n && Decimal.isWhole n && n < 4294967295 then some n.toUInt64.toNat else none

def readProperty (holder : Value) (name : String) : Except RuntimeError Value :=
  match holder with
  | array items => .ok (if name = "length" then number (Float.ofNat items.length) else undefined)
  | str s => .ok (if name = "length" then number (Float.ofNat s.length) else undefined)
  | object fields => .ok ((field? fields name).getD undefined)
  | undefined | null => .error (.unreadable holder.text name)
  | bool _ | number _ => .ok undefined

def readElement (holder index : Value) : Except RuntimeError Value :=
  match holder with
  | array items => .ok ((index.position?.bind fun i => items[i]?).getD undefined)
  | str s =>
    .ok ((index.position?.bind fun i => s.toList[i]?).elim undefined fun c => str c.toString)
  | object fields => .ok ((field? fields index.text).getD undefined)
  | undefined | null => .error (.unreadable holder.text index.text)
  | bool _ | number _ => .ok undefined

def updateField (name : String) (f : Value → Value) :
    List (String × Value) → List (String × Value)
  | [] => [(name, f undefined)]
  | (key, value) :: rest =>
    if key = name then (key, f value) :: rest else (key, value) :: updateField name f rest

def updateItem (i : Nat) (f : Value → Value) (items : List Value) : List Value :=
  (items ++ List.replicate (i + 1 - items.length) undefined).modify i f

def updateElement (holder index : Value) (name : String) (f : Value → Value) :
    Except RuntimeError Value :=
  match holder with
  | array items =>
    match index.position? with
    | none => .error (.invalidArrayIndex index.text name)
    | some i =>
      if items.length ≤ i ∧ maxArrayLength ≤ i then .error .invalidArrayLength
      else .ok (array (updateItem i f items))
  | object fields => .ok (object (updateField index.text f fields))
  | other => .error (.unwritable other.typeName name)

inductive Method where
  | push | pop
  deriving DecidableEq, Repr

def Method.ofName? : String → Option Method
  | "push" => some .push
  | "pop" => some .pop
  | _ => none

def Method.name : Method → String
  | push => "push" | pop => "pop"

def Method.call (method : Method) (name : String) (holder : Value) (args : List Value) :
    Except RuntimeError (Value × Value) :=
  match holder with
  | .array items =>
    match method with
    | push =>
      if maxArrayLength < items.length + args.length then .error .invalidArrayLength
      else .ok (.array (items ++ args), .number (Float.ofNat (items.length + args.length)))
    | pop => .ok (.array items.dropLast, items.getLast?.getD .undefined)
  | _ => .error (.notAFunction (name ++ "." ++ method.name))

end NodeScript.Script.Value
