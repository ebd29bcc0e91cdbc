import NodeScript.Script.Random
import NodeScript.Script.Value

/-!
The functions and constants that every program can use.
-/

namespace NodeScript.Script.Builtin

def round (x : Float) : Float :=
  if x.isFinite then (x + 0.5).floor else x

/-- The number chosen last by comparing the arguments from left to right; any argument that is not a
number decides. -/
def extreme (start : Float) (better : Float → Float → Bool) (args : List Value) : Float :=
  let numbers := args.map Value.toNumber
  if numbers.any Float.isNaN then 0.0 / 0.0
  else numbers.foldl (fun best x => if better x best then x else best) start

def constant? : String → Option Float
  | "PI" => some (Float.ofBits 0x400921FB54442D18)
  | "E" => some (Float.ofBits 0x4005BF0A8B145769)
  | _ => none

def math? (name : String) (args : List Value) (random : Random) : Option (Float × Random) :=
  let arg (i : Nat) : Float := args[i]?.elim (0.0 / 0.0) Value.toNumber
  match name with
  | "floor" => some ((arg 0).floor, random)
  | "ceil" => some ((arg 0).ceil, random)
  | "round" => some (round (arg 0), random)
  | "trunc" => some (Decimal.truncate (arg 0), random)
  | "abs" => some ((arg 0).abs, random)
  | "sqrt" => some ((arg 0).sqrt, random)
  | "pow" => some ((arg 0).pow (arg 1), random)
  | "random" => some random.next
  | "min" => some (extreme (1.0 / 0.0) (fun x best => x < best) args, random)
  | "max" => some (extreme (-1.0 / 0.0) (fun x best => best < x) args, random)
  | _ => none

def parseFloat (text : String) : Float :=
  let text := Text.trimLeft text.toList
  let (negative, unsigned) := Decimal.scanSign text
  if "Infinity".toList.isPrefixOf unsigned then
    if negative then -1.0 / 0.0 else 1.0 / 0.0
  else
    match Decimal.Numeral.scan? text with
    | some (numeral, _) => numeral.toFloat
    | none => 0.0 / 0.0

def convert? (name : String) (args : List Value) : Option Value :=
  match name with
  | "parseFloat" => some (.number (args.head?.elim (0.0 / 0.0) fun v => parseFloat v.text))
  | "Number" => some (.number (args.head?.elim 0 Value.toNumber))
  | "String" => some (.str (args.head?.elim "" Value.text))
  | _ => none

end NodeScript.Script.Builtin
