import NodeScript.Decimal.Shortest

/-!
Floats as text. A `Layout` collects the decisions of one output format; `Layout.write` applies them
to the shortest decimal.
-/

namespace NodeScript.Decimal

structure Layout where
  /-- Whether a number is written without an exponent, by the exponent of its leading digit. -/
  positional : Int → Bool
  /-- Whether whole numbers without an exponent end in `.0`. -/
  pointZero : Bool
  /-- Whether exponents that are not negative have a `+`. -/
  plus : Bool
  /-- Whether `-0` keeps its sign. -/
  signedZero : Bool
  tie : Tie
  nan : String
  infinity : String

namespace Layout

private def zeros (n : Int) : String :=
  "".pushn '0' n.toNat

def writePositional (l : Layout) (d : Decimal) : String :=
  let digits := Nat.toDigits 10 d.coefficient
  let whole := digits.length + d.exponent
  if 0 ≤ d.exponent then
    String.ofList digits ++ zeros d.exponent ++ (if l.pointZero then ".0" else "")
  else if 0 < whole then
    String.ofList (digits.take whole.toNat) ++ "." ++ String.ofList (digits.drop whole.toNat)
  else
    "0." ++ zeros (-whole) ++ String.ofList digits

def writeScientific (l : Layout) (d : Decimal) : String :=
  let digits := Nat.toDigits 10 d.coefficient
  let exponent := digits.length + d.exponent - 1
  let fraction := String.ofList (digits.drop 1)
  String.ofList (digits.take 1) ++ (if fraction.isEmpty then "" else "." ++ fraction) ++ "e"
    ++ (if exponent < 0 then "-" else if l.plus then "+" else "") ++ Nat.repr exponent.natAbs

def writeMagnitude (l : Layout) (m : Nat) (q : Int) : String :=
  let d := shortest l.tie m q
  if l.positional (digitCount d.coefficient + d.exponent - 1) then
    l.writePositional d
  else
    l.writeScientific d

def write (l : Layout) (x : Float) : String :=
  if x.isNaN then
    l.nan
  else if x.isInf then
    if x < 0 then "-" ++ l.infinity else l.infinity
  else
    let b := Binary.ofFloat x
    if b.mantissa = 0 then
      (if b.negative && l.signedZero then "-" else "") ++ (if l.pointZero then "0.0" else "0")
    else
      (if b.negative then "-" else "") ++ l.writeMagnitude b.mantissa b.exponent

end Layout

end NodeScript.Decimal
