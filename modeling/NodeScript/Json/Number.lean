import NodeScript.Decimal.Numeral
import NodeScript.Json
import NodeScript.Word

/-!
Numbers in JSON texts: their spelling, and the value that a spelling denotes.

The digits are collected in a 64-bit integer. Digits that do not fit are dropped, and the result is
scaled by one power of ten, so that a float may be off by its last bit where the spelling has many
digits.
-/

namespace NodeScript.Json

/-- A number as it is spelled. The exponent is given by its sign and digits. -/
structure Spelling where
  negative : Bool
  whole : List Char
  fraction : List Char
  exponent : Option (Bool × List Char)

structure Collected where
  significand : Nat
  exponent : Int

def Collected.extend : Nat → List Char → Nat × List Char
  | n, [] => (n, [])
  | n, c :: rest =>
    let next := 10 * n + (c.toNat - '0'.toNat)
    if next ≤ Word.greatest then extend next rest else (n, c :: rest)

def Collected.ofSpelling (s : Spelling) : Collected :=
  let (whole, dropped) := extend 0 s.whole
  let (significand, unused) := extend whole s.fraction
  { significand
    exponent := dropped.length - (s.fraction.length - unused.length : Nat) }

def scaleDown : (steps : Nat) → Float → Nat → Float
  | 0, f, _ => f
  | steps + 1, f, e =>
    if e ≤ 308 then f / Float.ofScientific 1 false e
    else if f == 0 then f
    else scaleDown steps (f / 1e308) (e - 308)

def scale? (significand : Nat) (exponent : Int) : Option Float :=
  let f := Float.ofNat significand
  if exponent < 0 then
    some (scaleDown 4 f exponent.natAbs)
  else if exponent ≤ 308 then
    let scaled := f * Float.ofScientific 1 false exponent.natAbs
    if scaled.isInf then none else some scaled
  else
    if f == 0 then some f else none

def Spelling.writtenExponent? (s : Spelling) : Option Int :=
  match s.exponent with
  | none => some 0
  | some (negative, digits) =>
    let n := Decimal.ofDigits digits
    if n ≤ 2147483647 then some (if negative then -(n : Int) else n) else none

def Spelling.float? (s : Spelling) : Option Float :=
  let c := Collected.ofSpelling s
  match s.writtenExponent? with
  | some e => scale? c.significand (c.exponent + e)
  | none =>
    if c.significand ≠ 0 ∧ s.exponent.any (fun (negative, _) => !negative) then none else some 0

/-- A spelling without point and exponent is an integer if it fits in 64 bits, with or without a
sign; `-0` is a float. -/
def Spelling.toJson (s : Spelling) : Json :=
  let sign (f : Float) : Json := .float (if s.negative then -f else f)
  let (n, dropped) := Collected.extend 0 s.whole
  if s.fraction.isEmpty ∧ s.exponent.isNone ∧ dropped.isEmpty then
    if !s.negative then .int n
    else if 0 < n ∧ Word.leastSigned ≤ -n then .int (-n)
    else sign (Float.ofNat n)
  else
    match s.float? with
    | some f => sign f
    | none => .unusable

end NodeScript.Json
