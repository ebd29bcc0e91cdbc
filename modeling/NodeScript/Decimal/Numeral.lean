/-!
Decimal numerals: their spelling, the longest one at the start of a text, and the float nearest to
the number that one denotes.
-/

namespace NodeScript.Decimal

/-- A numeral `±whole.fraction e exponent`, with its digits as they are written. -/
structure Numeral where
  negative : Bool
  whole : List Char
  fraction : List Char
  exponent : Int
  deriving DecidableEq, Repr

def ofDigits (digits : List Char) : Nat :=
  digits.foldl (fun n c => 10 * n + (c.toNat - '0'.toNat)) 0

def scanDigits (text : List Char) : List Char × List Char :=
  text.span Char.isDigit

def scanSign : List Char → Bool × List Char
  | '-' :: rest => (true, rest)
  | '+' :: rest => (false, rest)
  | text => (false, text)

def scanFraction : List Char → List Char × List Char
  | '.' :: rest => scanDigits rest
  | text => ([], text)

def scanExponent (text : List Char) : Int × List Char :=
  match text with
  | c :: rest =>
    if c = 'e' ∨ c = 'E' then
      let (negative, rest) := scanSign rest
      match scanDigits rest with
      | ([], _) => (0, text)
      | (digits, rest) => (if negative then -(ofDigits digits : Int) else ofDigits digits, rest)
    else
      (0, text)
  | [] => (0, [])

namespace Numeral

/-- Takes the longest numeral at the start of a text. It has a digit before or after its point. -/
def scan? (text : List Char) : Option (Numeral × List Char) :=
  let (negative, text) := scanSign text
  let (whole, text) := scanDigits text
  let (fraction, rest) := scanFraction text
  if whole.isEmpty && fraction.isEmpty then
    none
  else
    let (exponent, rest) := scanExponent rest
    some (⟨negative, whole, fraction, exponent⟩, rest)

def read? (text : List Char) : Option Numeral :=
  match scan? text with
  | some (n, []) => some n
  | _ => none

/-- The float nearest to `coefficient * 10 ^ exponent`. Numbers from `10 ^ 310` on are beyond all
floats, and those below `10 ^ (-330)` are nearer to zero than to any other. -/
def scaled (coefficient : Nat) (exponent : Int) : Float :=
  let leading := (Nat.toDigits 10 coefficient).length + exponent
  if coefficient = 0 || leading < -330 then
    0
  else if 310 < leading then
    1.0 / 0.0
  else
    Float.ofScientific coefficient (exponent < 0) exponent.natAbs

def toFloat (n : Numeral) : Float :=
  let magnitude := scaled (ofDigits (n.whole ++ n.fraction)) (n.exponent - n.fraction.length)
  if n.negative then -magnitude else magnitude

end Numeral

def readFloat (text : List Char) : Float :=
  match Numeral.read? text with
  | some n => n.toFloat
  | none => 0.0 / 0.0

end NodeScript.Decimal
