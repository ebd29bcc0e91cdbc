/-!
Floats as exact integers: a finite `Float` is a natural number times a power of two, with a sign.
-/

namespace NodeScript.Decimal

/-- The number `mantissa * 2 ^ exponent`, negated if `negative`. -/
structure Binary where
  negative : Bool
  mantissa : Nat
  exponent : Int
  deriving DecidableEq, Repr

namespace Binary

def hiddenBit : Nat := 4503599627370496

/-- The exact value of a finite float. The sign is that of the bit pattern, so `-0` is negative. -/
def ofFloat (x : Float) : Binary :=
  let bits := x.toBits.toNat
  let fraction := bits % hiddenBit
  let biased := bits / hiddenBit % 2048
  { negative := bits / (2048 * hiddenBit) = 1
    mantissa := if biased = 0 then fraction else hiddenBit + fraction
    exponent := (max biased 1 : Nat) - 1075 }

/-- The float nearest to the number; exact if the mantissa has at most 53 bits and the exponent is
that of a float. -/
def toFloat (x : Binary) : Float :=
  let magnitude := (Float.ofNat x.mantissa).scaleB x.exponent
  if x.negative then -magnitude else magnitude

end Binary

def truncate (x : Float) : Float :=
  if x < 0 then x.ceil else x.floor

def isWhole (x : Float) : Bool :=
  x - truncate x == 0

/-- The remainder of dividing `x` by `y` with the quotient rounded towards zero. It is exact and has
the sign of `x`. -/
def remainder (x y : Float) : Float :=
  if !x.isFinite || y.isNaN || y == 0 then
    0.0 / 0.0
  else if y.isInf then
    x
  else
    let a := Binary.ofFloat x
    let b := Binary.ofFloat y
    let exponent := min a.exponent b.exponent
    let scale (z : Binary) : Nat := z.mantissa * Nat.pow 2 (z.exponent - exponent).toNat
    Binary.toFloat { negative := a.negative, mantissa := scale a % scale b, exponent }

end NodeScript.Decimal
