import NodeScript.Decimal.Binary

/-!
The shortest decimal that reads back as a given float.

A decimal reads back as `m * 2 ^ q` if it lies in the interval of reals that round to it. For one
digit, two digits and so on, the two neighbours of the value on the grid of decimals with that many
digits are tested against this interval in exact arithmetic. The first grid with a hit wins, and of
two hits the nearer.
-/

namespace NodeScript

structure Decimal where
  coefficient : Nat
  exponent : Int
  deriving DecidableEq, Repr

namespace Decimal

inductive Tie where
  | up
  | toEven
  deriving DecidableEq, Repr

def compareScaled (coefficient : Nat) (k : Int) (n : Nat) (s : Int) : Ordering :=
  compare (coefficient * Nat.pow 10 k.toNat * Nat.pow 2 (-s).toNat)
    (n * Nat.pow 2 s.toNat * Nat.pow 10 (-k).toNat)

/-- The reals that round to `m * 2 ^ q`, as numbers of quarters: from `low * 2 ^ (q - 2)` to
`high * 2 ^ (q - 2)`, with the ends themselves if `closed`. -/
structure Interval where
  low : Nat
  high : Nat
  scale : Int
  closed : Bool

/-- Below a power of two floats lie twice as dense, so the interval of one reaches less far down. -/
def Interval.around (m : Nat) (q : Int) : Interval where
  low := if m = Binary.hiddenBit ∧ -1074 < q then 4 * m - 1 else 4 * m - 2
  high := 4 * m + 2
  scale := q - 2
  closed := m % 2 = 0

def Interval.contains (i : Interval) (d : Decimal) : Bool :=
  let low := compareScaled d.coefficient d.exponent i.low i.scale
  let high := compareScaled d.coefficient d.exponent i.high i.scale
  if i.closed then low.isGE && high.isLE else low.isGT && high.isLT

def digitCount (n : Nat) : Nat :=
  (Nat.toDigits 10 n).length

def leadingExponent (m : Nat) (q : Int) : Int :=
  let numerator := m * Nat.pow 2 q.toNat
  let denominator := Nat.pow 2 (-q).toNat
  if denominator ≤ numerator then
    digitCount (numerator / denominator) - 1
  else
    -(digitCount ((denominator - 1) / numerator))

def nearest? (tie : Tie) (m : Nat) (q : Int) (count : Nat) : Option Decimal :=
  let k := leadingExponent m q - (count - 1 : Nat)
  let below := m * Nat.pow 2 q.toNat * Nat.pow 10 (-k).toNat
    / (Nat.pow 2 (-q).toNat * Nat.pow 10 k.toNat)
  let down : Decimal := ⟨below, k⟩
  let up : Decimal := ⟨below + 1, k⟩
  let interval := Interval.around m q
  match interval.contains down, interval.contains up with
  | false, false => none
  | true, false => some down
  | false, true => some up
  | true, true =>
    match compareScaled (2 * below + 1) k (2 * m) q with
    | .gt => some down
    | .lt => some up
    | .eq =>
      match tie with
      | .up => some up
      | .toEven => if below % 2 = 0 then some down else some up

def dropZeros (d : Decimal) : Decimal :=
  go (digitCount d.coefficient) d
where
  go : Nat → Decimal → Decimal
    | 0, d => d
    | n + 1, d =>
      if d.coefficient % 10 = 0 then go n ⟨d.coefficient / 10, d.exponent + 1⟩ else d

/-- The shortest decimal that reads back as `m * 2 ^ q`, for positive `m`. Seventeen digits always
suffice. -/
def shortest (tie : Tie) (m : Nat) (q : Int) : Decimal :=
  match (List.range 17).findSome? fun n => nearest? tie m q (n + 1) with
  | some d => d.dropZeros
  | none => ⟨0, 0⟩

end Decimal

end NodeScript
