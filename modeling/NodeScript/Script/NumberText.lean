import NodeScript.Decimal.Layout

/-!
How programs write numbers.
-/

namespace NodeScript.Script

def valueLayout : Decimal.Layout where
  positional := fun e => -6 ≤ e && e ≤ 20
  pointZero := false
  plus := true
  signedZero := false
  tie := .up
  nan := "NaN"
  infinity := "Infinity"

def numberText (x : Float) : String :=
  valueLayout.write x

end NodeScript.Script
