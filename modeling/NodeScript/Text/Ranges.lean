/-!
Classes of characters given by ranges of code points.
-/

namespace NodeScript.Text

/-- Ranges in order. Each is given by how many code points lie before it, from `first` or from the range before it on,
and how many it has. -/
def rangesOf (first : Nat) : List (Nat × Nat) → List (Nat × Nat)
  | [] => []
  | (gap, count) :: rest =>
    (first + gap, first + gap + count - 1) :: rangesOf (first + gap + count) rest

def inRanges (ranges : List (Nat × Nat)) (c : Char) : Bool :=
  ranges.any fun (low, high) => low ≤ c.toNat && c.toNat ≤ high

end NodeScript.Text
