import NodeScript.Table

/-!
JSON values. Fields stay in the order in which they are written, repeated ones included.
-/

namespace NodeScript

inductive Json where
  | null
  | bool (value : Bool)
  /-- A number without a point or exponent, of at most 64 bits. -/
  | int (value : Int)
  | float (value : Float)
  | str (value : String)
  | arr (items : List Json)
  | obj (fields : List (String × Json))
  /-- A value that is spelled as one and cannot be held: a number beyond all floats, a string with
  half of a surrogate pair, or a value that is nested too deeply. It does no harm where nobody reads
  it. -/
  | unusable
  deriving Repr, Inhabited

namespace Json

mutual

/-- The value with the fields of its objects in ascending order and without repetitions, the last
field of a name being the one that counts. There is none if a part of the value is unusable. -/
def canonical? : Json → Option Json
  | arr items => arr <$> canonicalItems? items
  | obj fields => (fun t => obj t.entries) <$> canonicalFields? .empty fields
  | unusable => none
  | value => some value

def canonicalItems? : List Json → Option (List Json)
  | [] => some []
  | item :: rest => do
    let item ← canonical? item
    let rest ← canonicalItems? rest
    return item :: rest

def canonicalFields? (seen : SortedTable Json) : List (String × Json) → Option (SortedTable Json)
  | [] => some seen
  | (key, value) :: rest => do
    let value ← canonical? value
    canonicalFields? (seen.insert key value) rest

end

mutual

def same : Json → Json → Bool
  | null, null => true
  | bool a, bool b => a == b
  | int a, int b => a == b
  | float a, float b => a == b
  | str a, str b => a == b
  | arr a, arr b => sameItems a b
  | obj a, obj b => sameFields a b
  | _, _ => false

def sameItems : List Json → List Json → Bool
  | [], [] => true
  | a :: as, b :: bs => same a b && sameItems as bs
  | _, _ => false

def sameFields : List (String × Json) → List (String × Json) → Bool
  | [], [] => true
  | (k, a) :: as, (l, b) :: bs => k == l && same a b && sameFields as bs
  | _, _ => false

end

end Json

end NodeScript
