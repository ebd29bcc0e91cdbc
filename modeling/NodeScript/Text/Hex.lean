/-!
Hexadecimal digits.
-/

namespace NodeScript.Text

def hexDigit? (c : Char) : Option Nat :=
  if c.isDigit then some (c.toNat - '0'.toNat)
  else if 'a' ≤ c ∧ c ≤ 'f' then some (c.toNat - 'a'.toNat + 10)
  else if 'A' ≤ c ∧ c ≤ 'F' then some (c.toNat - 'A'.toNat + 10)
  else none

def ofHexDigits? : List Char → Option Nat
  | [] => none
  | digits => digits.foldlM (fun n c => (16 * n + ·) <$> hexDigit? c) 0

def toHex (width : Nat) (n : Nat) : String :=
  let digits := Nat.toDigits 16 n
  "".pushn '0' (width - digits.length) ++ String.ofList digits

end NodeScript.Text
