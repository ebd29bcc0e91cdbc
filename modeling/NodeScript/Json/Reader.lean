import NodeScript.Json.Number
import NodeScript.Text.Hex

/-!
Reading JSON texts. The grammar is strict: no comments, no trailing commas, no superfluous zeros or
signs, and no control characters in strings.
-/

namespace NodeScript.Json

def maxNesting : Nat := 127

def skipBlanks (text : List Char) : List Char :=
  text.dropWhile fun c => c = ' ' || c = '\t' || c = '\n' || c = '\r'

/-! ### Numbers -/

def scanExponent? : List Char → Option (Option (Bool × List Char) × List Char)
  | c :: rest =>
    if c = 'e' ∨ c = 'E' then
      let (negative, rest) := Decimal.scanSign rest
      match Decimal.scanDigits rest with
      | ([], _) => none
      | (digits, rest) => some (some (negative, digits), rest)
    else
      some (none, c :: rest)
  | [] => some (none, [])

def scanFraction? : List Char → Option (List Char × List Char)
  | '.' :: rest =>
    match Decimal.scanDigits rest with
    | ([], _) => none
    | (digits, rest) => some (digits, rest)
  | text => some ([], text)

def scanNumber? (text : List Char) : Option (Spelling × List Char) := do
  let (negative, text) := match text with
    | '-' :: rest => (true, rest)
    | text => (false, text)
  let (whole, rest) := Decimal.scanDigits text
  guard (!whole.isEmpty && (whole.length = 1 || whole.head? ≠ some '0'))
  let (fraction, rest) ← scanFraction? rest
  let (exponent, rest) ← scanExponent? rest
  return (⟨negative, whole, fraction, exponent⟩, rest)

/-! ### Strings -/

inductive Piece where
  | char (c : Char)
  | unit (code : Nat)

/-- Puts the pieces of a string together. Two halves of a surrogate pair make one character; a half
without its other half makes none. -/
def join? : List Piece → Option (List Char)
  | [] => some []
  | .char c :: rest => (c :: ·) <$> join? rest
  | .unit high :: .unit low :: rest =>
    if 0xD800 ≤ high ∧ high < 0xDC00 then
      if 0xDC00 ≤ low ∧ low < 0xE000 then
        (Char.ofNat (0x10000 + (high - 0xD800) * 0x400 + (low - 0xDC00)) :: ·) <$> join? rest
      else
        none
    else if 0xDC00 ≤ high ∧ high < 0xE000 then
      none
    else
      (Char.ofNat high :: ·) <$> join? (.unit low :: rest)
  | .unit code :: rest =>
    if 0xD800 ≤ code ∧ code < 0xE000 then none else (Char.ofNat code :: ·) <$> join? rest

def unescape? : Char → Option Char
  | '"' => some '"'
  | '\\' => some '\\'
  | '/' => some '/'
  | 'b' => some '\x08'
  | 'f' => some '\x0c'
  | 'n' => some '\n'
  | 'r' => some '\r'
  | 't' => some '\t'
  | _ => none

def scanPieces? : List Char → Option (List Piece × List Char)
  | '"' :: rest => some ([], rest)
  | '\\' :: 'u' :: a :: b :: c :: d :: rest => do
    let code ← Text.ofHexDigits? [a, b, c, d]
    let (pieces, rest) ← scanPieces? rest
    return (.unit code :: pieces, rest)
  | '\\' :: c :: rest => do
    let c ← unescape? c
    let (pieces, rest) ← scanPieces? rest
    return (.char c :: pieces, rest)
  | c :: rest => do
    guard (0x20 ≤ c.toNat && c ≠ '\\')
    let (pieces, rest) ← scanPieces? rest
    return (.char c :: pieces, rest)
  | [] => none

/-- Takes a string whose opening quote has been taken. The text of the string is missing if it has
half of a surrogate pair. -/
def scanString? (text : List Char) : Option (Option String × List Char) := do
  let (pieces, rest) ← scanPieces? text
  return (String.ofList <$> join? pieces, rest)

/-! ### Values -/

def scanWord? (word : String) (value : Json) (text : List Char) : Option (Json × List Char) :=
  if word.toList.isPrefixOf text then some (value, text.drop word.length) else none

mutual

/-- Takes a value that stands inside `depth` arrays and objects. Every value takes at least one
character, so the length of the text bounds the nesting. -/
def scanValue? : (bound : Nat) → Nat → List Char → Option (Json × List Char)
  | 0, _, _ => none
  | bound + 1, depth, text =>
    match skipBlanks text with
    | 'n' :: rest => scanWord? "null" .null ('n' :: rest)
    | 't' :: rest => scanWord? "true" (.bool true) ('t' :: rest)
    | 'f' :: rest => scanWord? "false" (.bool false) ('f' :: rest)
    | '"' :: rest => do
      let (value, rest) ← scanString? rest
      return (value.elim .unusable .str, rest)
    | '[' :: rest => do
      let (items, rest) ← match skipBlanks rest with
        | ']' :: rest => some ([], rest)
        | rest => scanItems? bound (depth + 1) rest
      return (if depth < maxNesting then .arr items else .unusable, rest)
    | '{' :: rest => do
      let (fields, rest) ← match skipBlanks rest with
        | '}' :: rest => some (some [], rest)
        | rest => scanFields? bound (depth + 1) rest
      let value := if depth < maxNesting then fields.elim .unusable .obj else .unusable
      return (value, rest)
    | text => do
      let (spelling, rest) ← scanNumber? text
      return (spelling.toJson, rest)

def scanItems? : (bound : Nat) → Nat → List Char → Option (List Json × List Char)
  | 0, _, _ => none
  | bound + 1, depth, text => do
    let (item, rest) ← scanValue? bound depth text
    match skipBlanks rest with
    | ',' :: rest => do
      let (items, rest) ← scanItems? bound depth rest
      return (item :: items, rest)
    | ']' :: rest => return ([item], rest)
    | _ => none

def scanFields? :
    (bound : Nat) → Nat → List Char → Option (Option (List (String × Json)) × List Char)
  | 0, _, _ => none
  | bound + 1, depth, text => do
    let '"' :: rest := skipBlanks text | none
    let (key, rest) ← scanString? rest
    let ':' :: rest := skipBlanks rest | none
    let (value, rest) ← scanValue? bound depth rest
    match skipBlanks rest with
    | ',' :: rest => do
      let (fields, rest) ← scanFields? bound depth rest
      return (return (← key, value) :: (← fields), rest)
    | '}' :: rest => return (return [(← key, value)], rest)
    | _ => none

end

def read? (source : String) : Option Json := do
  let text := source.toList
  let (value, rest) ← scanValue? (2 * text.length + 1) 0 text
  guard (skipBlanks rest).isEmpty
  return value

end NodeScript.Json
