import NodeScript.Decimal.Numeral
import NodeScript.Script.SyntaxError
import NodeScript.Text.Blank
import NodeScript.Text.Hex
import NodeScript.Text.Letter
import NodeScript.Text.Numeric

/-!
From text to tokens. Every scanner takes what it recognises from the start of a list of characters
and gives back the rest; those that can meet a line break also keep the current line.
-/

namespace NodeScript.Script

/-! ### Trivia -/

inductive Trivia where
  | blank
  | lineComment
  | blockComment (startLine : Nat)
  deriving DecidableEq, Repr

def skipTrivia : Trivia → Nat → List Char → Except SyntaxError (Nat × List Char)
  | .blockComment start, _, [] => .error (.unterminatedComment start)
  | _, line, [] => .ok (line, [])
  | .blank, line, '\n' :: rest => skipTrivia .blank (line + 1) rest
  | .blank, line, '/' :: '/' :: rest => skipTrivia .lineComment line rest
  | .blank, line, '/' :: '*' :: rest => skipTrivia (.blockComment line) line rest
  | .blank, line, c :: rest =>
    if Text.isBlank c then skipTrivia .blank line rest else .ok (line, c :: rest)
  | .lineComment, line, '\n' :: rest => skipTrivia .blank (line + 1) rest
  | .lineComment, line, _ :: rest => skipTrivia .lineComment line rest
  | .blockComment start, line, '\n' :: rest => skipTrivia (.blockComment start) (line + 1) rest
  | .blockComment _, line, '*' :: '/' :: rest => skipTrivia .blank line rest
  | .blockComment start, line, _ :: rest => skipTrivia (.blockComment start) line rest

/-! ### Numbers -/

def scanSignSpelling : List Char → List Char × List Char
  | '+' :: rest => (['+'], rest)
  | '-' :: rest => (['-'], rest)
  | rest => ([], rest)

def scanExponentSpelling : List Char → List Char × List Char
  | c :: rest =>
    if c = 'e' ∨ c = 'E' then
      let (sign, rest) := scanSignSpelling rest
      let (digits, rest) := Decimal.scanDigits rest
      (c :: sign ++ digits, rest)
    else
      ([], c :: rest)
  | [] => ([], [])

/-- Takes digits and points, as many as there are, and an exponent. A spelling that is no numeral
denotes the number that is not one. -/
def scanNumber (text : List Char) : Float × List Char :=
  let (digits, rest) := text.span fun c => c.isDigit || c = '.'
  let (exponent, rest) := scanExponentSpelling rest
  (Decimal.readFloat (digits ++ exponent), rest)

/-! ### Strings -/

inductive StringState where
  | plain
  | escape
  | code (taken : List Char)
  deriving DecidableEq, Repr

/-- The character with the given hexadecimal code, which may have a plus sign. Codes of no character
stand for the replacement character. -/
def ofCode (code : List Char) : Char :=
  let digits := match code with
    | '+' :: digits => digits
    | digits => digits
  match Text.ofHexDigits? digits with
  | some n => if n.isValidChar then Char.ofNat n else '�'
  | none => '�'

def scanString (quote : Char) (startLine : Nat) :
    StringState → Nat → List Char → Except SyntaxError (List Char × Nat × List Char)
  | _, _, [] => .error (.unterminatedString startLine)
  | .plain, line, c :: rest =>
    if c = '\n' then .error (.unterminatedString startLine)
    else if c = quote then .ok ([], line, rest)
    else if c = '\\' then scanString quote startLine .escape line rest
    else push c (scanString quote startLine .plain line rest)
  | .escape, line, c :: rest =>
    match c with
    | 'n' => push '\n' (scanString quote startLine .plain line rest)
    | 'r' => push '\r' (scanString quote startLine .plain line rest)
    | 't' => push '\t' (scanString quote startLine .plain line rest)
    | '0' => push '\x00' (scanString quote startLine .plain line rest)
    | 'u' => scanString quote startLine (.code []) line rest
    | '\n' => scanString quote startLine .plain (line + 1) rest
    | c => push c (scanString quote startLine .plain line rest)
  | .code taken, line, c :: rest =>
    -- A line break inside a code is part of the code and starts no line.
    if taken.length < 3 then scanString quote startLine (.code (c :: taken)) line rest
    else push (ofCode (c :: taken).reverse) (scanString quote startLine .plain line rest)
where
  push (c : Char) (result : Except SyntaxError (List Char × Nat × List Char)) :
      Except SyntaxError (List Char × Nat × List Char) :=
    result.map fun (text, line, rest) => (c :: text, line, rest)

/-! ### Words and marks -/

def isWordStart (c : Char) : Bool :=
  Text.isLetter c || c = '_' || c = '$'

def isWordPart (c : Char) : Bool :=
  Text.isLetter c || Text.isNumeric c || c = '_' || c = '$'

def scanPunct? : List Char → Option (Punct × List Char)
  | '(' :: rest => some (.parenOpen, rest)
  | ')' :: rest => some (.parenClose, rest)
  | '{' :: rest => some (.braceOpen, rest)
  | '}' :: rest => some (.braceClose, rest)
  | '[' :: rest => some (.bracketOpen, rest)
  | ']' :: rest => some (.bracketClose, rest)
  | ',' :: rest => some (.comma, rest)
  | ';' :: rest => some (.semicolon, rest)
  | ':' :: rest => some (.colon, rest)
  | '.' :: rest => some (.dot, rest)
  | '*' :: rest => some (.star, rest)
  | '/' :: rest => some (.slash, rest)
  | '%' :: rest => some (.percent, rest)
  | '+' :: '+' :: rest => some (.plusPlus, rest)
  | '+' :: '=' :: rest => some (.plusAssign, rest)
  | '+' :: rest => some (.plus, rest)
  | '-' :: '-' :: rest => some (.minusMinus, rest)
  | '-' :: '=' :: rest => some (.minusAssign, rest)
  | '-' :: rest => some (.minus, rest)
  | '=' :: '=' :: '=' :: rest => some (.strictEqual, rest)
  | '=' :: '=' :: rest => some (.equal, rest)
  | '=' :: rest => some (.assign, rest)
  | '!' :: '=' :: '=' :: rest => some (.strictNotEqual, rest)
  | '!' :: '=' :: rest => some (.notEqual, rest)
  | '!' :: rest => some (.bang, rest)
  | '<' :: '=' :: rest => some (.lessEqual, rest)
  | '<' :: rest => some (.less, rest)
  | '>' :: '=' :: rest => some (.greaterEqual, rest)
  | '>' :: rest => some (.greater, rest)
  | '&' :: '&' :: rest => some (.and, rest)
  | '|' :: '|' :: rest => some (.or, rest)
  | _ => none

/-! ### Tokens -/

def startsNumber (c : Char) (rest : List Char) : Bool :=
  c.isDigit || (c = '.' && rest.head?.any Char.isDigit)

def scanLexeme (line : Nat) (c : Char) (rest : List Char) :
    Except SyntaxError (Lexeme × Nat × List Char) :=
  if c = '"' ∨ c = '\'' then
    (scanString c line .plain line rest).map fun (text, line, rest) =>
      (.str (String.ofList text), line, rest)
  else if startsNumber c rest then
    let (value, rest) := scanNumber (c :: rest)
    .ok (.number value, line, rest)
  else if isWordStart c then
    let (word, rest) := rest.span isWordPart
    .ok (.word (String.ofList (c :: word)), line, rest)
  else
    match scanPunct? (c :: rest) with
    | some (mark, rest) => .ok (.punct mark, line, rest)
    | none => .error (.unexpectedCharacter c line)

/-- Takes the tokens of a text that starts on the given line. A token takes at least one character,
so the length of the text bounds their number. -/
def scanTokens : (bound : Nat) → Nat → List Char → Except SyntaxError TokenStream
  | 0, line, _ => .ok ⟨[], line⟩
  | bound + 1, line, text => do
    match ← skipTrivia .blank line text with
    | (line, []) => .ok ⟨[], line⟩
    | (line, c :: rest) =>
      let (lexeme, next, rest) ← scanLexeme line c rest
      let stream ← scanTokens bound next rest
      .ok ⟨⟨lexeme, line⟩ :: stream.tokens, stream.endLine⟩

def TokenStream.scan (source : String) : Except SyntaxError TokenStream :=
  let text := source.toList
  scanTokens (text.length + 1) 1 text

end NodeScript.Script
