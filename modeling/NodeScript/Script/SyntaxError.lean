import NodeScript.Script.Token

/-!
Why a text is not a program.
-/

namespace NodeScript.Script

inductive Expectation where
  | punct (mark : Punct)
  | identifier
  | functionKeyword
  | propertyName
  | expression
  deriving DecidableEq, Repr

def Expectation.text : Expectation → String
  | punct mark => "'" ++ mark.text ++ "'"
  | identifier => "an identifier"
  | functionKeyword => "'function'"
  | propertyName => "a property name"
  | expression => "an expression"

inductive SyntaxError where
  | unexpectedCharacter (found : Char) (line : Nat)
  | unterminatedString (line : Nat)
  | unterminatedComment (line : Nat)
  | unexpectedToken (found : Option Lexeme) (expected : Expectation) (line : Nat)
  | invalidAssignmentTarget (line : Nat)
  | tooDeeplyNested (line : Nat)
  deriving Repr

def SyntaxError.message : SyntaxError → String
  | unexpectedCharacter found line => s!"Unexpected character '{found}' on line {line}"
  | unterminatedString line => s!"Unterminated string literal on line {line}"
  | unterminatedComment line => s!"Unterminated comment on line {line}"
  | unexpectedToken found expected line =>
    let found := found.elim "end of input" Lexeme.text
    let expected := expected.text
    s!"Unexpected token '{found}' on line {line}, expected {expected}"
  | invalidAssignmentTarget line => s!"Invalid assignment target on line {line}"
  | tooDeeplyNested line => s!"Program is nested too deeply on line {line}"

end NodeScript.Script
