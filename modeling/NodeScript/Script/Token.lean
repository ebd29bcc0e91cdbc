import NodeScript.Decimal.Layout

/-!
Tokens of the script language.
-/

namespace NodeScript.Script

inductive Punct where
  | parenOpen | parenClose
  | braceOpen | braceClose
  | bracketOpen | bracketClose
  | comma | semicolon | dot | colon
  | plus | minus | star | slash | percent | bang
  | assign | plusAssign | minusAssign | plusPlus | minusMinus
  | equal | strictEqual | notEqual | strictNotEqual
  | less | lessEqual | greater | greaterEqual
  | and | or
  deriving DecidableEq, Repr

def Punct.text : Punct → String
  | parenOpen => "(" | parenClose => ")"
  | braceOpen => "\x7b" | braceClose => "\x7d"
  | bracketOpen => "[" | bracketClose => "]"
  | comma => "," | semicolon => ";" | dot => "." | colon => ":"
  | plus => "+" | minus => "-" | star => "*" | slash => "/" | percent => "%" | bang => "!"
  | assign => "=" | plusAssign => "+=" | minusAssign => "-=" | plusPlus => "++" | minusMinus => "--"
  | equal => "==" | strictEqual => "===" | notEqual => "!=" | strictNotEqual => "!=="
  | less => "<" | lessEqual => "<=" | greater => ">" | greaterEqual => ">="
  | and => "&&" | or => "||"

/-- What a token stands for. Keywords are words; the grammar tells them apart. -/
inductive Lexeme where
  | number (value : Float)
  | str (value : String)
  | word (text : String)
  | punct (mark : Punct)
  deriving Repr

def numberLayout : Decimal.Layout where
  positional := fun _ => true
  pointZero := false
  plus := false
  signedZero := true
  tie := .up
  nan := "NaN"
  infinity := "inf"

def Lexeme.text : Lexeme → String
  | number value => numberLayout.write value
  | str value => "\"" ++ value ++ "\""
  | word text => text
  | punct mark => mark.text

structure Token where
  lexeme : Lexeme
  line : Nat
  deriving Repr

structure TokenStream where
  tokens : List Token
  endLine : Nat
  deriving Repr

def TokenStream.ofTokens (tokens : List Token) : TokenStream where
  tokens := tokens
  endLine := tokens.getLast?.elim 1 Token.line

end NodeScript.Script
