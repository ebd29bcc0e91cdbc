import NodeScript.Script.NumberText
import NodeScript.Script.Token.Scan
import NodeScript.Script.Tree

/-!
From tokens to trees: a recursive descent over a stream of tokens.

Statements, expressions and the operands of unary operators count as one level of nesting each, and
at most `maxNesting` levels are accepted. Independently of that every rule has a bound on how many
rules it may stand inside; between two tokens fewer than sixteen rules are entered, so that
`TokenStream.bound` is never reached.
-/

namespace NodeScript.Script

def maxNesting : Nat := 500

abbrev Parse := StateT TokenStream (Except SyntaxError)

namespace Parse

/-! ### Single tokens -/

def peek : Parse (Option Lexeme) := do
  return (← get).tokens.head?.map Token.lexeme

def line : Parse Nat := do
  let stream ← get
  return stream.tokens.head?.elim stream.endLine Token.line

def skip : Parse Unit :=
  modify fun stream => { stream with tokens := stream.tokens.tail }

def unexpected {α : Type} (expected : Expectation) : Parse α := do
  throw (.unexpectedToken (← peek) expected (← line))

def check (mark : Punct) : Parse Bool := do
  match ← peek with
  | some (.punct found) => return found = mark
  | _ => return false

def checkWord (word : String) : Parse Bool := do
  match ← peek with
  | some (.word found) => return found = word
  | _ => return false

def atEnd : Parse Bool := do
  return (← get).tokens.isEmpty

def eat (mark : Punct) : Parse Bool := do
  if ← check mark then
    skip
    return true
  else
    return false

def eatWord (word : String) : Parse Bool := do
  if ← checkWord word then
    skip
    return true
  else
    return false

def expect (mark : Punct) : Parse Unit := do
  unless ← eat mark do
    unexpected (.punct mark)

def keywords : List String :=
  ["let", "const", "var", "if", "else", "while", "for", "break", "continue", "return", "function",
   "async", "await", "true", "false", "null", "undefined"]

def isKeyword (word : String) : Bool :=
  keywords.contains word

def identifier : Parse String := do
  match ← peek with
  | some (.word word) =>
    if isKeyword word then
      unexpected .identifier
    else
      skip
      return word
  | _ => unexpected .identifier

def closes : Parse Bool := do
  return (← check .braceClose) || (← atEnd)

/-- The semicolon of a statement may be missing before a brace and at the end. -/
def endStatement : Parse Unit := do
  unless ← eat .semicolon do
    unless ← closes do
      unexpected (.punct .semicolon)

def nested {α : Type} (depth : Nat) (rule : Nat → Parse α) : Parse α := do
  if maxNesting ≤ depth then
    throw (.tooDeeplyNested (← line))
  else
    rule (depth + 1)

/-! ### Operators -/

inductive Connective where
  | binary (op : BinaryOp)
  | logical (op : LogicalOp)
  deriving DecidableEq, Repr

def Connective.apply (connective : Connective) (left right : Expr) : Expr :=
  match connective with
  | binary op => .binary op left right
  | logical op => .logical op left right

def levels : Nat := 6

/-- The operator that a mark stands for at a precedence level. Level `0` binds loosest. -/
def connective? : Nat → Punct → Option Connective
  | 0, .or => some (.logical .or)
  | 1, .and => some (.logical .and)
  | 2, .strictEqual => some (.binary .strictEqual)
  | 2, .strictNotEqual => some (.binary .strictNotEqual)
  | 2, .equal => some (.binary .looseEqual)
  | 2, .notEqual => some (.binary .looseNotEqual)
  | 3, .less => some (.binary .less)
  | 3, .lessEqual => some (.binary .lessEqual)
  | 3, .greater => some (.binary .greater)
  | 3, .greaterEqual => some (.binary .greaterEqual)
  | 4, .plus => some (.binary .add)
  | 4, .minus => some (.binary .subtract)
  | 5, .star => some (.binary .multiply)
  | 5, .slash => some (.binary .divide)
  | 5, .percent => some (.binary .modulo)
  | _, _ => none

def unaryOp? : Punct → Option UnaryOp
  | .bang => some .not
  | .minus => some .negate
  | .plus => some .plus
  | _ => none

def connective (level : Nat) : Parse (Option Connective) := do
  match ← peek with
  | some (.punct mark) =>
    match connective? level mark with
    | some found =>
      skip
      return some found
    | none => return none
  | _ => return none

def unaryOp : Parse (Option UnaryOp) := do
  match ← peek with
  | some (.punct mark) =>
    match unaryOp? mark with
    | some found =>
      skip
      return some found
    | none => return none
  | _ => return none

/-! ### Names and targets -/

/-- A property after a point. The token is taken before it is looked at, so that a complaint is
about the one after it. -/
def property : Parse String := do
  match ← peek with
  | some (.word word) =>
    skip
    return word
  | _ =>
    skip
    unexpected .propertyName

def key : Parse String := do
  match ← peek with
  | some (.word text) | some (.str text) =>
    skip
    return text
  | some (.number value) =>
    skip
    return numberText value
  | _ =>
    skip
    unexpected .propertyName

def target (line : Nat) : Expr → Parse Target
  | .identifier name => return .variable name
  | .index (.identifier name) position => return .element name position
  | _ => throw (.invalidAssignmentTarget line)

def exceeded {α : Type} : Parse α := do
  throw (.tooDeeplyNested (← line))

def names : (bound : Nat) → Parse (List String)
  | 0 => exceeded
  | bound + 1 => do
    let name ← identifier
    if ← eat .comma then
      return name :: (← names bound)
    else
      return [name]

/-! ### Rules -/

mutual

def expression : (bound : Nat) → Nat → Parse Expr
  | 0, _ => exceeded
  | bound + 1, depth => nested depth fun depth => chain bound depth 0

def chain : (bound : Nat) → Nat → Nat → Parse Expr
  | 0, _, _ => exceeded
  | bound + 1, depth, level =>
    if level < levels then do
      let left ← chain bound depth (level + 1)
      chainRest bound depth level left
    else
      unary bound depth

def chainRest : (bound : Nat) → Nat → Nat → Expr → Parse Expr
  | 0, _, _, _ => exceeded
  | bound + 1, depth, level, left => do
    match ← connective level with
    | some op =>
      let right ← chain bound depth (level + 1)
      chainRest bound depth level (op.apply left right)
    | none => return left

def unary : (bound : Nat) → Nat → Parse Expr
  | 0, _ => exceeded
  | bound + 1, depth => do
    match ← unaryOp with
    | some op => return .unary op (← nested depth fun depth => unary bound depth)
    | none =>
      if ← eatWord "await" then
        return .await (← nested depth fun depth => unary bound depth)
      else
        let head ← primary bound depth
        accesses bound depth head

def accesses : (bound : Nat) → Nat → Expr → Parse Expr
  | 0, _, _ => exceeded
  | bound + 1, depth, head => do
    if ← eat .dot then
      accesses bound depth (.member head (← property))
    else if ← eat .bracketOpen then
      let position ← expression bound depth
      expect .bracketClose
      accesses bound depth (.index head position)
    else if ← eat .parenOpen then
      let arguments ← items bound depth .parenClose
      expect .parenClose
      accesses bound depth (.call head arguments)
    else
      return head

def items : (bound : Nat) → Nat → Punct → Parse (List Expr)
  | 0, _, _ => exceeded
  | bound + 1, depth, close => do
    if ← check close then
      return []
    else
      let item ← expression bound depth
      if ← eat .comma then
        return item :: (← items bound depth close)
      else
        return [item]

def fields : (bound : Nat) → Nat → Parse (List (String × Expr))
  | 0, _ => exceeded
  | bound + 1, depth => do
    if ← check .braceClose then
      return []
    else
      let name ← key
      expect .colon
      let value ← expression bound depth
      if ← eat .comma then
        return (name, value) :: (← fields bound depth)
      else
        return [(name, value)]

def primary : (bound : Nat) → Nat → Parse Expr
  | 0, _ => exceeded
  | bound + 1, depth => do
    match ← peek with
    | some (.number value) =>
      skip
      return .number value
    | some (.str value) =>
      skip
      return .str value
    | some (.punct .parenOpen) =>
      skip
      let inner ← expression bound depth
      expect .parenClose
      return inner
    | some (.punct .bracketOpen) =>
      skip
      let elements ← items bound depth .bracketClose
      expect .bracketClose
      return .array elements
    | some (.punct .braceOpen) =>
      skip
      let entries ← fields bound depth
      expect .braceClose
      return .object entries
    | some (.word "true") =>
      skip
      return .bool true
    | some (.word "false") =>
      skip
      return .bool false
    | some (.word "null") =>
      skip
      return .null
    | some (.word "undefined") =>
      skip
      return .undefined
    | some (.word word) =>
      if isKeyword word then
        unexpected .expression
      else
        skip
        return .identifier word
    | _ => unexpected .expression

end

def simpleStatement (bound depth : Nat) : Parse Stmt := do
  let start ← line
  let left ← expression bound depth
  if ← eat .plusPlus then
    return .assign (← target start left) .add (.number 1)
  else if ← eat .minusMinus then
    return .assign (← target start left) .subtract (.number 1)
  else if ← eat .assign then
    assignment start left .assign
  else if ← eat .plusAssign then
    assignment start left .add
  else if ← eat .minusAssign then
    assignment start left .subtract
  else
    return .expr left
where
  assignment (start : Nat) (left : Expr) (op : AssignOp) : Parse Stmt := do
    let value ← expression bound depth
    return .assign (← target start left) op value

def startsDeclaration : Parse Bool := do
  return (← checkWord "let") || (← checkWord "const") || (← checkWord "var")

def declaration (bound depth : Nat) : Parse Stmt := do
  skip
  let name ← identifier
  if ← eat .assign then
    return .declare name (some (← expression bound depth))
  else
    return .declare name none

def condition (bound depth : Nat) : Parse Expr := do
  expect .parenOpen
  let test ← expression bound depth
  expect .parenClose
  return test

def forHead (bound depth : Nat) : Parse (Option Stmt × Option Expr × Option Stmt) := do
  expect .parenOpen
  let init ← initial
  expect .semicolon
  let test ← if ← check .semicolon then pure none else some <$> expression bound depth
  expect .semicolon
  let update ← if ← check .parenClose then pure none else some <$> simpleStatement bound depth
  expect .parenClose
  return (init, test, update)
where
  initial : Parse (Option Stmt) := do
    if ← check .semicolon then
      return none
    else if ← startsDeclaration then
      some <$> declaration bound depth
    else
      some <$> simpleStatement bound depth

def returned (bound depth : Nat) : Parse (Option Expr) := do
  if (← check .semicolon) || (← closes) then
    return none
  else
    some <$> expression bound depth

def functionHead (bound : Nat) : Parse (String × List String) := do
  let _ ← eatWord "async"
  unless ← eatWord "function" do
    unexpected .functionKeyword
  let name ← identifier
  expect .parenOpen
  let params ← if ← check .parenClose then pure [] else names bound
  expect .parenClose
  return (name, params)

mutual

def statement : (bound : Nat) → Nat → Parse Stmt
  | 0, _ => exceeded
  | bound + 1, depth => nested depth fun depth => statementKind bound depth

def statementKind : (bound : Nat) → Nat → Parse Stmt
  | 0, _ => exceeded
  | bound + 1, depth => do
    if ← eat .semicolon then
      return .block []
    else if ← check .braceOpen then
      return .block (← block bound depth)
    else if ← startsDeclaration then
      let stmt ← declaration bound depth
      endStatement
      return stmt
    else if ← eatWord "if" then
      ifStatement bound depth
    else if ← eatWord "while" then
      let test ← condition bound depth
      return .whileLoop test (← body bound depth)
    else if ← eatWord "for" then
      let (init, test, update) ← forHead bound depth
      return .forLoop init test update (← body bound depth)
    else if ← eatWord "break" then
      endStatement
      return .breakLoop
    else if ← eatWord "continue" then
      endStatement
      return .continueLoop
    else if ← eatWord "return" then
      let value ← returned bound depth
      endStatement
      return .returnValue value
    else if (← checkWord "function") || (← checkWord "async") then
      let (name, params) ← functionHead bound
      return .function name params (← block bound depth)
    else
      let stmt ← simpleStatement bound depth
      endStatement
      return stmt

def ifStatement : (bound : Nat) → Nat → Parse Stmt
  | 0, _ => exceeded
  | bound + 1, depth => do
    let test ← condition bound depth
    let thenBody ← body bound depth
    if ← eatWord "else" then
      if ← eatWord "if" then
        return .ifElse test thenBody (some [← ifStatement bound depth])
      else
        return .ifElse test thenBody (some (← body bound depth))
    else
      return .ifElse test thenBody none

def block : (bound : Nat) → Nat → Parse (List Stmt)
  | 0, _ => exceeded
  | bound + 1, depth => do
    expect .braceOpen
    blockRest bound depth

def blockRest : (bound : Nat) → Nat → Parse (List Stmt)
  | 0, _ => exceeded
  | bound + 1, depth => do
    if ← eat .braceClose then
      return []
    else if ← atEnd then
      unexpected (.punct .braceClose)
    else
      let stmt ← statement bound depth
      return stmt :: (← blockRest bound depth)

def body : (bound : Nat) → Nat → Parse (List Stmt)
  | 0, _ => exceeded
  | bound + 1, depth => do
    if ← check .braceOpen then
      block bound depth
    else
      return [← statement bound depth]

end

def statements : (bound : Nat) → Parse (List Stmt)
  | 0 => exceeded
  | bound + 1 => do
    if ← atEnd then
      return []
    else
      let stmt ← statement bound 0
      return stmt :: (← statements bound)

end Parse

def TokenStream.bound (stream : TokenStream) : Nat :=
  16 * (stream.tokens.length + 2)

def Program.ofTokens (stream : TokenStream) : Except SyntaxError Program := do
  let (body, _) ← Parse.statements stream.bound stream
  return ⟨body⟩

def Expr.ofTokens (stream : TokenStream) : Except SyntaxError Expr := do
  let (expr, _) ← Parse.expression stream.bound 0 stream
  return expr

def Program.parse (source : String) : Except SyntaxError Program := do
  Program.ofTokens (← TokenStream.scan source)

end NodeScript.Script
