import NodeScript.Compile
import NodeScript.Proofs.Names
import NodeScript.Proofs.Parse.Expression

/-!
The trees that generated code stands for, built without going through its text.
-/

namespace NodeScript.Compile

open Script

def atomTree? (text : String) : Option Expr :=
  match text.toList with
  | [] => none
  | c :: tail =>
    match scanLexeme 1 c tail with
    | .ok (lexeme, _, []) => Parse.atom? lexeme
    | _ => none

def IsAtom (text : String) : Prop :=
  (atomTree? text).isSome

instance (text : String) : Decidable (IsAtom text) :=
  inferInstanceAs (Decidable ((atomTree? text).isSome = true))

def rawTree (text : String) : Expr :=
  if text = "[]" then .array [] else (atomTree? text).getD .undefined

def binaryOp? : String → Option BinaryOp
  | "+" => some .add
  | "-" => some .subtract
  | "*" => some .multiply
  | "/" => some .divide
  | "%" => some .modulo
  | "<" => some .less
  | "<=" => some .lessEqual
  | ">" => some .greater
  | ">=" => some .greaterEqual
  | "===" => some .strictEqual
  | "!==" => some .strictNotEqual
  | _ => none

def Code.tree : Code → Expr
  | ident name => .identifier name
  | member record field => .member (.identifier record) field
  | raw text => rawTree text
  | quoted text => .str text
  | binary operator left right =>
    .binary ((binaryOp? operator).getD .add) left.tree right.tree
  | random least greatest =>
    let span := .binary .add (.binary .subtract greatest.tree least.tree) (rawTree "1")
    let fraction := .call (.member (.identifier "Math") "random") []
    .binary .add (.call (.member (.identifier "Math") "floor") [.binary .multiply fraction span]) least.tree
  | not operand => .unary .not operand.tree
  | length array => .member (.identifier array) "length"
  | element array index => .index (.identifier array) index.tree
  | undefined | circular | tooDeep => .undefined

def bindTree (fresh : Bool) (name : String) (value : Expr) : Stmt :=
  if fresh then .declare name (some value) else .assign (.variable name) .assign value

def Line.tree? : Line → Option Stmt
  | enter node => some (.expr (.await (.call (.identifier "__onNode") [.str node])))
  | notify name => some (.expr (.call (.identifier "__onVar") [.str name, .identifier name]))
  | assign fresh name value => some (bindTree fresh name value.tree)
  | ask fresh name message =>
    let answer := .await (.call (.identifier "prompt") [message.tree])
    some (bindTree fresh name (.call (.identifier "parseFloat") [answer]))
  | print value => some (.expr (.call (.member (.identifier "console") "log") [value.tree]))
  | breakLoop => some .breakLoop
  | continueLoop => some .continueLoop
  | push array value => some (.expr (.call (.member (.identifier array) "push") [value.tree]))
  | pop temporary array =>
    some (.declare temporary (some (.call (.member (.identifier array) "pop") [])))
  | store array index value => some (.assign (.element array index.tree) .assign value.tree)
  | returnNothing => some (.returnValue none)
  | returnValue value => some (.returnValue (some value.tree))
  | returnRecord fields =>
    some (.returnValue (some (.object (fields.map fun field => (field.1, field.2.tree)))))
  | call temporary function arguments =>
    let result := .await (.call (.identifier function) (arguments.map Code.tree))
    some (temporary.elim (.expr result) fun name => .declare name (some result))
  | unknownFunction _ => none
  | nestingTooDeep => none

mutual

def Item.trees : Item → List Stmt
  | .line line => line.tree?.toList
  | .ifElse cond thenItems elseItems =>
    [.ifElse cond.tree (treesOf thenItems) (some (treesOf elseItems))]
  | .whileLoop cond body => [.whileLoop cond.tree (treesOf body)]
  | .forLoop name start limit step body =>
    [.forLoop (some (.declare name (some start.tree))) (some (.binary .less (.identifier name) limit.tree))
      (some (.assign (.variable name) .add step.tree)) (treesOf body)]

def treesOf : List Item → List Stmt
  | [] => []
  | item :: rest => item.trees ++ treesOf rest

end

@[simp]
theorem treesOf_append (items items' : List Item) : treesOf (items ++ items') = treesOf items ++ treesOf items' := by
  induction items with
  | nil => rfl
  | cons item items ih => simp [treesOf, ih]

namespace Job

def functionTree (sig : Signature) (items : List Item) : Stmt :=
  .function sig.name sig.params (treesOf items)

/-- The program of a graph: its functions in the order of their keys, and then the statements from
the start node on. -/
def program (job : Job) : Program :=
  let functions := Signatures.ofGraph job.graph
  match job.compileMain? functions with
  | none => ⟨[]⟩
  | some (main, _) =>
    ⟨functions.list.map (fun sig =>
        functionTree sig (job.compileFunction functions sig).1) ++ treesOf main⟩

end Job

namespace Code

def height : Code → Nat
  | binary _ left right => max left.height right.height + 1
  | random least greatest => max least.height greatest.height + 3
  | not operand => operand.height + 2
  | element _ index => index.height + 1
  | ident _ | member _ _ | raw _ | quoted _ | length _ | undefined | circular | tooDeep => 0

/-- Names are names, operators are known, and text that was typed in is an operand. -/
def Fits : Code → Prop
  | ident name => IsName name
  | member record field => IsName record ∧ IsName field
  | raw text => text = "[]" ∨ IsAtom text
  | quoted _ => True
  | binary operator left right => (binaryOp? operator).isSome ∧ left.Fits ∧ right.Fits
  | random least greatest => least.Fits ∧ greatest.Fits
  | not operand => operand.Fits
  | length array => IsName array
  | element array index => IsName array ∧ index.Fits
  | undefined | circular | tooDeep => True

/-- The expression can be read back within so many levels. -/
def Within (height : Nat) (code : Code) : Prop :=
  code.Fits ∧ code.height ≤ height

end Code

namespace Line

def codes : Line → List Code
  | assign _ _ value | print value | push _ value | returnValue value => [value]
  | ask _ _ message => [message]
  | store _ index value => [index, value]
  | returnRecord fields => fields.map Prod.snd
  | call _ _ arguments => arguments
  | enter _ | notify _ | breakLoop | continueLoop | pop _ _ | returnNothing | unknownFunction _
  | nestingTooDeep => []

def names : Line → List String
  | notify name | assign _ name _ | ask _ name _ | push name _ | store name _ _ => [name]
  | pop temporary array => [temporary, array]
  | returnRecord fields => fields.map Prod.fst
  | call temporary function _ => function :: temporary.toList
  | enter _ | print _ | breakLoop | continueLoop | returnNothing | returnValue _
  | unknownFunction _ | nestingTooDeep => []

/-- A line that can be read back if expressions with `p` can. -/
structure Fits (p : Code → Prop) (line : Line) : Prop where
  codes : ∀ code ∈ line.codes, p code
  names : ∀ name ∈ line.names, IsName name
  comment : ∀ id, line = unknownFunction id → '\n' ∉ id.toList

end Line

mutual

def Item.Fits (p : Code → Prop) : Nat → Item → Prop
  | _, .line line => line.Fits p
  | 0, _ => False
  | room + 1, .ifElse cond thenItems elseItems =>
    p cond ∧ FitsAll p room thenItems ∧ FitsAll p room elseItems
  | room + 1, .whileLoop cond body => p cond ∧ FitsAll p room body
  | room + 1, .forLoop name start limit step body =>
    IsName name ∧ p start ∧ p limit ∧ p step ∧ FitsAll p room body

def FitsAll (p : Code → Prop) : Nat → List Item → Prop
  | _, [] => True
  | room, item :: rest => item.Fits p room ∧ FitsAll p room rest

end

theorem fitsAll_iff {p : Code → Prop} {room : Nat} {items : List Item}
    : FitsAll p room items ↔ ∀ item ∈ items, item.Fits p room := by
  induction items with
  | nil => simp [FitsAll]
  | cons item items ih => simp [FitsAll, ih]

end NodeScript.Compile
