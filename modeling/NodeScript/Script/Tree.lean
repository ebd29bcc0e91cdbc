/-!
Programs of the script language as trees.
-/

namespace NodeScript.Script

inductive UnaryOp where
  | not | negate | plus
  deriving DecidableEq, Repr

inductive BinaryOp where
  | add | subtract | multiply | divide | modulo
  | less | lessEqual | greater | greaterEqual
  | strictEqual | strictNotEqual | looseEqual | looseNotEqual
  deriving DecidableEq, Repr

inductive LogicalOp where
  | and | or
  deriving DecidableEq, Repr

inductive AssignOp where
  | assign | add | subtract
  deriving DecidableEq, Repr

inductive Expr where
  | number (value : Float)
  | str (value : String)
  | bool (value : Bool)
  | undefined
  | null
  | identifier (name : String)
  | array (items : List Expr)
  | object (fields : List (String × Expr))
  | unary (op : UnaryOp) (operand : Expr)
  | binary (op : BinaryOp) (left right : Expr)
  | logical (op : LogicalOp) (left right : Expr)
  | member (holder : Expr) (property : String)
  | index (holder : Expr) (position : Expr)
  | call (callee : Expr) (arguments : List Expr)
  | await (operand : Expr)
  deriving Repr

inductive Target where
  | variable (name : String)
  | element (name : String) (position : Expr)
  deriving Repr

inductive Stmt where
  | declare (name : String) (value : Option Expr)
  | assign (target : Target) (op : AssignOp) (value : Expr)
  | expr (value : Expr)
  | ifElse (condition : Expr) (thenBody : List Stmt) (elseBody : Option (List Stmt))
  | whileLoop (condition : Expr) (body : List Stmt)
  | forLoop (init : Option Stmt) (condition : Option Expr) (update : Option Stmt) (body : List Stmt)
  | breakLoop
  | continueLoop
  | returnValue (value : Option Expr)
  | block (body : List Stmt)
  | function (name : String) (params : List String) (body : List Stmt)
  deriving Repr

structure Program where
  body : List Stmt
  deriving Repr

structure Function where
  params : List String
  body : List Stmt
  deriving Repr

def Program.functions (p : Program) : List (String × Function) :=
  p.body.filterMap fun
    | .function name params body => some (name, ⟨params, body⟩)
    | _ => none

def UnaryOp.text : UnaryOp → String
  | not => "!" | negate => "-" | plus => "+"

def BinaryOp.text : BinaryOp → String
  | add => "+" | subtract => "-" | multiply => "*" | divide => "/" | modulo => "%"
  | less => "<" | lessEqual => "<=" | greater => ">" | greaterEqual => ">="
  | strictEqual => "===" | strictNotEqual => "!==" | looseEqual => "==" | looseNotEqual => "!="

def LogicalOp.text : LogicalOp → String
  | and => "&&" | or => "||"

def AssignOp.text : AssignOp → String
  | assign => "=" | add => "+=" | subtract => "-="

def Expr.describe : Expr → String
  | identifier name => name
  | member holder property => holder.describe ++ "." ++ property
  | index holder _ => holder.describe ++ "[...]"
  | call callee _ => callee.describe ++ "(...)"
  | await operand => operand.describe
  | _ => "expression"

end NodeScript.Script
