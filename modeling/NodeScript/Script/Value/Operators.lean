import NodeScript.Script.Tree
import NodeScript.Script.Value

/-!
Operators on values.
-/

namespace NodeScript.Script

def Value.joins : Value → Bool
  | .str _ | .array _ | .object _ => true
  | _ => false

def Value.compareWith (texts : Ordering → Bool) (numbers : Float → Float → Bool) :
    Value → Value → Value
  | .str a, .str b => .bool (texts (compare a b))
  | a, b => .bool (numbers a.toNumber b.toNumber)

def UnaryOp.apply (op : UnaryOp) (operand : Value) : Value :=
  match op with
  | not => .bool !operand.isTruthy
  | negate => .number (-operand.toNumber)
  | plus => .number operand.toNumber

def BinaryOp.apply (op : BinaryOp) (left right : Value) : Value :=
  match op with
  | add =>
    if left.joins || right.joins then .str (left.text ++ right.text)
    else .number (left.toNumber + right.toNumber)
  | subtract => .number (left.toNumber - right.toNumber)
  | multiply => .number (left.toNumber * right.toNumber)
  | divide => .number (left.toNumber / right.toNumber)
  | modulo => .number (Decimal.remainder left.toNumber right.toNumber)
  | less => left.compareWith Ordering.isLT (fun a b => a < b) right
  | lessEqual => left.compareWith Ordering.isLE (fun a b => a ≤ b) right
  | greater => left.compareWith Ordering.isGT (fun a b => b < a) right
  | greaterEqual => left.compareWith Ordering.isGE (fun a b => b ≤ a) right
  | strictEqual => .bool (left.strictEquals right)
  | strictNotEqual => .bool !(left.strictEquals right)
  | looseEqual => .bool (left.looseEquals right)
  | looseNotEqual => .bool !(left.looseEquals right)

def AssignOp.apply (op : AssignOp) (current value : Value) : Value :=
  match op with
  | assign => value
  | add => BinaryOp.add.apply current value
  | subtract => BinaryOp.subtract.apply current value

def AssignOp.reads : AssignOp → Bool
  | assign => false
  | add | subtract => true

end NodeScript.Script
