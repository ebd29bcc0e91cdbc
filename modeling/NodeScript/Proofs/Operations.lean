import NodeScript.Script.Eval

/-!
Properties that computations get from their operations. What holds of the operations of a machine and carries over
to one after the other holds of an expression as soon as it holds of its operands.
-/

namespace NodeScript.Script

inductive RuntimeError.IsExternal : RuntimeError → Prop where
  | stackOverflow : IsExternal .stackOverflow
  | disconnected : IsExternal .disconnected
  | redeclared (name : String) : IsExternal (.redeclared name)

namespace Value

variable {e : RuntimeError} (he : e.IsExternal)
include he

theorem readProperty_ne_error (holder : Value) (property : String) : holder.readProperty property ≠ .error e := by
  cases he <;> cases holder <;> nofun

theorem readElement_ne_error (holder position : Value) : holder.readElement position ≠ .error e := by
  cases he <;> cases holder <;> nofun

theorem Method.call_ne_error (method : Method) (name : String) (holder : Value) (args : List Value)
    : method.call name holder args ≠ .error e := by
  unfold call
  split
  · split
    · split <;> cases he <;> nofun
    · nofun
  · cases he <;> nofun

theorem updateElement_ne_error (holder position : Value) (name : String) (f : Value → Value)
    : holder.updateElement position name f ≠ .error e := by
  unfold updateElement
  split
  · split
    · cases he <;> nofun
    · split <;> cases he <;> nofun
  · nofun
  · cases he <;> nofun

end Value

def Expr.operands : Expr → List Expr
  | .unary _ operand | .member operand _ | .await operand => [operand]
  | .binary _ left right | .logical _ left right | .index left right => [left, right]
  | _ => []

namespace Exec

/-- The operations that expressions consist of have the property, also those that fail because of a value. -/
structure Covers (P : (α : Type) → Exec α → Prop) : Prop where
  pure {α : Type} (a : α) : P α (pure a)
  bind {α β : Type} {x : Exec α} {f : α → Exec β} (h : P α x) (hnext : ∀ a, P β (f a)) : P β (x >>= f)
  fail {α : Type} {e : RuntimeError} (h : ¬ e.IsExternal) : P α (fail e)
  lookup? (name : String) : P (Option Value) (lookup? name)
  mathCall (name : String) (args : List Value) : P Value (mathCall name args)

namespace Covers

variable {P : (α : Type) → Exec α → Prop} {α : Type} (hP : Covers P)
include hP

theorem ofExcept {x : Except RuntimeError α} (h : ∀ {e}, e.IsExternal → x ≠ .error e) : P α (ofExcept x) := by
  cases x with
  | ok a => exact hP.pure a
  | error e => exact hP.fail fun he => h he rfl

theorem lookup (name : String) : P Value (lookup name) := by
  apply hP.bind (hP.lookup? name)
  rintro (_ | value)
  · exact hP.fail nofun
  · exact hP.pure value

theorem constant (name : String) : P Value (constant name) := by
  unfold Exec.constant
  split
  any_goals exact hP.pure _
  · exact hP.fail nofun

theorem identifier (name : String) : P Value (identifier name) := by
  apply hP.bind (hP.lookup? name)
  rintro (_ | value)
  · exact hP.constant name
  · exact hP.pure value

theorem isMath (holder : Expr) : P Bool (isMath holder) := by
  unfold Exec.isMath
  split
  · exact hP.bind (hP.lookup? "Math") fun _ => hP.pure _
  · exact hP.pure false

theorem mathConstant (property : String) : P Value (mathConstant property) := by
  unfold Exec.mathConstant
  split
  · exact hP.pure _
  · exact hP.fail nofun

theorem builtinCall (hask : ∀ request, P String (ask request)) (name : String) (args : List Value)
    : P Value (builtinCall name args) := by
  apply hP.bind (hP.lookup? name)
  intro found
  split
  · exact hP.fail nofun
  · split
    any_goals exact hP.bind (hask _) fun _ => hP.pure _
    · split
      · exact hP.pure _
      · exact hP.fail nofun

section Writes

variable (hassign : ∀ name value, P Unit (assign name value))
include hassign

theorem store (target : Target) (position : Value) (op : AssignOp) (value : Value)
    : P Unit (store target position op value) := by
  unfold Exec.store
  split
  · split
    · exact hP.bind (hP.lookup _) fun _ => hassign _ _
    · exact hassign _ _
  · refine hP.bind (hP.lookup _) fun holder => ?_
    exact hP.bind (hP.ofExcept fun he => Value.updateElement_ne_error he holder _ _ _) fun _ => hassign _ _

theorem methodCall (name : String) (method : Value.Method) (args : List Value)
    : P Value (methodCall name method args) := by
  refine hP.bind (hP.lookup name) fun holder => ?_
  refine hP.bind (hP.ofExcept fun he => Value.Method.call_ne_error he method name holder args) fun _ => ?_
  exact hP.bind (hassign name _) fun _ => hP.pure _

end Writes

variable {bound : Nat}

theorem eval_succ {Q : Exec Value → Prop} (hdescend : ∀ {x}, P Value x → Q (descend x)) {expr : Expr}
    (heval : ∀ operand ∈ expr.operands, P Value (eval bound operand))
    (hitems : ∀ {items}, expr = .array items → P (List Value) (evalItems bound items))
    (hfields : ∀ {fields}, expr = .object fields → P (List (String × Value)) (evalFields bound fields))
    (hcall : ∀ {callee arguments}, expr = .call callee arguments
      → P (List Value) (evalItems bound arguments) ∧ ∀ args, P Value (call bound callee args))
    : Q (eval (bound + 1) expr) := by
  unfold eval
  apply hdescend
  cases expr with
  | number | str | bool | undefined | null => exact hP.pure _
  | identifier name => exact hP.identifier name
  | array items => exact hP.bind (hitems rfl) fun _ => hP.pure _
  | object fields => exact hP.bind (hfields rfl) fun _ => hP.pure _
  | unary op operand => exact hP.bind (heval operand (.head _)) fun _ => hP.pure _
  | binary op left right =>
    exact hP.bind (heval left (.head _)) fun _ => hP.bind (heval right (.tail _ (.head _))) fun _ => hP.pure _
  | logical op left right =>
    refine hP.bind (heval left (.head _)) fun value => ?_
    split
    any_goals exact hP.pure _
    · exact heval right (.tail _ (.head _))
  | member holder property =>
    refine hP.bind (hP.isMath holder) fun isMath => ?_
    split
    · exact hP.mathConstant property
    · exact hP.bind (heval holder (.head _)) fun holder =>
        hP.ofExcept fun he => Value.readProperty_ne_error he holder property
  | index holder position =>
    exact hP.bind (heval holder (.head _)) fun holder => hP.bind (heval position (.tail _ (.head _))) fun position =>
      hP.ofExcept fun he => Value.readElement_ne_error he holder position
  | call callee arguments => exact hP.bind (hcall rfl).1 (hcall rfl).2
  | await operand => exact heval operand (.head _)

theorem evalItems_succ {items : List Expr} (heval : ∀ item ∈ items, P Value (eval bound item))
    (hrest : P (List Value) (evalItems bound items.tail)) : P (List Value) (evalItems (bound + 1) items) := by
  cases items with
  | nil => exact hP.pure []
  | cons item rest => exact hP.bind (heval item List.mem_cons_self) fun _ => hP.bind hrest fun _ => hP.pure _

theorem evalFields_succ {fields : List (String × Expr)} (heval : ∀ field ∈ fields, P Value (eval bound field.2))
    (hrest : P (List (String × Value)) (evalFields bound fields.tail))
    : P (List (String × Value)) (evalFields (bound + 1) fields) := by
  cases fields with
  | nil => exact hP.pure []
  | cons field rest => exact hP.bind (heval field List.mem_cons_self) fun _ => hP.bind hrest fun _ => hP.pure _

theorem evalOption_succ {expr : Option Expr} (heval : ∀ e ∈ expr, P Value (eval bound e))
    : P Value (evalOption (bound + 1) expr) := by
  cases expr with
  | none => exact hP.pure _
  | some expr => exact heval expr rfl

theorem call_succ (hask : ∀ request, P String (ask request)) {callee : Expr} {args : List Value}
    (hname : ∀ {name}, callee = .identifier name → P Value (call (bound + 1) (.identifier name) args))
    (hmethod : ∀ {holder property method}, callee = .member holder property
      → Value.Method.ofName? property = some method
      → (∀ name, P Value (Exec.methodCall name method args)) ∧ P Value (eval bound holder))
    : P Value (call (bound + 1) callee args) := by
  cases callee with
  | identifier name => exact hname rfl
  | member holder property =>
    unfold call
    split
    · contradiction
    · exact hP.bind (hask _) fun _ => hP.pure _
    · next heq =>
      cases heq
      refine hP.bind (hP.isMath _) fun isMath => ?_
      split
      · exact hP.mathCall _ args
      · split
        · next hofName _ => exact (hmethod rfl hofName).1 _
        · next hofName _ _ =>
          refine hP.bind (hmethod rfl hofName).2 fun value => ?_
          exact hP.bind (hP.ofExcept fun he => Value.Method.call_ne_error he _ _ value args) fun _ => hP.pure _
        · exact hP.fail nofun
    · exact hP.fail nofun
  | _ => exact hP.fail nofun

end Covers

end Exec

end NodeScript.Script
