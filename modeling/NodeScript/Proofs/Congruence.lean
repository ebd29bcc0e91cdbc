import Mathlib.Data.List.Forall2
import NodeScript.Proofs.Interpreter
import NodeScript.Proofs.Operations

/-!
Runs side by side. A relation between computations that the operations of a machine respect is respected
by all that programs are made of. So it holds between the runs of two programs that differ only in
statements which the relation lets pass.
-/

namespace NodeScript.Script

structure Leeway where
  binds : String → Prop
  skips : Expr → Prop
  streak : Nat
  echoes : Stmt → Expr → Prop
  opens : Expr → Expr → Expr → Prop

mutual

inductive Stmt.Akin (leeway : Leeway) : Stmt → Stmt → Prop where
  | declare {name : String} (h : leeway.binds name) (value : Option Expr)
    : Akin leeway (.declare name value) (.declare name value)
  | assign {target : Target} (h : ∀ name, target = .variable name → leeway.binds name) (op : AssignOp)
      (value : Expr)
    : Akin leeway (.assign target op value) (.assign target op value)
  | expr (value : Expr) : Akin leeway (.expr value) (.expr value)
  | ifThen (cond : Expr) {body body' : List Stmt} (h : AllAkin leeway leeway.streak body body')
    : Akin leeway (.ifElse cond body none) (.ifElse cond body' none)
  | ifElse (cond : Expr) {body body' other other' : List Stmt}
      (h : AllAkin leeway leeway.streak body body') (hother : AllAkin leeway leeway.streak other other')
    : Akin leeway (.ifElse cond body (some other)) (.ifElse cond body' (some other'))
  | whileLoop (cond : Expr) {body body' : List Stmt} (h : AllAkin leeway leeway.streak body body')
    : Akin leeway (.whileLoop cond body) (.whileLoop cond body')
  | forLoop {init update : Option Stmt} (hinit : ∀ stmt, init = some stmt → Akin leeway stmt stmt)
      (cond : Option Expr) (hupdate : ∀ stmt, update = some stmt → Akin leeway stmt stmt)
      {body body' : List Stmt} (h : AllAkin leeway leeway.streak body body')
    : Akin leeway (.forLoop init cond update body) (.forLoop init cond update body')
  | forEach {init update : Option Stmt} (hinit : ∀ stmt, init = some stmt → Akin leeway stmt stmt)
      {cond first second : Expr} (hopens : leeway.opens cond first second)
      (hupdate : ∀ stmt, update = some stmt → Akin leeway stmt stmt) {body body' : List Stmt}
      (h : AllAkin leeway leeway.streak body body')
    : Akin leeway (.forLoop init (some cond) update (.expr first :: .expr second :: body))
      (.forLoop init (some cond) update body')
  | breakLoop : Akin leeway .breakLoop .breakLoop
  | continueLoop : Akin leeway .continueLoop .continueLoop
  | returnValue (value : Option Expr) : Akin leeway (.returnValue value) (.returnValue value)
  | block {body body' : List Stmt} (h : AllAkin leeway leeway.streak body body')
    : Akin leeway (.block body) (.block body')
  | function {name : String} (hname : leeway.binds name) {params : List String}
      (hparams : ∀ param ∈ params, leeway.binds param) {body body' : List Stmt}
      (h : AllAkin leeway leeway.streak body body')
    : Akin leeway (.function name params body) (.function name params body')

inductive Stmt.AllAkin (leeway : Leeway) : Nat → List Stmt → List Stmt → Prop where
  | nil (n : Nat) : AllAkin leeway n [] []
  | skip {n : Nat} {note : Expr} {rest rest' : List Stmt} (h : leeway.skips note)
      (hrest : AllAkin leeway n rest rest')
    : AllAkin leeway (n + 1) (.expr note :: rest) rest'
  | cons {n : Nat} {stmt stmt' : Stmt} {rest rest' : List Stmt} (h : Stmt.Akin leeway stmt stmt')
      (hrest : AllAkin leeway leeway.streak rest rest')
    : AllAkin leeway n (stmt :: rest) (stmt' :: rest')
  | echo {n : Nat} {stmt stmt' : Stmt} {note : Expr} {rest rest' : List Stmt} (h : Stmt.Akin leeway stmt stmt')
      (hechoes : leeway.echoes stmt note) (hrest : AllAkin leeway leeway.streak rest rest')
    : AllAkin leeway n (stmt :: .expr note :: rest) (stmt' :: rest')

end

structure Function.Akin (leeway : Leeway) (function function' : Function) : Prop where
  params : function.params = function'.params
  binds : ∀ param ∈ function.params, leeway.binds param
  body : Stmt.AllAkin leeway leeway.streak function.body function'.body

theorem Stmt.AllAkin.functions {leeway : Leeway} {n : Nat} {stmts stmts' : List Stmt}
    (h : Stmt.AllAkin leeway n stmts stmts')
    : List.Forall₂ (fun f g => f.1 = g.1 ∧ leeway.binds f.1 ∧ f.2.Akin leeway g.2)
      (Program.functions ⟨stmts⟩) (Program.functions ⟨stmts'⟩) := by
  have hcons {stmt stmt' : Stmt} {rest rest' : List Stmt} (hstmt : stmt.Akin leeway stmt')
      (hrest : List.Forall₂ (fun f g => f.1 = g.1 ∧ leeway.binds f.1 ∧ f.2.Akin leeway g.2)
        (Program.functions ⟨rest⟩) (Program.functions ⟨rest'⟩))
      : List.Forall₂ (fun f g => f.1 = g.1 ∧ leeway.binds f.1 ∧ f.2.Akin leeway g.2)
        (Program.functions ⟨stmt :: rest⟩) (Program.functions ⟨stmt' :: rest'⟩) := by
    cases hstmt with
    | function hname hparams hbody => exact .cons ⟨rfl, hname, rfl, hparams, hbody⟩ hrest
    | _ => exact hrest
  match h with
  | .nil _ => exact .nil
  | .skip _ hrest => exact hrest.functions
  | .cons hstmt hrest | .echo hstmt _ hrest => exact hcons hstmt hrest.functions

def Leeway.none : Leeway where
  binds _ := True
  skips _ := False
  streak := 0
  echoes _ _ := False
  opens _ _ _ := False

mutual

theorem Stmt.akin_self : (stmt : Stmt) → stmt.Akin .none stmt
  | .declare _ value => .declare trivial value
  | .assign _ op value => .assign (fun _ _ => trivial) op value
  | .expr value => .expr value
  | .ifElse cond body none => .ifThen cond (Stmt.allAkin_self body)
  | .ifElse cond body (some other) => .ifElse cond (Stmt.allAkin_self body) (Stmt.allAkin_self other)
  | .whileLoop cond body => .whileLoop cond (Stmt.allAkin_self body)
  | .forLoop init cond update body =>
    .forLoop (Stmt.optionAkin_self init) cond (Stmt.optionAkin_self update) (Stmt.allAkin_self body)
  | .breakLoop => .breakLoop
  | .continueLoop => .continueLoop
  | .returnValue value => .returnValue value
  | .block body => .block (Stmt.allAkin_self body)
  | .function _ _ body => .function trivial (fun _ _ => trivial) (Stmt.allAkin_self body)

theorem Stmt.allAkin_self : (stmts : List Stmt) → Stmt.AllAkin .none 0 stmts stmts
  | [] => .nil 0
  | stmt :: rest => .cons (Stmt.akin_self stmt) (Stmt.allAkin_self rest)

theorem Stmt.optionAkin_self : (stmt : Option Stmt) → ∀ s, stmt = some s → s.Akin .none s
  | none, _, h => nomatch h
  | some stmt, _, rfl => Stmt.akin_self stmt

end

theorem Function.akin_self (function : Function) : function.Akin .none function where
  params := rfl
  binds _ _ := trivial
  body := Stmt.allAkin_self function.body

mutual

theorem Stmt.Akin.eq {stmt stmt' : Stmt} : stmt.Akin .none stmt' → stmt = stmt'
  | .declare _ _ | .assign _ _ _ | .expr _ | .breakLoop | .continueLoop | .returnValue _ => rfl
  | .ifThen _ h | .whileLoop _ h | .forLoop _ _ _ h | .block h | .function _ _ h => by rw [h.eq]
  | .ifElse _ h hother => by rw [h.eq, hother.eq]

theorem Stmt.AllAkin.eq {n : Nat} {stmts stmts' : List Stmt} : Stmt.AllAkin .none n stmts stmts' → stmts = stmts'
  | .nil _ => rfl
  | .cons h hrest => by rw [h.eq, hrest.eq]

end

theorem Function.Akin.eq {function function' : Function} (h : function.Akin .none function')
    : function = function' := by
  obtain ⟨params, body⟩ := function
  obtain ⟨params', body'⟩ := function'
  obtain ⟨rfl, -, hbody⟩ := h
  rw [show body = body' from hbody.eq]

namespace Exec

/-- The operations of a machine respect `R`. The left computation may be given up if `p`, the right one
if `q`. -/
structure Respects (leeway : Leeway) (p q : Prop) (R : (α : Type) → Exec α → Exec α → Prop) : Prop where
  left {α : Type} (h : p) (y : Exec α) : R α exhausted y
  right {α : Type} (h : q) (x : Exec α) : R α x exhausted
  pure {α : Type} (a : α) : R α (pure a) (pure a)
  bind {α β : Type} {x y : Exec α} {f g : α → Exec β} (h : R α x y) (hnext : ∀ a, R β (f a) (g a))
    : R β (x >>= f) (y >>= g)
  fail {α : Type} {e : RuntimeError} (h : e ≠ .disconnected) : R α (fail e) (fail e)
  ask (request : Request) : R String (ask request) (ask request)
  lookup? (name : String) : R (Option Value) (lookup? name) (lookup? name)
  declare {name : String} (h : leeway.binds name) (value : Value) : R Unit (declare name value) (declare name value)
  store {target : Target} (h : ∀ name, target = .variable name → leeway.binds name) (position : Value)
      (op : AssignOp) (value : Value)
    : R Unit (store target position op value) (store target position op value)
  methodCall (name : String) (method : Value.Method) (args : List Value)
    : R Value (methodCall name method args) (methodCall name method args)
  mathCall (name : String) (args : List Value) : R Value (mathCall name args) (mathCall name args)
  descend {α : Type} {x y : Exec α} (h : R α x y) : R α (descend x) (descend y)
  inScope {α : Type} {x y : Exec α} (h : R α x y) : R α (inScope x) (inScope y)
  calling {α : Type} {params : List String} (hparams : ∀ param ∈ params, leeway.binds param)
      (args : List Value) {x y : Exec α} (h : R α x y)
    : R α (calling params args x) (calling params args y)
  define {name : String} (hname : leeway.binds name) {function function' : Function}
      (h : function.Akin leeway function')
    : R Unit (modify (·.define name function)) (modify (·.define name function'))
  callee {α : Type} (name : String) {f g : Function → Exec α} {x y : Exec α}
      (h : ∀ function function', function.Akin leeway function' → R α (f function) (g function'))
      (hnone : R α x y)
    : R α (get >>= fun m => match m.function? name with | some function => f function | none => x)
      (get >>= fun m => match m.function? name with | some function => g function | none => y)
  skip {note : Expr} (h : leeway.skips note) {bound : Nat} (hbound : ¬ p → 7 ≤ bound) {x y : Exec Flow}
      (hnext : R Flow x y)
    : R Flow (exec bound (.expr note) >>= fun | .normal => x | flow => Pure.pure flow) y
  echo {stmt stmt' : Stmt} {note : Expr} (hechoes : leeway.echoes stmt note) {bound bound' : Nat}
      (hstmt : R Flow (exec (bound + 1) stmt) (exec bound' stmt')) (hbound : ¬ p → 7 ≤ bound) {x y : Exec Flow}
      (hnext : R Flow x y)
    : R Flow (exec (bound + 1) stmt >>= fun
        | .normal => exec bound (.expr note) >>= fun | .normal => x | flow => Pure.pure flow
        | flow => Pure.pure flow)
      (exec bound' stmt' >>= fun | .normal => y | flow => Pure.pure flow)
  turn {cond first second : Expr} (hopens : leeway.opens cond first second) {bound bound' : Nat}
      (hcond : R Value (eval bound cond) (eval bound' cond)) (hbound : ¬ p → 9 ≤ bound)
      {body body' : List Stmt} (hbody : R Flow (execAll (bound - 2) body) (execAll bound' body'))
      {f g : Flow → Exec Flow} (hnext : ∀ flow, R Flow (f flow) (g flow))
    : R Flow (Value.isTruthy <$> eval bound cond >>= fun holds =>
        if holds then Exec.inScope (execAll bound (.expr first :: .expr second :: body)) >>= f
        else Pure.pure .normal)
      (Value.isTruthy <$> eval bound' cond >>= fun holds =>
        if holds then Exec.inScope (execAll bound' body') >>= g else Pure.pure .normal)

structure Paced (leeway : Leeway) (p q : Prop) (bound bound' : Nat) : Prop where
  left : ¬ p → (leeway.streak + 10) * bound' ≤ bound
  right : ¬ q → bound ≤ bound'

structure PacedAll (leeway : Leeway) (p q : Prop) (n bound bound' : Nat) : Prop where
  left : ¬ p → (leeway.streak + 10) * bound' + n + 7 ≤ bound
  right : ¬ q → bound ≤ bound'

section Pace

variable {leeway : Leeway} {p q : Prop} {n bound bound' : Nat}

theorem Paced.pred (h : Paced leeway p q (bound + 1) (bound' + 1)) : Paced leeway p q bound bound' := by
  constructor
  · intro hp
    have := h.left hp
    rw [Nat.mul_add] at this
    omega
  · intro hq
    have := h.right hq
    omega

theorem Paced.all_lower (h : Paced leeway p q (bound + 1) (bound' + 1)) {lower : Nat} (hlower : lower ≤ bound)
    (hsteps : bound ≤ lower + 2) : PacedAll leeway p q leeway.streak lower bound' := by
  constructor
  · intro hp
    have := h.left hp
    rw [Nat.mul_add] at this
    omega
  · intro hq
    have := h.right hq
    omega

theorem Paced.all (h : Paced leeway p q (bound + 1) (bound' + 1)) : PacedAll leeway p q leeway.streak bound bound' :=
  h.all_lower (Nat.le_refl _) (Nat.le_add_right _ _)

theorem PacedAll.of_le (h : bound ≤ bound') : PacedAll .none True False 0 bound bound' :=
  ⟨fun hp => absurd trivial hp, fun _ => h⟩

theorem PacedAll.paced (h : PacedAll leeway p q n bound bound') : Paced leeway p q bound bound' := by
  constructor
  · intro hp
    have := h.left hp
    omega
  · exact h.right

theorem PacedAll.skip (h : PacedAll leeway p q (n + 1) (bound + 1) bound') : PacedAll leeway p q n bound bound' := by
  constructor
  · intro hp
    have := h.left hp
    omega
  · intro hq
    have := h.right hq
    omega

end Pace

namespace Respects

variable {leeway : Leeway} {p q : Prop} {R : (α : Type) → Exec α → Exec α → Prop} {α : Type}
  {bound bound' : Nat}

section Operations

variable (hR : Respects leeway p q R)
include hR

theorem map {β : Type} {x y : Exec α} (h : R α x y) (f : α → β) : R β (f <$> x) (f <$> y) :=
  hR.bind h fun a => hR.pure (f a)

theorem covers : Covers fun α x => R α x x where
  pure := hR.pure
  bind h hnext := hR.bind h hnext
  fail h := hR.fail fun he => h (he ▸ .disconnected)
  lookup? := hR.lookup?
  mathCall := hR.mathCall

theorem of_succ {x : Exec α} {f : Nat → Exec α} (hzero : f 0 = exhausted) (hpaced : Paced leeway p q (bound + 1) bound')
    (h : ∀ b, bound' = b + 1 → Paced leeway p q bound b → R α x (f (b + 1))) : R α x (f bound') := by
  cases bound' with
  | zero =>
    rw [hzero]
    by_cases hq : q
    · exact hR.right hq x
    · exact absurd (hpaced.right hq) (Nat.not_succ_le_zero bound)
  | succ b => exact h b rfl hpaced.pred

theorem of_zero (hpq : p ∨ q) (hpaced : Paced leeway p q 0 bound') {x y : Exec α} (hx : x = exhausted)
    (hy : bound' = 0 → y = exhausted) : R α x y := by
  rw [hx]
  by_cases hp : p
  · exact hR.left hp _
  · have hbound := hpaced.left hp
    rw [Nat.le_zero, Nat.mul_eq_zero] at hbound
    rw [hy (by omega)]
    exact hR.right (hpq.resolve_left hp) _

end Operations

structure UpTo (leeway : Leeway) (p q : Prop) (R : (α : Type) → Exec α → Exec α → Prop) (bound : Nat) : Prop where
  eval {bound' : Nat} (h : Paced leeway p q bound bound') (expr : Expr) : R Value (eval bound expr) (eval bound' expr)
  evalItems {bound' : Nat} (h : Paced leeway p q bound bound') (items : List Expr)
    : R (List Value) (evalItems bound items) (evalItems bound' items)
  evalFields {bound' : Nat} (h : Paced leeway p q bound bound') (fields : List (String × Expr))
    : R (List (String × Value)) (evalFields bound fields) (evalFields bound' fields)
  call {bound' : Nat} (h : Paced leeway p q bound bound') (callee : Expr) (args : List Value)
    : R Value (call bound callee args) (call bound' callee args)
  callFunction {bound' : Nat} (h : Paced leeway p q bound bound') {function function' : Function}
      (hfunction : function.Akin leeway function') (args : List Value)
    : R Value (callFunction bound function args) (callFunction bound' function' args)
  exec {bound' : Nat} (h : Paced leeway p q bound bound') {stmt stmt' : Stmt} (hstmt : stmt.Akin leeway stmt')
    : R Flow (exec bound stmt) (exec bound' stmt')
  evalOption {bound' : Nat} (h : Paced leeway p q bound bound') (expr : Option Expr)
    : R Value (evalOption bound expr) (evalOption bound' expr)
  execOption {bound' : Nat} (h : Paced leeway p q bound bound') {stmt : Option Stmt}
      (hstmt : ∀ s, stmt = some s → s.Akin leeway s)
    : R Unit (execOption bound stmt) (execOption bound' stmt)
  execAll {n bound' : Nat} (h : PacedAll leeway p q n bound bound') {stmts stmts' : List Stmt}
      (hstmts : Stmt.AllAkin leeway n stmts stmts')
    : R Flow (execAll bound stmts) (execAll bound' stmts')
  execLoop {bound' : Nat} (h : Paced leeway p q bound bound') (cond : Option Expr) {update : Option Stmt}
      (hupdate : ∀ s, update = some s → s.Akin leeway s) {body body' : List Stmt}
      (hbody : Stmt.AllAkin leeway leeway.streak body body')
    : R Flow (execLoop bound cond update body) (execLoop bound' cond update body')
  execEach {bound' : Nat} (h : Paced leeway p q bound bound') {cond first second : Expr}
      (hopens : leeway.opens cond first second) {update : Option Stmt}
      (hupdate : ∀ s, update = some s → s.Akin leeway s) {body body' : List Stmt}
      (hbody : Stmt.AllAkin leeway leeway.streak body body')
    : R Flow (Exec.execLoop bound (some cond) update (.expr first :: .expr second :: body))
      (Exec.execLoop bound' (some cond) update body')

section Levels

variable (hR : Respects leeway p q R)
include hR

theorem upTo_zero (hpq : p ∨ q) : UpTo leeway p q R 0 := by
  constructor
  case execAll =>
    intro _ _ h _ _ _
    exact hR.of_zero hpq h.paced (by rw [Exec.execAll]) (by rintro rfl; rw [Exec.execAll])
  all_goals
    intro _ h
    intros
    refine hR.of_zero hpq h ?_ ?_
    on_goal 2 => rintro rfl
    all_goals simp only [Exec.eval, Exec.evalItems, Exec.evalFields, Exec.call, Exec.callFunction, Exec.exec,
      Exec.evalOption, Exec.execOption, Exec.execLoop]

variable (ih : UpTo leeway p q R bound) (hpaced : Paced leeway p q (bound + 1) bound')
include ih hpaced

theorem eval_succ (expr : Expr) : R Value (eval (bound + 1) expr) (eval bound' expr) := by
  refine hR.of_succ (f := (Exec.eval · expr)) (by rw [Exec.eval]) hpaced fun b _ h => ?_
  unfold Exec.eval
  apply hR.descend
  cases expr with
  | number x | str s | bool b | undefined | null => exact hR.pure _
  | identifier name => exact hR.covers.identifier name
  | array items => exact hR.bind (ih.evalItems h items) fun _ => hR.pure _
  | object fields => exact hR.bind (ih.evalFields h fields) fun _ => hR.pure _
  | unary op operand => exact hR.bind (ih.eval h operand) fun _ => hR.pure _
  | binary op left right =>
    exact hR.bind (ih.eval h left) fun _ => hR.bind (ih.eval h right) fun _ => hR.pure _
  | logical op left right =>
    refine hR.bind (ih.eval h left) fun value => ?_
    split
    any_goals exact hR.pure _
    · exact ih.eval h right
  | member holder property =>
    refine hR.bind (hR.covers.isMath holder) fun isMath => ?_
    cases isMath with
    | true => exact hR.covers.mathConstant property
    | false => exact hR.bind (ih.eval h holder) fun holder =>
      hR.covers.ofExcept fun he => Value.readProperty_ne_error he holder property
  | index holder position =>
    exact hR.bind (ih.eval h holder) fun holder => hR.bind (ih.eval h position) fun position =>
      hR.covers.ofExcept fun he => Value.readElement_ne_error he holder position
  | call callee arguments => exact hR.bind (ih.evalItems h arguments) fun args => ih.call h callee args
  | await operand => exact ih.eval h operand

theorem evalItems_succ (items : List Expr) : R (List Value) (evalItems (bound + 1) items) (evalItems bound' items) := by
  refine hR.of_succ (f := (Exec.evalItems · items)) (by rw [Exec.evalItems]) hpaced fun b _ h => ?_
  cases items with
  | nil => exact hR.pure []
  | cons item rest =>
    exact hR.bind (ih.eval h item) fun _ => hR.bind (ih.evalItems h rest) fun _ => hR.pure _

theorem evalFields_succ (fields : List (String × Expr))
    : R (List (String × Value)) (evalFields (bound + 1) fields) (evalFields bound' fields) := by
  refine hR.of_succ (f := (Exec.evalFields · fields)) (by rw [Exec.evalFields]) hpaced fun b _ h => ?_
  cases fields with
  | nil => exact hR.pure []
  | cons field rest =>
    exact hR.bind (ih.eval h field.2) fun _ => hR.bind (ih.evalFields h rest) fun _ => hR.pure _

theorem call_succ (callee : Expr) (args : List Value)
    : R Value (call (bound + 1) callee args) (call bound' callee args) := by
  refine hR.of_succ (f := (Exec.call · callee args)) (by rw [Exec.call]) hpaced fun b _ h => ?_
  unfold Exec.call
  dsimp only
  split
  · exact hR.callee _ (fun _ _ hfunction => ih.callFunction h hfunction args) (hR.covers.builtinCall hR.ask _ args)
  · exact hR.bind (hR.ask _) fun _ => hR.pure _
  · refine hR.bind (hR.covers.isMath _) fun isMath => ?_
    cases isMath with
    | true => exact hR.mathCall _ args
    | false =>
      simp only [Bool.false_eq_true, if_false]
      split
      · exact hR.methodCall _ _ args
      · refine hR.bind (ih.eval h _) fun value => ?_
        exact hR.bind (hR.covers.ofExcept fun he => Value.Method.call_ne_error he _ _ value args) fun _ => hR.pure _
      · exact hR.fail (by rintro ⟨⟩)
  · exact hR.fail (by rintro ⟨⟩)

theorem callFunction_succ {function function' : Function}
    (hfunction : function.Akin leeway function') (args : List Value)
    : R Value (callFunction (bound + 1) function args) (callFunction bound' function' args) := by
  refine hR.of_succ (f := (Exec.callFunction · function' args)) (by rw [Exec.callFunction]) hpaced fun b hb _ => ?_
  subst hb
  rw [Exec.callFunction, Exec.callFunction, ← hfunction.params]
  exact hR.calling hfunction.binds args (hR.bind (ih.execAll hpaced.all hfunction.body) fun _ => hR.pure _)

theorem evalOption_succ (expr : Option Expr) : R Value (evalOption (bound + 1) expr) (evalOption bound' expr) := by
  refine hR.of_succ (f := (Exec.evalOption · expr)) (by rw [Exec.evalOption]) hpaced fun b _ h => ?_
  cases expr with
  | none => exact hR.pure _
  | some expr => exact ih.eval h expr

theorem execOption_succ {stmt : Option Stmt} (hstmt : ∀ s, stmt = some s → s.Akin leeway s)
    : R Unit (execOption (bound + 1) stmt) (execOption bound' stmt) := by
  refine hR.of_succ (f := (Exec.execOption · stmt)) (by rw [Exec.execOption]) hpaced fun b _ h => ?_
  cases stmt with
  | none => exact hR.pure _
  | some stmt => exact hR.bind (ih.exec h (hstmt stmt rfl)) fun _ => hR.pure _

theorem exec_succ {stmt stmt' : Stmt} (hstmt : stmt.Akin leeway stmt')
    : R Flow (exec (bound + 1) stmt) (exec bound' stmt') := by
  refine hR.of_succ (f := (Exec.exec · stmt')) (by rw [Exec.exec]) hpaced fun b hb h => ?_
  subst hb
  unfold Exec.exec
  apply hR.descend
  cases hstmt with
  | declare hname value =>
    exact hR.bind (ih.evalOption h value) fun _ => hR.bind (hR.declare hname _) fun _ => hR.pure _
  | @assign target hname op value =>
    refine hR.bind (ih.eval h value) fun value => ?_
    have hstore (position : Value) := hR.bind (hR.store hname position op value) fun _ => hR.pure Flow.normal
    cases target with
    | «variable» name => exact hR.bind (hR.pure _) hstore
    | element name position => exact hR.bind (ih.eval h position) hstore
  | expr value => exact hR.bind (ih.eval h value) fun _ => hR.pure _
  | ifThen cond hbody =>
    refine hR.bind (ih.eval h cond) fun test => ?_
    dsimp only
    split
    · exact hR.inScope (ih.execAll hpaced.all hbody)
    · exact hR.pure _
  | ifElse cond hbody hother =>
    refine hR.bind (ih.eval h cond) fun test => ?_
    dsimp only
    split
    · exact hR.inScope (ih.execAll hpaced.all hbody)
    · exact hR.inScope (ih.execAll hpaced.all hother)
  | whileLoop cond hbody => exact ih.execLoop h (some cond) (fun s (hs : none = some s) => nomatch hs) hbody
  | forLoop hinit cond hupdate hbody =>
    exact hR.inScope (hR.bind (ih.execOption h hinit) fun _ => ih.execLoop h cond hupdate hbody)
  | forEach hinit hopens hupdate hbody =>
    exact hR.inScope (hR.bind (ih.execOption h hinit) fun _ => ih.execEach h hopens hupdate hbody)
  | breakLoop | continueLoop => exact hR.pure _
  | returnValue value => exact hR.bind (ih.evalOption h value) fun _ => hR.pure _
  | block hbody => exact hR.inScope (ih.execAll hpaced.all hbody)
  | function hname hparams hbody =>
    exact hR.bind (hR.define hname ⟨rfl, hparams, hbody⟩) fun _ => hR.pure _

theorem execLoop_succ (cond : Option Expr)
    {update : Option Stmt} (hupdate : ∀ s, update = some s → s.Akin leeway s) {body body' : List Stmt}
    (hbody : Stmt.AllAkin leeway leeway.streak body body')
    : R Flow (execLoop (bound + 1) cond update body) (execLoop bound' cond update body') := by
  refine hR.of_succ (f := (Exec.execLoop · cond update body')) (by rw [Exec.execLoop]) hpaced fun b hb h => ?_
  subst hb
  have hagain := hR.bind (ih.execOption h hupdate) fun _ => ih.execLoop h cond hupdate hbody
  have htest : R Bool (holds bound cond) (holds b cond) := by
    cases cond with
    | none => exact hR.pure true
    | some cond => exact hR.map (ih.eval h cond) Value.isTruthy
  rw [Exec.execLoop_eq, Exec.execLoop_eq]
  refine hR.bind htest fun test => ?_
  split
  · refine hR.bind (hR.inScope (ih.execAll hpaced.all hbody)) fun flow => ?_
    cases flow with
    | normal | continued => exact hagain
    | broke | returned => exact hR.pure _
  · exact hR.pure _

end Levels

section LowerLevels

variable (hR : Respects leeway p q R) (hlower : ∀ k, k ≤ bound → UpTo leeway p q R k)
include hR hlower

theorem execAll_succ {n : Nat} (hpaced : PacedAll leeway p q n (bound + 1) bound') {stmts stmts' : List Stmt}
    (hstmts : Stmt.AllAkin leeway n stmts stmts')
    : R Flow (execAll (bound + 1) stmts) (execAll bound' stmts') := by
  have ih := hlower bound (Nat.le_refl _)
  cases hstmts with
  | nil =>
    exact hR.of_succ (f := (Exec.execAll · [])) (by rw [Exec.execAll]) hpaced.paced fun b _ _ => hR.pure _
  | skip hskips hrest =>
    have hbound : ¬ p → 7 ≤ bound := by
      intro hp
      have := hpaced.left hp
      omega
    exact hR.skip hskips hbound (ih.execAll hpaced.skip hrest)
  | @cons _ stmt stmt' rest rest' hstmt hrest =>
    refine hR.of_succ (f := (Exec.execAll · (stmt' :: rest'))) (by rw [Exec.execAll]) hpaced.paced fun b hb h => ?_
    subst hb
    refine hR.bind (ih.exec h hstmt) fun flow => ?_
    cases flow with
    | normal => exact ih.execAll hpaced.paced.all hrest
    | broke | continued | returned value => exact hR.pure _
  | @echo _ stmt stmt' note rest rest' hstmt hechoes hrest =>
    refine hR.of_succ (f := (Exec.execAll · (stmt' :: rest'))) (by rw [Exec.execAll]) hpaced.paced fun b hb h => ?_
    subst hb
    cases bound with
    | zero =>
      by_cases hp : p
      · exact hR.left hp _
      · have := hpaced.left hp
        omega
    | succ bound =>
      have hrest' : PacedAll leeway p q leeway.streak bound b := hpaced.paced.all_lower (by omega) (by omega)
      have hbound : ¬ p → 7 ≤ bound := fun hp => by
        have := hrest'.left hp
        omega
      exact hR.echo hechoes (ih.exec h hstmt) hbound ((hlower bound (Nat.le_succ _)).execAll hrest' hrest)

theorem execEach_succ (hpaced : Paced leeway p q (bound + 1) bound') {cond first second : Expr}
    (hopens : leeway.opens cond first second) {update : Option Stmt}
    (hupdate : ∀ s, update = some s → s.Akin leeway s) {body body' : List Stmt}
    (hbody : Stmt.AllAkin leeway leeway.streak body body')
    : R Flow (execLoop (bound + 1) (some cond) update (.expr first :: .expr second :: body))
      (execLoop bound' (some cond) update body') := by
  have ih := hlower bound (Nat.le_refl _)
  refine hR.of_succ (f := (Exec.execLoop · (some cond) update body')) (by rw [Exec.execLoop]) hpaced
    fun b hb h => ?_
  subst hb
  have hagain := hR.bind (ih.execOption h hupdate) fun _ => ih.execEach h hopens hupdate hbody
  have hlower' : PacedAll leeway p q leeway.streak (bound - 2) b := hpaced.all_lower (by omega) (by omega)
  have hbound : ¬ p → 9 ≤ bound := fun hp => by
    have := hlower'.left hp
    omega
  rw [Exec.execLoop_eq, Exec.execLoop_eq]
  refine hR.turn hopens (ih.eval h cond) hbound ((hlower (bound - 2) (by omega)).execAll hlower' hbody)
    fun flow => ?_
  cases flow with
  | normal | continued => exact hagain
  | broke | returned => exact hR.pure _

theorem upTo_succ : UpTo leeway p q R (bound + 1) :=
  have ih := hlower bound (Nat.le_refl _)
  { eval := hR.eval_succ ih
    evalItems := hR.evalItems_succ ih
    evalFields := hR.evalFields_succ ih
    call := hR.call_succ ih
    callFunction := hR.callFunction_succ ih
    exec := hR.exec_succ ih
    evalOption := hR.evalOption_succ ih
    execOption := hR.execOption_succ ih
    execAll := hR.execAll_succ hlower
    execLoop := hR.execLoop_succ ih
    execEach := hR.execEach_succ hlower }

end LowerLevels

theorem upTo (hR : Respects leeway p q R) (hpq : p ∨ q) (bound : Nat) : UpTo leeway p q R bound := by
  induction bound using Nat.strongRecOn with
  | ind bound ih =>
    cases bound with
    | zero => exact hR.upTo_zero hpq
    | succ bound => exact hR.upTo_succ fun k hk => ih k (Nat.lt_succ_of_le hk)

section Programs

variable (hR : Respects leeway p q R)
include hR

theorem defineAll {functions functions' : List (String × Function)}
    (h : List.Forall₂ (fun f g => f.1 = g.1 ∧ leeway.binds f.1 ∧ f.2.Akin leeway g.2) functions functions')
    : R Unit (modify (·.defineAll functions)) (modify (·.defineAll functions')) := by
  induction h with
  | nil => exact hR.pure ()
  | @cons f g rest rest' hhead _ ih =>
    obtain ⟨hname, hbinds, hakin⟩ := hhead
    have hdefine := hR.define hbinds hakin
    rw [show modify (·.defineAll (f :: rest)) = modify (·.define f.1 f.2) >>= fun _ => modify (·.defineAll rest)
      from rfl]
    rw [show modify (·.defineAll (g :: rest')) = modify (·.define f.1 g.2) >>= fun _ => modify (·.defineAll rest')
      by rw [hname]; rfl]
    exact hR.bind hdefine fun _ => ih

theorem run (hpq : p ∨ q) {n : Nat} (hpaced : PacedAll leeway p q n bound bound') {program program' : Program}
    (h : Stmt.AllAkin leeway n program.body program'.body)
    : R Unit (run bound program) (run bound' program') := by
  refine hR.bind (hR.defineAll (Stmt.AllAkin.functions h)) fun _ => ?_
  refine hR.bind ((hR.upTo hpq bound).execAll hpaced h) fun flow => ?_
  cases flow with
  | normal | returned value => exact hR.pure ()
  | broke | continued => exact hR.fail nofun

end Programs

theorem runSource (hR : Respects .none True False R) (h : bound ≤ bound') (source : String)
    : R Unit (runSource bound source) (runSource bound' source) := by
  unfold Exec.runSource
  split
  · exact hR.run (.inl trivial) (.of_le h) (Stmt.allAkin_self _)
  · exact hR.fail nofun

end Respects

/-- The operations of a machine are related to themselves, and what is given up to everything. -/
structure Relates (R : (α : Type) → Exec α → Exec α → Prop) : Prop where
  exhausted {α : Type} (y : Exec α) : R α exhausted y
  pure {α : Type} (a : α) : R α (pure a) (pure a)
  bind {α β : Type} {x y : Exec α} {f g : α → Exec β} (h : R α x y) (hnext : ∀ a, R β (f a) (g a))
    : R β (x >>= f) (y >>= g)
  fail {α : Type} {e : RuntimeError} (h : e ≠ .disconnected) : R α (fail e) (fail e)
  ask (request : Request) : R String (ask request) (ask request)
  lookup? (name : String) : R (Option Value) (lookup? name) (lookup? name)
  callee {α : Type} (name : String) {f g : Option Function → Exec α} (h : ∀ found, R α (f found) (g found))
    : R α (get >>= fun m => f (m.function? name)) (get >>= fun m => g (m.function? name))
  assign (name : String) (value : Value) : R Unit (assign name value) (assign name value)
  declare (name : String) (value : Value) : R Unit (declare name value) (declare name value)
  define (name : String) (function : Function) : R Unit (modify (·.define name function)) (modify (·.define name function))
  mathCall (name : String) (args : List Value) : R Value (mathCall name args) (mathCall name args)
  descend {α : Type} {x y : Exec α} (h : R α x y) : R α (descend x) (descend y)
  inScope {α : Type} {x y : Exec α} (h : R α x y) : R α (inScope x) (inScope y)
  calling {α : Type} (params : List String) (args : List Value) {x y : Exec α} (h : R α x y)
    : R α (calling params args x) (calling params args y)

namespace Relates

variable {R : (α : Type) → Exec α → Exec α → Prop} (hR : Relates R)
include hR

theorem covers : Covers fun α x => R α x x where
  pure := hR.pure
  bind h hnext := hR.bind h hnext
  fail h := hR.fail fun he => h (he ▸ .disconnected)
  lookup? := hR.lookup?
  mathCall := hR.mathCall

theorem respects : Respects .none True False R where
  left _ := hR.exhausted
  right h := h.elim
  pure := hR.pure
  bind := hR.bind
  fail := hR.fail
  ask := hR.ask
  lookup? := hR.lookup?
  declare _ := hR.declare _
  store _ := hR.covers.store hR.assign _
  methodCall := hR.covers.methodCall hR.assign
  mathCall := hR.mathCall
  descend := hR.descend
  inScope := hR.inScope
  calling _ := hR.calling _
  define _ _ _ h := h.eq ▸ hR.define _ _
  callee name f g x y h hnone := by
    have hcallee := hR.callee name (f := (·.elim x f)) (g := (·.elim y g)) ?_
    · convert hcallee using 3 with m m
      all_goals cases m.function? name <;> rfl
    · rintro (_ | function)
      · exact hnone
      · exact h _ _ function.akin_self
  skip h := h.elim
  echo h := h.elim
  turn h := h.elim

theorem upTo (bound : Nat) : Respects.UpTo .none True False R bound :=
  hR.respects.upTo (.inl trivial) bound

theorem execAll (bound : Nat) (stmts : List Stmt) : R Flow (execAll bound stmts) (execAll bound stmts) :=
  (hR.upTo bound).execAll (.of_le (Nat.le_refl bound)) (Stmt.allAkin_self stmts)

theorem run (bound : Nat) (program : Program) : R Unit (run bound program) (run bound program) :=
  hR.respects.run (.inl trivial) (.of_le (Nat.le_refl bound)) (Stmt.allAkin_self program.body)

end Relates

end Exec

end NodeScript.Script
