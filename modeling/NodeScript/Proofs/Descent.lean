import NodeScript.Proofs.Connection
import NodeScript.Proofs.Frames

/-!
How deep programs descend. A program that calls no function of its own needs no more levels than its expressions and
statements nest, however long it runs. So it does not run out of them if the machine has that many left.
-/

namespace NodeScript.Script

variable {hooks : List String} {room : Nat}

inductive Expr.Shallow (hooks : List String) : Nat → Expr → Prop where
  | number {room : Nat} (value : Float) : Shallow hooks (room + 1) (.number value)
  | str {room : Nat} (value : String) : Shallow hooks (room + 1) (.str value)
  | bool {room : Nat} (value : Bool) : Shallow hooks (room + 1) (.bool value)
  | undefined {room : Nat} : Shallow hooks (room + 1) .undefined
  | null {room : Nat} : Shallow hooks (room + 1) .null
  | identifier {room : Nat} (name : String) : Shallow hooks (room + 1) (.identifier name)
  | array {room : Nat} {items : List Expr} (h : ∀ item ∈ items, Shallow hooks room item)
    : Shallow hooks (room + 1) (.array items)
  | object {room : Nat} {fields : List (String × Expr)} (h : ∀ field ∈ fields, Shallow hooks room field.2)
    : Shallow hooks (room + 1) (.object fields)
  | unary {room : Nat} {op : UnaryOp} {operand : Expr} (h : Shallow hooks room operand)
    : Shallow hooks (room + 1) (.unary op operand)
  | binary {room : Nat} {op : BinaryOp} {left right : Expr} (hleft : Shallow hooks room left)
      (hright : Shallow hooks room right)
    : Shallow hooks (room + 1) (.binary op left right)
  | logical {room : Nat} {op : LogicalOp} {left right : Expr} (hleft : Shallow hooks room left)
      (hright : Shallow hooks room right)
    : Shallow hooks (room + 1) (.logical op left right)
  | member {room : Nat} {holder : Expr} {property : String} (h : Shallow hooks room holder)
    : Shallow hooks (room + 1) (.member holder property)
  | index {room : Nat} {holder position : Expr} (hholder : Shallow hooks room holder)
      (hposition : Shallow hooks room position)
    : Shallow hooks (room + 1) (.index holder position)
  | call {room : Nat} {name : String} {arguments : List Expr} (hname : name ∈ hooks)
      (h : ∀ argument ∈ arguments, Shallow hooks room argument)
    : Shallow hooks (room + 1) (.call (.identifier name) arguments)
  | callMember {room : Nat} {holder : Expr} {property : String} {arguments : List Expr}
      (hholder : Shallow hooks room holder) (h : ∀ argument ∈ arguments, Shallow hooks room argument)
    : Shallow hooks (room + 1) (.call (.member holder property) arguments)
  | await {room : Nat} {operand : Expr} (h : Shallow hooks room operand) : Shallow hooks (room + 1) (.await operand)

inductive Stmt.Shallow (hooks : List String) : Nat → Stmt → Prop where
  | declare {room : Nat} {name : String} {value : Option Expr} (h : ∀ expr ∈ value, expr.Shallow hooks room)
    : Shallow hooks (room + 1) (.declare name value)
  | assign {room : Nat} {name : String} {op : AssignOp} {value : Expr} (h : value.Shallow hooks room)
    : Shallow hooks (room + 1) (.assign (.variable name) op value)
  | store {room : Nat} {name : String} {position : Expr} {op : AssignOp} {value : Expr}
      (hposition : position.Shallow hooks room) (h : value.Shallow hooks room)
    : Shallow hooks (room + 1) (.assign (.element name position) op value)
  | expr {room : Nat} {value : Expr} (h : value.Shallow hooks room) : Shallow hooks (room + 1) (.expr value)
  | ifElse {room : Nat} {cond : Expr} {thenBody : List Stmt} {elseBody : Option (List Stmt)}
      (hcond : cond.Shallow hooks room) (hthen : ∀ stmt ∈ thenBody, Shallow hooks room stmt)
      (helse : ∀ body ∈ elseBody, ∀ stmt ∈ body, Shallow hooks room stmt)
    : Shallow hooks (room + 1) (.ifElse cond thenBody elseBody)
  | whileLoop {room : Nat} {cond : Expr} {body : List Stmt} (hcond : cond.Shallow hooks room)
      (h : ∀ stmt ∈ body, Shallow hooks room stmt)
    : Shallow hooks (room + 1) (.whileLoop cond body)
  | forLoop {room : Nat} {init update : Option Stmt} {cond : Option Expr} {body : List Stmt}
      (hinit : ∀ stmt ∈ init, Shallow hooks room stmt) (hcond : ∀ expr ∈ cond, expr.Shallow hooks room)
      (hupdate : ∀ stmt ∈ update, Shallow hooks room stmt) (h : ∀ stmt ∈ body, Shallow hooks room stmt)
    : Shallow hooks (room + 1) (.forLoop init cond update body)
  | breakLoop {room : Nat} : Shallow hooks (room + 1) .breakLoop
  | continueLoop {room : Nat} : Shallow hooks (room + 1) .continueLoop
  | returnValue {room : Nat} {value : Option Expr} (h : ∀ expr ∈ value, expr.Shallow hooks room)
    : Shallow hooks (room + 1) (.returnValue value)
  | block {room : Nat} {body : List Stmt} (h : ∀ stmt ∈ body, Shallow hooks room stmt)
    : Shallow hooks (room + 1) (.block body)
  | function {room : Nat} {name : String} {params : List String} {body : List Stmt} (hname : name ∉ hooks)
    : Shallow hooks (room + 1) (.function name params body)

theorem Expr.Shallow.operands {expr : Expr} (h : expr.Shallow hooks (room + 1))
    : ∀ operand ∈ expr.operands, operand.Shallow hooks room := by
  cases h with
  | unary h | member h | await h => exact List.forall_mem_singleton.mpr h
  | binary h h' | logical h h' | index h h' => exact List.forall_mem_cons.mpr ⟨h, List.forall_mem_singleton.mpr h'⟩
  | _ => exact List.forall_mem_nil _

theorem Machine.descent_defineAll (m : Machine) (functions : List (String × Function))
    : (m.defineAll functions).descent = m.descent := by
  induction functions generalizing m with
  | nil => rfl
  | cons function rest ih => exact ih (m.define function.1 function.2)

namespace Exec

theorem Lacks.define {m : Machine} (h : Lacks hooks m) {name : String} (hname : name ∉ hooks) (function : Function)
    : Lacks hooks (m.define name function) := by
  intro other hother
  have hne : other ≠ name := fun heq => hname (heq ▸ hother)
  unfold Machine.define Machine.function?
  rw [List.lookup_cons, beq_false_of_ne hne]
  exact h other hother

theorem Lacks.defineAll {m : Machine} (h : Lacks hooks m) {functions : List (String × Function)}
    (hnames : ∀ function ∈ functions, function.1 ∉ hooks) : Lacks hooks (m.defineAll functions) := by
  induction functions generalizing m with
  | nil => exact h
  | cons function rest ih =>
    rw [List.forall_mem_cons] at hnames
    exact ih (h.define hnames.1 function.2) hnames.2

def Clears {α : Type} (hooks : List String) (room : Nat) (x : Exec α) : Prop :=
  ∀ m, Lacks hooks m → m.descent + room ≤ maxDescent → (x m).Results (fun _ => True) fun result =>
      result.1 ≠ .error .stackOverflow ∧ Lacks hooks result.2 ∧ result.2.descent = m.descent

namespace Clears

variable {α β : Type} {hooks : List String} {room : Nat} {x : Exec α}

theorem pure (a : α) : Clears hooks room (Pure.pure a : Exec α) :=
  fun _ hm _ => .done ⟨nofun, hm, rfl⟩

theorem fail {e : RuntimeError} (h : e ≠ .stackOverflow) : Clears hooks room (fail e : Exec α) :=
  fun _ hm _ => .done ⟨fun he => h (by cases he; rfl), hm, rfl⟩

theorem exhausted : Clears hooks room (exhausted : Exec α) :=
  fun _ _ _ => .exhausted

theorem get : Clears hooks room get :=
  fun _ hm _ => .done ⟨nofun, hm, rfl⟩

theorem modify {f : Machine → Machine} (hlacks : ∀ m, Lacks hooks m → Lacks hooks (f m))
    (hdescent : ∀ m, (f m).descent = m.descent) : Clears hooks room (modify f) :=
  fun m hm _ => .done ⟨nofun, hlacks m hm, hdescent m⟩

theorem ask (request : Request) : Clears hooks room (ask request) := by
  refine fun m hm _ => .ask ?_
  rintro (text | _) _
  all_goals exact .done ⟨nofun, hm, rfl⟩

theorem ofExcept {x : Except RuntimeError α} (h : x ≠ .error .stackOverflow) : Clears hooks room (ofExcept x) := by
  cases x with
  | ok a => apply pure
  | error e => exact fail fun he => h (by rw [he])

theorem bind {f : α → Exec β} (h : Clears hooks room x) (hnext : ∀ a, Clears hooks room (f a))
    : Clears hooks room (x >>= f) := by
  intro m hm hroom
  apply (h m hm hroom).bind
  rintro ⟨e | a, m'⟩ ⟨hresult, hm', hdescent⟩
  · exact .done ⟨fun he => hresult (by cases he; rfl), hm', hdescent⟩
  · apply (hnext a m' hm' (hdescent ▸ hroom)).mono
    rintro result ⟨hresult', hlacks, hdescent'⟩
    exact ⟨hresult', hlacks, hdescent'.trans hdescent⟩

theorem descend (h : Clears hooks room x) : Clears hooks (room + 1) (descend x) := by
  intro m hm hroom
  unfold Exec.descend
  rw [if_neg (by omega)]
  apply (h { m with descent := m.descent + 1 } hm (show m.descent + 1 + room ≤ maxDescent by omega)).bind
  rintro result ⟨hresult, hm', hdescent⟩
  refine .done ⟨hresult, hm', ?_⟩
  exact (congrArg (· - 1) hdescent).trans (Nat.add_sub_cancel m.descent 1)

theorem inScope (h : Clears hooks room x) : Clears hooks room (inScope x) :=
  fun m hm hroom => (h { m with env := m.env.push } hm hroom).bind fun _ hresult => .done hresult

theorem assign (name : String) (value : Value) : Clears hooks room (assign name value) :=
  modify (fun _ hm => hm) fun _ => rfl

theorem declare (name : String) (value : Value) : Clears hooks room (declare name value) := by
  apply bind get
  intro m
  apply bind (ofExcept (env_declare_ne_error (by nofun) m.env name value))
  exact fun _ => modify (fun _ hm => hm) fun _ => rfl

end Clears

theorem covers_clears (hooks : List String) (room : Nat) : Covers fun _ x => Clears hooks room x where
  pure := .pure
  bind := .bind
  fail h := .fail fun he => h (he ▸ .stackOverflow)
  lookup? _ := .bind .get fun _ => .pure _
  mathCall name args := by
    refine .bind .get fun m => ?_
    split
    · exact .bind (.modify (fun _ hm => hm) fun _ => rfl) fun _ => .pure _
    · exact .fail nofun

structure ClearsUpTo (hooks : List String) (bound : Nat) : Prop where
  eval {room : Nat} {expr : Expr} (h : expr.Shallow hooks room) : Clears hooks room (eval bound expr)
  evalItems {room : Nat} {items : List Expr} (h : ∀ item ∈ items, item.Shallow hooks room)
    : Clears hooks room (evalItems bound items)
  evalFields {room : Nat} {fields : List (String × Expr)} (h : ∀ field ∈ fields, field.2.Shallow hooks room)
    : Clears hooks room (evalFields bound fields)
  callMember {room : Nat} {holder : Expr} (h : holder.Shallow hooks room) (property : String) (args : List Value)
    : Clears hooks room (call bound (.member holder property) args)
  exec {room : Nat} {stmt : Stmt} (h : stmt.Shallow hooks room) : Clears hooks room (exec bound stmt)
  evalOption {room : Nat} {expr : Option Expr} (h : ∀ e ∈ expr, e.Shallow hooks room)
    : Clears hooks room (evalOption bound expr)
  execOption {room : Nat} {stmt : Option Stmt} (h : ∀ s ∈ stmt, s.Shallow hooks room)
    : Clears hooks room (execOption bound stmt)
  execAll {room : Nat} {stmts : List Stmt} (h : ∀ stmt ∈ stmts, stmt.Shallow hooks room)
    : Clears hooks room (execAll bound stmts)
  execLoop {room : Nat} {cond : Option Expr} (hcond : ∀ e ∈ cond, e.Shallow hooks room)
      {update : Option Stmt} (hupdate : ∀ s ∈ update, s.Shallow hooks room) {body : List Stmt}
      (hbody : ∀ stmt ∈ body, stmt.Shallow hooks room)
    : Clears hooks room (execLoop bound cond update body)

theorem clearsUpTo_zero (hooks : List String) : ClearsUpTo hooks 0 where
  eval _ := .exhausted
  evalItems _ := .exhausted
  evalFields _ := .exhausted
  callMember _ _ _ := .exhausted
  exec _ := .exhausted
  evalOption _ := .exhausted
  execOption _ := .exhausted
  execAll _ := .exhausted
  execLoop _ _ _ _ _ := .exhausted

theorem clears_call_hook {name : String} (h : name ∈ hooks) (bound : Nat) (args : List Value)
    : Clears hooks room (call bound (.identifier name) args) := by
  cases bound with
  | zero => exact .exhausted
  | succ bound =>
    intro m hm
    rw [call_of_none (hm name h)]
    exact (covers_clears hooks room).builtinCall .ask name args m hm

section Levels

variable {hooks : List String} {room bound : Nat} (ih : ClearsUpTo hooks bound)
include ih

theorem clears_eval_succ {expr : Expr} (h : expr.Shallow hooks room) : Clears hooks room (eval (bound + 1) expr) := by
  cases room with
  | zero => cases h
  | succ room =>
    refine (covers_clears hooks room).eval_succ .descend (fun operand hoperand => ih.eval (h.operands operand hoperand))
      ?_ ?_ ?_
    · rintro items rfl
      cases h with
      | array h => exact ih.evalItems h
    · rintro fields rfl
      cases h with
      | object h => exact ih.evalFields h
    · rintro callee arguments rfl
      cases h with
      | call hname h => exact ⟨ih.evalItems h, clears_call_hook hname bound⟩
      | callMember hholder h => exact ⟨ih.evalItems h, ih.callMember hholder _⟩

theorem clears_callMember_succ {holder : Expr} (h : holder.Shallow hooks room) (property : String)
    (args : List Value) : Clears hooks room (call (bound + 1) (.member holder property) args) := by
  have hcovers := covers_clears hooks room
  refine hcovers.call_succ .ask ?_ ?_
  · rintro _ ⟨⟩
  · rintro _ _ method ⟨⟩ -
    exact ⟨fun name => hcovers.methodCall .assign name method args, ih.eval h⟩

theorem clears_execOption_succ {stmt : Option Stmt} (h : ∀ s ∈ stmt, s.Shallow hooks room)
    : Clears hooks room (execOption (bound + 1) stmt) := by
  cases stmt with
  | none => exact .pure _
  | some stmt => exact .bind (ih.exec (h stmt rfl)) fun _ => .pure _

theorem clears_exec_succ {stmt : Stmt} (h : stmt.Shallow hooks room) : Clears hooks room (exec (bound + 1) stmt) := by
  unfold exec
  cases h with
  | declare h => exact .descend (.bind (ih.evalOption h) fun value => .bind (.declare _ value) fun _ => .pure _)
  | assign h =>
    exact .descend (.bind (ih.eval h) fun value => .bind (.pure _) fun position =>
      .bind ((covers_clears hooks _).store .assign _ position _ value) fun _ => .pure _)
  | store hposition h =>
    exact .descend (.bind (ih.eval h) fun value => .bind (ih.eval hposition) fun position =>
      .bind ((covers_clears hooks _).store .assign _ position _ value) fun _ => .pure _)
  | expr h => exact .descend (.bind (ih.eval h) fun _ => .pure _)
  | @ifElse _ _ _ elseBody hcond hthen helse =>
    apply Clears.descend
    apply Clears.bind (ih.eval hcond)
    intro test
    split
    · exact (ih.execAll hthen).inScope
    · cases elseBody with
      | none => apply Clears.pure
      | some body => exact (ih.execAll (helse body rfl)).inScope
  | whileLoop hcond h =>
    refine .descend (ih.execLoop ?_ ?_ h)
    · rintro _ ⟨⟩
      exact hcond
    · rintro _ ⟨⟩
  | forLoop hinit hcond hupdate h =>
    apply Clears.descend
    apply Clears.inScope
    exact .bind (ih.execOption hinit) fun _ => ih.execLoop hcond hupdate h
  | breakLoop | continueLoop => exact .descend (.pure _)
  | returnValue h => exact .descend (.bind (ih.evalOption h) fun _ => .pure _)
  | block h => exact .descend (ih.execAll h).inScope
  | function hname =>
    apply Clears.descend
    apply Clears.bind _ fun _ => .pure _
    exact .modify (fun m hm => Lacks.define hm hname _) fun _ => rfl

theorem clears_execAll_succ {stmts : List Stmt} (h : ∀ stmt ∈ stmts, stmt.Shallow hooks room)
    : Clears hooks room (execAll (bound + 1) stmts) := by
  cases stmts with
  | nil => exact .pure _
  | cons stmt rest =>
    obtain ⟨hstmt, hrest⟩ := List.forall_mem_cons.mp h
    apply Clears.bind (ih.exec hstmt)
    intro flow
    cases flow with
    | normal => exact ih.execAll hrest
    | _ => exact .pure _

theorem clears_execLoop_succ {cond : Option Expr} (hcond : ∀ e ∈ cond, e.Shallow hooks room)
    {update : Option Stmt} (hupdate : ∀ s ∈ update, s.Shallow hooks room) {body : List Stmt}
    (hbody : ∀ stmt ∈ body, stmt.Shallow hooks room)
    : Clears hooks room (execLoop (bound + 1) cond update body) := by
  rw [execLoop_eq]
  -- A round is over before the next one starts, so all rounds have the same levels.
  have hagain := (ih.execOption hupdate).bind fun _ => ih.execLoop hcond hupdate hbody
  have htest : Clears hooks room (holds bound cond) := by
    cases cond with
    | none => exact .pure true
    | some cond => exact .bind (ih.eval (hcond cond rfl)) fun _ => .pure _
  refine htest.bind fun test => ?_
  split
  · refine (ih.execAll hbody).inScope.bind fun flow => ?_
    cases flow with
    | normal | continued => exact hagain
    | broke | returned => exact .pure _
  · exact .pure _

end Levels

theorem clearsUpTo (hooks : List String) (bound : Nat) : ClearsUpTo hooks bound := by
  induction bound with
  | zero => apply clearsUpTo_zero
  | succ bound ih =>
    exact
      { eval := clears_eval_succ ih
        evalItems := fun h => (covers_clears ..).evalItems_succ (fun item hitem => ih.eval (h item hitem))
          (ih.evalItems fun item hitem => h item (List.mem_of_mem_tail hitem))
        evalFields := fun h => (covers_clears ..).evalFields_succ (fun field hfield => ih.eval (h field hfield))
          (ih.evalFields fun field hfield => h field (List.mem_of_mem_tail hfield))
        callMember := clears_callMember_succ ih
        exec := clears_exec_succ ih
        evalOption := fun h => (covers_clears ..).evalOption_succ fun e he => ih.eval (h e he)
        execOption := clears_execOption_succ ih
        execAll := clears_execAll_succ ih
        execLoop := clears_execLoop_succ ih }

theorem clears_run {program : Program} (h : ∀ stmt ∈ program.body, stmt.Shallow hooks room) (bound : Nat)
    : Clears hooks room (run bound program) := by
  have hfunctions (m : Machine) (hm : Lacks hooks m) : Lacks hooks (m.defineAll program.functions) := by
    apply Lacks.defineAll hm
    intro function hfunction
    obtain ⟨stmt, hstmt, hname⟩ := List.mem_filterMap.mp hfunction
    have hshallow := h stmt hstmt
    split at hname
    · cases hname
      cases hshallow with
      | function hname => exact hname
    · cases hname
  apply Clears.bind (.modify hfunctions fun m => m.descent_defineAll program.functions)
  intro _
  apply Clears.bind ((clearsUpTo hooks bound).execAll h)
  intro flow
  cases flow with
  | normal | returned _ => exact .pure _
  | broke | continued => exact .fail nofun

end Exec

end NodeScript.Script
