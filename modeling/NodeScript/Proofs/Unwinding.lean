import Mathlib.Order.Defs.Unbundled
import NodeScript.Proofs.Congruence
import NodeScript.Proofs.Frames

/-!
Programs leave their machine tidy. Whatever a computation comes to, the scopes and the counters that it finds are
there again when it ends, and only a declaration adds a name to a local scope.
-/

namespace NodeScript.Script

namespace Machine

/-- As many scopes, calls and steps are in progress in the one state as in the other, with the same limit. All local
scopes but the innermost one have the same names, and the program has lost none. -/
structure Balanced (m m' : Machine) : Prop where
  depth : m'.env.locals.length = m.env.locals.length
  calls : m'.calls = m.calls
  maxCalls : m'.maxCalls = m.maxCalls
  descent : m'.descent = m.descent
  globals : m.env.shape.1 <+: m'.env.shape.1
  outer : m'.env.shape.2.tail = m.env.shape.2.tail

structure Unwound (m m' : Machine) : Prop extends Balanced m m' where
  locals : m'.env.shape.2 = m.env.shape.2

theorem Balanced.refl (m : Machine) : m.Balanced m :=
  ⟨rfl, rfl, rfl, rfl, List.prefix_rfl, rfl⟩

section Steps

variable {m m' m'' : Machine}

theorem Balanced.trans (h : m.Balanced m') (h' : m'.Balanced m'') : m.Balanced m'' where
  depth := h'.depth.trans h.depth
  calls := h'.calls.trans h.calls
  maxCalls := h'.maxCalls.trans h.maxCalls
  descent := h'.descent.trans h.descent
  globals := h.globals.trans h'.globals
  outer := h'.outer.trans h.outer

instance : IsPreorder Machine Balanced where
  refl := Balanced.refl
  trans _ _ _ := Balanced.trans

instance : IsPreorder Machine Unwound where
  refl m := ⟨.refl m, rfl⟩
  trans _ _ _ h h' := ⟨h.toBalanced.trans h'.toBalanced, h'.locals.trans h.locals⟩

theorem Unwound.assign (m : Machine) (name : String) (value : Value)
    : m.Unwound { m with env := m.env.assign name value } := by
  have hlocals := m.env.shape_locals_assign name value
  refine ⟨⟨?_, rfl, rfl, rfl, m.env.shape_globals_assign name value, congrArg List.tail hlocals⟩, hlocals⟩
  have hlength := congrArg List.length hlocals
  rwa [Env.shape, Env.shape, List.length_map, List.length_map] at hlength

theorem Unwound.define (m : Machine) (name : String) (function : Function) : m.Unwound (m.define name function) :=
  ⟨⟨rfl, rfl, rfl, rfl, List.prefix_rfl, rfl⟩, rfl⟩

theorem Balanced.declare {env : Env} {name : String} {value : Value} (h : m.env.declare name value = .ok env)
    : m.Balanced { m with env } := by
  obtain ⟨hdepth, hglobals, houter⟩ := Env.shape_declare h
  exact ⟨hdepth, rfl, rfl, rfl, hglobals, houter⟩

theorem Balanced.ofDescent (h : { m with descent := m.descent + 1 }.Balanced m')
    : m.Balanced { m' with descent := m'.descent - 1 } where
  depth := h.depth
  calls := h.calls
  maxCalls := h.maxCalls
  descent := by rw [h.descent]; rfl
  globals := h.globals
  outer := h.outer

theorem Balanced.pop (h : { m with env := m.env.push }.Balanced m') : m.Unwound { m' with env := m'.env.pop } := by
  have hlocals : m'.env.pop.shape.2 = m.env.shape.2 := by
    change m'.env.locals.tail.map Table.keys = m.env.push.shape.2.tail
    rw [List.map_tail]
    exact h.outer
  refine ⟨⟨?_, h.calls, h.maxCalls, h.descent, h.globals, congrArg List.tail hlocals⟩, hlocals⟩
  have hdepth := h.depth
  rw [Env.push, List.length_cons] at hdepth
  rw [Env.pop, List.length_tail, hdepth, Nat.add_sub_cancel]

theorem Balanced.ofCall {scope : Scope}
    (h : { m with env := { m.env with locals := [scope] }, calls := m.calls + 1 }.Balanced m')
    : m.Unwound { m' with env := { m'.env with locals := m.env.locals }, calls := m'.calls - 1 } where
  depth := rfl
  calls := by rw [h.calls]; rfl
  maxCalls := h.maxCalls
  descent := h.descent
  globals := h.globals
  outer := rfl
  locals := rfl

end Steps

end Machine

namespace Exec

open Machine

/-- Whatever the host replies, the computation leads from each state to a related one, also where it fails. -/
def Leaves {α : Type} (rel : Machine → Machine → Prop) (x : Exec α) : Prop :=
  ∀ m, (x m).Results (fun _ => True) fun result => rel m result.2

namespace Leaves

variable {α β : Type} {rel : Machine → Machine → Prop} {x : Exec α}

theorem exhausted : Leaves rel (exhausted : Exec α) := fun _ => .exhausted

theorem modify {f : Machine → Machine} (h : ∀ m, rel m (f m)) : Leaves rel (modify f) := fun m => .done (h m)

variable [IsPreorder Machine rel]

theorem pure (a : α) : Leaves rel (Pure.pure a : Exec α) := fun m => .done (refl m)

theorem fail (e : RuntimeError) : Leaves rel (fail e : Exec α) := fun m => .done (refl m)

theorem get : Leaves rel get := fun m => .done (refl m)

theorem ask (request : Request) : Leaves rel (ask request) := by
  refine fun m => .ask ?_
  rintro (text | _) _
  all_goals exact .done (refl m)

theorem bind {f : α → Exec β} (h : Leaves rel x) (hnext : ∀ a, Leaves rel (f a)) : Leaves rel (x >>= f) := by
  intro m
  refine (h m).bind ?_
  rintro ⟨e | a, m'⟩ hrel
  · exact .done hrel
  · exact (hnext a m').mono fun _ hrel' => IsTrans.trans m m' _ hrel hrel'

theorem descend (h : Leaves rel x)
    (hrel : ∀ m m', rel { m with descent := m.descent + 1 } m' → rel m { m' with descent := m'.descent - 1 })
    : Leaves rel (descend x) := by
  intro m
  unfold Exec.descend
  split
  · exact .done (refl m)
  · exact (h _).bind fun result hresult => .done (hrel m result.2 hresult)

end Leaves

theorem covers_leaves {rel : Machine → Machine → Prop} [IsPreorder Machine rel]
    (hrandom : ∀ m random, rel m { m with random }) : Covers fun _ x => Leaves rel x where
  pure := .pure
  bind := .bind
  fail _ := .fail _
  lookup? _ := .bind .get fun _ => .pure _
  mathCall name args := by
    refine .bind .get fun m => ?_
    split
    · exact .bind (.modify fun m => hrandom m _) fun _ => .pure _
    · exact .fail _

section Balanced

variable {α : Type} {x : Exec α}

theorem Leaves.balanced (h : Leaves Unwound x) : Leaves Balanced x :=
  fun m => (h m).mono fun _ hresult => hresult.toBalanced

theorem leaves_declare (name : String) (value : Value) : Leaves Balanced (declare name value) := by
  intro m
  have heq : declare name value m = match m.env.declare name value with
        | .ok env => .done (.ok (), { m with env })
        | .error e => .done (.error e, m) := by
    unfold declare
    cases hdeclare : m.env.declare name value <;> simp [bind, get, Dialog.bind, hdeclare, ofExcept, fail, modify, pure]
  rw [heq]
  split
  · rename_i env henv
    exact .done (.declare henv)
  · exact .done (.refl m)

theorem Leaves.inScope (h : Leaves Balanced x) : Leaves Unwound (inScope x) :=
  fun m => (h { m with env := m.env.push }).bind fun _ hresult => .done hresult.pop

theorem Leaves.calling (h : Leaves Balanced x) (params : List String) (args : List Value)
    : Leaves Unwound (calling params args x) := by
  intro m
  unfold Exec.calling
  split
  · exact .done (refl m)
  · split
    · exact .done (refl m)
    · exact (h _).bind fun _ hresult => .done hresult.ofCall

end Balanced

theorem relates_balanced : Relates fun _ x _ => Leaves Balanced x where
  exhausted _ := .exhausted
  pure := .pure
  bind := .bind
  fail _ := .fail _
  ask := .ask
  lookup? _ := .bind .get fun _ => .pure _
  callee _ _ _ h := .bind .get fun _ => h _
  assign name value := .modify fun m => (Unwound.assign m name value).toBalanced
  declare := leaves_declare
  define _ _ := .modify fun m => (Unwound.define m _ _).toBalanced
  mathCall := (covers_leaves fun _ _ => ⟨rfl, rfl, rfl, rfl, List.prefix_rfl, rfl⟩).mathCall
  descend h := h.descend fun _ _ => .ofDescent
  inScope h := h.inScope.balanced
  calling params args _ _ h := (h.calling params args).balanced

theorem balanced_execAll (bound : Nat) (stmts : List Stmt) : Leaves Balanced (execAll bound stmts) :=
  relates_balanced.execAll bound stmts

theorem balanced_exec (bound : Nat) (stmt : Stmt) : Leaves Balanced (exec bound stmt) :=
  (relates_balanced.upTo bound).exec (PacedAll.of_le (Nat.le_refl bound)).paced (Stmt.akin_self stmt)

section Unwound

variable {α : Type} {x : Exec α}

theorem covers_unwound : Covers fun _ x => Leaves Unwound x :=
  covers_leaves fun _ _ => ⟨⟨rfl, rfl, rfl, rfl, List.prefix_rfl, rfl⟩, rfl⟩

theorem unwound_assign (name : String) (value : Value) : Leaves Unwound (assign name value) :=
  .modify (Unwound.assign · name value)

theorem unwound_descend (h : Leaves Unwound x) : Leaves Unwound (descend x) :=
  h.descend fun _ _ hresult => ⟨hresult.toBalanced.ofDescent, hresult.locals⟩

theorem unwound_callFunction (bound : Nat) (function : Function) (args : List Value)
    : Leaves Unwound (callFunction bound function args) := by
  cases bound with
  | zero => exact .exhausted
  | succ bound =>
    rw [callFunction]
    apply Leaves.calling
    exact .bind (balanced_execAll bound function.body) fun _ => .pure _

theorem unwound_call {bound : Nat} (heval : ∀ expr, Leaves Unwound (eval bound expr)) (callee : Expr)
    (args : List Value) : Leaves Unwound (call (bound + 1) callee args) := by
  refine covers_unwound.call_succ .ask ?_ fun _ _ => ⟨fun name => covers_unwound.methodCall unwound_assign name _ args, heval _⟩
  rintro name rfl
  rw [call]
  refine .bind .get fun m => ?_
  split
  · exact unwound_callFunction bound _ args
  · exact covers_unwound.builtinCall .ask name args

theorem unwound_eval (bound : Nat)
    : (∀ expr, Leaves Unwound (eval bound expr)) ∧ (∀ items, Leaves Unwound (evalItems bound items))
      ∧ (∀ fields, Leaves Unwound (evalFields bound fields))
      ∧ ∀ callee args, Leaves Unwound (call bound callee args) := by
  induction bound with
  | zero =>
    refine ⟨fun _ => ?_, fun _ => ?_, fun _ => ?_, fun _ _ => ?_⟩
    · rw [eval]; exact .exhausted
    · rw [evalItems]; exact .exhausted
    · rw [evalFields]; exact .exhausted
    · rw [call]; exact .exhausted
  | succ bound ih =>
    -- Nothing is said of statements here, since a call gives the scopes back whatever its body does.
    obtain ⟨heval, hitems, hfields, hcall⟩ := ih
    refine ⟨fun expr => ?_, fun items => ?_, fun fields => ?_, unwound_call heval⟩
    · exact covers_unwound.eval_succ unwound_descend (fun operand _ => heval operand) (fun _ => hitems _)
        (fun _ => hfields _) fun _ => ⟨hitems _, hcall _⟩
    · exact covers_unwound.evalItems_succ (fun item _ => heval item) (hitems _)
    · exact covers_unwound.evalFields_succ (fun field _ => heval field.2) (hfields _)

theorem unwound_evalOption (bound : Nat) (expr : Option Expr) : Leaves Unwound (evalOption bound expr) := by
  cases bound with
  | zero => rw [evalOption]; exact .exhausted
  | succ bound => exact covers_unwound.evalOption_succ fun expr _ => (unwound_eval bound).1 expr

theorem unwound_execOption_none (bound : Nat) : Leaves Unwound (execOption bound none) := by
  cases bound with
  | zero => rw [execOption]; exact .exhausted
  | succ bound => exact .pure ()

theorem unwound_execLoop (bound : Nat) (cond : Expr) (body : List Stmt)
    : Leaves Unwound (execLoop bound (some cond) none body) := by
  induction bound with
  | zero => rw [execLoop]; exact .exhausted
  | succ bound ih =>
    unfold execLoop
    refine .bind (.bind ((unwound_eval bound).1 cond) fun _ => .pure _) fun holds => ?_
    have hagain : Leaves Unwound (do execOption bound none; execLoop bound (some cond) none body) :=
      .bind (unwound_execOption_none bound) fun _ => ih
    dsimp only
    split
    · refine .bind (balanced_execAll bound body).inScope fun flow => ?_
      cases flow with
      | broke | returned value => exact .pure _
      | normal | continued => exact hagain
    · exact .pure _

theorem unwound_exec (bound : Nat) {stmt : Stmt} (h : ∀ name value, stmt ≠ .declare name value)
    : Leaves Unwound (exec bound stmt) := by
  cases bound with
  | zero => rw [exec]; exact .exhausted
  | succ bound =>
    have heval := (unwound_eval bound).1
    have hpaced := (PacedAll.of_le (Nat.le_refl bound)).paced
    unfold exec
    apply unwound_descend
    cases stmt with
    | declare name value => exact absurd rfl (h name value)
    | assign target op value =>
      refine .bind (heval value) fun value => ?_
      have hstore (position : Value) : Leaves Unwound (do store target position op value; return Flow.normal) :=
        .bind (covers_unwound.store unwound_assign target position op value) fun _ => .pure _
      cases target with
      | «variable» name => exact .bind (.pure _) hstore
      | element name position => exact .bind (heval position) hstore
    | expr value => exact .bind (heval value) fun _ => .pure _
    | ifElse cond thenBody elseBody =>
      refine .bind (heval cond) fun test => ?_
      split
      · exact (balanced_execAll bound thenBody).inScope
      · cases elseBody with
        | none => exact .pure _
        | some elseBody => exact (balanced_execAll bound elseBody).inScope
    | whileLoop cond body => exact unwound_execLoop bound cond body
    | forLoop init cond update body =>
      -- The scope of the loop takes up what the head declares.
      apply Leaves.inScope
      apply Leaves.bind ((relates_balanced.upTo bound).execOption hpaced (Stmt.optionAkin_self init))
      intro _
      exact (relates_balanced.upTo bound).execLoop hpaced cond (Stmt.optionAkin_self update) (Stmt.allAkin_self body)
    | breakLoop | continueLoop => exact .pure _
    | returnValue value => exact .bind (unwound_evalOption bound value) fun _ => .pure _
    | block body => exact (balanced_execAll bound body).inScope
    | function name params body => exact .bind (.modify (Unwound.define · name ⟨params, body⟩)) fun _ => .pure _

end Unwound

theorem balanced_runSource (bound : Nat) (source : String) : Leaves Balanced (runSource bound source) :=
  relates_balanced.respects.runSource (Nat.le_refl bound) source

end Exec

theorem Session.balanced_feed (bound : Nat) (session : Session) (source : String)
    : session.machine.Balanced (session.feed bound source).2.machine := by
  unfold feed
  dsimp only
  split
  · rename_i outcome machine hresult
    exact (Exec.balanced_runSource bound source session.machine).of_play session.host hresult
  · exact .refl _

def Session.fed (bound : Nat) (session : Session) (sources : List String) : Session :=
  sources.foldl (fun session source => (session.feed bound source).2) session

theorem Session.balanced_fed (bound : Nat) (session : Session) (sources : List String)
    : session.machine.Balanced (session.fed bound sources).machine := by
  induction sources generalizing session with
  | nil => exact .refl _
  | cons source rest ih => exact (session.balanced_feed bound source).trans (ih (session.feed bound source).2)

theorem Session.feedAll_append (bound : Nat) (session : Session) (sources later : List String)
    : session.feedAll bound (sources ++ later) =
      session.feedAll bound sources ++ (session.fed bound sources).feedAll bound later := by
  induction sources generalizing session with
  | nil => rfl
  | cons source rest ih => exact congrArg (_ :: ·) (ih (session.feed bound source).2)

/-- Nothing is in progress, and there is no scope but that of the program. -/
structure Machine.Resting (maxCalls : Nat) (m : Machine) : Prop where
  locals : m.env.locals = []
  calls : m.calls = 0
  descent : m.descent = 0
  maxCalls : m.maxCalls = maxCalls

theorem Machine.Balanced.resting {m m' : Machine} {maxCalls : Nat} (h : m.Balanced m') (hm : m.Resting maxCalls)
    : m'.Resting maxCalls where
  locals := by rw [← List.length_eq_zero_iff, h.depth, hm.locals]; rfl
  calls := h.calls.trans hm.calls
  descent := h.descent.trans hm.descent
  maxCalls := h.maxCalls.trans hm.maxCalls

/-- Programs leave their machine tidy, however they end and whatever the host replies. Statements and expressions put
the number of scopes and the counters back, add names to the innermost scope at most, and take no name from the
program; only a declaration adds a name to a local scope. So nothing is in progress between the sources of a session,
and those to come find the same limits. -/
theorem Exec.leaves_unwound [Generator] (bound : Nat) : (∀ expr, Leaves Machine.Unwound (eval bound expr))
        ∧ (∀ stmt, Leaves Machine.Balanced (exec bound stmt))
        ∧ (∀ stmt, (∀ name value, stmt ≠ .declare name value) → Leaves Machine.Unwound (exec bound stmt))
        ∧ (∀ source, Leaves Machine.Balanced (runSource bound source))
        ∧ ∀ seed maxCalls host sources later,
          (Session.fed bound ⟨.start seed maxCalls, host⟩ sources).machine.Resting maxCalls
            ∧ Session.feedAll bound ⟨.start seed maxCalls, host⟩ (sources ++ later) =
              Session.feedAll bound ⟨.start seed maxCalls, host⟩ sources
                ++ (Session.fed bound ⟨.start seed maxCalls, host⟩ sources).feedAll bound later := by
  refine ⟨(unwound_eval bound).1, balanced_exec bound, fun _ => unwound_exec bound, balanced_runSource bound, ?_⟩
  intro seed maxCalls host sources later
  refine ⟨?_, Session.feedAll_append bound _ sources later⟩
  exact (Session.balanced_fed bound ⟨.start seed maxCalls, host⟩ sources).resting ⟨rfl, rfl, rfl, rfl⟩

theorem Exec.leaves_unwound_nestedFailure : ((Session.feed 60 ⟨.start none 64, ⟨[], none⟩⟩
          "function f() { while (true) { { let x = g(); } } } f();").1.outcome.any fun
            | .error (.undefinedName "g") => true
            | _ => false) = true
        ∧ (Session.fed 60 ⟨.start none 64, ⟨[], none⟩⟩
          ["function f() { while (true) { { let x = g(); } } } f();"]).machine.Resting 64
        ∧ Leaves Machine.Unwound (exec 60 (.block [.declare "x" none])) := by
  obtain ⟨-, -, hexec, -, hsession⟩ := leaves_unwound 60
  refine ⟨by decide +kernel, (hsession none 64 ⟨[], none⟩ _ []).1, hexec _ nofun⟩

end NodeScript.Script
