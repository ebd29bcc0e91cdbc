import Mathlib.Data.List.Forall2
import NodeScript.Proofs.Dialogs
import NodeScript.Proofs.Environment
import NodeScript.Proofs.Interpreter
import NodeScript.Proofs.Operations

/-!
What computations leave alone: expressions that change no variable, and statements that change those of
local scopes only, but for some names.
-/

namespace NodeScript.Script

open List

variable {hooks : List String}

inductive Expr.Calm (hooks : List String) : Expr → Prop where
  | number (value : Float) : Calm hooks (.number value)
  | str (value : String) : Calm hooks (.str value)
  | bool (value : Bool) : Calm hooks (.bool value)
  | undefined : Calm hooks .undefined
  | null : Calm hooks .null
  | identifier (name : String) : Calm hooks (.identifier name)
  | array {items : List Expr} (h : ∀ item ∈ items, Calm hooks item) : Calm hooks (.array items)
  | object {fields : List (String × Expr)} (h : ∀ field ∈ fields, Calm hooks field.2) : Calm hooks (.object fields)
  | unary {op : UnaryOp} {operand : Expr} (h : Calm hooks operand) : Calm hooks (.unary op operand)
  | binary {op : BinaryOp} {left right : Expr} (hleft : Calm hooks left) (hright : Calm hooks right)
    : Calm hooks (.binary op left right)
  | member {holder : Expr} {property : String} (h : Calm hooks holder) : Calm hooks (.member holder property)
  | index {holder position : Expr} (hholder : Calm hooks holder) (hposition : Calm hooks position)
    : Calm hooks (.index holder position)
  | call {name : String} {arguments : List Expr} (hname : name ∈ hooks)
      (h : ∀ argument ∈ arguments, Calm hooks argument)
    : Calm hooks (.call (.identifier name) arguments)
  | callMember {holder : Expr} {property : String} {arguments : List Expr}
      (hproperty : Value.Method.ofName? property = none) (h : ∀ argument ∈ arguments, Calm hooks argument)
    : Calm hooks (.call (.member holder property) arguments)
  | await {operand : Expr} (h : Calm hooks operand) : Calm hooks (.await operand)

theorem Expr.Calm.operands {expr : Expr} (h : expr.Calm hooks) : ∀ operand ∈ expr.operands, operand.Calm hooks := by
  cases h with
  | unary h | member h | await h => exact forall_mem_singleton.mpr h
  | binary h h' | index h h' => exact forall_mem_cons.mpr ⟨h, forall_mem_singleton.mpr h'⟩
  | _ => exact forall_mem_nil _

namespace Exec

/-- The program has no functions of these names. -/
def Lacks (hooks : List String) (m : Machine) : Prop :=
  ∀ name ∈ hooks, m.function? name = none

def Keeps {α : Type} (hooks : List String) (x : Exec α) : Prop :=
  ∀ m, Lacks hooks m
    → (x m).Results (fun _ => True) fun result => result.2.env = m.env ∧ result.2.functions = m.functions

theorem Lacks.of_functions_eq {m m' : Machine} (h : Lacks hooks m) (hfunctions : m'.functions = m.functions)
    : Lacks hooks m' := by
  intro name hname
  unfold Machine.function?
  rw [hfunctions]
  exact h name hname

namespace Keeps

variable {α β : Type} {hooks : List String} {x : Exec α}

theorem pure (a : α) : Keeps hooks (Pure.pure a : Exec α) :=
  fun _ _ => .done ⟨rfl, rfl⟩

theorem fail (e : RuntimeError) : Keeps hooks (fail e : Exec α) :=
  fun _ _ => .done ⟨rfl, rfl⟩

theorem exhausted : Keeps hooks (exhausted : Exec α) :=
  fun _ _ => .exhausted

theorem get : Keeps hooks get :=
  fun _ _ => .done ⟨rfl, rfl⟩

theorem ask (request : Request) : Keeps hooks (ask request) := by
  refine fun m _ => .ask ?_
  rintro (text | _) _
  all_goals exact .done ⟨rfl, rfl⟩

theorem bind {f : α → Exec β} (h : Keeps hooks x) (hnext : ∀ a, Keeps hooks (f a)) : Keeps hooks (x >>= f) := by
  intro m hm
  refine (h m hm).bind ?_
  rintro ⟨e | a, m'⟩ ⟨henv, hfunctions⟩
  · exact .done ⟨henv, hfunctions⟩
  · refine (hnext a m' (hm.of_functions_eq hfunctions)).mono ?_
    rintro result ⟨henv', hfunctions'⟩
    exact ⟨henv'.trans henv, hfunctions'.trans hfunctions⟩

theorem descend (h : Keeps hooks x) : Keeps hooks (descend x) := by
  intro m hm
  unfold Exec.descend
  split
  · exact .done ⟨rfl, rfl⟩
  · exact (h { m with descent := m.descent + 1 } hm).bind fun _ hresult => .done hresult

end Keeps

theorem covers_keeps (hooks : List String) : Covers fun _ x => Keeps hooks x where
  pure := .pure
  bind := .bind
  fail _ := .fail _
  lookup? _ := .bind .get fun _ => .pure _
  mathCall name args := by
    refine .bind .get fun m => ?_
    split
    · exact .bind (fun _ _ => .done ⟨rfl, rfl⟩) fun _ => .pure _
    · exact .fail _

theorem keeps_call {callee : Expr} {arguments : List Expr} (h : Expr.Calm hooks (.call callee arguments)) (bound : Nat)
    (args : List Value) : Keeps hooks (call bound callee args) := by
  cases bound with
  | zero => exact .exhausted
  | succ bound =>
    refine (covers_keeps hooks).call_succ .ask ?_ ?_
    · rintro name rfl m hm
      cases h with
      | call hname _ =>
        rw [call_of_none (hm name hname)]
        exact (covers_keeps hooks).builtinCall .ask name args m hm
    · rintro holder property method rfl hmethod
      cases h with
      | callMember hproperty _ => cases hproperty.symm.trans hmethod

theorem keeps_eval (bound : Nat) : (∀ expr, Expr.Calm hooks expr → Keeps hooks (eval bound expr))
      ∧ (∀ items : List Expr, (∀ item ∈ items, Expr.Calm hooks item) → Keeps hooks (evalItems bound items))
      ∧ ∀ fields : List (String × Expr), (∀ field ∈ fields, Expr.Calm hooks field.2)
        → Keeps hooks (evalFields bound fields) := by
  induction bound with
  | zero =>
    refine ⟨fun _ _ => ?_, fun _ _ => ?_, fun _ _ => ?_⟩
    · rw [eval]; exact .exhausted
    · rw [evalItems]; exact .exhausted
    · rw [evalFields]; exact .exhausted
  | succ bound ih =>
    obtain ⟨heval, hitems, hfields⟩ := ih
    refine ⟨fun expr h => ?_, fun items h => ?_, fun fields h => ?_⟩
    · refine (covers_keeps hooks).eval_succ .descend (fun operand hoperand => heval _ (h.operands operand hoperand)) ?_ ?_ ?_
      · rintro items rfl
        cases h with
        | array h => exact hitems items h
      · rintro fields rfl
        cases h with
        | object h => exact hfields fields h
      · rintro callee arguments rfl
        refine ⟨hitems arguments ?_, keeps_call h bound⟩
        cases h with
        | call _ h | callMember _ h => exact h
    · exact (covers_keeps hooks).evalItems_succ (fun item hitem => heval item (h item hitem))
        (hitems _ fun item hitem => h item (mem_of_mem_tail hitem))
    · exact (covers_keeps hooks).evalFields_succ (fun field hfield => heval field.2 (h field hfield))
        (hfields _ fun field hfield => h field (mem_of_mem_tail hfield))

end Exec

def Scope.Grows (scope scope' : Scope) : Prop :=
  ∀ name, scope.contains name → scope'.contains name

theorem Scope.grows_insert (scope : Scope) (name : String) (value : Value) : scope.Grows (scope.insert name value) := by
  intro n hn
  rw [Table.contains_insert, hn, Bool.or_true]

theorem forall₂_grows_refl (scopes : List Scope) : List.Forall₂ Scope.Grows scopes scopes :=
  forall₂_same.mpr fun _ _ _ h => h

theorem forall₂_grows_trans {scopes scopes' scopes'' : List Scope} (h : List.Forall₂ Scope.Grows scopes scopes')
    (h' : List.Forall₂ Scope.Grows scopes' scopes'') : List.Forall₂ Scope.Grows scopes scopes'' := by
  induction h generalizing scopes'' with
  | nil => exact h'
  | cons hhead _ ih =>
    cases h' with
    | cons hhead' hrest' => exact .cons (fun name hname => hhead' name (hhead name hname)) (ih hrest')

namespace Env

structure Binds (scope : List String) (env : Env) : Prop where
  inside : env.locals ≠ []
  names : ∀ name ∈ scope, env.locals.any fun s => s.contains name

structure Evolves (strays : List String) (env env' : Env) : Prop where
  globals : ∀ name, name ∉ strays → env'.globals.get? name = env.globals.get? name
  locals : List.Forall₂ Scope.Grows env.locals env'.locals

variable {strays scope : List String} {env env' : Env} {name : String}

theorem Evolves.refl (strays : List String) (env : Env) : Evolves strays env env :=
  ⟨fun _ _ => rfl, forall₂_grows_refl _⟩

theorem Evolves.trans {env'' : Env} (h : Evolves strays env env') (h' : Evolves strays env' env'')
    : Evolves strays env env'' :=
  ⟨fun name hname => (h'.globals name hname).trans (h.globals name hname), forall₂_grows_trans h.locals h'.locals⟩

theorem Evolves.mono {strays' : List String} (h : Evolves strays env env') (hsubset : strays ⊆ strays')
    : Evolves strays' env env' :=
  ⟨fun name hname => h.globals name fun hmem => hname (hsubset hmem), h.locals⟩

theorem Binds.evolves (h : Binds scope env) (hevolves : Evolves strays env env') : Binds scope env' := by
  obtain ⟨hinside, hnames⟩ := h
  have hlocals := hevolves.locals
  refine ⟨fun hnil => hinside (by rw [hnil] at hlocals; exact forall₂_nil_right_iff.mp hlocals), ?_⟩
  intro name hname
  have hany := hnames name hname
  generalize env.locals = scopes at hany hlocals
  generalize env'.locals = scopes' at hlocals
  induction hlocals with
  | nil => exact hany
  | cons hhead _ ih =>
    rw [any_cons, Bool.or_eq_true] at hany ⊢
    exact hany.imp (hhead name) ih

theorem Binds.append {scope' : List String} (h : Binds scope env) (h' : Binds scope' env)
    : Binds (scope ++ scope') env :=
  ⟨h.inside, fun name hname => (mem_append.mp hname).elim (h.names name) (h'.names name)⟩

theorem Binds.push (h : Binds scope env) : Binds scope env.push :=
  ⟨cons_ne_nil _ _, fun name hname => by
    rw [Env.push, any_cons, h.names name hname, Bool.or_true]⟩

theorem Evolves.pop (h : Evolves strays env.push env') : Evolves strays env env'.pop := by
  refine ⟨h.globals, ?_⟩
  have hlocals := h.locals
  rw [Env.push, forall₂_cons_left_iff] at hlocals
  obtain ⟨scope, rest, -, hrest, heq⟩ := hlocals
  rw [Env.pop, heq]
  exact hrest

theorem evolves_declare (h : env.locals ≠ []) {value : Value} (hdeclare : env.declare name value = .ok env')
    : Evolves [] env env' ∧ Binds [name] env' := by
  obtain ⟨hnil, -⟩ | ⟨scope, rest, hlocals, -, rfl⟩ := declare_eq_ok hdeclare
  · exact absurd hnil h
  · refine ⟨⟨fun _ _ => rfl, ?_⟩, cons_ne_nil _ _, ?_⟩
    · rw [hlocals]
      exact .cons (Scope.grows_insert scope name value) (forall₂_grows_refl _)
    · simp [Table.contains_insert]

theorem forall₂_updateLocals (scopes : List Scope) (name : String) (value : Value)
    : List.Forall₂ Scope.Grows scopes (updateLocals name value scopes) := by
  induction scopes with
  | nil => exact .nil
  | cons scope scopes ih =>
    rw [updateLocals]
    split
    · exact .cons (Scope.grows_insert scope name value) (forall₂_grows_refl _)
    · exact .cons (fun _ h => h) ih

theorem evolves_assign_of_binds (h : Binds scope env) (hname : name ∈ scope) (value : Value)
    : Evolves [] env (env.assign name value) := by
  unfold assign
  rw [if_pos (h.names name hname)]
  exact ⟨fun _ _ => rfl, forall₂_updateLocals _ name value⟩

theorem evolves_assign (env : Env) (name : String) (value : Value) : Evolves [name] env (env.assign name value) := by
  unfold assign
  split
  · exact ⟨fun _ _ => rfl, forall₂_updateLocals _ name value⟩
  · refine ⟨fun n hn => ?_, forall₂_grows_refl _⟩
    rw [Table.get?_insert, if_neg (by simpa using hn)]

end Env

namespace Exec

/-- Where local scopes have the names `scope`, the computation lets the variables evolve. Where it yields `a`,
they have the names `names a`. -/
def Evolves {α : Type} (hooks strays scope : List String) (names : α → List String) (x : Exec α) : Prop :=
  ∀ m, Lacks hooks m → m.env.Binds scope → (x m).Results (fun _ => True) fun result => result.2.functions = m.functions
      ∧ m.env.Evolves strays result.2.env ∧ ∀ a, result.1 = .ok a → result.2.env.Binds (names a)

namespace Evolves

variable {α β : Type} {hooks strays scope : List String} {x : Exec α} {names : α → List String}

theorem of_keeps (h : Keeps hooks x) : Evolves hooks strays scope (fun _ => scope) x := by
  intro m hm hscope
  refine (h m hm).mono ?_
  rintro result ⟨henv, hfunctions⟩
  rw [henv]
  exact ⟨hfunctions, .refl _ _, fun _ _ => hscope⟩

theorem pure {a : α} (h : names a ⊆ scope) : Evolves hooks strays scope names (Pure.pure a) := by
  intro m _ hscope
  refine .done ⟨rfl, .refl _ _, ?_⟩
  rintro _ ⟨⟩
  exact ⟨hscope.inside, fun name hname => hscope.names name (h hname)⟩

theorem bind {f : α → Exec β} {names' : β → List String} (h : Evolves hooks strays scope names x)
    (hnext : ∀ a, Evolves hooks strays (names a) names' (f a)) : Evolves hooks strays scope names' (x >>= f) := by
  intro m hm hscope
  refine (h m hm hscope).bind ?_
  rintro ⟨e | a, m'⟩ ⟨hfunctions, hevolves, hbinds⟩
  · exact .done ⟨hfunctions, hevolves, fun _ he => nomatch he⟩
  · refine (hnext a m' (hm.of_functions_eq hfunctions) (hbinds a rfl)).mono ?_
    rintro result ⟨hfunctions', hevolves', hbinds'⟩
    exact ⟨hfunctions'.trans hfunctions, hevolves.trans hevolves', hbinds'⟩

theorem exhausted : Evolves hooks strays scope names (exhausted : Exec α) :=
  fun _ _ _ => .exhausted

theorem names_mono {names' : α → List String} (h : Evolves hooks strays scope names x)
    (hsubset : ∀ a, names' a ⊆ names a) : Evolves hooks strays scope names' x := by
  refine fun m hm hscope => (h m hm hscope).mono fun _ hresult => ⟨hresult.1, hresult.2.1, fun a ha => ?_⟩
  have hbinds := hresult.2.2 a ha
  exact ⟨hbinds.inside, fun name hname => hbinds.names name (hsubset a hname)⟩

theorem mono {strays' : List String} (h : Evolves hooks strays scope names x) (hsubset : strays ⊆ strays')
    : Evolves hooks strays' scope names x :=
  fun m hm hscope => (h m hm hscope).mono fun _ hresult => ⟨hresult.1, hresult.2.1.mono hsubset, hresult.2.2⟩

theorem descend (h : Evolves hooks strays scope names x) : Evolves hooks strays scope names (descend x) := by
  intro m hm hscope
  unfold Exec.descend
  split
  · exact .done ⟨rfl, .refl _ _, fun _ he => nomatch he⟩
  · exact (h { m with descent := m.descent + 1 } hm hscope).bind fun _ hresult => .done hresult

theorem inScope (h : Evolves hooks strays scope names x) : Evolves hooks strays scope (fun _ => scope) (inScope x) := by
  intro m hm hscope
  refine (h { m with env := m.env.push } hm hscope.push).bind ?_
  rintro ⟨r, m'⟩ ⟨hfunctions, hevolves, -⟩
  exact .done ⟨hfunctions, hevolves.pop, fun _ _ => hscope.evolves hevolves.pop⟩

theorem declare (name : String) (value : Value)
    : Evolves hooks strays scope (fun _ => name :: scope) (declare name value) := by
  intro m _ hscope
  show (Exec.ofExcept (m.env.declare name value) >>= _ : Exec Unit) m |>.Results _ _
  cases hdeclare : m.env.declare name value with
  | error e => exact .done ⟨rfl, .refl _ _, fun _ he => nomatch he⟩
  | ok env =>
    obtain ⟨hevolves, hbinds⟩ := Env.evolves_declare hscope.inside hdeclare
    exact .done ⟨rfl, hevolves.mono (nil_subset _), fun _ _ => hbinds.append (hscope.evolves hevolves)⟩

theorem assign {name : String} (h : name ∈ scope ∨ name ∈ strays) (value : Value)
    : Evolves hooks strays scope (fun _ => scope) (assign name value) := by
  intro m _ hscope
  have hevolves : m.env.Evolves strays (m.env.assign name value) := by
    obtain h | h := h
    · exact (Env.evolves_assign_of_binds hscope h value).mono (nil_subset _)
    · exact (Env.evolves_assign m.env name value).mono (by simpa using h)
  exact .done ⟨rfl, hevolves, fun _ _ => hscope.evolves hevolves⟩

theorem store {name : String} (h : name ∈ scope ∨ name ∈ strays) (position : Value) (op : AssignOp) (value : Value)
    : Evolves hooks strays scope (fun _ => scope) (store (.variable name) position op value) := by
  simp only [Exec.store]
  split
  · exact bind (of_keeps ((covers_keeps hooks).lookup name)) fun _ => assign h _
  · exact assign h _

end Evolves

end Exec

end NodeScript.Script
