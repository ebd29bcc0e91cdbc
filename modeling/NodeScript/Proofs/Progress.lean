import NodeScript.Proofs.Connection

/-!
What is in progress in a run: calls, statements and expressions that have come up inside of others. All that a run asks
it asks at such a point, and where it fails for a limit there are as many of them in progress as the limit allows.
-/

namespace NodeScript.Script

namespace Machine

def deeper (m : Machine) : Machine :=
  { m with descent := m.descent + 1 }

@[simp]
theorem descent_deeper (m : Machine) : m.deeper.descent = m.descent + 1 :=
  rfl

def inner (m : Machine) : Machine :=
  { m with env := m.env.push }

def inFunction (m : Machine) (scope : Scope) : Machine :=
  { m with env := { m.env with locals := [scope] }, calls := m.calls + 1 }

end Machine

def Expr.parts : Expr → List Expr
  | .array items => items
  | .object fields => fields.map Prod.snd
  | .call (.member holder _) arguments => arguments ++ [holder]
  | .call _ arguments => arguments
  | expr => expr.operands

def Stmt.parts : Stmt → List Expr
  | .declare _ value | .returnValue value => value.toList
  | .assign (.element _ position) _ value => [value, position]
  | .assign _ _ value | .expr value => [value]
  | .ifElse cond _ _ => [cond]
  | _ => []

def Stmt.arms : Stmt → List (List Stmt)
  | .ifElse _ thenBody elseBody => thenBody :: elseBody.toList
  | .block body => [body]
  | _ => []

namespace Exec

def Gives {α : Type} (x : Nat → Exec α) (m : Machine) (a : α) (m' : Machine) : Prop :=
  ∃ bound replies, (x bound m).Leads replies (.ok a, m')

/-- The expressions have been evaluated one after the other. -/
inductive Evaluated : List Expr → Machine → Machine → Prop where
  | nil (m : Machine) : Evaluated [] m m
  | cons {expr : Expr} {rest : List Expr} {value : Value} {m m₁ m' : Machine} (h : Gives (eval · expr) m value m₁)
      (hrest : Evaluated rest m₁ m')
    : Evaluated (expr :: rest) m m'

inductive Holds : Option Expr → Machine → Machine → Prop where
  | always (m : Machine) : Holds none m m
  | test {cond : Expr} {m m' : Machine} {value : Value} (hvalue : Gives (eval · cond) m value m')
      (h : value.isTruthy = true)
    : Holds (some cond) m m'

inductive Activity where
  | expr (expr : Expr)
  | stmt (stmt : Stmt)
  | call (function : Function) (args : List Value)
  | all (stmts : List Stmt)
  | loop (cond : Option Expr) (update : Option Stmt) (body : List Stmt)
  | request (request : Request)

/-- On the first machine, `wrap` runs whatever it encloses, and runs it on the second machine. -/
def Encloses (wrap : Exec Unit → Exec Unit) (m m' : Machine) : Prop :=
  ∃ finish, ∀ x, wrap x m = (x m').bind finish

namespace Activity

def isLevel : Activity → Bool
  | .expr _ | .stmt _ => true
  | _ => false

def isCall : Activity → Bool
  | .call _ _ => true
  | _ => false

/-- The activity, which comes up on the first machine, gets under way on the second one. -/
def Opens (m m' : Machine) : Activity → Prop
  | .expr _ | .stmt _ => Encloses descend m m'
  | .call function args => Encloses (calling function.params args) m m'
  | _ => m' = m

def parts : Activity → List Expr
  | .expr e => e.parts
  | .stmt s => s.parts
  | .loop cond _ _ => cond.toList
  | _ => []

end Activity

/-- An activity that is under way on the first machine comes to another one on the second. -/
inductive Starts : Activity → Machine → Activity → Machine → Prop where
  | part {activity : Activity} {before after : List Expr} {expr : Expr} {m m' : Machine}
      (hparts : activity.parts = before ++ expr :: after) (h : Evaluated before m m')
    : Starts activity m (.expr expr) m'
  | call {name : String} {arguments : List Expr} {args : List Value} {function : Function} {m m' : Machine}
      (h : Gives (evalItems · arguments) m args m') (hname : m'.function? name = some function)
    : Starts (.expr (.call (.identifier name) arguments)) m (.call function args) m'
  | builtin {name : String} {arguments : List Expr} {args : List Value} {request : Request}
      {resume : Reply → Dialog (Except RuntimeError Value × Machine)} {m m' : Machine}
      (h : Gives (evalItems · arguments) m args m') (hname : m'.function? name = none)
      (hask : builtinCall name args m' = .ask request resume)
    : Starts (.expr (.call (.identifier name) arguments)) m (.request request) m'
  | log {arguments : List Expr} {args : List Value} {m m' : Machine} (h : Gives (evalItems · arguments) m args m')
    : Starts (.expr (.call (.member (.identifier "console") "log") arguments)) m
      (.request (.log (" ".intercalate (args.map Value.text)))) m'
  | body (function : Function) (args : List Value) (m : Machine) : Starts (.call function args) m (.all function.body) m
  | arm {stmt : Stmt} {body : List Stmt} {m m' : Machine} (harm : body ∈ stmt.arms) (h : Evaluated stmt.parts m m')
    : Starts (.stmt stmt) m (.all body) m'.inner
  | first (stmt : Stmt) (rest : List Stmt) (m : Machine) : Starts (.all (stmt :: rest)) m (.stmt stmt) m
  | rest {stmt : Stmt} {rest : List Stmt} {m m' : Machine} (h : Gives (exec · stmt) m .normal m')
    : Starts (.all (stmt :: rest)) m (.all rest) m'
  | whileLoop (cond : Expr) (body : List Stmt) (m : Machine)
    : Starts (.stmt (.whileLoop cond body)) m (.loop (some cond) none body) m
  | init (init : Stmt) (update : Option Stmt) (cond : Option Expr) (body : List Stmt) (m : Machine)
    : Starts (.stmt (.forLoop (some init) cond update body)) m (.stmt init) m.inner
  | forLoop {init update : Option Stmt} {cond : Option Expr} {body : List Stmt} {m m' : Machine}
      (h : Gives (execOption · init) m.inner () m')
    : Starts (.stmt (.forLoop init cond update body)) m (.loop cond update body) m'
  | round {update : Option Stmt} {cond : Option Expr} {body : List Stmt} {m m' : Machine}
      (h : Holds cond m m')
    : Starts (.loop cond update body) m (.all body) m'.inner
  | update {update : Stmt} {cond : Option Expr} {body : List Stmt} {flow : Flow} {m m₁ m' : Machine}
      (h : Holds cond m m₁) (hround : Gives (fun bound => inScope (execAll bound body)) m₁ flow m')
    : Starts (.loop cond (some update) body) m (.stmt update) m'
  | again {update : Option Stmt} {cond : Option Expr} {body : List Stmt} {flow : Flow} {m m₁ m₂ m' : Machine}
      (h : Holds cond m m₁) (hround : Gives (fun bound => inScope (execAll bound body)) m₁ flow m₂)
      (hupdate : Gives (execOption · update) m₂ () m')
    : Starts (.loop cond update body) m (.loop cond update body) m'

/-- A run that begins with one activity comes to another one, while those in the list are under way. -/
inductive InProgress (first : Activity) (m : Machine) : List Activity → Activity → Machine → Prop where
  | start : InProgress first m [] first m
  | next {stack : List Activity} {activity activity' : Activity} {m₁ m₂ m' : Machine}
      (h : InProgress first m stack activity m₁) (hopens : activity.Opens m₁ m₂) (hstarts : Starts activity m₂ activity' m')
    : InProgress first m (activity :: stack) activity' m'

section Opening

variable {m m' m₂ : Machine} {wrap : Exec Unit → Exec Unit}

theorem encloses_descend (h : m.descent < maxDescent) : Encloses descend m m.deeper :=
  ⟨_, fun _ => if_neg (Nat.not_le.mpr h)⟩

theorem encloses_calling {params : List String} {args : List Value} {scope : Scope} (h : m.calls < m.maxCalls)
    (hscope : Scope.ofParams {} params args = .ok scope) : Encloses (calling params args) m (m.inFunction scope) :=
  ⟨_, fun _ => (if_neg (Nat.not_le.mpr h)).trans (by rw [hscope]; rfl)⟩

theorem Encloses.ne_done (h : Encloses wrap m m') {result : Except RuntimeError Unit × Machine}
    (hwrap : ∀ x, wrap x m = .done result) : False := by
  obtain ⟨finish, h⟩ := h
  cases (hwrap exhausted).symm.trans (h exhausted)

theorem Encloses.eq_of (h : Encloses wrap m m') (hwrap : Encloses wrap m m₂) : m' = m₂ := by
  classical
  obtain ⟨finish, h⟩ := h
  obtain ⟨finish', hwrap⟩ := hwrap
  refine Classical.byContradiction fun hne => ?_
  let x : Exec Unit := fun m => if m = m' then .exhausted else .ask (.log "") fun _ => .exhausted
  have hx := (h x).symm.trans (hwrap x)
  simp [x, Ne.symm hne, Dialog.bind] at hx

theorem Encloses.descend (h : Encloses descend m m') : m.descent < maxDescent ∧ m' = m.deeper := by
  by_cases hroom : maxDescent ≤ m.descent
  · exact (h.ne_done fun _ => if_pos hroom).elim
  · have hlt := Nat.lt_of_not_le hroom
    exact ⟨hlt, h.eq_of (encloses_descend hlt)⟩

theorem Encloses.calling {params : List String} {args : List Value} (h : Encloses (calling params args) m m')
    : m.calls < m.maxCalls ∧ ∃ scope, Scope.ofParams {} params args = .ok scope ∧ m' = m.inFunction scope := by
  by_cases hroom : m.maxCalls ≤ m.calls
  · exact (h.ne_done fun _ => if_pos hroom).elim
  · have hlt := Nat.lt_of_not_le hroom
    cases hscope : Scope.ofParams {} params args with
    | error e => exact (h.ne_done fun _ => (if_neg hroom).trans (by rw [hscope])).elim
    | ok scope => exact ⟨hlt, scope, rfl, h.eq_of (encloses_calling hlt hscope)⟩

end Opening

theorem leads_of_bind {α β : Type} {x : Exec α} {f : α → Exec β} {m m' : Machine} {replies : List Reply} {b : β}
    (h : ((x >>= f) m).Leads replies (.ok b, m'))
    : ∃ a m₁ replies₁ replies₂, (x m).Leads replies₁ (.ok a, m₁) ∧ (f a m₁).Leads replies₂ (.ok b, m') := by
  obtain ⟨⟨e | a, m₁⟩, replies₁, replies₂, hx, hf⟩ := Dialog.Leads.of_bind h
  · cases hf
  · exact ⟨a, m₁, replies₁, replies₂, hx, hf⟩

theorem evaluated_of_gives {exprs : List Expr} {values : List Value} {m m' : Machine}
    (h : Gives (evalItems · exprs) m values m') : Evaluated exprs m m' := by
  obtain ⟨bound, replies, h⟩ := h
  dsimp only at h
  induction bound generalizing exprs values m replies with
  | zero =>
    rw [evalItems] at h
    cases h
  | succ bound ih =>
    cases exprs with
    | nil =>
      cases h
      exact .nil _
    | cons expr rest =>
      rw [evalItems] at h
      obtain ⟨value, m₁, replies₁, replies₂, hvalue, h⟩ := leads_of_bind h
      obtain ⟨values, m₂, replies₃, _, hvalues, h⟩ := leads_of_bind h
      cases h
      exact .cons ⟨bound, replies₁, hvalue⟩ (ih _ hvalues)

theorem map_bind {α β γ : Type} (x : Exec α) (f : α → β) (g : β → Exec γ) : f <$> x >>= g = x >>= fun a => g (f a) := by
  funext m
  refine (Dialog.bind_assoc (x m) _ _).trans (congrArg (Dialog.bind (x m)) (funext ?_))
  rintro ⟨_ | _, _⟩
  all_goals rfl

/-! ### What a run asks, and where it fails for a limit -/

inductive Sight where
  | request (request : Request)
  | overflow

/-- Whatever the host replies, all that `x` asks is among the sights, and so is that it fails for a limit. -/
def Traced {α : Type} (x : Exec α) (m : Machine) (sights : Sight → Prop) : Prop :=
  (x m).Always (fun request => sights (.request request)) fun result =>
    result.1 = .error .stackOverflow → sights .overflow

namespace Traced

variable {α β : Type} {x : Exec α} {m : Machine} {sights : Sight → Prop}

theorem pure (a : α) : Traced (Pure.pure a : Exec α) m sights :=
  .done nofun

theorem fail {e : RuntimeError} (h : e ≠ .stackOverflow) : Traced (fail e : Exec α) m sights :=
  .done fun he => absurd (Except.error.inj he) h

theorem modify (f : Machine → Machine) : Traced (modify f) m sights :=
  .done nofun

theorem bind {f : α → Exec β} (h : Traced x m sights)
    (hnext : ∀ a m' replies, (x m).Leads replies (.ok a, m') → Traced (f a) m' sights) : Traced (x >>= f) m sights := by
  refine Dialog.Always.bind_leads h ?_
  rintro ⟨e | a, m'⟩ replies hleads hresult
  · exact .done fun he => hresult (congrArg Except.error (Except.error.inj he))
  · exact hnext a m' replies hleads

theorem yield {f : α → β} (h : Traced x m sights) : Traced (x >>= fun a => Pure.pure (f a)) m sights :=
  h.bind fun _ _ _ _ => .pure _

theorem mono {sights' : Sight → Prop} (h : Traced x m sights) (hsights : ∀ sight, sights sight → sights' sight)
    : Traced x m sights' := by
  unfold Traced at h ⊢
  generalize x m = d at h ⊢
  induction h with
  | done h => exact .done fun he => hsights _ (h he)
  | exhausted => exact .exhausted
  | ask hrequest _ ih => exact .ask (hsights _ hrequest) ih

theorem closing {f : Machine → Machine} (h : Traced x m sights) : Traced (x.closing f) m sights :=
  Dialog.Always.bind h fun _ hresult => .done hresult

theorem ask {request : Request} (h : sights (.request request)) : Traced (ask request) m sights := by
  refine Dialog.Always.ask h ?_
  rintro (_ | _) <;> exact .done nofun

theorem isMath {holder : Expr} {f : Bool → Exec α} (h : ∀ isMath, Traced (f isMath) m sights)
    : Traced (isMath holder >>= f) m sights := by
  unfold Exec.isMath
  split
  · exact h _
  · exact h _

theorem builtinCall {name : String} {args : List Value}
    (h : ∀ request resume, builtinCall name args m = .ask request resume → sights (.request request))
    : Traced (builtinCall name args) m sights := by
  unfold Exec.builtinCall at h ⊢
  unfold Traced
  simp only [lookup?_bind] at h ⊢
  split
  · exact Traced.fail (by simp)
  · next hnone =>
    simp only [hnone] at h
    split
    any_goals exact Traced.yield (.ask (h _ _ rfl))
    · cases Builtin.convert? name args with
      | some value => exact Traced.pure value
      | none => exact Traced.fail (by simp)

theorem declare (name : String) (value : Value) : Traced (declare name value) m sights := by
  refine .bind (x := ofExcept (m.env.declare name value)) ?_ fun _ _ _ _ => .modify _
  cases h : m.env.declare name value with
  | ok env => exact .pure env
  | error e =>
    refine .fail ?_
    rintro rfl
    exact env_declare_ne_error (by nofun) m.env name value h

end Traced

theorem covers_traced : Covers fun _ x => ∀ m sights, Traced x m sights where
  pure a _ _ := .pure a
  bind h hnext m sights := (h m sights).bind fun a m' _ _ => hnext a m' sights
  fail h _ _ := .fail fun he => h (he ▸ .stackOverflow)
  lookup? _ _ _ := .done nofun
  mathCall name args m sights := by
    refine Traced.bind (x := get) (.done nofun) fun _ _ _ _ => ?_
    split
    · exact .yield (.modify _)
    · exact .fail (by simp)

/-- The point shows the sight: something is asked there, or there is no room for what comes up there. -/
def Activity.Shows (m : Machine) (sight : Sight) : Activity → Prop
  | .request asked => sight = .request asked
  | .call _ _ => sight = .overflow ∧ m.maxCalls ≤ m.calls
  | .expr _ | .stmt _ => sight = .overflow ∧ maxDescent ≤ m.descent
  | _ => False

/-- A run of the activity comes to a point that shows the sight. -/
def Activity.Comes (activity : Activity) (m : Machine) (sight : Sight) : Prop :=
  ∃ stack activity' m', InProgress activity m stack activity' m' ∧ activity'.Shows m' sight

theorem Activity.Comes.request {activity : Activity} {m : Machine} {request : Request} (h : activity.Comes m (.request request))
    : ∃ stack m', InProgress activity m stack (.request request) m' := by
  obtain ⟨stack, activity', m', hprogress, hshows⟩ := h
  cases activity' with
  | request asked =>
    cases hshows
    exact ⟨stack, m', hprogress⟩
  | expr | stmt | call => exact nomatch hshows.1
  | _ => exact hshows.elim

def Within (activity : Activity) (m : Machine) (sight : Sight) : Prop :=
  ∃ activity' m', Starts activity m activity' m' ∧ activity'.Comes m' sight

theorem Within.comes {activity : Activity} {m m' : Machine} {sight : Sight} (h : Within activity m' sight)
    (hopens : activity.Opens m m') : activity.Comes m sight := by
  obtain ⟨activity', m₁, hstarts, stack, activity₂, m₂, hprogress, hshows⟩ := h
  refine ⟨stack ++ [activity], activity₂, m₂, ?_, hshows⟩
  clear hshows
  induction hprogress with
  | start => exact .next .start hopens hstarts
  | next _ hopens hstarts ih => exact .next ih hopens hstarts

section Opening

variable {α : Type} {x : Exec α} {m : Machine}

theorem Traced.level {activity : Activity} (hlevel : activity.isLevel = true)
    (h : Traced x m.deeper (Within activity m.deeper)) : Traced (descend x) m (activity.Comes m) := by
  have hshows (hfull : maxDescent ≤ m.descent) : activity.Shows m .overflow := by
    cases activity with
    | expr | stmt => exact ⟨rfl, hfull⟩
    | _ => cases hlevel
  have hopens (hroom : m.descent < maxDescent) : activity.Opens m m.deeper := by
    cases activity with
    | expr | stmt => exact encloses_descend hroom
    | _ => cases hlevel
  unfold Traced Exec.descend
  split
  · next hfull => exact .done fun _ => ⟨[], activity, m, .start, hshows hfull⟩
  · next hroom => exact (h.mono fun _ hwithin => hwithin.comes (hopens (Nat.lt_of_not_le hroom))).closing

theorem Traced.calling {function : Function} {args : List Value}
    (h : ∀ scope, Traced x (m.inFunction scope) (Within (.call function args) (m.inFunction scope)))
    : Traced (calling function.params args x) m ((Activity.call function args).Comes m) := by
  unfold Traced Exec.calling
  split
  · next hfull => exact .done fun _ => ⟨[], _, m, .start, rfl, hfull⟩
  · next hroom =>
    cases hscope : Scope.ofParams {} function.params args with
    | error e =>
      refine Traced.fail ?_
      rintro rfl
      exact ofParams_ne_error (by nofun) {} function.params args hscope
    | ok scope =>
      exact ((h scope).mono fun _ hwithin =>
        hwithin.comes (encloses_calling (Nat.lt_of_not_le hroom) hscope)).closing

end Opening

/-- All that the expressions come to, one after the other, is among the sights. -/
def Admits (sights : Sight → Prop) (exprs : List Expr) (m : Machine) : Prop :=
  ∀ before expr after m', exprs = before ++ expr :: after → Evaluated before m m'
    → ∀ sight, (Activity.expr expr).Comes m' sight → sights sight

namespace Admits

variable {sights : Sight → Prop} {expr : Expr} {rest : List Expr} {m m' : Machine}

theorem parts (activity : Activity) (m : Machine) : Admits (Within activity m) activity.parts m :=
  fun _ expr _ m' hparts hbefore _ hcomes => ⟨.expr expr, m', .part hparts hbefore, hcomes⟩

theorem arguments (callee : Expr) (arguments : List Expr) (m : Machine)
    : Admits (Within (.expr (.call callee arguments)) m) arguments m := by
  obtain ⟨more, hmore⟩ : ∃ more, (Activity.expr (.call callee arguments)).parts = arguments ++ more := by
    cases callee with
    | member holder property => exact ⟨[holder], rfl⟩
    | _ => exact ⟨[], (List.append_nil _).symm⟩
  intro before expr after m' heq
  exact parts (.expr (.call callee arguments)) m before expr (after ++ more) m' (by rw [hmore, heq]; simp)

theorem head (h : Admits sights (expr :: rest) m) (sight : Sight) (hcomes : (Activity.expr expr).Comes m sight)
    : sights sight :=
  h [] expr rest m rfl (.nil m) sight hcomes

theorem tail (h : Admits sights (expr :: rest) m) {value : Value} (hvalue : Gives (eval · expr) m value m')
    : Admits sights rest m' :=
  fun before expr' after m'' heq hbefore =>
    h (expr :: before) expr' after m'' (by rw [heq, List.cons_append]) (.cons hvalue hbefore)

end Admits

structure Traces (bound : Nat) : Prop where
  eval {expr : Expr} {m : Machine} : Traced (eval bound expr) m ((Activity.expr expr).Comes m)
  items {items : List Expr} {m : Machine} {sights : Sight → Prop} (h : Admits sights items m)
    : Traced (evalItems bound items) m sights
  fields {fields : List (String × Expr)} {m : Machine} {sights : Sight → Prop}
      (h : Admits sights (fields.map Prod.snd) m)
    : Traced (evalFields bound fields) m sights
  call {callee : Expr} {arguments : List Expr} {args : List Value} {m m' : Machine}
      (h : Gives (evalItems · arguments) m args m')
    : Traced (call bound callee args) m' (Within (.expr (.call callee arguments)) m)
  callFunction {function : Function} {args : List Value} {m : Machine}
    : Traced (callFunction bound function args) m ((Activity.call function args).Comes m)
  exec {stmt : Stmt} {m : Machine} : Traced (exec bound stmt) m ((Activity.stmt stmt).Comes m)
  evalOption {expr : Option Expr} {m : Machine} {sights : Sight → Prop} (h : Admits sights expr.toList m)
    : Traced (evalOption bound expr) m sights
  execOption {stmt : Option Stmt} {m : Machine} {sights : Sight → Prop}
      (h : ∀ s ∈ stmt, ∀ sight, (Activity.stmt s).Comes m sight → sights sight)
    : Traced (execOption bound stmt) m sights
  all {stmts : List Stmt} {m : Machine} : Traced (execAll bound stmts) m ((Activity.all stmts).Comes m)
  loop {cond : Option Expr} {update : Option Stmt} {body : List Stmt} {m : Machine}
    : Traced (execLoop bound cond update body) m ((Activity.loop cond update body).Comes m)

theorem traces_zero : Traces 0 := by
  constructor
  all_goals
    intros
    simp only [eval, evalItems, evalFields, call, callFunction, exec, evalOption, execOption, execAll, execLoop]
    exact .exhausted

namespace Traces

variable {bound : Nat} (ih : Traces bound) {m m' : Machine} {sights : Sight → Prop}

include ih

theorem operand {expr : Expr} {rest : List Expr} (h : Admits sights (expr :: rest) m)
    : Traced (Exec.eval bound expr) m sights :=
  ih.eval.mono h.head

theorem eval_succ {expr : Expr} : Traced (Exec.eval (bound + 1) expr) m ((Activity.expr expr).Comes m) := by
  unfold Exec.eval
  refine .level rfl ?_
  have hparts : Admits _ expr.parts m.deeper := .parts (.expr expr) m.deeper
  cases expr with
  | number | str | bool | undefined | null => exact .pure _
  | identifier name => exact covers_traced.identifier name _ _
  | array items => exact (ih.items hparts).yield
  | object fields => exact (ih.fields hparts).yield
  | unary op operand => exact (ih.operand hparts).yield
  | binary op left right =>
    exact (ih.operand hparts).bind fun _ _ replies h => (ih.operand (hparts.tail ⟨bound, replies, h⟩)).yield
  | logical op left right =>
    refine (ih.operand hparts).bind fun _ _ replies h => ?_
    split
    any_goals exact .pure _
    · exact ih.operand (hparts.tail ⟨bound, replies, h⟩)
  | member holder property =>
    refine .isMath fun isMath => ?_
    split
    · exact covers_traced.mathConstant property _ _
    · exact (ih.operand hparts).bind fun value _ _ _ =>
        covers_traced.ofExcept (fun he => Value.readProperty_ne_error he value property) _ _
  | index holder position =>
    refine (ih.operand hparts).bind fun value _ replies h => ?_
    exact (ih.operand (hparts.tail ⟨bound, replies, h⟩)).bind fun position _ _ _ =>
      covers_traced.ofExcept (fun he => Value.readElement_ne_error he value position) _ _
  | call callee arguments =>
    exact (ih.items (.arguments callee arguments m.deeper)).bind fun _ _ replies h => ih.call ⟨bound, replies, h⟩
  | await operand => exact ih.operand hparts

theorem items_succ {items : List Expr} (h : Admits sights items m) : Traced (evalItems (bound + 1) items) m sights := by
  cases items with
  | nil => exact .pure []
  | cons item rest => exact (ih.operand h).bind fun _ _ replies hitem => (ih.items (h.tail ⟨bound, replies, hitem⟩)).yield

theorem fields_succ {fields : List (String × Expr)} (h : Admits sights (fields.map Prod.snd) m)
    : Traced (evalFields (bound + 1) fields) m sights := by
  cases fields with
  | nil => exact .pure []
  | cons field rest => exact (ih.operand h).bind fun _ _ replies hfield => (ih.fields (h.tail ⟨bound, replies, hfield⟩)).yield

theorem call_succ {callee : Expr} {arguments : List Expr} {args : List Value} (h : Gives (evalItems · arguments) m args m')
    : Traced (Exec.call (bound + 1) callee args) m' (Within (.expr (.call callee arguments)) m) := by
  cases callee with
  | identifier name =>
    unfold Traced
    cases hname : m'.function? name with
    | none =>
      rw [call_of_none hname]
      exact Traced.builtinCall fun request _ hask => ⟨_, m', .builtin h hname hask, [], _, m', .start, rfl⟩
    | some function =>
      rw [Exec.call, get_bind, hname]
      exact ih.callFunction.mono fun _ hcomes => ⟨_, m', .call h hname, hcomes⟩
  | member holder property =>
    have hparts : (Activity.expr (.call (.member holder property) arguments)).parts = arguments ++ [holder] := rfl
    unfold Exec.call
    split
    · contradiction
    · next heq =>
      cases heq
      exact .yield (.ask ⟨_, m', .log h, [], _, m', .start, rfl⟩)
    · next heq =>
      cases heq
      refine .isMath fun isMath => ?_
      split
      · exact covers_traced.mathCall property args _ _
      · split
        · exact covers_traced.methodCall (fun _ _ _ _ => .modify _) _ _ args _ _
        · refine (ih.eval.mono fun _ hcomes => ?_).bind fun value _ _ _ => .yield ?_
          · exact ⟨_, m', .part hparts (evaluated_of_gives h), hcomes⟩
          · exact covers_traced.ofExcept (fun he => Value.Method.call_ne_error he _ _ value args) _ _
        · exact .fail (by simp)
    · exact .fail (by simp)
  | _ => exact .fail (by simp)

theorem callFunction_succ {function : Function} {args : List Value}
    : Traced (Exec.callFunction (bound + 1) function args) m ((Activity.call function args).Comes m) := by
  unfold Exec.callFunction
  refine .calling fun scope => (ih.all.mono fun _ hcomes => ?_).yield
  exact ⟨_, _, .body function args _, hcomes⟩

theorem exec_succ {stmt : Stmt} : Traced (Exec.exec (bound + 1) stmt) m ((Activity.stmt stmt).Comes m) := by
  unfold Exec.exec
  refine .level rfl ?_
  have hparts : Admits _ stmt.parts m.deeper := .parts (.stmt stmt) m.deeper
  have harm {body : List Stmt} (harm : body ∈ stmt.arms) {m' : Machine} (h : Evaluated stmt.parts m.deeper m')
      : Traced (inScope (execAll bound body)) m' (Within (.stmt stmt) m.deeper) :=
    (ih.all.mono fun _ hcomes => ⟨_, _, .arm harm h, hcomes⟩).closing
  cases stmt with
  | declare name value => exact (ih.evalOption hparts).bind fun value _ _ _ => .yield (.declare name value)
  | assign target op value =>
    have hstore (position value : Value) (m' : Machine) {sights : Sight → Prop}
        : Traced (store target position op value >>= fun _ => Pure.pure Flow.normal) m' sights :=
      .yield (covers_traced.store (fun _ _ _ _ => .modify _) target position op value m' sights)
    obtain name | ⟨name, position⟩ := target
    · exact (ih.operand hparts).bind fun value m' _ _ => hstore .undefined value m'
    · refine (ih.operand hparts).bind fun value _ replies h => ?_
      exact (ih.operand (hparts.tail ⟨bound, replies, h⟩)).bind fun position m' _ _ => hstore position value m'
  | expr value => exact (ih.operand hparts).yield
  | ifElse cond thenBody elseBody =>
    refine (ih.operand hparts).bind fun test m' replies h => ?_
    have hevaluated : Evaluated [cond] m.deeper m' := .cons ⟨bound, replies, h⟩ (.nil m')
    split
    · exact harm List.mem_cons_self hevaluated
    · cases elseBody with
      | none => exact .pure _
      | some elseBody => exact harm (List.mem_cons_of_mem _ List.mem_cons_self) hevaluated
  | whileLoop cond body => exact ih.loop.mono fun _ hcomes => ⟨_, _, .whileLoop cond body _, hcomes⟩
  | forLoop init cond update body =>
    refine Traced.closing (.bind (ih.execOption ?_) fun _ _ replies h => ih.loop.mono fun _ hcomes => ?_)
    · rintro stmt ⟨⟩ sight hcomes
      exact ⟨_, _, .init stmt update cond body _, hcomes⟩
    · exact ⟨_, _, .forLoop ⟨bound, replies, h⟩, hcomes⟩
  | breakLoop | continueLoop => exact .pure _
  | returnValue value => exact (ih.evalOption hparts).yield
  | block body => exact harm List.mem_cons_self (.nil _)
  | function name params body => exact .yield (.modify _)

theorem evalOption_succ {expr : Option Expr} (h : Admits sights expr.toList m)
    : Traced (Exec.evalOption (bound + 1) expr) m sights := by
  cases expr with
  | none => exact .pure _
  | some expr => exact ih.operand h

theorem execOption_succ {stmt : Option Stmt} (h : ∀ s ∈ stmt, ∀ sight, (Activity.stmt s).Comes m sight → sights sight)
    : Traced (Exec.execOption (bound + 1) stmt) m sights := by
  cases stmt with
  | none => exact .pure _
  | some stmt => exact (ih.exec.mono (h stmt rfl)).yield

theorem all_succ {stmts : List Stmt} : Traced (execAll (bound + 1) stmts) m ((Activity.all stmts).Comes m) := by
  cases stmts with
  | nil => exact .pure _
  | cons stmt rest =>
    rw [execAll_cons_eq]
    refine (ih.exec.mono fun _ hcomes => ?_).bind fun flow m' replies h => ?_
    · exact Within.comes ⟨_, m, .first stmt rest m, hcomes⟩ rfl
    · cases flow with
      | normal => exact ih.all.mono fun _ hcomes => Within.comes ⟨_, m', .rest ⟨bound, replies, h⟩, hcomes⟩ rfl
      | _ => exact .pure _

theorem round {cond : Option Expr} {update : Option Stmt} {body : List Stmt} (hholds : Holds cond m m')
    : Traced (inScope (execAll bound body) >>= afterRound do
          Exec.execOption bound update
          execLoop bound cond update body) m'
        ((Activity.loop cond update body).Comes m) := by
  refine .bind (.closing (ih.all.mono fun _ hcomes => ?_)) fun flow m₁ replies h => ?_
  · exact Within.comes ⟨_, _, .round hholds, hcomes⟩ rfl
  · have hagain : Traced (Exec.execOption bound update >>= fun _ => execLoop bound cond update body) m₁
        ((Activity.loop cond update body).Comes m) := by
      refine (ih.execOption ?_).bind fun _ m₂ replies' h' => ih.loop.mono fun _ hcomes => ?_
      · rintro stmt ⟨⟩ sight hcomes
        exact Within.comes ⟨_, _, .update hholds ⟨bound, replies, h⟩, hcomes⟩ rfl
      · exact Within.comes ⟨_, _, .again hholds ⟨bound, replies, h⟩ ⟨bound, replies', h'⟩, hcomes⟩ rfl
    cases flow with
    | normal | continued => exact hagain
    | _ => exact .pure _

theorem loop_succ {cond : Option Expr} {update : Option Stmt} {body : List Stmt}
    : Traced (execLoop (bound + 1) cond update body) m ((Activity.loop cond update body).Comes m) := by
  rw [execLoop_eq]
  cases cond with
  | none => exact ih.round (.always m)
  | some cond =>
    have hparts := Admits.parts (.loop (some cond) update body) m
    rw [holds, map_bind]
    refine (ih.eval.mono fun sight hcomes => (hparts.head sight hcomes).comes rfl).bind fun value m' replies h => ?_
    split
    · next htrue => exact ih.round (.test ⟨bound, replies, h⟩ htrue)
    · exact .pure _

end Traces

theorem traces (bound : Nat) : Traces bound := by
  induction bound with
  | zero => exact traces_zero
  | succ bound ih =>
    exact ⟨ih.eval_succ, ih.items_succ, ih.fields_succ, ih.call_succ, ih.callFunction_succ, ih.exec_succ, ih.evalOption_succ,
      ih.execOption_succ, ih.all_succ, ih.loop_succ⟩

/-- All that a run asks it asks at a point of it, and where it fails for a limit there is no room for what comes up. -/
theorem traced_run (bound : Nat) (program : Program) (m : Machine)
    : Traced (run bound program) m ((Activity.all program.body).Comes (m.defineAll program.functions)) := by
  refine .bind (x := modify _) (.modify _) fun _ m' replies h => ?_
  cases h
  refine (traces bound).all.bind fun flow _ _ _ => ?_
  cases flow with
  | normal | returned => exact .pure _
  | _ => exact .fail (by simp)

end Exec

end NodeScript.Script
