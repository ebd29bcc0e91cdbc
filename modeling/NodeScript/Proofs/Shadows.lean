import NodeScript.Proofs.Congruence
import NodeScript.Proofs.Frames
import NodeScript.Proofs.Silence

/-!
Programs that give notice to their host, beside programs that do not. Each notice is a call that the host
answers and the program forgets. As long as the names of these calls are not taken for anything else,
what the programs log and ask is the same.
-/

namespace NodeScript.Script

def noticeNames : List String := ["__onNode", "__onVar"]

variable {value : Value} {steps : Nat} {params : List String}

theorem Scope.get?_ofParams {name : String} (h : name ∉ params) {scope scope' : Scope} {args : List Value}
    (hparams : Scope.ofParams scope params args = .ok scope')
    : scope'.get? name = scope.get? name := by
  induction params generalizing scope args with
  | nil =>
    cases hparams
    rfl
  | cons param params ih =>
    rw [List.mem_cons, not_or] at h
    rw [Scope.ofParams] at hparams
    cases hdeclare : scope.declare param (args.head?.getD .undefined) with
    | error e =>
      rw [hdeclare] at hparams
      cases hparams
    | ok next =>
      rw [hdeclare] at hparams
      obtain ⟨-, rfl⟩ := Scope.declare_eq_ok hdeclare
      rw [ih h.2 hparams, Table.get?_insert, if_neg h.1]

namespace Env

def Has (name : String) (env : Env) : Prop :=
  (env.get? name).isSome

structure Free (names : List String) (env : Env) : Prop where
  globals : ∀ name ∈ names, env.globals.get? name = none
  locals : ∀ name ∈ names, env.locals.findSome? (Table.get? · name) = none

namespace Free

variable {names : List String} {env : Env} {name : String}

theorem get?_eq_none (h : env.Free names) (hname : name ∈ names) : env.get? name = none := by
  rw [get?_eq, h.locals name hname, h.globals name hname, Option.or_none]

theorem not_mem (h : env.Free names) (hname : env.get? name = some value) : name ∉ names := by
  intro hmem
  rw [h.get?_eq_none hmem] at hname
  cases hname

theorem empty (names : List String) : Env.empty.Free names :=
  ⟨fun _ _ => rfl, fun _ _ => rfl⟩

theorem push (h : env.Free names) : env.push.Free names :=
  ⟨h.globals, h.locals⟩

theorem pop (h : env.Free names) : env.pop.Free names := by
  refine ⟨h.globals, fun name hname => ?_⟩
  have hlocals := h.locals name hname
  rw [List.findSome?_eq_none_iff] at hlocals ⊢
  exact fun scope hscope => hlocals scope (List.mem_of_mem_tail hscope)

theorem declare (h : env.Free names) (hname : name ∉ names) {env' : Env}
    (hdeclare : env.declare name value = .ok env') : env'.Free names := by
  have hne (n : String) (hn : n ∈ names) : n ≠ name := fun heq => hname (heq ▸ hn)
  obtain ⟨-, -, rfl⟩ | ⟨scope, rest, hlocals, -, rfl⟩ := declare_eq_ok hdeclare
  · refine ⟨fun n hn => ?_, h.locals⟩
    rw [Table.get?_insert, if_neg (hne n hn), h.globals n hn]
  · refine ⟨h.globals, fun n hn => ?_⟩
    have hn' := h.locals n hn
    rw [hlocals, List.findSome?_cons] at hn'
    rwa [List.findSome?_cons, Table.get?_insert, if_neg (hne n hn)]

theorem assign (h : env.Free names) (hname : name ∉ names) (value : Value) : (env.assign name value).Free names := by
  have hne (n : String) (hn : n ∈ names) : n ≠ name := fun heq => hname (heq ▸ hn)
  unfold Env.assign
  split
  · refine ⟨h.globals, fun n hn => ?_⟩
    rw [findSome?_updateLocals, if_neg (hne n hn)]
    exact h.locals n hn
  · refine ⟨fun n hn => ?_, h.locals⟩
    rw [Table.get?_insert, if_neg (hne n hn)]
    exact h.globals n hn

theorem ofParams (h : env.Free names) (hparams : ∀ param ∈ params, param ∉ names) {args : List Value}
    {scope : Scope} (hscope : Scope.ofParams {} params args = .ok scope)
    : Env.Free names { env with locals := [scope] } := by
  refine ⟨h.globals, fun name hname => ?_⟩
  have hget := Scope.get?_ofParams (fun hmem => hparams name hmem hname) hscope
  rw [List.findSome?_cons, hget]
  rfl

end Free

end Env

def Expr.entering (node : String) : Expr :=
  .await (.call (.identifier "__onNode") [.str node])

def Expr.updating (name : String) : Expr :=
  .call (.identifier "__onVar") [.str name, .identifier name]

inductive Stmt.Writes (name : String) : Stmt → Prop where
  | declare (value : Option Expr) : Writes name (.declare name value)
  | assign (op : AssignOp) (value : Expr) : Writes name (.assign (.variable name) op value)
  | store (position : Expr) (op : AssignOp) (value : Expr) : Writes name (.assign (.element name position) op value)
  | push (value : Expr) : Writes name (.expr (.call (.member (.identifier name) "push") [value]))
  | pop (temporary : String)
    : Writes name (.declare temporary (some (.call (.member (.identifier name) "pop") [])))

def Leeway.notices (streak : Nat) : Leeway where
  binds name := name ∉ noticeNames
  skips note := ∃ node, note = .entering node
  streak := streak
  echoes stmt note := ∃ name, stmt.Writes name ∧ note = .updating name
  opens cond first second := ∃ name limit node, Expr.Calm [] limit ∧ name ≠ "NaN" ∧ name ≠ "Infinity"
    ∧ cond = .binary .less (.identifier name) limit ∧ first = .entering node ∧ second = .updating name

/-- The machines differ at most in what the functions of their programs give notice of, and nothing
else has the names that notices call. -/
inductive Machine.Twin (streak : Nat) (m : Machine) : Machine → Prop where
  | mk {functions : List (String × Function)} (hfree : m.env.Free noticeNames)
      (hfunctions : List.Forall₂
        (fun f g => f.1 = g.1 ∧ (Leeway.notices streak).binds f.1 ∧ f.2.Akin (.notices streak) g.2)
        m.functions functions)
    : Twin streak m { m with functions }

namespace Machine.Twin

variable {streak : Nat} {m m' : Machine}

theorem free (h : m.Twin streak m') : m.env.Free noticeNames := by
  cases h
  assumption

theorem function? (h : m.Twin streak m') (name : String) : (m.function? name = none ∧ m'.function? name = none)
        ∨ name ∉ noticeNames ∧ ∃ function function', m.function? name = some function
          ∧ m'.function? name = some function' ∧ function.Akin (.notices streak) function' := by
  obtain ⟨-, hfunctions⟩ := h
  unfold Machine.function?
  dsimp only
  generalize m.functions = left at hfunctions
  induction hfunctions with
  | nil => exact .inl ⟨rfl, rfl⟩
  | @cons f g _ _ hhead _ ih =>
    obtain ⟨hname, hbinds, hakin⟩ := hhead
    rw [List.lookup_cons, List.lookup_cons, ← hname]
    cases hfound : name == f.1 with
    | false => exact ih
    | true =>
      rw [eq_of_beq hfound]
      exact .inr ⟨hbinds, f.2, g.2, rfl, rfl, hakin⟩

theorem function?_eq_none (h : m.Twin streak m') {name : String} (hname : name ∈ noticeNames)
    : m.function? name = none := by
  obtain ⟨hnone, -⟩ | ⟨hnot, -⟩ := h.function? name
  · exact hnone
  · exact absurd hname hnot

theorem start [Generator] (streak : Nat) (seed : Option Nat) (maxCalls : Nat)
    : (Machine.start seed maxCalls).Twin streak (Machine.start seed maxCalls) :=
  .mk (.empty _) .nil

end Machine.Twin

namespace Exec

variable {α β : Type} {p q : Prop} {streak : Nat}

def Overflows (result : Except RuntimeError α × Machine) : Prop :=
  result.1 = .error .stackOverflow

theorem overflows_stackOverflow (m : Machine)
    : Overflows ((.error .stackOverflow, m) : Except RuntimeError α × Machine) := rfl

/-- On machines that differ in notices only, the computations do, unless the left one runs out of room. -/
def Shadows (streak : Nat) (p q : Prop) (α : Type) (x y : Exec α) : Prop :=
  ∀ m m', m.Twin streak m' → (x m).Quiets p q Overflows
    (fun result result' => result.1 = result'.1 ∧ result.2.Twin streak result'.2) (y m')

theorem quiets_bind {γ δ : Type} {x : Exec α} {f : α → Exec β} {m : Machine}
    {rel : Except RuntimeError α × Machine → γ → Prop} {rel' : Except RuntimeError β × Machine → δ → Prop}
    {d : Dialog γ} {g : γ → Dialog δ} (h : (x m).Quiets p q Overflows rel d)
    (herror : ∀ e m₁ c, rel (.error e, m₁) c → (Dialog.done (.error e, m₁)).Quiets p q Overflows rel' (g c))
    (hok : ∀ a m₁ c, rel (.ok a, m₁) c → (f a m₁).Quiets p q Overflows rel' (g c))
    : ((x >>= f) m).Quiets p q Overflows rel' (d.bind g) := by
  refine h.bind ?_ ?_
  · rintro ⟨e | a, m₁⟩ hoverflows d'
    · cases hoverflows
      exact .excused (overflows_stackOverflow _) _
    · cases hoverflows
  · rintro ⟨e | a, m₁⟩ c hrel
    · exact herror e m₁ c hrel
    · exact hok a m₁ c hrel

variable {name : String}

namespace Shadows

theorem bind {x y : Exec α} {f g : α → Exec β} (h : Shadows streak p q α x y)
    (hnext : ∀ a, Shadows streak p q β (f a) (g a)) : Shadows streak p q β (x >>= f) (y >>= g) := by
  intro m m' hm
  refine quiets_bind (h m m' hm) ?_ ?_
  · rintro e m₁ ⟨_, m₁'⟩ ⟨rfl, htwin⟩
    exact .done ⟨rfl, htwin⟩
  · rintro a m₁ ⟨_, m₁'⟩ ⟨rfl, htwin⟩
    exact hnext a m₁ m₁' htwin

theorem pure (a : α) : Shadows streak p q α (Pure.pure a) (Pure.pure a) :=
  fun _ _ hm => .done ⟨rfl, hm⟩

theorem fail (e : RuntimeError) : Shadows streak p q α (fail e) (fail e) :=
  fun _ _ hm => .done ⟨rfl, hm⟩

theorem ofExcept (x : Except RuntimeError α) : Shadows streak p q α (ofExcept x) (ofExcept x) := by
  cases x with
  | ok a => exact pure a
  | error e => exact fail e

theorem closing {x y : Exec α} {m m' : Machine} {f g : Machine → Machine}
    (h : (x m).Quiets p q Overflows (fun r r' => r.1 = r'.1 ∧ r.2.Twin streak r'.2) (y m'))
    (hclose : ∀ n n' : Machine, n.Twin streak n' → (f n).Twin streak (g n'))
    : (x.closing f m).Quiets p q Overflows (fun r r' => r.1 = r'.1 ∧ r.2.Twin streak r'.2) (y.closing g m') := by
  refine h.bind ?_ ?_
  · rintro ⟨r, n⟩ hoverflows d'
    exact .excused (show Overflows (r, f n) from hoverflows) _
  · rintro ⟨r, n⟩ ⟨r', n'⟩ ⟨hresult, htwin⟩
    exact .done ⟨hresult, hclose n n' htwin⟩

theorem descend {x y : Exec α} (h : Shadows streak p q α x y) : Shadows streak p q α (descend x) (descend y) := by
  rintro m _ ⟨hfree, hfunctions⟩
  unfold Exec.descend
  split
  · exact .excused (overflows_stackOverflow _) _
  · refine closing (h _ _ (.mk hfree hfunctions)) ?_
    rintro n _ ⟨hfree, hfunctions⟩
    exact .mk hfree hfunctions

theorem inScope {x y : Exec α} (h : Shadows streak p q α x y) : Shadows streak p q α (inScope x) (inScope y) := by
  rintro m _ ⟨hfree, hfunctions⟩
  refine closing (h _ _ (.mk hfree.push hfunctions)) ?_
  rintro n _ ⟨hfree, hfunctions⟩
  exact .mk hfree.pop hfunctions

theorem calling (hparams : ∀ param ∈ params, param ∉ noticeNames) (args : List Value) {x y : Exec α}
    (h : Shadows streak p q α x y)
    : Shadows streak p q α (calling params args x) (calling params args y) := by
  rintro m _ ⟨hfree, hfunctions⟩
  unfold Exec.calling
  dsimp only
  split
  · exact .excused (overflows_stackOverflow _) _
  · cases hscope : Scope.ofParams {} params args with
    | error e => exact .done ⟨rfl, .mk hfree hfunctions⟩
    | ok scope =>
      refine closing (h _ _ (.mk (hfree.ofParams hparams hscope) hfunctions)) ?_
      rintro n _ ⟨hfree', hfunctions⟩
      exact .mk ⟨hfree'.globals, hfree.locals⟩ hfunctions

theorem lookup? (name : String) : Shadows streak p q (Option Value) (lookup? name) (lookup? name) := by
  rintro m _ ⟨hfree, hfunctions⟩
  exact .done ⟨rfl, .mk hfree hfunctions⟩

theorem declare (hname : name ∉ noticeNames) (value : Value)
    : Shadows streak p q Unit (declare name value) (declare name value) := by
  rintro m _ ⟨hfree, hfunctions⟩
  show Dialog.Quiets _ _ _ _ ((Exec.ofExcept (m.env.declare name value) >>= _ : Exec Unit) m)
    ((Exec.ofExcept (m.env.declare name value) >>= _ : Exec Unit) _)
  cases hdeclare : m.env.declare name value with
  | error e => exact .done ⟨rfl, .mk hfree hfunctions⟩
  | ok env => exact .done ⟨rfl, .mk (hfree.declare hname hdeclare) hfunctions⟩

theorem assign (hname : name ∉ noticeNames) (value : Value)
    : Shadows streak p q Unit (assign name value) (assign name value) := by
  rintro m _ ⟨hfree, hfunctions⟩
  exact .done ⟨rfl, .mk (hfree.assign hname value) hfunctions⟩

theorem lookup_assign (name : String) {f g : Value → Exec α}
    (h : ∀ value, name ∉ noticeNames → Shadows streak p q α (f value) (g value))
    : Shadows streak p q α (lookup name >>= f) (lookup name >>= g) := by
  rintro m _ @⟨functions, hfree, hfunctions⟩
  show Dialog.Quiets _ _ _ _ ((Exec.lookup name m).bind _) ((Exec.lookup name _).bind _)
  cases hvalue : m.env.get? name with
  | none =>
    rw [lookup_of_none hvalue, lookup_of_none (m := { m with functions }) hvalue]
    exact .done ⟨rfl, .mk hfree hfunctions⟩
  | some value =>
    rw [lookup_of_some hvalue, lookup_of_some (m := { m with functions }) hvalue]
    exact h value (hfree.not_mem hvalue) m _ (.mk hfree hfunctions)

theorem store {target : Target} (h : ∀ name, target = .variable name → name ∉ noticeNames) (position : Value)
    (op : AssignOp) (value : Value)
    : Shadows streak p q Unit (store target position op value) (store target position op value) := by
  cases target with
  | «variable» name =>
    unfold Exec.store
    dsimp only
    split
    · exact lookup_assign name fun _ hname => assign hname _
    · exact assign (h name rfl) value
  | element name _ =>
    exact lookup_assign name fun holder hname => bind (ofExcept _) fun _ => assign hname _

theorem methodCall (name : String) (method : Value.Method) (args : List Value)
    : Shadows streak p q Value (methodCall name method args) (methodCall name method args) :=
  lookup_assign name fun _ hname => bind (ofExcept _) fun _ => bind (assign hname _) fun _ => pure _

theorem mathCall (name : String) (args : List Value)
    : Shadows streak p q Value (mathCall name args) (mathCall name args) := by
  rintro m _ ⟨hfree, hfunctions⟩
  rw [Exec.mathCall, get_bind, get_bind]
  obtain _ | ⟨x, random⟩ := Builtin.math? name args m.random
  all_goals exact .done ⟨rfl, .mk hfree hfunctions⟩

theorem callee (name : String) {f g : Function → Exec α} {x y : Exec α}
    (h : ∀ function function', function.Akin (.notices streak) function'
      → Shadows streak p q α (f function) (g function')) (hnone : Shadows streak p q α x y)
    : Shadows streak p q α (get >>= fun m => match m.function? name with | some function => f function | none => x)
        (get >>= fun m => match m.function? name with | some function => g function | none => y) := by
  intro m m' hm
  show Dialog.Quiets _ _ _ _ ((match m.function? name with | some function => f function | none => x) m)
    ((match m'.function? name with | some function => g function | none => y) m')
  obtain ⟨hleft, hright⟩ | ⟨-, function, function', hleft, hright, hakin⟩ := hm.function? name
  · rw [hleft, hright]
    exact hnone m m' hm
  · rw [hleft, hright]
    exact h function function' hakin m m' hm

end Shadows

/-- The computation may give notices, and then it yields `a` and leaves the machine as it is, unless it
runs out of room or is given up. -/
def Yields (p q : Prop) (m : Machine) (x : Exec α) (a : α) : Prop :=
  (x m).Quiets p q Overflows (fun result (_ : Unit) => result = (.ok a, m)) (.done ())

namespace Yields

variable {m : Machine} {x : Exec α} {a : α}

theorem pure (a : α) : Yields p q m (Pure.pure a : Exec α) a := .done rfl

theorem bind {f : α → Exec β} {b : β} (h : Yields p q m x a) (hnext : Yields p q m (f a) b)
    : Yields p q m (x >>= f) b := by
  refine quiets_bind (g := fun _ => .done ()) h ?_ ?_
  · rintro e m₁ _ ⟨⟩
  · rintro _ _ _ ⟨⟩
    exact hnext

theorem shadows {f : α → Exec β} {y : Dialog (Except RuntimeError β × Machine)} (h : Yields p q m x a)
    {rel : Except RuntimeError β × Machine → Except RuntimeError β × Machine → Prop}
    (hnext : (f a m).Quiets p q Overflows rel y) : ((x >>= f) m).Quiets p q Overflows rel y := by
  refine quiets_bind (g := fun _ => y) h ?_ ?_
  · rintro e m₁ _ ⟨⟩
  · rintro _ _ _ ⟨⟩
    exact hnext

theorem descend (h : Yields p q { m with descent := m.descent + 1 } x a) : Yields p q m (descend x) a := by
  unfold Yields Exec.descend
  split
  · exact .excused (overflows_stackOverflow _) _
  · refine Dialog.Quiets.bind (g := fun _ => .done ()) h ?_ ?_
    · rintro ⟨r, n⟩ hoverflows d'
      exact .excused (show Overflows (r, { n with descent := n.descent - 1 }) from hoverflows) _
    · rintro _ _ rfl
      exact .done rfl

theorem of_succ {f : Nat → Exec α} {bound : Nat} (hzero : f 0 = exhausted) (hbound : ¬ p → steps + 1 ≤ bound)
    (h : ∀ b, (¬ p → steps ≤ b) → Yields p q m (f (b + 1)) a) : Yields p q m (f bound) a := by
  cases bound with
  | zero =>
    rw [hzero]
    by_cases hp : p
    · exact .left hp _
    · have := hbound hp
      omega
  | succ b => exact h b fun hp => Nat.le_of_succ_le_succ (hbound hp)

variable {bound : Nat}

theorem str (text : String) (hbound : ¬ p → 1 ≤ bound) : Yields p q m (eval bound (.str text)) (.str text) := by
  refine of_succ (f := (Exec.eval · (.str text))) (by rw [Exec.eval]) hbound fun b _ => ?_
  unfold Exec.eval
  exact descend (pure _)

theorem identifier (h : m.env.get? name = some value) (hbound : ¬ p → 1 ≤ bound)
    : Yields p q m (eval bound (.identifier name)) value := by
  refine of_succ (f := (Exec.eval · (.identifier name))) (by rw [Exec.eval]) hbound fun b _ => ?_
  unfold Exec.eval
  refine descend (bind (a := some value) ?_ (pure value))
  exact .done (congrArg (fun found => (Except.ok found, { m with descent := m.descent + 1 })) h)

theorem items_nil (hbound : ¬ p → 1 ≤ bound) : Yields p q m (evalItems bound []) [] := by
  refine of_succ (f := (Exec.evalItems · [])) (by rw [Exec.evalItems]) hbound fun b _ => ?_
  unfold Exec.evalItems
  exact pure _

theorem items_cons {item : Expr} {rest : List Expr} {values : List Value} (hbound : ¬ p → steps + 1 ≤ bound)
    (hitem : ∀ b, (¬ p → steps ≤ b) → Yields p q m (Exec.eval b item) value)
    (hrest : ∀ b, (¬ p → steps ≤ b) → Yields p q m (evalItems b rest) values)
    : Yields p q m (evalItems bound (item :: rest)) (value :: values) := by
  refine of_succ (f := (Exec.evalItems · (item :: rest))) (by rw [Exec.evalItems]) hbound fun b hb => ?_
  unfold Exec.evalItems
  exact bind (hitem b hb) (bind (hrest b hb) (pure _))

theorem ask {request : Request} (h : request.isSpoken = false) (b : β)
    : Yields p q m (Exec.ask request >>= fun _ => Pure.pure b) b :=
  .notice h fun _ => .done rfl

theorem exec_expr {expr : Expr} (value : Value) (hbound : ¬ p → steps + 1 ≤ bound)
    (h : ∀ m' : Machine, m'.env = m.env → m'.functions = m.functions → ∀ b, (¬ p → steps ≤ b)
      → Yields p q m' (Exec.eval b expr) value)
    : Yields p q m (exec bound (.expr expr)) .normal := by
  refine of_succ (f := (Exec.exec · (.expr expr))) (by rw [Exec.exec]) hbound fun b hb => ?_
  unfold Exec.exec
  exact descend (bind (h { m with descent := m.descent + 1 } rfl rfl b hb) (pure _))

theorem eval_call {arguments : List Expr} (args : List Value) (hbound : ¬ p → steps + 1 ≤ bound)
    (hsteps : 1 ≤ steps) (hfunction : m.function? name = none)
    (hargs : ∀ m' : Machine, m'.env = m.env → ∀ b, (¬ p → steps ≤ b) → Yields p q m' (evalItems b arguments) args)
    (hcall : ∀ m' : Machine, m'.env = m.env → Yields p q m' (Exec.builtinCall name args) value)
    : Yields p q m (Exec.eval bound (.call (.identifier name) arguments)) value := by
  refine of_succ (f := (Exec.eval · (.call (.identifier name) arguments))) (by rw [Exec.eval]) hbound fun b hb => ?_
  unfold Exec.eval
  refine descend (bind (hargs { m with descent := m.descent + 1 } rfl b hb) ?_)
  refine of_succ (f := (Exec.call · (.identifier name) args)) (by rw [Exec.call])
    (fun hp => Nat.le_trans hsteps (hb hp)) fun b _ => ?_
  have heq : Exec.call (b + 1) (.identifier name) args { m with descent := m.descent + 1 }
      = Exec.builtinCall name args { m with descent := m.descent + 1 } :=
    call_of_none (m := { m with descent := m.descent + 1 }) hfunction b args
  unfold Yields
  rw [heq]
  exact hcall _ rfl

theorem builtinCall (hname : name ∈ noticeNames) (h : m.env.get? name = none) (args : List Value)
    : Yields p q m (builtinCall name args) .undefined := by
  unfold Yields Exec.builtinCall lookup?
  simp only [Bind.bind, Exec.get, Pure.pure, Dialog.bind, h]
  obtain rfl | rfl : name = "__onNode" ∨ name = "__onVar" := by simpa [noticeNames] using hname
  all_goals exact ask rfl _

theorem entering (hfree : m.env.Free noticeNames) (hfunction : m.function? "__onNode" = none)
    (hbound : ¬ p → 7 ≤ bound) (node : String) : Yields p q m (exec bound (.expr (.entering node))) .normal := by
  refine exec_expr .undefined hbound fun m₁ henv hfunctions b hb => ?_
  refine of_succ (f := (Exec.eval · (.entering node))) (by rw [Exec.eval]) hb fun b hb => ?_
  unfold Exec.eval
  refine descend (eval_call [.str node] hb (by decide) (hfunction ▸ congrArg (List.lookup _) hfunctions) ?_ ?_)
  · intro m₂ _ b hb
    refine items_cons hb (fun b hb => str node fun hp => ?_) fun b hb => items_nil fun hp => ?_
    · have := hb hp
      omega
    · have := hb hp
      omega
  · intro m₂ henv'
    exact builtinCall (by decide) (by rw [henv', henv]; exact hfree.get?_eq_none (by decide)) _

theorem updating (h : m.env.get? name = some value) (hfree : m.env.Free noticeNames)
    (hfunction : m.function? "__onVar" = none) (hbound : ¬ p → 7 ≤ bound)
    : Yields p q m (exec bound (.expr (.updating name))) .normal := by
  refine exec_expr .undefined hbound fun m₁ henv hfunctions b hb => ?_
  refine eval_call [.str name, value] hb (by decide) (hfunction ▸ congrArg (List.lookup _) hfunctions) ?_ ?_
  · intro m₂ henv' b hb
    refine items_cons hb (fun b hb => str name fun hp => ?_) fun b hb =>
      items_cons hb (fun b hb => identifier (by rw [henv', henv]; exact h) fun hp => ?_) fun b hb =>
        items_nil fun hp => ?_
    · have := hb hp
      omega
    · have := hb hp
      omega
    · have := hb hp
      omega
  · intro m₂ henv'
    exact builtinCall (by decide) (by rw [henv', henv]; exact hfree.get?_eq_none (by decide)) _

end Yields

def Ensures (P Q : Env → Prop) (x : Exec α) : Prop :=
  ∀ m, P m.env → (x m).Results (fun _ => True) fun result => ∀ a, result.1 = .ok a → Q result.2.env

namespace Ensures

variable {P Q R : Env → Prop} {x : Exec α}

theorem trivial (P : Env → Prop) (x : Exec α) : Ensures P (fun _ => True) x := by
  intro m _
  generalize x m = d
  induction d with
  | done result => exact .done fun _ _ => True.intro
  | exhausted => exact .exhausted
  | ask request resume ih => exact .ask fun reply _ => ih reply

theorem pure (a : α) : Ensures P P (Pure.pure a) :=
  fun _ h => .done fun _ _ => h

theorem fail (e : RuntimeError) : Ensures P Q (fail e : Exec α) := by
  refine fun _ _ => .done ?_
  rintro a ⟨⟩

theorem exhausted : Ensures P Q (exhausted : Exec α) :=
  fun _ _ => .exhausted

theorem bind {f : α → Exec β} (h : Ensures P Q x) (hnext : ∀ a, Ensures Q R (f a)) : Ensures P R (x >>= f) := by
  intro m hm
  refine (h m hm).bind ?_
  rintro ⟨e | a, m'⟩ hresult
  · refine .done ?_
    rintro a ⟨⟩
  · exact hnext a m' (hresult a rfl)

theorem of_keeps (h : Keeps [] x) : Ensures P P x := by
  intro m hm
  refine (h m (fun name hname => absurd hname List.not_mem_nil)).mono ?_
  rintro result ⟨henv, -⟩ a -
  rw [henv]
  exact hm

theorem descend (h : Ensures P Q x) : Ensures P Q (descend x) := by
  intro m hm
  unfold Exec.descend
  split
  · refine .done ?_
    rintro a ⟨⟩
  · exact (h { m with descent := m.descent + 1 } hm).bind fun _ hresult => .done hresult

end Ensures

theorem ensures_assign (P : Env → Prop) (name : String) (value : Value)
    : Ensures P (Env.Has name) (assign name value) := by
  refine fun m _ => .done fun _ _ => ?_
  show ((m.env.assign name value).get? name).isSome
  rw [Env.get?_assign, if_pos rfl]
  rfl

theorem ensures_declare {P Q : Env → Prop} (h : ∀ env env', P env → env.declare name value = .ok env' → Q env')
    : Ensures P Q (declare name value) := by
  intro m hm
  show (Exec.ofExcept (m.env.declare name value) >>= _ : Exec Unit) m |>.Results _ _
  cases hdeclare : m.env.declare name value with
  | error e =>
    refine .done ?_
    rintro a ⟨⟩
  | ok env => exact .done fun _ _ => h _ _ hm hdeclare

theorem ensures_store (P : Env → Prop) (name : String) {target : Target}
    (h : target = .variable name ∨ ∃ position, target = .element name position) (position : Value) (op : AssignOp)
    (value : Value) : Ensures P (Env.Has name) (store target position op value) := by
  obtain rfl | ⟨_, rfl⟩ := h
  · unfold store
    dsimp only
    split
    · exact (Ensures.trivial P _).bind fun _ => ensures_assign _ name _
    · exact ensures_assign P name value
  · exact (Ensures.trivial P _).bind fun _ => (Ensures.trivial _ _).bind fun _ => ensures_assign _ name _

theorem ensures_methodCall (P : Env → Prop) (name : String) (method : Value.Method) (args : List Value)
    : Ensures P (Env.Has name) (methodCall name method args) :=
  (Ensures.trivial P _).bind fun _ => (Ensures.trivial _ _).bind fun _ =>
    (ensures_assign _ name _).bind fun _ => .pure _

theorem ensures_eval_method (P : Env → Prop) (bound : Nat) (name : String) {property : String} {method : Value.Method}
    (hmethod : Value.Method.ofName? property = some method)
    (hmath : ∀ args random, Builtin.math? property args random = none) (arguments : List Expr)
    : Ensures P (Env.Has name) (eval bound (.call (.member (.identifier name) property) arguments)) := by
  cases bound with
  | zero =>
    rw [eval]
    exact .exhausted
  | succ bound =>
    unfold eval
    refine .descend ((Ensures.trivial P _).bind fun args => ?_)
    cases bound with
    | zero =>
      rw [call]
      exact .exhausted
    | succ bound =>
      unfold call
      split
      · contradiction
      · next heq =>
        cases heq
        cases hmethod
      · next heq =>
        cases heq
        refine (Ensures.trivial _ _).bind fun isMath => ?_
        split
        · refine (Ensures.trivial _ _).bind fun m => ?_
          rw [hmath]
          exact .fail _
        · rw [hmethod]
          exact ensures_methodCall _ name method args
      · exact .fail _

theorem ensures_writes {stmt : Stmt} (h : stmt.Writes name) (bound : Nat)
    : Ensures (fun _ => True) (Env.Has name) (exec bound stmt) := by
  cases bound with
  | zero =>
    rw [exec]
    exact .exhausted
  | succ bound =>
    unfold exec
    apply Ensures.descend
    cases h with
    | declare value =>
      refine (Ensures.trivial _ _).bind fun _ => (ensures_declare ?_).bind fun _ => .pure _
      intro env env' _ hdeclare
      rw [Env.Has, Env.get?_declare hdeclare, if_pos rfl]
      rfl
    | assign op value =>
      refine (Ensures.trivial _ _).bind fun _ => (Ensures.trivial _ _).bind fun _ => ?_
      exact (ensures_store _ name (.inl rfl) _ op _).bind fun _ => .pure _
    | store position op value =>
      refine (Ensures.trivial _ _).bind fun _ => (Ensures.trivial _ _).bind fun _ => ?_
      exact (ensures_store _ name (.inr ⟨_, rfl⟩) _ op _).bind fun _ => .pure _
    | push value => exact (ensures_eval_method _ bound name rfl (fun _ _ => rfl) [value]).bind fun _ => .pure _
    | pop temporary =>
      have hvalue : Ensures (fun _ => True) (Env.Has name)
          (evalOption bound (some (.call (.member (.identifier name) "pop") []))) := by
        cases bound with
        | zero =>
          rw [evalOption]
          exact .exhausted
        | succ bound =>
          rw [evalOption]
          exact ensures_eval_method _ bound name rfl (fun _ _ => rfl) []
      refine hvalue.bind fun _ => (ensures_declare ?_).bind fun _ => .pure _
      intro env env' hhas hdeclare
      rw [Env.Has, Env.get?_declare hdeclare]
      split
      · rfl
      · exact hhas

theorem ensures_less (hnan : name ≠ "NaN") (hinfinity : name ≠ "Infinity") {limit : Expr}
    (hlimit : Expr.Calm [] limit) (bound : Nat)
    : Ensures (fun _ => True) (Env.Has name) (eval bound (.binary .less (.identifier name) limit)) := by
  have hidentifier : Ensures (fun _ => True) (Env.Has name) (Exec.identifier name) := by
    intro m _
    cases hvalue : m.env.get? name with
    | some value =>
      rw [identifier_of_some hvalue]
      refine .done fun _ _ => ?_
      show (m.env.get? name).isSome
      rw [hvalue]
      rfl
    | none =>
      rw [identifier_of_none hvalue]
      unfold constant
      split
      any_goals contradiction
      · refine .done ?_
        rintro a ⟨⟩
  cases bound with
  | zero =>
    rw [eval]
    exact .exhausted
  | succ bound =>
    unfold eval
    refine .descend (.bind (Q := Env.Has name) ?_ fun _ => ?_)
    · cases bound with
      | zero =>
        rw [eval]
        exact .exhausted
      | succ bound =>
        unfold eval
        exact .descend hidentifier
    · exact (Ensures.of_keeps ((keeps_eval bound).1 limit hlimit)).bind fun _ => .pure _

namespace Shadows

variable {bound bound' : Nat}

theorem skip {note : Expr} (h : (Leeway.notices streak).skips note) (hbound : ¬ p → 7 ≤ bound) {x y : Exec Flow}
    (hnext : Shadows streak p q Flow x y)
    : Shadows streak p q Flow (exec bound (.expr note) >>= fun | .normal => x | flow => Pure.pure flow) y := by
  obtain ⟨node, rfl⟩ := h
  intro m m' hm
  exact (Yields.entering hm.free (hm.function?_eq_none (by decide)) hbound node).shadows (hnext m m' hm)

theorem echo {stmt stmt' : Stmt} {note : Expr} (h : (Leeway.notices streak).echoes stmt note)
    (hstmt : Shadows streak p q Flow (exec (bound + 1) stmt) (exec bound' stmt')) (hbound : ¬ p → 7 ≤ bound)
    {x y : Exec Flow} (hnext : Shadows streak p q Flow x y)
    : Shadows streak p q Flow (exec (bound + 1) stmt >>= fun
        | .normal => exec bound (.expr note) >>= fun | .normal => x | flow => Pure.pure flow
        | flow => Pure.pure flow)
      (exec bound' stmt' >>= fun | .normal => y | flow => Pure.pure flow) := by
  obtain ⟨name, hwrites, rfl⟩ := h
  intro m m' hm
  refine quiets_bind ((hstmt m m' hm).and_results (ensures_writes hwrites (bound + 1) m trivial)) ?_ ?_
  · rintro e m₁ ⟨_, m₁'⟩ ⟨⟨rfl, htwin⟩, -⟩
    exact .done ⟨rfl, htwin⟩
  · rintro flow m₁ ⟨_, m₁'⟩ ⟨⟨rfl, htwin⟩, hhas⟩
    cases flow with
    | normal =>
      obtain ⟨value, hvalue⟩ := Option.isSome_iff_exists.mp (hhas _ rfl)
      exact (Yields.updating hvalue htwin.free (htwin.function?_eq_none (by decide)) hbound).shadows
        (hnext m₁ m₁' htwin)
    | broke | continued | returned => exact .done ⟨rfl, htwin⟩

theorem opened (node : String) {body body' : List Stmt}
    (hbody : Shadows streak p q Flow (execAll (bound - 2) body) (execAll bound' body')) (hbound : ¬ p → 9 ≤ bound)
    {m m' : Machine} (hm : m.Twin streak m') (hhas : m.env.Has name)
    : (execAll bound (.expr (.entering node) :: .expr (.updating name) :: body) m).Quiets p q Overflows
        (fun result result' => result.1 = result'.1 ∧ result.2.Twin streak result'.2) (execAll bound' body' m') := by
  obtain ⟨value, hvalue⟩ := Option.isSome_iff_exists.mp hhas
  by_cases hlow : bound < 2
  · have hp : p := by
      by_contra hp
      have := hbound hp
      omega
    obtain rfl | rfl : bound = 0 ∨ bound = 1 := by omega
    · rw [execAll]
      exact .left hp _
    · exact .left hp _
  · obtain ⟨k, rfl⟩ : ∃ k, bound = k + 2 := ⟨bound - 2, by omega⟩
    have hk (hp : ¬ p) : 7 ≤ k := by
      have := hbound hp
      omega
    refine (Yields.entering hm.free (hm.function?_eq_none (by decide)) (fun hp => Nat.le_succ_of_le (hk hp))
      node).shadows ?_
    exact (Yields.updating hvalue hm.free (hm.function?_eq_none (by decide)) hk).shadows (hbody m m' hm)

theorem turn {cond first second : Expr} (h : (Leeway.notices streak).opens cond first second)
    (hcond : Shadows streak p q Value (eval bound cond) (eval bound' cond)) (hbound : ¬ p → 9 ≤ bound)
    {body body' : List Stmt} (hbody : Shadows streak p q Flow (execAll (bound - 2) body) (execAll bound' body'))
    {f g : Flow → Exec Flow} (hnext : ∀ flow, Shadows streak p q Flow (f flow) (g flow))
    : Shadows streak p q Flow (Value.isTruthy <$> eval bound cond >>= fun holds =>
        if holds then Exec.inScope (execAll bound (.expr first :: .expr second :: body)) >>= f
        else Pure.pure .normal)
      (Value.isTruthy <$> eval bound' cond >>= fun holds =>
        if holds then Exec.inScope (execAll bound' body') >>= g else Pure.pure .normal) := by
  obtain ⟨name, limit, node, hlimit, hnan, hinfinity, rfl, rfl, rfl⟩ := h
  intro m m' hm
  have htest : ((Value.isTruthy <$> eval bound (.binary .less (.identifier name) limit)) m).Quiets p q Overflows
      (fun r r' => (r.1 = r'.1 ∧ r.2.Twin streak r'.2) ∧ ∀ holds, r.1 = .ok holds → r.2.env.Has name)
      ((Value.isTruthy <$> eval bound' (.binary .less (.identifier name) limit)) m') := by
    refine quiets_bind ((hcond m m' hm).and_results (ensures_less hnan hinfinity hlimit bound m trivial)) ?_ ?_
    · rintro e m₁ ⟨_, m₁'⟩ ⟨⟨rfl, htwin⟩, -⟩
      refine .done ⟨⟨rfl, htwin⟩, ?_⟩
      rintro holds ⟨⟩
    · rintro value m₁ ⟨_, m₁'⟩ ⟨⟨rfl, htwin⟩, hhas⟩
      exact .done ⟨⟨rfl, htwin⟩, fun _ _ => hhas value rfl⟩
  refine quiets_bind htest ?_ ?_
  · rintro e m₁ ⟨_, m₁'⟩ ⟨⟨rfl, htwin⟩, -⟩
    exact .done ⟨rfl, htwin⟩
  · rintro holds m₁ ⟨_, m₁'⟩ ⟨⟨rfl, htwin⟩, hhas⟩
    cases holds with
    | false => exact .done ⟨rfl, htwin⟩
    | true =>
      have hround : (Exec.inScope (execAll bound (.expr (.entering node) :: .expr (.updating name) :: body)) m₁).Quiets
          p q Overflows (fun r r' => r.1 = r'.1 ∧ r.2.Twin streak r'.2) (Exec.inScope (execAll bound' body') m₁') := by
        obtain ⟨hfree, hfunctions⟩ := htwin
        refine closing (opened node hbody hbound (.mk hfree.push hfunctions) (hhas true rfl)) ?_
        rintro n _ ⟨hfree, hfunctions⟩
        exact .mk hfree.pop hfunctions
      refine quiets_bind hround ?_ ?_
      · rintro e m₁ ⟨_, m₁'⟩ ⟨rfl, htwin⟩
        exact .done ⟨rfl, htwin⟩
      · rintro flow m₁ ⟨_, m₁'⟩ ⟨rfl, htwin⟩
        exact hnext flow m₁ m₁' htwin

end Shadows

theorem respects_shadows (streak : Nat) (p q : Prop) : Respects (.notices streak) p q (Shadows streak p q) where
  left h _ := fun _ _ _ => .left h _
  right h _ := fun _ _ _ => .right h _
  pure := Shadows.pure
  bind := Shadows.bind
  fail _ := Shadows.fail _
  ask _ := fun _ _ hm => .ask fun _ => .done ⟨rfl, hm⟩
  lookup? := Shadows.lookup?
  declare := Shadows.declare
  store := Shadows.store
  methodCall := Shadows.methodCall
  mathCall := Shadows.mathCall
  descend := Shadows.descend
  inScope := Shadows.inScope
  calling := Shadows.calling
  define hname _ _ h := by
    rintro m _ ⟨hfree, hfunctions⟩
    exact .done ⟨rfl, .mk hfree (.cons ⟨rfl, hname, h⟩ hfunctions)⟩
  callee := Shadows.callee
  skip h := Shadows.skip h
  echo h := Shadows.echo h
  turn h := Shadows.turn h

end Exec

end NodeScript.Script
