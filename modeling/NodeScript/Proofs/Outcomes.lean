import NodeScript.Proofs.Reach
import NodeScript.Proofs.Unwinding

/-!
Runs that come to the same whatever the host answers, as long as it is there.
-/

namespace NodeScript.Script

/-- The dialog ends in the result, whatever the answers are. -/
inductive Dialog.Settles {α : Type} (a : α) : Dialog α → Prop where
  | done : Settles a (.done a)
  | ask {request : Request} {resume : Reply → Dialog α} (h : ∀ text, Settles a (resume (.answer text)))
    : Settles a (.ask request resume)

namespace Dialog.Settles

variable {α β : Type} {d : Dialog α} {a : α}

theorem bind {f : α → Dialog β} {b : β} (h : d.Settles a) (hnext : (f a).Settles b) : (d.bind f).Settles b := by
  induction h with
  | done => exact hnext
  | ask _ ih => exact .ask ih

theorem of_results {P : α → Prop} (h : d.Settles a) (hresults : d.Results (fun _ => True) P) : P a := by
  induction h with
  | done =>
    cases hresults with
    | done h => exact h
  | ask _ ih =>
    cases hresults with
    | ask h => exact ih "" (h _ trivial)

end Dialog.Settles

variable {expr : Expr} {stmt : Stmt} {flow : Flow}

namespace Exec

/-- With enough steps the computation yields the value and takes the machine from the one state to the other, whatever
the host answers. -/
def Settles {α : Type} (x : Nat → Exec α) (m : Machine) (a : α) (m' : Machine) : Prop :=
  ∃ least, ∀ bound ≥ least, (x bound m).Settles (.ok a, m')

namespace Settles

variable {α β : Type} {x y : Nat → Exec α} {m m' m'' : Machine} {a : α} {b : β}

theorem pure (a : α) (m : Machine) : Settles (fun _ => Pure.pure a) m a m :=
  ⟨0, fun _ _ => .done⟩

theorem once {x : Exec α} (h : (x m).Settles (.ok a, m')) : Settles (fun _ => x) m a m' :=
  ⟨0, fun _ _ => h⟩

theorem bind {f : Nat → α → Exec β} (h : Settles x m a m') (hnext : Settles (f · a) m' b m'')
    : Settles (fun bound => x bound >>= f bound) m b m'' := by
  obtain ⟨least, h⟩ := h
  obtain ⟨least', hnext⟩ := hnext
  refine ⟨max least least', fun bound hbound => ?_⟩
  obtain ⟨hleast, hleast'⟩ := Nat.max_le.mp hbound
  exact (h bound hleast).bind (hnext bound hleast')

theorem succ (heq : ∀ bound, x (bound + 1) = y bound) (h : Settles y m a m') : Settles x m a m' := by
  obtain ⟨least, h⟩ := h
  refine ⟨least + 1, fun bound hbound => ?_⟩
  obtain ⟨bound, rfl⟩ := Nat.exists_eq_add_of_le' (Nat.le_trans (Nat.le_add_left 1 least) hbound)
  rw [heq]
  exact h bound (Nat.le_of_succ_le_succ hbound)

theorem descend (hm : m.descent < maxDescent) (h : Settles x m.deeper a m'.deeper)
    : Settles (fun bound => Exec.descend (x bound)) m a m' := by
  obtain ⟨least, h⟩ := h
  refine ⟨least, fun bound hbound => ?_⟩
  show Dialog.Settles _ (Exec.descend (x bound) m)
  unfold Exec.descend
  rw [if_neg (Nat.not_le.mpr hm)]
  exact (h bound hbound).bind .done

theorem eval {body : Nat → Exec Value} (heq : ∀ bound, eval (bound + 1) expr = Exec.descend (body bound))
    (hm : m.descent < maxDescent) {value : Value} (h : Settles body m.deeper value m'.deeper)
    : Settles (eval · expr) m value m' :=
  .succ heq (.descend hm h)

theorem exec {body : Nat → Exec Flow} (heq : ∀ bound, exec (bound + 1) stmt = Exec.descend (body bound))
    (hm : m.descent < maxDescent) (h : Settles body m.deeper flow m'.deeper)
    : Settles (exec · stmt) m flow m' :=
  .succ heq (.descend hm h)

end Settles

section Expressions

variable {m m' m'' : Machine} {name : String} {value : Value} {values : List Value}

theorem settles_identifier (hm : m.descent < maxDescent) (hname : m.env.get? name = some value)
    : Settles (eval · (.identifier name)) m value m := by
  have hlookup : Settles (fun _ => identifier name) m.deeper value m.deeper := by
    refine .once ?_
    rw [identifier_of_some (m := m.deeper) hname]
    exact .done
  exact .eval (fun _ => rfl) hm hlookup

theorem settles_isMath (hname : m.env.get? name = some value)
    : Settles (fun _ => isMath (.identifier name)) m false m := by
  by_cases hmath : name = "Math"
  · subst hmath
    have hnone : (m.env.get? "Math").isNone = false := by
      rw [hname]
      rfl
    refine .once ?_
    show Dialog.Settles (.ok false, m) (Dialog.done (Except.ok (m.env.get? "Math").isNone, m))
    rw [hnone]
    exact .done
  · have heq : isMath (.identifier name) = Pure.pure false := by
      unfold isMath
      split
      · next heq =>
        cases heq
        exact absurd rfl hmath
      · rfl
    rw [heq]
    exact .pure false m

theorem settles_member {property : String} {result : Value} (hm : m.descent + 2 ≤ maxDescent)
    (hname : m.env.get? name = some value) (hproperty : value.readProperty property = .ok result)
    : Settles (eval · (.member (.identifier name) property)) m result m := by
  have hholder : Settles (eval · (.identifier name)) m.deeper value m.deeper := settles_identifier hm hname
  refine .eval (fun _ => rfl) (Nat.lt_of_succ_lt hm) ?_
  refine .bind (settles_isMath (m := m.deeper) hname) (.bind hholder ?_)
  simp only [hproperty]
  exact .pure result _

theorem settles_evalItems {items : List Expr}
    (h : List.Forall₂ (fun item value => Settles (eval · item) m value m) items values)
    : Settles (evalItems · items) m values m := by
  induction h with
  | nil => exact .succ (y := fun _ => Pure.pure []) (fun _ => rfl) (.pure [] m)
  | @cons item value items values hvalue _ ih =>
    exact .succ (y := fun bound => do
      let value ← eval bound item
      return value :: (← evalItems bound items)) (fun _ => rfl) (.bind hvalue (.bind ih (.pure _ m)))

theorem settles_evalFields {fields : List (String × Expr)} {results : List (String × Value)}
    (h : List.Forall₂ (fun field result => field.1 = result.1 ∧ Settles (eval · field.2) m result.2 m) fields results)
    : Settles (evalFields · fields) m results m := by
  induction h with
  | nil => exact .succ (y := fun _ => Pure.pure []) (fun _ => rfl) (.pure [] m)
  | @cons field result fields results hfield _ ih =>
    obtain ⟨hkey, hvalue⟩ := hfield
    refine .succ (y := fun bound => do
      let value ← eval bound field.2
      return (field.1, value) :: (← evalFields bound fields)) (fun _ => rfl) (.bind hvalue (.bind ih ?_))
    rw [hkey]
    exact .pure _ m

theorem settles_await {callee : Expr} {arguments : List Expr} (hm : m.descent + 2 ≤ maxDescent)
    (hvalues : Settles (evalItems · arguments) m.deeper.deeper values m')
    (hcall : Settles (call · callee values) m' value m''.deeper.deeper)
    : Settles (eval · (.await (.call callee arguments))) m value m'' := by
  have hinner : Settles (eval · (.call callee arguments)) m.deeper value m''.deeper :=
    .eval (fun _ => rfl) (show m.deeper.descent < maxDescent from hm) (.bind hvalues hcall)
  exact .eval (fun _ => rfl) (Nat.lt_of_succ_lt hm) hinner

theorem settles_call {function : Function} (hfunction : m.function? name = some function)
    (hcalls : m.calls < m.maxCalls) {scope : Scope} (hscope : Scope.ofParams {} function.params values = .ok scope)
    (hbody : Settles (execAll · function.body) (m.inFunction scope) flow (m.inFunction scope))
    : Settles (call · (.identifier name) values) m flow.result m := by
  have hcallFunction : Settles (callFunction · function values) m flow.result m := by
    refine .succ (y := fun bound => calling function.params values do
      return (← execAll bound function.body).result) (fun _ => rfl) ?_
    obtain ⟨least, hbody⟩ := hbody
    refine ⟨least, fun bound hbound => ?_⟩
    show Dialog.Settles _ (calling function.params values _ m)
    unfold calling
    rw [if_neg (Nat.not_le.mpr hcalls), hscope]
    have hresult : ((do return (← execAll bound function.body).result : Exec Value) (m.inFunction scope)).Settles
        (.ok flow.result, m.inFunction scope) := (hbody bound hbound).bind .done
    exact hresult.bind .done
  obtain ⟨least, hcallFunction⟩ := hcallFunction
  refine .succ (y := fun bound => call (bound + 1) (.identifier name) values) (fun _ => rfl) ?_
  refine ⟨least, fun bound hbound => ?_⟩
  show Dialog.Settles _ (call (bound + 1) (.identifier name) values m)
  rw [call, get_bind, hfunction]
  exact hcallFunction bound hbound

end Expressions

section Statements

variable {m m' m'' : Machine} {value : Value}

theorem settles_execAll_nil (m : Machine) : Settles (execAll · []) m .normal m :=
  .succ (y := fun _ => Pure.pure .normal) (fun _ => rfl) (.pure _ m)

theorem settles_execAll_cons {rest : List Stmt} (h : Settles (exec · stmt) m .normal m')
    (hrest : Settles (execAll · rest) m' flow m'') : Settles (execAll · (stmt :: rest)) m flow m'' :=
  .succ (fun bound => execAll_cons_eq bound stmt rest) (.bind h hrest)

theorem settles_execAll_return {rest : List Stmt} (h : Settles (exec · stmt) m (.returned value) m')
    : Settles (execAll · (stmt :: rest)) m (.returned value) m' :=
  .succ (fun bound => execAll_cons_eq bound stmt rest) (.bind h (.pure _ m'))

theorem settles_evalOption (h : Settles (eval · expr) m value m') : Settles (evalOption · (some expr)) m value m' :=
  .succ (fun _ => rfl) h

theorem settles_return (hm : m.descent < maxDescent) (h : Settles (eval · expr) m.deeper value m.deeper)
    : Settles (exec · (.returnValue (some expr))) m (.returned value) m :=
  .exec (fun _ => rfl) hm (.bind (settles_evalOption h) (.pure _ m.deeper))

theorem settles_return_none (hm : m.descent < maxDescent)
    : Settles (exec · (.returnValue none)) m (.returned .undefined) m := by
  have hnone : Settles (evalOption · none) m.deeper .undefined m.deeper :=
    .succ (y := fun _ => Pure.pure .undefined) (fun _ => rfl) (.pure _ m.deeper)
  exact .exec (fun _ => rfl) hm (.bind hnone (.pure _ m.deeper))

theorem settles_expr (hm : m.descent < maxDescent) (h : Settles (eval · expr) m.deeper value m'.deeper)
    : Settles (exec · (.expr expr)) m .normal m' :=
  .exec (fun _ => rfl) hm (.bind h (.pure _ m'.deeper))

theorem settles_declare {name : String} (hm : m.descent < maxDescent)
    (h : Settles (eval · expr) m.deeper value m'.deeper) {env : Env} (henv : m'.env.declare name value = .ok env)
    : Settles (exec · (.declare name (some expr))) m .normal { m' with env } := by
  have hdeclare : Settles (fun _ => declare name value) m'.deeper () { m' with env }.deeper := by
    refine .once ?_
    have heq : declare name value m'.deeper = (ofExcept (m'.env.declare name value) >>= fun env =>
      modify fun m => { m with env } : Exec Unit) m'.deeper := rfl
    rw [heq, henv]
    exact .done
  exact .exec (fun _ => rfl) hm (.bind (settles_evalOption h) (.bind hdeclare (.pure _ _)))

theorem settles_notice {node : String} (hm : m.descent + 4 ≤ maxDescent) (henv : m.env.get? "__onNode" = none)
    (hfunction : m.function? "__onNode" = none)
    : Settles (exec · (.expr (.await (.call (.identifier "__onNode") [.str node])))) m .normal m := by
  let inside := m.deeper.deeper.deeper
  have hinside : inside.descent = m.descent + 3 := rfl
  have hargument : Settles (evalItems · [.str node]) inside [.str node] inside :=
    settles_evalItems (.cons (.eval (fun _ => rfl) (by omega) (.pure _ inside.deeper)) .nil)
  have hnotice : Settles (call · (.identifier "__onNode") [.str node]) inside .undefined inside := by
    refine .succ (y := fun bound => call (bound + 1) (.identifier "__onNode") [.str node]) (fun _ => rfl) ?_
    refine ⟨0, fun bound _ => ?_⟩
    show Dialog.Settles _ (call (bound + 1) (.identifier "__onNode") [.str node] inside)
    rw [call_of_none (m := inside) hfunction]
    show Dialog.Settles _ ((if (m.env.get? "__onNode").isSome then fail (.notAFunction "__onNode") else do
      let _ ← ask (.enter node)
      return .undefined : Exec Value) inside)
    rw [henv]
    exact .ask fun _ => .done
  have hroom : m.deeper.descent + 2 ≤ maxDescent := show m.descent + 1 + 2 ≤ maxDescent by omega
  exact settles_expr (by omega) (settles_await hroom hargument hnotice)

end Statements

end Exec

end NodeScript.Script
