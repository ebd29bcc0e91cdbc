import NodeScript.Proofs.Progress
import NodeScript.Proofs.Unwinding

/-!
The limit on calls decides only whether a run fails for it. A run that does not goes on as before where the limit is
raised. At every point of a run, the counters of its machine tell how many calls, statements and expressions are in
progress. These are within the limits, and a run that fails for one has reached it.
-/

namespace NodeScript.Script

/-- The right dialog asks what the left one asks and ends as that does, on a machine that allows `limit` calls. Nothing
is said of it where the left one is given up or fails for a limit. -/
inductive Dialog.Outlasts {α : Type} (limit : Nat)
    : Dialog (Except RuntimeError α × Machine) → Dialog (Except RuntimeError α × Machine) → Prop where
  | exhausted (d : Dialog (Except RuntimeError α × Machine)) : Outlasts limit .exhausted d
  | overflow (m : Machine) (d : Dialog (Except RuntimeError α × Machine))
    : Outlasts limit (.done (.error .stackOverflow, m)) d
  | done (outcome : Except RuntimeError α) {m : Machine} (h : m.maxCalls ≤ limit)
    : Outlasts limit (.done (outcome, m)) (.done (outcome, { m with maxCalls := limit }))
  | ask {request : Request} {resume resume' : Reply → Dialog (Except RuntimeError α × Machine)}
      (h : ∀ reply, Outlasts limit (resume reply) (resume' reply))
    : Outlasts limit (.ask request resume) (.ask request resume')

namespace Dialog.Outlasts

variable {α β : Type} {limit : Nat} {d d' : Dialog (Except RuntimeError α × Machine)}

theorem bind {f g : Except RuntimeError α × Machine → Dialog (Except RuntimeError β × Machine)}
    (h : d.Outlasts limit d') (hfail : ∀ m, ∃ m', f (.error .stackOverflow, m) = .done (.error .stackOverflow, m'))
    (hnext : ∀ outcome m, m.maxCalls ≤ limit
      → (f (outcome, m)).Outlasts limit (g (outcome, { m with maxCalls := limit })))
    : (d.bind f).Outlasts limit (d'.bind g) := by
  induction h with
  | exhausted => exact .exhausted _
  | overflow m =>
    obtain ⟨m', hm'⟩ := hfail m
    rw [Dialog.bind, hm']
    exact .overflow m' _
  | done outcome h => exact hnext outcome _ h
  | ask _ ih => exact .ask ih

theorem play (h : d.Outlasts limit d') {host : Host} {outcome : Except RuntimeError α} {m : Machine}
    (hresult : (d.play host).result = some (outcome, m)) (houtcome : outcome ≠ .error .stackOverflow)
    : (d'.play host).requests = (d.play host).requests
        ∧ (d'.play host).result = some (outcome, { m with maxCalls := limit }) := by
  induction h generalizing host with
  | exhausted => cases hresult
  | overflow =>
    cases hresult
    exact absurd rfl houtcome
  | done =>
    cases hresult
    exact ⟨rfl, rfl⟩
  | @ask request _ _ _ ih =>
    rw [Dialog.play] at hresult ⊢
    rw [Dialog.play]
    dsimp only at hresult ⊢
    split at hresult
    · next hhears =>
      rw [if_pos hhears, if_pos hhears]
      obtain ⟨hrequests, hresult⟩ := ih _ hresult
      exact ⟨congrArg (request :: ·) hrequests, hresult⟩
    · next hhears =>
      rw [if_neg hhears, if_neg hhears]
      exact ih _ hresult

end Dialog.Outlasts

namespace Exec

def Outlasts (α : Type) (x y : Exec α) : Prop :=
  ∀ m limit, m.maxCalls ≤ limit → (x m).Outlasts limit (y { m with maxCalls := limit })

namespace Outlasts

variable {α β : Type} {x y : Exec α}

theorem bind {f g : α → Exec β} (h : Outlasts α x y) (hnext : ∀ a, Outlasts β (f a) (g a))
    : Outlasts β (x >>= f) (y >>= g) := by
  intro m limit hlimit
  refine (h m limit hlimit).bind (fun m => ⟨m, rfl⟩) ?_
  rintro (e | a) m hm
  · exact .done _ hm
  · exact hnext a m limit hm

theorem closing (h : Outlasts α x y) {f g : Machine → Machine} {m : Machine} {limit : Nat} (hlimit : m.maxCalls ≤ limit)
    (hclose : ∀ m, (f m).maxCalls = m.maxCalls ∧ g { m with maxCalls := limit } = { f m with maxCalls := limit })
    : (x.closing f m).Outlasts limit (y.closing g { m with maxCalls := limit }) := by
  refine (h m limit hlimit).bind (fun m => ⟨f m, rfl⟩) fun outcome m hm => ?_
  change Dialog.Outlasts limit (.done (outcome, f m)) (.done (outcome, g _))
  rw [(hclose m).2]
  exact .done outcome (Nat.le_trans (Nat.le_of_eq (hclose m).1) hm)

theorem relates : Relates Outlasts where
  exhausted _ := fun _ _ _ => .exhausted _
  pure _ := fun _ _ h => .done _ h
  bind := .bind
  fail _ := fun _ _ h => .done _ h
  ask _ := by
    refine fun _ _ h => .ask ?_
    rintro (_ | _)
    all_goals exact .done _ h
  lookup? _ := fun _ _ h => .done _ h
  callee _ _ _ h := fun m limit hlimit => h (m.function? _) m limit hlimit
  assign _ _ := fun _ _ h => .done _ h
  declare name value := by
    intro m limit h
    unfold declare
    rw [get_bind, get_bind]
    cases m.env.declare name value with
    | error e => exact .done _ h
    | ok env => exact .done _ h
  define _ _ := fun _ _ h => .done _ h
  mathCall name args := by
    intro m limit h
    unfold mathCall
    rw [get_bind, get_bind]
    cases Builtin.math? name args m.random with
    | none => exact .done _ h
    | some drawn => exact .done _ h
  descend h := by
    intro m limit hlimit
    unfold descend
    split
    · exact .overflow m _
    · exact h.closing hlimit fun _ => ⟨rfl, rfl⟩
  inScope h := fun _ _ hlimit => h.closing hlimit fun _ => ⟨rfl, rfl⟩
  calling params args _ _ h := by
    intro m limit hlimit
    unfold calling
    split
    · exact .overflow m _
    · next hroom =>
      rw [if_neg fun hle => hroom (Nat.le_trans hlimit hle)]
      cases Scope.ofParams {} params args with
      | error e => exact .done _ hlimit
      | ok scope => exact h.closing hlimit fun _ => ⟨rfl, rfl⟩

end Outlasts

end Exec

def Machine.counters (m : Machine) : Nat × Nat × Nat :=
  (m.maxCalls, m.calls, m.descent)

namespace Exec

section Counters

variable {m m' : Machine}

theorem counters_of_gives {α : Type} {x : Nat → Exec α} {a : α} (h : Gives x m a m')
    (hx : ∀ bound, Leaves Machine.Balanced (x bound)) : m'.counters = m.counters := by
  obtain ⟨bound, replies, h⟩ := h
  have hbalanced := (hx bound m).of_leads h
  rw [Machine.counters, hbalanced.maxCalls, hbalanced.calls, hbalanced.descent]
  rfl

theorem counters_of_holds {cond : Option Expr} (h : Holds cond m m') : m'.counters = m.counters := by
  cases h with
  | always => rfl
  | test hvalue => exact counters_of_gives hvalue fun bound => ((unwound_eval bound).1 _).balanced

theorem counters_of_evaluated {exprs : List Expr} (h : Evaluated exprs m m') : m'.counters = m.counters := by
  induction h with
  | nil => rfl
  | cons h _ ih => exact ih.trans (counters_of_gives h fun bound => ((unwound_eval bound).1 _).balanced)

theorem Starts.counters {activity activity' : Activity} (h : Starts activity m activity' m')
    : m'.counters = m.counters := by
  have hitems {items : List Expr} {values : List Value} {m m' : Machine} (h : Gives (evalItems · items) m values m')
      : m'.counters = m.counters := counters_of_gives h fun bound => ((unwound_eval bound).2.1 items).balanced
  have hoption {stmt : Option Stmt} {m m' : Machine} (h : Gives (execOption · stmt) m () m') : m'.counters = m.counters :=
    counters_of_gives h fun bound =>
      (relates_balanced.upTo bound).execOption (PacedAll.of_le (Nat.le_refl bound)).paced (Stmt.optionAkin_self stmt)
  have hbody {body : List Stmt} {flow : Flow} {m m' : Machine}
      (h : Gives (fun bound => inScope (execAll bound body)) m flow m') : m'.counters = m.counters :=
    counters_of_gives h fun bound => (balanced_execAll bound body).inScope.balanced
  cases h with
  | part _ h | arm _ h => exact (counters_of_evaluated h :)
  | call h | builtin h | log h => exact hitems h
  | body | first | whileLoop | init => rfl
  | rest h => exact counters_of_gives h fun bound => balanced_exec bound _
  | forLoop h => exact (hoption h :)
  | round h => exact (counters_of_holds h :)
  | update h hround => exact (hbody hround).trans (counters_of_holds h)
  | again h hround hupdate => exact (hoption hupdate).trans ((hbody hround).trans (counters_of_holds h))

theorem InProgress.counts {maxCalls : Nat} (hm : m.Resting maxCalls) {first activity : Activity} {stack : List Activity}
    (h : InProgress first m stack activity m')
    : m'.maxCalls = maxCalls ∧ stack.countP (·.isCall) = m'.calls ∧ m'.calls ≤ maxCalls
        ∧ stack.countP (·.isLevel) = m'.descent ∧ m'.descent ≤ maxDescent := by
  induction h with
  | start => exact ⟨hm.maxCalls, hm.calls.symm, hm.calls ▸ Nat.zero_le _, hm.descent.symm, hm.descent ▸ Nat.zero_le _⟩
  | @next stack activity _ m₁ m₂ m' _ hopens hstarts ih =>
    obtain ⟨hmax, hcalls, hlimit, hlevels, hroom⟩ := ih
    have hcounters := hstarts.counters
    simp only [Machine.counters, Prod.mk.injEq] at hcounters
    rw [hcounters.1, hcounters.2.1, hcounters.2.2, List.countP_cons, List.countP_cons, hcalls, hlevels]
    cases activity with
    | expr | stmt =>
      obtain ⟨hdescent, rfl⟩ := Encloses.descend hopens
      exact ⟨hmax, rfl, hlimit, rfl, hdescent⟩
    | call =>
      obtain ⟨hfree, scope, -, rfl⟩ := Encloses.calling hopens
      exact ⟨hmax, rfl, hmax ▸ hfree, rfl, hroom⟩
    | all | loop | request =>
      cases hopens
      exact ⟨hmax, rfl, hlimit, rfl, hroom⟩

end Counters

theorem Activity.Comes.overflow {maxCalls : Nat} (hm : m.Resting maxCalls) {activity : Activity}
    (h : activity.Comes m .overflow)
    : ∃ stack activity' m', InProgress activity m stack activity' m'
        ∧ (activity'.isCall ∧ stack.countP (·.isCall) = maxCalls
          ∨ activity'.isLevel ∧ stack.countP (·.isLevel) = maxDescent) := by
  obtain ⟨stack, activity', m', hprogress, hshows⟩ := h
  obtain ⟨hmax, hcalls, hlimit, hlevels, hroom⟩ := hprogress.counts hm
  refine ⟨stack, activity', m', hprogress, ?_⟩
  cases activity' with
  | expr | stmt => exact .inr ⟨rfl, hlevels.trans (Nat.le_antisymm hroom hshows.2)⟩
  | call => exact .inl ⟨rfl, hcalls.trans (Nat.le_antisymm hlimit (hmax ▸ hshows.2))⟩
  | request => exact nomatch hshows
  | _ => exact hshows.elim

/-- Where the limit on calls is raised, a run that does not fail for a limit asks the same of its host and ends in the
same way, with the same variables and functions. All that a run asks it asks at a point of it. At every point, the
calls, statements and expressions that are in progress are as many as its machine counts, and within the limits. A run
fails for a limit only at a point where as many are in progress. -/
theorem run_raised (program : Program) (m : Machine)
    : (∀ limit bound host outcome m', m.maxCalls ≤ limit → ((run bound program m).play host).result = some (outcome, m')
        → outcome ≠ .error .stackOverflow
        → ((run bound program { m with maxCalls := limit }).play host).requests = ((run bound program m).play host).requests
          ∧ ((run bound program { m with maxCalls := limit }).play host).result
            = some (outcome, { m' with maxCalls := limit }))
      ∧ (∀ bound host, ∀ request ∈ ((run bound program m).play host).requests,
          ∃ stack m', InProgress (.all program.body) (m.defineAll program.functions) stack (.request request) m')
      ∧ ∀ maxCalls, m.Resting maxCalls
        → (∀ stack activity m', InProgress (.all program.body) (m.defineAll program.functions) stack activity m'
            → stack.countP (·.isCall) = m'.calls ∧ m'.calls ≤ maxCalls
              ∧ stack.countP (·.isLevel) = m'.descent ∧ m'.descent ≤ maxDescent)
          ∧ ∀ bound host m', ((run bound program m).play host).result = some (.error .stackOverflow, m')
            → ∃ stack activity m', InProgress (.all program.body) (m.defineAll program.functions) stack activity m'
              ∧ (activity.isCall ∧ stack.countP (·.isCall) = maxCalls
                ∨ activity.isLevel ∧ stack.countP (·.isLevel) = maxDescent) := by
  refine ⟨?_, ?_, ?_⟩
  · intro limit bound host outcome m' hlimit hresult houtcome
    exact (Outlasts.relates.run bound program m limit hlimit).play hresult houtcome
  · intro bound host request hrequest
    exact (((traced_run bound program m).play host).1 request hrequest).request
  · intro maxCalls hm
    have hstart : (m.defineAll program.functions).Resting maxCalls := by
      rw [Machine.defineAll_eq]
      exact ⟨hm.locals, hm.calls, hm.descent, hm.maxCalls⟩
    refine ⟨fun stack activity m' hprogress => (hprogress.counts hstart).2, fun bound host m' hresult => ?_⟩
    exact (((traced_run bound program m).play host).2 _ hresult rfl).overflow hstart

theorem run_raised_call
    : let call : Expr := .call (.identifier "f") []
      let program : Program := ⟨[.expr call, .function "f" [] []]⟩
      ((run 9 program (.start none 64)).play ⟨[], none⟩).result.isSome = true
        ∧ ∃ m', InProgress (.all program.body) ((Machine.start none 1).defineAll program.functions)
            [.call ⟨[], []⟩ [], .expr call, .stmt (.expr call), .all program.body] (.all []) m'
          ∧ m'.calls = 1 ∧ m'.descent = 2 := by
  intro call program
  let m := (Machine.start none 1).defineAll program.functions
  obtain ⟨hraised, -, hcounts⟩ := run_raised program (.start none 1)
  have hstmt : InProgress (.all program.body) m _ (.stmt (.expr call)) m := .next .start rfl (.first _ _ _)
  have hexpr : InProgress _ m _ (.expr call) m.deeper :=
    hstmt.next (encloses_descend (by decide)) (.part rfl (.nil _))
  have hcall : InProgress _ m _ (.call ⟨[], []⟩ []) m.deeper.deeper :=
    hexpr.next (encloses_descend (by decide)) (.call ⟨1, [], .done _⟩ rfl)
  have hbody : InProgress _ m _ (.all []) (m.deeper.deeper.inFunction {}) :=
    hcall.next (encloses_calling (by decide) rfl) (.body ⟨[], []⟩ [] _)
  obtain ⟨hcalls, -, hlevels, -⟩ := (hcounts 1 ⟨rfl, rfl, rfl, rfl⟩).1 _ _ _ hbody
  refine ⟨?_, _, hbody, hcalls.symm, hlevels.symm⟩
  exact congrArg Option.isSome (hraised 64 9 ⟨[], none⟩ (.ok ()) _ (by decide) rfl nofun).2

end Exec

end NodeScript.Script
