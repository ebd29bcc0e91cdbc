import NodeScript.Proofs.Congruence
import NodeScript.Proofs.Dialogs

/-!
Programs whose host answers every request do not fail for want of a host.
-/

namespace NodeScript.Script.Exec

def Steady {α : Type} (x : Exec α) : Prop :=
  ∀ m, (x m).Results (· ≠ .disconnected) fun result => result.1 ≠ .error .disconnected

namespace Steady

variable {α β : Type}

theorem bind {x : Exec α} {f : α → Exec β} (h : Steady x) (hnext : ∀ a, Steady (f a)) : Steady (x >>= f) := by
  intro m
  refine (h m).bind ?_
  rintro ⟨a | e, m'⟩ hresult
  · exact .done fun he => hresult (by cases he; rfl)
  · exact hnext _ m'

theorem closing {x : Exec α} (h : Steady x) (f : Machine → Machine) : Steady (x.closing f) :=
  fun m => (h m).bind fun _ hresult => .done hresult

theorem modify (f : Machine → Machine) : Steady (modify f) := fun _ => .done nofun

theorem fail {e : RuntimeError} (h : e ≠ .disconnected) : Steady (fail e : Exec α) :=
  fun _ => .done fun he => h (by cases he; rfl)

theorem ask (request : Request) : Steady (ask request) := by
  refine fun m => .ask ?_
  rintro (text | _) hreply
  · exact .done nofun
  · exact absurd rfl hreply

theorem ofExcept {x : Except RuntimeError α} (h : x ≠ .error .disconnected) : Steady (ofExcept x) := by
  cases x with
  | ok a => exact fun _ => .done nofun
  | error e => exact fail fun he => h (by rw [he])

end Steady

theorem map_ne_error {ε α β : Type} {x : Except ε α} {e : ε} (h : x ≠ .error e) {f : α → β} : f <$> x ≠ .error e := by
  cases x with
  | ok a => exact nofun
  | error e => exact fun he => h (by cases he; rfl)

section Declarations

variable {e : RuntimeError} (he : ∀ name, e ≠ .redeclared name)
include he

theorem declare_ne_error (scope : Scope) (name : String) (value : Value) : scope.declare name value ≠ .error e := by
  unfold Scope.declare
  split
  · exact fun heq => he name (by cases heq; rfl)
  · nofun

theorem ofParams_ne_error (scope : Scope) (params : List String) (args : List Value)
    : scope.ofParams params args ≠ .error e := by
  induction params generalizing scope args with
  | nil => nofun
  | cons param params ih =>
    rw [Scope.ofParams]
    have hdeclare := declare_ne_error he scope param (args.head?.getD .undefined)
    cases hscope : scope.declare param (args.head?.getD .undefined) with
    | ok scope' => exact ih scope' args.tail
    | error e => exact fun he => hdeclare (by rw [hscope]; cases he; rfl)

theorem env_declare_ne_error (env : Env) (name : String) (value : Value) : env.declare name value ≠ .error e := by
  unfold Env.declare
  split
  · exact map_ne_error (declare_ne_error he env.globals name value)
  · exact map_ne_error (declare_ne_error he _ name value)

end Declarations

theorem steady_declare (name : String) (value : Value) : Steady (declare name value) := by
  refine Steady.bind (x := get) (fun _ => .done nofun) fun m => ?_
  exact Steady.bind (Steady.ofExcept (env_declare_ne_error (by nofun) m.env name value)) fun _ => Steady.modify _

theorem relates_steady : Relates fun _ x _ => Steady x where
  exhausted _ := fun _ => .exhausted
  pure _ := fun _ => .done nofun
  bind := Steady.bind
  fail := Steady.fail
  ask := Steady.ask
  lookup? _ := fun _ => .done nofun
  callee _ _ _ h := fun m => h _ m
  assign _ _ := Steady.modify _
  declare := steady_declare
  define _ _ := Steady.modify _
  mathCall name args := by
    refine Steady.bind (x := get) (fun _ => .done nofun) fun m => ?_
    split
    · exact Steady.bind (Steady.modify _) fun _ _ => .done nofun
    · exact Steady.fail nofun
  descend h := by
    intro m
    unfold descend
    split
    · exact .done nofun
    · exact h.closing _ _
  inScope h := fun _ => h.closing _ _
  calling params args _ _ h := by
    intro m
    unfold calling
    split
    · exact .done nofun
    · split
      · rename_i e he
        have hparams : Scope.ofParams {} params args ≠ .error .disconnected := ofParams_ne_error (by nofun) {} params args
        exact .done fun herror => hparams (by rw [he]; cases herror; rfl)
      · exact h.closing _ _

theorem steady_runSource (bound : Nat) (source : String) : Steady (runSource bound source) :=
  relates_steady.respects.runSource (Nat.le_refl bound) source

end NodeScript.Script.Exec
