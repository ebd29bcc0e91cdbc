import NodeScript.Proofs.Bounds
import NodeScript.Proofs.Environment

/-!
Functions neither see nor touch the local scopes of their callers. On machines that hold the same program, a call does
the same whatever local scopes there are, and it leaves these as they were.
-/

namespace NodeScript.Script

variable {m m' : Machine}

structure Env.Alike (env env' : Env) : Prop where
  globals : ∀ name, env'.globals.get? name = env.globals.get? name
  locals : env'.locals = env.locals

namespace Env.Alike

variable {env env' : Env}

theorem get? (h : env.Alike env') (name : String) : env'.get? name = env.get? name := by
  rw [get?_eq, get?_eq, h.locals, h.globals]

theorem push (h : env.Alike env') : env.push.Alike env'.push :=
  ⟨h.globals, congrArg ((∅ : Scope) :: ·) h.locals⟩

theorem pop (h : env.Alike env') : env.pop.Alike env'.pop :=
  ⟨h.globals, congrArg List.tail h.locals⟩

theorem assign (h : env.Alike env') (name : String) (value : Value)
    : (env.assign name value).Alike (env'.assign name value) := by
  unfold Env.assign
  rw [h.locals]
  split
  · exact ⟨h.globals, rfl⟩
  · refine ⟨fun n => ?_, rfl⟩
    rw [Table.get?_insert, Table.get?_insert, h.globals]

theorem declare (h : env.Alike env') (name : String) (value : Value)
    : (∃ e, env.declare name value = .error e ∧ env'.declare name value = .error e)
        ∨ ∃ next next', env.declare name value = .ok next ∧ env'.declare name value = .ok next' ∧ next.Alike next' := by
  unfold Env.declare Scope.declare Table.contains
  rw [h.locals]
  split
  · rw [h.globals]
    split
    · exact .inl ⟨_, rfl, rfl⟩
    · refine .inr ⟨_, _, rfl, rfl, fun n => ?_, rfl⟩
      rw [Table.get?_insert, Table.get?_insert, h.globals]
  · split
    · exact .inl ⟨_, rfl, rfl⟩
    · exact .inr ⟨_, _, rfl, rfl, h.globals, rfl⟩

end Env.Alike

namespace Machine

/-- The machines have the same variables and functions of the program, draw the same random numbers, and have as many
calls and steps in progress. Nothing is said of their local scopes. -/
structure SharesProgram (m m' : Machine) : Prop where
  globals : ∀ name, m'.env.globals.get? name = m.env.globals.get? name
  functions : ∀ name, m'.function? name = m.function? name
  random : m'.random = m.random
  calls : m'.calls = m.calls
  maxCalls : m'.maxCalls = m.maxCalls
  descent : m'.descent = m.descent

theorem SharesProgram.symm (h : m.SharesProgram m') : m'.SharesProgram m where
  globals name := (h.globals name).symm
  functions name := (h.functions name).symm
  random := h.random.symm
  calls := h.calls.symm
  maxCalls := h.maxCalls.symm
  descent := h.descent.symm

structure Alike (m m' : Machine) : Prop extends SharesProgram m m' where
  locals : m'.env.locals = m.env.locals

namespace Alike

variable {m m' : Machine}

theorem env (h : m.Alike m') : m.env.Alike m'.env :=
  ⟨h.globals, h.locals⟩

theorem setEnv (h : m.SharesProgram m') {env env' : Env} (henv : env.Alike env')
    : Alike { m with env } { m' with env := env' } where
  globals := henv.globals
  functions := h.functions
  random := h.random
  calls := h.calls
  maxCalls := h.maxCalls
  descent := h.descent
  locals := henv.locals

theorem define (h : m.Alike m') (name : String) (function : Function)
    : (m.define name function).Alike (m'.define name function) := by
  refine { h with functions := fun n => ?_ }
  unfold Machine.define Machine.function?
  rw [List.lookup_cons, List.lookup_cons]
  split
  · rfl
  · exact h.functions n

end Alike

end Machine

inductive Dialog.Pairs {α β : Type} (rel : α → β → Prop) : Dialog α → Dialog β → Prop where
  | done {a : α} {b : β} (h : rel a b) : Pairs rel (.done a) (.done b)
  | exhausted : Pairs rel .exhausted .exhausted
  | ask {request : Request} {resume : Reply → Dialog α} {resume' : Reply → Dialog β}
      (h : ∀ reply, Pairs rel (resume reply) (resume' reply))
    : Pairs rel (.ask request resume) (.ask request resume')

theorem Dialog.Matches.pairs {α β : Type} {rel : α → β → Prop} {rel' : β → α → Prop} {d : Dialog α} {d' : Dialog β}
    (h : d.Matches True False rel d') (h' : d'.Matches True False rel' d) : d.Pairs rel d' := by
  induction h with
  | left _ d' =>
    cases h' with
    | left => exact .exhausted
    | right h => exact h.elim
  | right h => exact h.elim
  | done h => exact .done h
  | ask _ ih =>
    cases h' with
    | ask h' => exact .ask fun reply => ih reply (h' reply)

namespace Exec

/-- The calls came to the same, the machines hold the same program, and each has the local scopes again that it had
before. -/
structure Returned {α : Type} (m m' : Machine) (result result' : Except RuntimeError α × Machine) : Prop where
  outcome : result'.1 = result.1
  program : result.2.SharesProgram result'.2
  locals : result.2.env.locals = m.env.locals
  locals' : result'.2.env.locals = m'.env.locals

def Echoes (α : Type) (x y : Exec α) : Prop :=
  ∀ m m', m.Alike m' → (x m).Matches True False (fun result result' => result'.1 = result.1 ∧ result.2.Alike result'.2)
    (y m')

namespace Echoes

variable {α β : Type}

theorem pure (a : α) : Echoes α (Pure.pure a) (Pure.pure a) :=
  fun _ _ hm => .done ⟨rfl, hm⟩

theorem fail (e : RuntimeError) : Echoes α (fail e) (fail e) :=
  fun _ _ hm => .done ⟨rfl, hm⟩

theorem ask (request : Request) : Echoes String (ask request) (ask request) := by
  intro m m' hm
  apply Dialog.Matches.ask
  rintro (text | _)
  all_goals exact .done ⟨rfl, hm⟩

theorem modify {f g : Machine → Machine} (h : ∀ m m', m.Alike m' → (f m).Alike (g m'))
    : Echoes Unit (modify f) (modify g) :=
  fun m m' hm => .done ⟨rfl, h m m' hm⟩

theorem bind {x y : Exec α} {f g : α → Exec β} (h : Echoes α x y) (hnext : ∀ a, Echoes β (f a) (g a))
    : Echoes β (x >>= f) (y >>= g) := by
  intro m m' hm
  apply (h m m' hm).bind
  rintro ⟨e | a, n⟩ ⟨_, n'⟩ ⟨rfl, hn⟩
  · exact .done ⟨rfl, hn⟩
  · exact hnext a n n' hn

theorem lookup? (name : String) : Echoes (Option Value) (lookup? name) (lookup? name) :=
  fun _ _ hm => .done ⟨congrArg Except.ok (hm.env.get? name), hm⟩

theorem assign (name : String) (value : Value) : Echoes Unit (assign name value) (assign name value) :=
  modify fun _ _ hm => .setEnv hm.toSharesProgram (hm.env.assign name value)

theorem declare (name : String) (value : Value) : Echoes Unit (declare name value) (declare name value) := by
  intro m m' hm
  change Dialog.Matches _ _ _ ((Exec.ofExcept (m.env.declare name value) >>= _ : Exec Unit) m)
    ((Exec.ofExcept (m'.env.declare name value) >>= _ : Exec Unit) m')
  obtain ⟨e, he, he'⟩ | ⟨env, env', henv, henv', halike⟩ := hm.env.declare name value
  · rw [he, he']
    exact .done ⟨rfl, hm⟩
  · rw [henv, henv']
    exact .done ⟨rfl, .setEnv hm.toSharesProgram halike⟩

theorem mathCall (name : String) (args : List Value) : Echoes Value (mathCall name args) (mathCall name args) := by
  intro m m' hm
  unfold Exec.mathCall
  simp only [Bind.bind, get, Dialog.bind, hm.random]
  cases Builtin.math? name args m.random with
  | none => exact .done ⟨rfl, hm⟩
  | some drawn => exact .done ⟨rfl, { hm with random := rfl }⟩

theorem closing {x y : Exec α} (h : Echoes α x y) {f g : Machine → Machine}
    (hclose : ∀ m m', m.Alike m' → (f m).Alike (g m')) (hm : m.Alike m')
    : (x.closing f m).Matches True False (fun result result' => result'.1 = result.1 ∧ result.2.Alike result'.2)
        (y.closing g m') := by
  apply (h m m' hm).bind
  rintro ⟨r, n⟩ ⟨_, n'⟩ ⟨rfl, hn⟩
  exact .done ⟨rfl, hclose n n' hn⟩

theorem descend {x y : Exec α} (h : Echoes α x y) : Echoes α (descend x) (descend y) := by
  intro m m' hm
  unfold Exec.descend
  rw [hm.descent]
  split
  · exact .done ⟨rfl, hm⟩
  · apply h.closing
    · intro n n' hn
      exact { hn with descent := congrArg (· - 1) hn.descent }
    · exact { hm with descent := rfl }

theorem inScope {x y : Exec α} (h : Echoes α x y) : Echoes α (inScope x) (inScope y) := by
  intro m m' hm
  apply h.closing
  · intro n n' hn
    exact .setEnv hn.toSharesProgram hn.env.pop
  · exact .setEnv hm.toSharesProgram hm.env.push

theorem calling (params : List String) (args : List Value) {x y : Exec α} (h : Echoes α x y) (hm : m.SharesProgram m')
    : (calling params args x m).Matches True False (Returned m m') (calling params args y m') := by
  unfold Exec.calling
  rw [hm.calls, hm.maxCalls]
  split
  · exact .done ⟨rfl, hm, rfl, rfl⟩
  · split
    · exact .done ⟨rfl, hm, rfl, rfl⟩
    · refine Dialog.Matches.bind (h _ _ { hm with calls := rfl, maxCalls := rfl, locals := rfl }) ?_
      rintro ⟨r, n⟩ ⟨_, n'⟩ ⟨rfl, hn⟩
      exact .done ⟨rfl, { hn.toSharesProgram with calls := congrArg (· - 1) hn.calls }, rfl, rfl⟩

end Echoes

theorem relates_echoes : Relates Echoes where
  exhausted _ := fun _ _ _ => .left trivial _
  pure := .pure
  bind := .bind
  fail _ := .fail _
  ask := .ask
  lookup? := .lookup?
  callee name f g h m m' hm := by
    simp only [Bind.bind, get, Dialog.bind, hm.functions name]
    exact h _ m m' hm
  assign := .assign
  declare := .declare
  define _ _ := .modify fun _ _ hm => hm.define _ _
  mathCall := .mathCall
  descend := .descend
  inScope := .inScope
  calling params args _ _ h m m' hm := by
    apply (Echoes.calling params args h hm.toSharesProgram).mono
    intro result result' h
    exact ⟨h.outcome, { h.program with locals := h.locals'.trans (hm.locals.trans h.locals.symm) }⟩

theorem matches_callFunction (bound : Nat) (function : Function) (args : List Value) (h : m.SharesProgram m')
    : (callFunction bound function args m).Matches True False (Returned m m') (callFunction bound function args m') := by
  cases bound with
  | zero => exact .left trivial _
  | succ bound =>
    rw [callFunction]
    apply Echoes.calling
    · exact .bind (relates_echoes.execAll bound function.body) fun _ => .pure _
    · exact h

/-- Functions neither see nor touch the local scopes of their callers. On two machines that hold the same program, but
may have any local scopes, a call asks the same of its host, whatever that replies, and comes to the same value or
failure; the machines then hold the same program again, and each has the local scopes that it had before. -/
theorem callFunction_pairs (bound : Nat) (function : Function) (args : List Value) (m m' : Machine)
    (h : m.SharesProgram m')
    : (callFunction bound function args m).Pairs (Returned m m') (callFunction bound function args m') :=
  (matches_callFunction bound function args h).pairs (matches_callFunction bound function args h.symm)

theorem callFunction_pairs_hiddenLocal
    : let peek : Function :=
        ⟨[], [.assign (.variable "g") .assign (.array [.identifier "g"]), .returnValue (some (.identifier "hidden"))]⟩
      let m : Machine :=
        { Machine.start none 64 with env := ⟨.ofList [("g", .null), ("h", .bool true)], [.ofList [("hidden", .null)]]⟩ }
      let m' : Machine :=
        { Machine.start none 64 with env := ⟨.ofList [("h", .bool true), ("g", .null)], []⟩ }
      m.SharesProgram m' ∧ (callFunction 9 peek [] m).Pairs (Returned m m') (callFunction 9 peek [] m')
        ∧ (((callFunction 9 peek [] m).play ⟨[], none⟩).result.any fun
            | (.error (.undefinedName "hidden"), _) => true
            | _ => false) = true := by
  intro peek m m'
  have hshares : m.SharesProgram m' := by
    refine ⟨fun name => ?_, fun _ => rfl, rfl, rfl, rfl, rfl⟩
    exact Table.get?_eq_of_perm (.swap ..) name
  exact ⟨hshares, callFunction_pairs 9 peek [] m m' hshares, by decide +kernel⟩

end Exec

end NodeScript.Script
