import NodeScript.Proofs.Dialogs
import NodeScript.Proofs.Interpreter

/-!
Jumps that no loop encloses. They make a run fail only where no function encloses them either. A call ends there as if
the function had returned nothing, and the program goes on.
-/

namespace NodeScript.Script

inductive Jump where
  | out
  | on

namespace Jump

def stmt : Jump → Stmt
  | out => .breakLoop
  | on => .continueLoop

def flow : Jump → Flow
  | out => .broke
  | on => .continued

def error : Jump → RuntimeError
  | out => .illegalBreak
  | on => .illegalContinue

end Jump

namespace Exec

/-- Running the statements with this bound and these replies comes to a jump that stands in no loop among them. The
blocks around it are left in the second state. -/
inductive Strays (jump : Jump) : Nat → List Stmt → Machine → List Reply → Machine → Prop where
  | here {m : Machine} (bound : Nat) (hroom : m.descent < maxDescent) (rest : List Stmt)
    : Strays jump (bound + 2) (jump.stmt :: rest) m [] m
  | after {bound : Nat} {stmt : Stmt} {rest : List Stmt} {m m₁ m₂ : Machine} {replies replies' : List Reply}
      (hstmt : (exec bound stmt m).Leads replies (.ok .normal, m₁)) (h : Strays jump bound rest m₁ replies' m₂)
    : Strays jump (bound + 1) (stmt :: rest) m (replies ++ replies') m₂
  | block {bound : Nat} {body : List Stmt} {m m₁ : Machine} {replies : List Reply} (hroom : m.descent < maxDescent)
      (h : Strays jump bound body { m with env := m.env.push, descent := m.descent + 1 } replies m₁) (rest : List Stmt)
    : Strays jump (bound + 2) (.block body :: rest) m replies
        { m₁ with env := m₁.env.pop, descent := m₁.descent - 1 }
  | arm {bound : Nat} {cond : Expr} {test : Value} {body thenBody : List Stmt} {elseBody : Option (List Stmt)}
      {m m₁ m₂ : Machine} {replies replies' : List Reply} (hroom : m.descent < maxDescent)
      (htest : (eval bound cond { m with descent := m.descent + 1 }).Leads replies (.ok test, m₁))
      (harm : (if test.isTruthy then some thenBody else elseBody) = some body)
      (h : Strays jump bound body { m₁ with env := m₁.env.push } replies' m₂) (rest : List Stmt)
    : Strays jump (bound + 2) (.ifElse cond thenBody elseBody :: rest) m (replies ++ replies')
        { m₂ with env := m₂.env.pop, descent := m₂.descent - 1 }

section Steps

variable {α β : Type} {x : Exec α} {m m' : Machine} {replies : List Reply}

theorem leads_bind {f : α → Exec β} {a : α} {replies' : List Reply} {result : Except RuntimeError β × Machine}
    (h : (x m).Leads replies (.ok a, m')) (hnext : (f a m').Leads replies' result)
    : ((x >>= f) m).Leads (replies ++ replies') result :=
  h.bind hnext

theorem leads_bind_done {f : α → Exec β} {a : α} {result : Except RuntimeError β × Machine}
    (h : (x m).Leads replies (.ok a, m')) (hnext : f a m' = .done result) : ((x >>= f) m).Leads replies result := by
  rw [← List.append_nil replies]
  exact leads_bind h (hnext ▸ .done result)

variable {result : Except RuntimeError α}

theorem leads_closing {f : Machine → Machine} (h : (x m).Leads replies (result, m'))
    : (x.closing f m).Leads replies (result, f m') := by
  have hclosed : (x.closing f m).Leads (replies ++ []) _ := h.bind (.done (result, f m'))
  rwa [List.append_nil] at hclosed

theorem leads_descend (hroom : m.descent < maxDescent)
    (h : (x { m with descent := m.descent + 1 }).Leads replies (result, m'))
    : (descend x m).Leads replies (result, { m' with descent := m'.descent - 1 }) := by
  rw [descend, if_neg (Nat.not_le.mpr hroom)]
  exact leads_closing h

theorem leads_inScope (h : (x { m with env := m.env.push }).Leads replies (result, m'))
    : (inScope x m).Leads replies (result, { m' with env := m'.env.pop }) :=
  leads_closing h

end Steps

theorem leads_execAll_of_jump {jump : Jump} {bound : Nat} {stmt : Stmt} {rest : List Stmt} {m m' : Machine}
    {replies : List Reply} (h : (exec bound stmt m).Leads replies (.ok jump.flow, m'))
    : (execAll (bound + 1) (stmt :: rest) m).Leads replies (.ok jump.flow, m') := by
  rw [execAll_cons_eq]
  exact leads_bind_done h (by cases jump <;> rfl)

theorem Strays.leads {jump : Jump} {bound : Nat} {stmts : List Stmt} {m m' : Machine} {replies : List Reply}
    (h : Strays jump bound stmts m replies m') : (execAll bound stmts m).Leads replies (.ok jump.flow, m') := by
  induction h with
  | here _ hroom rest =>
    apply leads_execAll_of_jump
    unfold exec
    cases jump with
    | out => exact leads_descend (x := Pure.pure Flow.broke) hroom (.done _)
    | on => exact leads_descend (x := Pure.pure Flow.continued) hroom (.done _)
  | after hstmt _ ih =>
    rw [execAll_cons_eq]
    exact leads_bind hstmt ih
  | @block _ _ m _ _ hroom _ rest ih =>
    apply leads_execAll_of_jump
    unfold exec
    have hbody := leads_inScope (m := { m with descent := m.descent + 1 }) ih
    exact leads_descend hroom hbody
  | @arm _ _ _ _ _ _ _ _ m₂ _ _ hroom htest harm _ rest ih =>
    apply leads_execAll_of_jump
    unfold exec
    refine leads_descend hroom (leads_bind htest (?_ : Dialog.Leads _ _ (_, { m₂ with env := m₂.env.pop })))
    split at harm
    · next htrue =>
      cases harm
      rw [if_pos htrue]
      exact leads_inScope ih
    · next hfalse =>
      cases harm
      rw [if_neg hfalse]
      exact leads_inScope ih

/-- A jump that no loop encloses makes the run fail if it stands at the level of the program. In a function it does
not: the call ends there and yields `undefined`, and nothing tells that it did not return. -/
theorem strays_outcome (jump : Jump) (bound : Nat) (m m' : Machine) (replies : List Reply)
    : jump.error.family = .grammar
        ∧ (∀ program : Program, Strays jump bound program.body (m.defineAll program.functions) replies m'
          → (run bound program m).Leads replies (.error jump.error, m'))
        ∧ ∀ (function : Function) (args : List Value) (scope : Scope),
          m.calls < m.maxCalls → Scope.ofParams {} function.params args = .ok scope
            → Strays jump bound function.body { m with env := { m.env with locals := [scope] }, calls := m.calls + 1 }
              replies m'
            → (callFunction (bound + 1) function args m).Leads replies
              (.ok .undefined, { m' with env := { m'.env with locals := m.env.locals }, calls := m'.calls - 1 }) := by
  refine ⟨by cases jump <;> rfl, ?_, ?_⟩
  · intro program h
    change Dialog.Leads ((execAll bound program.body >>= _ : Exec Unit) (m.defineAll program.functions)) _ _
    exact leads_bind_done h.leads (by cases jump <;> rfl)
  · intro function args scope hroom hscope h
    rw [callFunction, calling, if_neg (Nat.not_le.mpr hroom), hscope]
    exact leads_closing (leads_bind_done h.leads (by cases jump <;> rfl))

theorem strays_outcome_nested
    : (run 4 ⟨[.ifElse (.bool true) [.breakLoop] none]⟩ (.start none 64)).Leads [] (.error .illegalBreak, .start none 64)
      ∧ (callFunction 5 ⟨[], [.block [.continueLoop]]⟩ [] (.start none 64)).Leads [] (.ok .undefined, .start none 64) := by
  let m : Machine := .start none 64
  let body : Machine := { m with env := ⟨{}, [{}]⟩, calls := 1 }
  have htest : (eval 2 (.bool true) { m with descent := 1 }).Leads [] (.ok (.bool true), { m with descent := 1 }) :=
    .done _
  have htaken : (if Value.isTruthy (.bool true) then some [Stmt.breakLoop] else none) = some [.breakLoop] := rfl
  have hbreak : Strays .out 2 [.breakLoop] { m with env := m.env.push, descent := 1 } [] _ := .here 0 (by decide) []
  have hcontinue : Strays .on 2 [.continueLoop] { body with env := body.env.push, descent := 1 } [] _ :=
    .here 0 (by decide) []
  have harm := Strays.arm (m := m) (by decide) htest htaken hbreak []
  have hblock := Strays.block (m := body) (by decide) hcontinue []
  exact ⟨(strays_outcome .out 4 m m []).2.1 _ harm, (strays_outcome .on 4 m body []).2.2 _ [] {} (by decide) rfl hblock⟩

end Exec

theorem Session.feed_strayBreak
    : let report := (feed 60 ⟨.start none 64, ⟨[], none⟩⟩ "function f() { break; } f(); console.log(1);").1
      report.requests = [.log "1"] ∧ report.outcome = some (.ok ()) :=
  ⟨Request.eq_of_isEqv (by decide +kernel), Dialog.eq_of_isSuccess (by decide +kernel)⟩

end NodeScript.Script
