import NodeScript.Proofs.Unwinding

/-!
How long arrays get. Programs make them longer by writing to elements and by appending, both up to the same limit, and
they write them down as literals of any length. So no array that a program meets is longer than that limit and all its
literals.
-/

namespace NodeScript.Script

open List

variable {limit : Nat}

mutual

def Value.longest : Value → Nat
  | .array items => max items.length (Value.longestOf items)
  | .object fields => Value.longestIn fields
  | .undefined | .null | .bool _ | .number _ | .str _ => 0

def Value.longestOf : List Value → Nat
  | [] => 0
  | item :: rest => max item.longest (Value.longestOf rest)

def Value.longestIn : List (String × Value) → Nat
  | [] => 0
  | (_, value) :: rest => max value.longest (Value.longestIn rest)

end

mutual

def Expr.longest : Expr → Nat
  | .number _ | .str _ | .bool _ | .undefined | .null | .identifier _ => 0
  | .array items => max items.length (Expr.longestOf items)
  | .object fields => Expr.longestIn fields
  | .unary _ operand | .member operand _ | .await operand => operand.longest
  | .binary _ left right | .logical _ left right | .index left right => max left.longest right.longest
  | .call callee arguments => max callee.longest (Expr.longestOf arguments)

def Expr.longestOf : List Expr → Nat
  | [] => 0
  | item :: rest => max item.longest (Expr.longestOf rest)

def Expr.longestIn : List (String × Expr) → Nat
  | [] => 0
  | (_, field) :: rest => max field.longest (Expr.longestIn rest)

end

def Expr.longestOption : Option Expr → Nat
  | none => 0
  | some expr => expr.longest

def Target.longest : Target → Nat
  | .variable _ => 0
  | .element _ position => position.longest

mutual

def Stmt.longest : Stmt → Nat
  | .declare _ value | .returnValue value => Expr.longestOption value
  | .assign target _ value => max target.longest value.longest
  | .expr value => value.longest
  | .ifElse cond thenBody none => max cond.longest (Stmt.longestOf thenBody)
  | .ifElse cond thenBody (some elseBody) =>
    max cond.longest (max (Stmt.longestOf thenBody) (Stmt.longestOf elseBody))
  | .whileLoop cond body => max cond.longest (Stmt.longestOf body)
  | .forLoop init cond update body =>
    max (max (Stmt.longestOption init) (Expr.longestOption cond))
      (max (Stmt.longestOption update) (Stmt.longestOf body))
  | .breakLoop | .continueLoop => 0
  | .block body | .function _ _ body => Stmt.longestOf body

def Stmt.longestOf : List Stmt → Nat
  | [] => 0
  | stmt :: rest => max stmt.longest (Stmt.longestOf rest)

def Stmt.longestOption : Option Stmt → Nat
  | none => 0
  | some stmt => stmt.longest

end

def Request.longest : Request → Nat
  | .update _ value => value.longest
  | .log _ | .prompt _ | .enter _ => 0

def longestLiteral (source : String) : Nat :=
  match Program.parse source with
  | .ok program => Stmt.longestOf program.body
  | .error _ => 0

variable {value holder : Value} {name : String} {args items : List Value} {scope : Scope}
  {fields : List (String × Value)} {f : Value → Value} {function : Function}

namespace Value

variable {limit : Nat}

theorem longestOf_le_iff : longestOf items ≤ limit ↔ ∀ item ∈ items, item.longest ≤ limit := by
  induction items with
  | nil => simp [longestOf]
  | cons item rest ih => rw [longestOf, Nat.max_le, ih, forall_mem_cons]

theorem longestIn_le_iff : longestIn fields ≤ limit ↔ ∀ field ∈ fields, field.2.longest ≤ limit := by
  induction fields with
  | nil => simp [longestIn]
  | cons field rest ih => rw [longestIn, Nat.max_le, ih, forall_mem_cons]

theorem longest_array_le_iff
    : (array items).longest ≤ limit ↔ items.length ≤ limit ∧ ∀ item ∈ items, item.longest ≤ limit := by
  rw [longest, Nat.max_le, longestOf_le_iff]

theorem longest_of_lookup (h : longestIn fields ≤ limit) (hlookup : fields.lookup name = some value)
    : value.longest ≤ limit := by
  obtain ⟨before, after, rfl, -⟩ := lookup_eq_some_iff.mp hlookup
  rw [longestIn_le_iff] at h
  exact h (name, value) (by simp)

theorem longest_getD {found : Option Value} (h : ∀ value, found = some value → value.longest ≤ limit)
    : (found.getD undefined).longest ≤ limit := by
  cases found with
  | none => exact Nat.zero_le _
  | some value => exact h value rfl

theorem longest_readProperty (h : holder.longest ≤ limit) (hread : holder.readProperty name = .ok value)
    : value.longest ≤ limit := by
  cases holder with
  | array items | str s =>
    cases hread
    split <;> exact Nat.zero_le _
  | object fields =>
    cases hread
    exact longest_getD fun _ hfield => longest_of_lookup h hfield
  | undefined | null => cases hread
  | bool | number =>
    cases hread
    exact Nat.zero_le _

theorem longest_readElement {index : Value} (h : holder.longest ≤ limit)
    (hread : holder.readElement index = .ok value) : value.longest ≤ limit := by
  cases holder with
  | array items =>
    cases hread
    apply longest_getD
    intro value hitem
    obtain ⟨i, -, hget⟩ := Option.bind_eq_some_iff.mp hitem
    exact (longest_array_le_iff.mp h).2 value (mem_of_getElem? hget)
  | str s =>
    cases hread
    cases index.position?.bind fun i => s.toList[i]? <;> exact Nat.zero_le _
  | object fields =>
    cases hread
    exact longest_getD fun _ hfield => longest_of_lookup h hfield
  | undefined | null => cases hread
  | bool | number =>
    cases hread
    exact Nat.zero_le _

theorem longestIn_updateField (hf : ∀ value, value.longest ≤ limit → (f value).longest ≤ limit)
    (h : longestIn fields ≤ limit) (name : String)
    : longestIn (updateField name f fields) ≤ limit := by
  induction fields with
  | nil =>
    have hnew := hf undefined (Nat.zero_le _)
    simpa [updateField, longestIn] using hnew
  | cons field rest ih =>
    rw [longestIn, Nat.max_le] at h
    rw [updateField]
    split
    · exact Nat.max_le.mpr ⟨hf _ h.1, h.2⟩
    · exact Nat.max_le.mpr ⟨h.1, ih h.2⟩

theorem longest_updateItem (hf : ∀ value, value.longest ≤ limit → (f value).longest ≤ limit)
    (h : (array items).longest ≤ limit) {i : Nat} (hi : i < items.length ∨ i < limit)
    : (array (updateItem i f items)).longest ≤ limit := by
  obtain ⟨hlength, hitems⟩ := longest_array_le_iff.mp h
  rw [longest_array_le_iff]
  unfold updateItem
  constructor
  · rw [length_modify, length_append, length_replicate]
    omega
  · have hfilled : ∀ item ∈ items ++ List.replicate (i + 1 - items.length) undefined, item.longest ≤ limit := by
      rw [forall_mem_append]
      refine ⟨hitems, fun item hitem => ?_⟩
      rw [eq_of_mem_replicate hitem]
      exact Nat.zero_le _
    intro item hitem
    obtain ⟨j, hj, rfl⟩ := mem_iff_getElem.mp hitem
    rw [getElem_modify]
    split
    · exact hf _ (hfilled _ (getElem_mem _))
    · exact hfilled _ (getElem_mem _)

theorem longest_updateElement {index : Value} (hlimit : maxArrayLength ≤ limit)
    (hf : ∀ value, value.longest ≤ limit → (f value).longest ≤ limit) (h : holder.longest ≤ limit)
    (hupdate : holder.updateElement index name f = .ok value) : value.longest ≤ limit := by
  unfold updateElement at hupdate
  split at hupdate
  · split at hupdate
    · cases hupdate
    · split at hupdate
      · cases hupdate
      · cases hupdate
        apply longest_updateItem hf h
        omega
  · cases hupdate
    exact longestIn_updateField hf h _
  · cases hupdate

theorem Method.longest_call {method : Method} (hlimit : maxArrayLength ≤ limit) (h : holder.longest ≤ limit)
    (hargs : longestOf args ≤ limit) {updated result : Value}
    (hcall : method.call name holder args = .ok (updated, result))
    : updated.longest ≤ limit ∧ result.longest ≤ limit := by
  unfold call at hcall
  split at hcall
  · obtain ⟨hlength, hitems⟩ := longest_array_le_iff.mp h
    split at hcall
    · split at hcall
      · cases hcall
      · next hroom =>
        cases hcall
        refine ⟨longest_array_le_iff.mpr ⟨?_, ?_⟩, Nat.zero_le _⟩
        · rw [length_append]
          omega
        · exact forall_mem_append.mpr ⟨hitems, longestOf_le_iff.mp hargs⟩
    · cases hcall
      refine ⟨longest_array_le_iff.mpr ⟨?_, ?_⟩, longest_getD ?_⟩
      · rw [length_dropLast]
        omega
      · exact fun item hitem => hitems item (dropLast_subset _ hitem)
      · exact fun value hlast => hitems value (mem_of_getLast? hlast)
  · cases hcall

end Value

theorem UnaryOp.longest_apply (op : UnaryOp) (operand : Value) : (op.apply operand).longest = 0 := by
  cases op <;> rfl

theorem BinaryOp.longest_apply (op : BinaryOp) (left right : Value) : (op.apply left right).longest = 0 := by
  cases op with
  | add =>
    unfold apply
    dsimp only
    split <;> rfl
  | less | lessEqual | greater | greaterEqual =>
    rw [apply]
    unfold Value.compareWith
    split <;> rfl
  | _ => rfl

theorem AssignOp.longest_apply (op : AssignOp) (h : value.longest ≤ limit) (current : Value)
    : (op.apply current value).longest ≤ limit := by
  cases op with
  | assign => exact h
  | add | subtract =>
    rw [apply, BinaryOp.longest_apply]
    exact Nat.zero_le _

theorem Builtin.longest_convert? (h : convert? name args = some value) : value.longest = 0 := by
  unfold convert? at h
  split at h <;> cases h <;> rfl

/-- No variable holds an array that is longer than the limit, and no function has a literal that is. -/
structure Machine.Bounded (limit : Nat) (m : Machine) : Prop where
  globals : Value.longestIn m.env.globals.entries ≤ limit
  locals : ∀ scope ∈ m.env.locals, Value.longestIn scope.entries ≤ limit
  functions : ∀ function ∈ m.functions, Stmt.longestOf function.2.body ≤ limit

theorem Scope.longestIn_insert (h : Value.longestIn scope.entries ≤ limit) (name : String)
    (hvalue : value.longest ≤ limit) : Value.longestIn (scope.insert name value).entries ≤ limit := by
  rw [Value.longestIn_le_iff] at h ⊢
  intro entry hentry
  obtain rfl | hold := Table.eq_or_mem_of_mem_insertEntry hentry
  · exact hvalue
  · exact h entry hold

theorem Scope.longestIn_ofParams {scope' : Scope} (h : Value.longestIn scope.entries ≤ limit) {params : List String}
    (hargs : Value.longestOf args ≤ limit) (hparams : Scope.ofParams scope params args = .ok scope')
    : Value.longestIn scope'.entries ≤ limit := by
  induction params generalizing scope args with
  | nil =>
    cases hparams
    exact h
  | cons param params ih =>
    rw [Scope.ofParams] at hparams
    rw [Value.longestOf_le_iff] at hargs
    have harg : (args.head?.getD .undefined).longest ≤ limit :=
      Value.longest_getD fun value hvalue => hargs value (mem_of_head? hvalue)
    cases hdeclare : scope.declare param (args.head?.getD .undefined) with
    | error e =>
      rw [hdeclare] at hparams
      cases hparams
    | ok next =>
      rw [hdeclare] at hparams
      obtain ⟨-, rfl⟩ := Scope.declare_eq_ok hdeclare
      apply ih (longestIn_insert h param harg) _ hparams
      exact Value.longestOf_le_iff.mpr fun value hvalue => hargs value (mem_of_mem_tail hvalue)

namespace Machine.Bounded

variable {limit : Nat} {m : Machine}

theorem get? (h : m.Bounded limit) (hget : m.env.get? name = some value) : value.longest ≤ limit := by
  rw [Env.get?_eq, Option.or_eq_some_iff] at hget
  obtain hlocal | ⟨-, hglobal⟩ := hget
  · obtain ⟨scope, hscope, hfound⟩ := exists_of_findSome?_eq_some hlocal
    exact Value.longest_of_lookup (h.locals scope hscope) hfound
  · exact Value.longest_of_lookup h.globals hglobal

theorem updateLocals {scopes : List Scope} (h : ∀ scope ∈ scopes, Value.longestIn scope.entries ≤ limit) (name : String)
    (hvalue : value.longest ≤ limit)
    : ∀ scope ∈ Env.updateLocals name value scopes, Value.longestIn scope.entries ≤ limit := by
  induction scopes with
  | nil => exact h
  | cons scope rest ih =>
    rw [forall_mem_cons] at h
    rw [Env.updateLocals]
    split
    · exact forall_mem_cons.mpr ⟨Scope.longestIn_insert h.1 name hvalue, h.2⟩
    · exact forall_mem_cons.mpr ⟨h.1, ih h.2⟩

theorem assign (h : m.Bounded limit) (name : String) (hvalue : value.longest ≤ limit)
    : Bounded limit { m with env := m.env.assign name value } := by
  unfold Env.assign
  split
  · exact ⟨h.globals, updateLocals h.locals name hvalue, h.functions⟩
  · exact ⟨Scope.longestIn_insert h.globals name hvalue, h.locals, h.functions⟩

theorem declare (h : m.Bounded limit) (hvalue : value.longest ≤ limit) {env : Env}
    (hdeclare : m.env.declare name value = .ok env) : Bounded limit { m with env } := by
  obtain ⟨-, -, rfl⟩ | ⟨scope, rest, hlocals, -, rfl⟩ := Env.declare_eq_ok hdeclare
  · exact ⟨Scope.longestIn_insert h.globals name hvalue, h.locals, h.functions⟩
  · have hscopes := h.locals
    rw [hlocals, forall_mem_cons] at hscopes
    exact ⟨h.globals, forall_mem_cons.mpr ⟨Scope.longestIn_insert hscopes.1 name hvalue, hscopes.2⟩, h.functions⟩

theorem define (h : m.Bounded limit) (name : String) (hfunction : Stmt.longestOf function.body ≤ limit)
    : (m.define name function).Bounded limit :=
  ⟨h.globals, h.locals, forall_mem_cons.mpr ⟨hfunction, h.functions⟩⟩

theorem defineAll (h : m.Bounded limit) {functions : List (String × Function)}
    (hfunctions : ∀ function ∈ functions, Stmt.longestOf function.2.body ≤ limit)
    : (m.defineAll functions).Bounded limit := by
  induction functions generalizing m with
  | nil => exact h
  | cons function rest ih =>
    rw [forall_mem_cons] at hfunctions
    exact ih (h.define function.1 hfunctions.1) hfunctions.2

theorem function? (h : m.Bounded limit) (hfound : m.function? name = some function)
    : Stmt.longestOf function.body ≤ limit := by
  obtain ⟨before, after, heq, -⟩ := lookup_eq_some_iff.mp hfound
  exact h.functions (name, function) (by rw [heq]; simp)

end Machine.Bounded

namespace Exec

def Confines {α : Type} (limit : Nat) (P : α → Prop) (x : Exec α) : Prop :=
  ∀ m, m.Bounded limit → (x m).Always (·.longest ≤ limit) fun result =>
    result.2.Bounded limit ∧ ∀ a, result.1 = .ok a → P a

namespace Confines

variable {α β : Type} {limit : Nat} {P : α → Prop} {Q : β → Prop} {x : Exec α}

theorem pure {a : α} (h : P a) : Confines limit P (Pure.pure a : Exec α) := by
  refine fun m hm => .done ⟨hm, ?_⟩
  rintro _ ⟨⟩
  exact h

theorem fail (e : RuntimeError) : Confines limit P (fail e : Exec α) :=
  fun _ hm => .done ⟨hm, nofun⟩

theorem exhausted : Confines limit P (exhausted : Exec α) :=
  fun _ _ => .exhausted

theorem get : Confines limit (Machine.Bounded limit) get := by
  refine fun m hm => .done ⟨hm, ?_⟩
  rintro _ ⟨⟩
  exact hm

theorem modify {f : Machine → Machine} (h : ∀ m, m.Bounded limit → (f m).Bounded limit)
    : Confines limit (fun _ => True) (modify f) :=
  fun m hm => .done ⟨h m hm, fun _ _ => trivial⟩

theorem ask {request : Request} (h : request.longest ≤ limit) : Confines limit (fun _ => True) (ask request) := by
  refine fun m hm => .ask h ?_
  rintro (text | _)
  · exact .done ⟨hm, fun _ _ => trivial⟩
  · exact .done ⟨hm, nofun⟩

theorem ofExcept {x : Except RuntimeError α} (h : ∀ a, x = .ok a → P a) : Confines limit P (ofExcept x) := by
  cases x with
  | ok a => exact pure (h a rfl)
  | error e => apply fail

theorem bind {f : α → Exec β} (h : Confines limit P x) (hnext : ∀ a, P a → Confines limit Q (f a))
    : Confines limit Q (x >>= f) := by
  intro m hm
  apply (h m hm).bind
  rintro ⟨e | a, m'⟩ ⟨hm', ha⟩
  · exact .done ⟨hm', nofun⟩
  · exact hnext a (ha a rfl) m' hm'

theorem lookup? (name : String)
    : Confines limit (fun found => ∀ value, found = some value → value.longest ≤ limit) (lookup? name) :=
  bind get fun _ hm => pure fun _ hvalue => hm.get? hvalue

theorem lookup (name : String) : Confines limit (·.longest ≤ limit) (lookup name) := by
  apply bind (lookup? name)
  rintro (_ | value) h
  · apply fail
  · exact pure (h value rfl)

theorem assign (name : String) (h : value.longest ≤ limit) : Confines limit (fun _ => True) (assign name value) :=
  modify fun _ hm => hm.assign name h

theorem declare (name : String) (h : value.longest ≤ limit) : Confines limit (fun _ => True) (declare name value) := by
  intro m hm
  change Dialog.Always _ _ ((Exec.ofExcept (m.env.declare name value) >>= _ : Exec Unit) m)
  cases hdeclare : m.env.declare name value with
  | error e => exact .done ⟨hm, nofun⟩
  | ok env => exact .done ⟨hm.declare h hdeclare, fun _ _ => trivial⟩

theorem mathCall (name : String) (args : List Value) : Confines limit (·.longest ≤ limit) (mathCall name args) := by
  apply bind get
  intro m _
  split
  · exact bind (modify fun _ hm => ⟨hm.globals, hm.locals, hm.functions⟩) fun _ _ => pure (Nat.zero_le _)
  · apply fail

theorem constant (name : String) : Confines limit (·.longest ≤ limit) (constant name) := by
  unfold Exec.constant
  split
  any_goals exact pure (Nat.zero_le _)
  · apply fail

theorem identifier (name : String) : Confines limit (·.longest ≤ limit) (identifier name) := by
  apply bind (lookup? name)
  rintro (_ | value) h
  · apply constant
  · exact pure (h value rfl)

theorem isMath (holder : Expr) : Confines limit (fun _ => True) (isMath holder) := by
  unfold Exec.isMath
  split
  · exact bind (lookup? _) fun _ _ => pure trivial
  · exact pure trivial

theorem mathConstant (property : String) : Confines limit (·.longest ≤ limit) (mathConstant property) := by
  unfold Exec.mathConstant
  split
  · exact pure (Nat.zero_le _)
  · apply fail

theorem builtinCall (name : String) (h : Value.longestOf args ≤ limit)
    : Confines limit (·.longest ≤ limit) (builtinCall name args) := by
  apply bind (lookup? name)
  intro found _
  split
  · apply fail
  · split
    any_goals exact bind (ask (Nat.zero_le _)) fun _ _ => pure (Nat.zero_le _)
    · refine bind (ask ?_) fun _ _ => pure (Nat.zero_le _)
      exact Value.longest_getD fun value hvalue => Value.longestOf_le_iff.mp h value (mem_of_getElem? hvalue)
    · split
      · next hconvert => exact pure (Builtin.longest_convert? hconvert ▸ Nat.zero_le _)
      · apply fail

theorem closing {f : Machine → Machine} {m : Machine} (h : Confines limit P x) (hm : m.Bounded limit)
    (hclose : ∀ m, m.Bounded limit → (f m).Bounded limit)
    : (x.closing f m).Always (·.longest ≤ limit) fun result => result.2.Bounded limit ∧ ∀ a, result.1 = .ok a → P a :=
  (h m hm).bind fun result hresult => .done ⟨hclose result.2 hresult.1, hresult.2⟩

theorem descend (h : Confines limit P x) : Confines limit P (descend x) := by
  intro m hm
  unfold Exec.descend
  split
  · exact .done ⟨hm, nofun⟩
  · apply h.closing
    · exact ⟨hm.globals, hm.locals, hm.functions⟩
    · exact fun m hm => ⟨hm.globals, hm.locals, hm.functions⟩

theorem inScope (h : Confines limit P x) : Confines limit P (inScope x) := by
  intro m hm
  apply h.closing
  · exact ⟨hm.globals, forall_mem_cons.mpr ⟨Nat.zero_le _, hm.locals⟩, hm.functions⟩
  · exact fun m hm => ⟨hm.globals, fun scope hscope => hm.locals scope (mem_of_mem_tail hscope), hm.functions⟩

theorem calling (h : Confines limit P x) (params : List String) (hargs : Value.longestOf args ≤ limit)
    : Confines limit P (calling params args x) := by
  intro m hm
  unfold Exec.calling
  split
  · exact .done ⟨hm, nofun⟩
  · split
    · exact .done ⟨hm, nofun⟩
    · next scope hscope =>
      have hparams := Scope.longestIn_ofParams (Nat.zero_le limit) hargs hscope
      apply h.closing
      · exact ⟨hm.globals, forall_mem_singleton.mpr hparams, hm.functions⟩
      · exact fun after hafter => ⟨hafter.globals, hm.locals, hafter.functions⟩

section Writes

variable (hlimit : Value.maxArrayLength ≤ limit)
include hlimit

theorem store (target : Target) (position : Value) (op : AssignOp) (h : value.longest ≤ limit)
    : Confines limit (fun _ => True) (store target position op value) := by
  unfold Exec.store
  split
  · split
    · exact bind (lookup _) fun current _ => assign _ (op.longest_apply h current)
    · exact assign _ h
  · refine bind (lookup _) fun holder hholder => bind (ofExcept ?_) fun updated hupdated => assign _ hupdated
    exact fun _ => Value.longest_updateElement hlimit (fun current _ => op.longest_apply h current) hholder

theorem methodCall (name : String) (method : Value.Method) (h : Value.longestOf args ≤ limit)
    : Confines limit (·.longest ≤ limit) (methodCall name method args) := by
  apply bind (lookup name)
  intro holder hholder
  apply bind (ofExcept fun result hcall => Value.Method.longest_call hlimit hholder h hcall)
  rintro ⟨updated, result⟩ ⟨hupdated, hresult⟩
  exact bind (assign name hupdated) fun _ _ => pure hresult

end Writes

end Confines

end Exec

def Flow.longest : Flow → Nat
  | .returned value => value.longest
  | .normal | .broke | .continued => 0

theorem Flow.longest_result {flow : Flow} (h : flow.longest ≤ limit) : flow.result.longest ≤ limit := by
  cases flow with
  | returned value => exact h
  | _ => exact Nat.zero_le _

theorem Stmt.longestOf_le_iff {stmts : List Stmt}
    : Stmt.longestOf stmts ≤ limit ↔ ∀ stmt ∈ stmts, stmt.longest ≤ limit := by
  induction stmts with
  | nil => simp [longestOf]
  | cons stmt rest ih => rw [longestOf, Nat.max_le, ih, forall_mem_cons]

namespace Exec

structure ConfinesUpTo (limit bound : Nat) : Prop where
  eval {expr : Expr} (h : expr.longest ≤ limit) : Confines limit (·.longest ≤ limit) (eval bound expr)
  evalItems {items : List Expr} (h : Expr.longestOf items ≤ limit)
    : Confines limit (fun values => values.length = items.length ∧ Value.longestOf values ≤ limit) (evalItems bound items)
  evalFields {fields : List (String × Expr)} (h : Expr.longestIn fields ≤ limit)
    : Confines limit (Value.longestIn · ≤ limit) (evalFields bound fields)
  call {callee : Expr} (h : callee.longest ≤ limit) {args : List Value} (hargs : Value.longestOf args ≤ limit)
    : Confines limit (·.longest ≤ limit) (call bound callee args)
  callFunction {function : Function} (h : Stmt.longestOf function.body ≤ limit) {args : List Value}
      (hargs : Value.longestOf args ≤ limit)
    : Confines limit (·.longest ≤ limit) (callFunction bound function args)
  exec {stmt : Stmt} (h : stmt.longest ≤ limit) : Confines limit (·.longest ≤ limit) (exec bound stmt)
  evalOption {expr : Option Expr} (h : Expr.longestOption expr ≤ limit)
    : Confines limit (·.longest ≤ limit) (evalOption bound expr)
  execOption {stmt : Option Stmt} (h : Stmt.longestOption stmt ≤ limit)
    : Confines limit (fun _ => True) (execOption bound stmt)
  execAll {stmts : List Stmt} (h : Stmt.longestOf stmts ≤ limit)
    : Confines limit (·.longest ≤ limit) (execAll bound stmts)
  execLoop {cond : Option Expr} (hcond : Expr.longestOption cond ≤ limit) {update : Option Stmt}
      (hupdate : Stmt.longestOption update ≤ limit) {body : List Stmt} (hbody : Stmt.longestOf body ≤ limit)
    : Confines limit (·.longest ≤ limit) (execLoop bound cond update body)

theorem confinesUpTo_zero (limit : Nat) : ConfinesUpTo limit 0 where
  eval _ := .exhausted
  evalItems _ := .exhausted
  evalFields _ := .exhausted
  call _ _ _ := .exhausted
  callFunction _ _ _ := .exhausted
  exec _ := .exhausted
  evalOption _ := .exhausted
  execOption _ := .exhausted
  execAll _ := .exhausted
  execLoop _ _ _ _ _ := .exhausted

section Levels

variable {limit bound : Nat} (ih : ConfinesUpTo limit bound)
include ih

theorem confines_eval_succ {expr : Expr} (h : expr.longest ≤ limit)
    : Confines limit (·.longest ≤ limit) (eval (bound + 1) expr) := by
  unfold eval
  apply Confines.descend
  cases expr with
  | number | str | bool | undefined | null => exact .pure (Nat.zero_le _)
  | identifier name => apply Confines.identifier
  | array items =>
    -- A literal is the only array whose length nothing but the program decides.
    obtain ⟨hlength, hitems⟩ := Nat.max_le.mp h
    apply Confines.bind (ih.evalItems hitems)
    rintro values ⟨heq, hvalues⟩
    exact .pure (Nat.max_le.mpr ⟨heq ▸ hlength, hvalues⟩)
  | object fields => exact .bind (ih.evalFields h) fun _ hfields => .pure hfields
  | unary op operand => exact .bind (ih.eval h) fun value _ => .pure (op.longest_apply value ▸ Nat.zero_le _)
  | binary op left right =>
    obtain ⟨hleft, hright⟩ := Nat.max_le.mp h
    exact .bind (ih.eval hleft) fun left _ => .bind (ih.eval hright) fun right _ =>
      .pure (op.longest_apply left right ▸ Nat.zero_le _)
  | logical op left right =>
    obtain ⟨hleft, hright⟩ := Nat.max_le.mp h
    apply Confines.bind (ih.eval hleft)
    intro value hvalue
    split
    any_goals exact .pure hvalue
    · exact ih.eval hright
  | member holder property =>
    apply Confines.bind (.isMath holder)
    intro isMath _
    split
    · apply Confines.mathConstant
    · exact .bind (ih.eval h) fun _ hholder => .ofExcept fun _ => Value.longest_readProperty hholder
  | index holder position =>
    obtain ⟨hholder, hposition⟩ := Nat.max_le.mp h
    exact .bind (ih.eval hholder) fun _ hholder => .bind (ih.eval hposition) fun _ _ =>
      .ofExcept fun _ => Value.longest_readElement hholder
  | call callee arguments =>
    obtain ⟨hcallee, harguments⟩ := Nat.max_le.mp h
    exact .bind (ih.evalItems harguments) fun _ hargs => ih.call hcallee hargs.2
  | await operand => exact ih.eval h

theorem confines_evalItems_succ {items : List Expr} (h : Expr.longestOf items ≤ limit)
    : Confines limit (fun values => values.length = items.length ∧ Value.longestOf values ≤ limit)
        (evalItems (bound + 1) items) := by
  cases items with
  | nil => exact .pure ⟨rfl, Nat.zero_le _⟩
  | cons item rest =>
    obtain ⟨hitem, hrest⟩ := Nat.max_le.mp h
    apply Confines.bind (ih.eval hitem)
    intro value hvalue
    apply Confines.bind (ih.evalItems hrest)
    rintro values ⟨hlength, hvalues⟩
    exact .pure ⟨congrArg (· + 1) hlength, Nat.max_le.mpr ⟨hvalue, hvalues⟩⟩

theorem confines_evalFields_succ {fields : List (String × Expr)} (h : Expr.longestIn fields ≤ limit)
    : Confines limit (Value.longestIn · ≤ limit) (evalFields (bound + 1) fields) := by
  cases fields with
  | nil => exact .pure (Nat.zero_le _)
  | cons field rest =>
    obtain ⟨hfield, hrest⟩ := Nat.max_le.mp h
    exact .bind (ih.eval hfield) fun _ hvalue => .bind (ih.evalFields hrest) fun _ hvalues =>
      .pure (Nat.max_le.mpr ⟨hvalue, hvalues⟩)

theorem confines_callFunction_succ (h : Stmt.longestOf function.body ≤ limit) (hargs : Value.longestOf args ≤ limit)
    : Confines limit (·.longest ≤ limit) (callFunction (bound + 1) function args) := by
  rw [callFunction]
  refine Confines.calling ?_ function.params hargs
  exact .bind (ih.execAll h) fun _ hflow => .pure (Flow.longest_result hflow)

theorem confines_evalOption_succ {expr : Option Expr} (h : Expr.longestOption expr ≤ limit)
    : Confines limit (·.longest ≤ limit) (evalOption (bound + 1) expr) := by
  cases expr with
  | none => exact .pure (Nat.zero_le _)
  | some expr => exact ih.eval h

theorem confines_execOption_succ {stmt : Option Stmt} (h : Stmt.longestOption stmt ≤ limit)
    : Confines limit (fun _ => True) (execOption (bound + 1) stmt) := by
  cases stmt with
  | none => exact .pure trivial
  | some stmt => exact .bind (ih.exec h) fun _ _ => .pure trivial

theorem confines_execAll_succ {stmts : List Stmt} (h : Stmt.longestOf stmts ≤ limit)
    : Confines limit (·.longest ≤ limit) (execAll (bound + 1) stmts) := by
  cases stmts with
  | nil => exact .pure (Nat.zero_le _)
  | cons stmt rest =>
    obtain ⟨hstmt, hrest⟩ := Nat.max_le.mp h
    apply Confines.bind (ih.exec hstmt)
    intro flow hflow
    cases flow with
    | normal => exact ih.execAll hrest
    | _ => exact .pure hflow

theorem confines_execLoop_succ {cond : Option Expr} (hcond : Expr.longestOption cond ≤ limit)
    {update : Option Stmt} (hupdate : Stmt.longestOption update ≤ limit) {body : List Stmt}
    (hbody : Stmt.longestOf body ≤ limit)
    : Confines limit (·.longest ≤ limit) (execLoop (bound + 1) cond update body) := by
  rw [execLoop_eq]
  have hagain := (ih.execOption hupdate).bind fun _ _ => ih.execLoop hcond hupdate hbody
  have htest : Confines limit (fun _ => True) (holds bound cond) := by
    cases cond with
    | none => exact .pure trivial
    | some cond => exact .bind (ih.eval hcond) fun _ _ => .pure trivial
  refine htest.bind fun test _ => ?_
  split
  · refine (ih.execAll hbody).inScope.bind fun flow hflow => ?_
    cases flow with
    | broke => exact .pure (Nat.zero_le _)
    | returned value => exact .pure hflow
    | normal | continued => exact hagain
  · exact .pure (Nat.zero_le _)

section Writes

variable (hlimit : Value.maxArrayLength ≤ limit)
include hlimit

theorem confines_call_succ {callee : Expr} (h : callee.longest ≤ limit) (hargs : Value.longestOf args ≤ limit)
    : Confines limit (·.longest ≤ limit) (call (bound + 1) callee args) := by
  unfold call
  dsimp only
  split
  · apply Confines.bind .get
    intro m hm
    split
    · next hfunction => exact ih.callFunction (hm.function? hfunction) hargs
    · exact .builtinCall _ hargs
  · exact .bind (.ask (Nat.zero_le _)) fun _ _ => .pure (Nat.zero_le _)
  · apply Confines.bind (.isMath _)
    intro isMath _
    split
    · apply Confines.mathCall
    · split
      · exact .methodCall hlimit _ _ hargs
      · refine .bind (ih.eval ?_) fun value hvalue => ?_
        · exact h
        apply Confines.bind (.ofExcept fun result hcall => Value.Method.longest_call hlimit hvalue hargs hcall)
        rintro ⟨_, result⟩ ⟨-, hresult⟩
        exact .pure hresult
      · apply Confines.fail
  · apply Confines.fail

theorem confines_exec_succ {stmt : Stmt} (h : stmt.longest ≤ limit)
    : Confines limit (·.longest ≤ limit) (exec (bound + 1) stmt) := by
  unfold exec
  apply Confines.descend
  cases stmt with
  | declare name value =>
    exact .bind (ih.evalOption h) fun _ hvalue => .bind (.declare name hvalue) fun _ _ => .pure (Nat.zero_le _)
  | assign target op value =>
    obtain ⟨htarget, hvalue⟩ := Nat.max_le.mp h
    apply Confines.bind (ih.eval hvalue)
    intro value hvalue
    have hstore (position : Value) : Confines limit (Flow.longest · ≤ limit)
        (do Exec.store target position op value; return Flow.normal) :=
      .bind (.store hlimit target position op hvalue) fun _ _ => .pure (Nat.zero_le _)
    cases target with
    | «variable» name => exact .bind (P := fun _ => True) (.pure trivial) fun position _ => hstore position
    | element name position => exact .bind (ih.eval htarget) fun position _ => hstore position
  | expr value => exact .bind (ih.eval h) fun _ _ => .pure (Nat.zero_le _)
  | ifElse cond thenBody elseBody =>
    cases elseBody with
    | none =>
      obtain ⟨hcond, hthen⟩ := Nat.max_le.mp h
      apply Confines.bind (ih.eval hcond)
      intro test _
      split
      · exact (ih.execAll hthen).inScope
      · exact .pure (Nat.zero_le _)
    | some elseBody =>
      obtain ⟨hcond, hbodies⟩ := Nat.max_le.mp h
      obtain ⟨hthen, helse⟩ := Nat.max_le.mp hbodies
      apply Confines.bind (ih.eval hcond)
      intro test _
      split
      · exact (ih.execAll hthen).inScope
      · exact (ih.execAll helse).inScope
  | whileLoop cond body =>
    obtain ⟨hcond, hbody⟩ := Nat.max_le.mp h
    refine ih.execLoop ?_ (Nat.zero_le _) hbody
    exact hcond
  | forLoop init cond update body =>
    obtain ⟨hhead, hrest⟩ := Nat.max_le.mp h
    obtain ⟨hinit, hcond⟩ := Nat.max_le.mp hhead
    obtain ⟨hupdate, hbody⟩ := Nat.max_le.mp hrest
    apply Confines.inScope
    exact .bind (ih.execOption hinit) fun _ _ => ih.execLoop hcond hupdate hbody
  | breakLoop | continueLoop => exact .pure (Nat.zero_le _)
  | returnValue value => exact .bind (ih.evalOption h) fun _ hvalue => .pure hvalue
  | block body => exact (ih.execAll h).inScope
  | function name params body =>
    exact .bind (.modify fun _ hm => hm.define name h) fun _ _ => .pure (Nat.zero_le _)

end Writes

end Levels

variable {limit : Nat} (hlimit : Value.maxArrayLength ≤ limit)
include hlimit

theorem confinesUpTo (bound : Nat) : ConfinesUpTo limit bound := by
  induction bound with
  | zero => apply confinesUpTo_zero
  | succ bound ih =>
    exact
      { eval := confines_eval_succ ih
        evalItems := confines_evalItems_succ ih
        evalFields := confines_evalFields_succ ih
        call := fun hcallee => confines_call_succ ih hlimit hcallee
        callFunction := fun hbody => confines_callFunction_succ ih hbody
        exec := confines_exec_succ ih hlimit
        evalOption := confines_evalOption_succ ih
        execOption := confines_execOption_succ ih
        execAll := confines_execAll_succ ih
        execLoop := confines_execLoop_succ ih }

theorem confines_run (bound : Nat) {program : Program} (h : Stmt.longestOf program.body ≤ limit)
    : Confines limit (fun _ => True) (run bound program) := by
  have hfunctions (m : Machine) (hm : m.Bounded limit) : (m.defineAll program.functions).Bounded limit := by
    apply hm.defineAll
    intro function hfunction
    obtain ⟨stmt, hstmt, hname⟩ := mem_filterMap.mp hfunction
    have hbody := Stmt.longestOf_le_iff.mp h stmt hstmt
    split at hname
    · cases hname
      exact hbody
    · cases hname
  apply Confines.bind (.modify hfunctions)
  intro _ _
  apply Confines.bind ((confinesUpTo hlimit bound).execAll h)
  intro flow _
  cases flow with
  | normal | returned _ => exact .pure trivial
  | broke | continued => apply Confines.fail

theorem confines_runSource (bound : Nat) {source : String} (h : longestLiteral source ≤ limit)
    : Confines limit (fun _ => True) (runSource bound source) := by
  unfold runSource
  cases hparse : Program.parse source with
  | ok program =>
    rw [longestLiteral, hparse] at h
    exact confines_run hlimit bound h
  | error e => apply Confines.fail

end Exec

namespace Session

variable {limit : Nat} (hlimit : Value.maxArrayLength ≤ limit) (bound : Nat)
include hlimit

theorem bounded_feed (session : Session) (hsession : session.machine.Bounded limit) {source : String}
    (h : longestLiteral source ≤ limit)
    : (∀ request ∈ (session.feed bound source).1.requests, request.longest ≤ limit)
        ∧ (session.feed bound source).2.machine.Bounded limit := by
  obtain ⟨hrequests, hresult⟩ :=
    (Exec.confines_runSource hlimit bound h session.machine hsession).play session.host
  unfold feed
  dsimp only
  split
  · next hended => exact ⟨hrequests, (hresult _ hended).1⟩
  · exact ⟨hrequests, hsession⟩

theorem bounded_feedAll (session : Session) (hsession : session.machine.Bounded limit) {sources : List String}
    (h : ∀ source ∈ sources, longestLiteral source ≤ limit)
    : (∀ report ∈ session.feedAll bound sources, ∀ request ∈ report.requests, request.longest ≤ limit)
        ∧ (session.fed bound sources).machine.Bounded limit := by
  induction sources generalizing session with
  | nil => exact ⟨forall_mem_nil _, hsession⟩
  | cons source rest ih =>
    rw [forall_mem_cons] at h
    obtain ⟨hrequests, hmachine⟩ := bounded_feed hlimit bound session hsession h.1
    obtain ⟨hreports, hfed⟩ := ih (session.feed bound source).2 hmachine h.2
    exact ⟨forall_mem_cons.mpr ⟨hrequests, hreports⟩, hfed⟩

end Session

/-- No array that a session stores, yields or tells its host of is longer than the limit on growth and all literals of
its sources: so with literals within that limit all arrays are. The same goes for each expression and each statement,
whatever has run before it. -/
theorem Session.arrays_within [Generator] {limit : Nat} (hlimit : Value.maxArrayLength ≤ limit) {sources : List String}
    (h : ∀ source ∈ sources, longestLiteral source ≤ limit) (bound : Nat) (seed : Option Nat) (maxCalls : Nat)
    (host : Host)
    : (Session.fed bound ⟨.start seed maxCalls, host⟩ sources).machine.Bounded limit
        ∧ (∀ report ∈ Session.feedAll bound ⟨.start seed maxCalls, host⟩ sources,
            ∀ request ∈ report.requests, request.longest ≤ limit)
        ∧ (∀ expr : Expr, expr.longest ≤ limit → Exec.Confines limit (·.longest ≤ limit) (Exec.eval bound expr))
        ∧ ∀ stmt : Stmt, stmt.longest ≤ limit → Exec.Confines limit (·.longest ≤ limit) (Exec.exec bound stmt) := by
  have hstart : (Machine.start seed maxCalls).Bounded limit := ⟨Nat.zero_le _, nofun, nofun⟩
  obtain ⟨hreports, hfed⟩ := bounded_feedAll hlimit bound ⟨.start seed maxCalls, host⟩ hstart h
  have hupTo := Exec.confinesUpTo hlimit bound
  exact ⟨hfed, hreports, fun _ => hupTo.eval, fun _ => hupTo.exec⟩

theorem Session.arrays_within_grown
    : longestLiteral "let a = [[], 1]; a.push(a); __onVar(\"a\", a);" = 2
        ∧ (Session.feedAll 60 ⟨.start none 64, ⟨[], none⟩⟩ ["let a = [[], 1]; a.push(a); __onVar(\"a\", a);"]).map
            (fun report => report.requests.map Request.longest) = [[3]]
        ∧ (Session.fed 60 ⟨.start none 64, ⟨[], none⟩⟩
            ["let a = [[], 1]; a.push(a); __onVar(\"a\", a);"]).machine.Bounded Value.maxArrayLength
        ∧ Exec.Confines Value.maxArrayLength (·.longest ≤ Value.maxArrayLength)
            (Exec.eval 60 (.call (.member (.identifier "a") "push") [.array [.null]])) := by
  have hliteral : longestLiteral "let a = [[], 1]; a.push(a); __onVar(\"a\", a);" = 2 := by decide +kernel
  have hsource := Nat.le_trans (Nat.le_of_eq hliteral) (show 2 ≤ Value.maxArrayLength by decide)
  obtain ⟨hfed, -, heval, -⟩ :=
    arrays_within (Nat.le_refl _) (forall_mem_singleton.mpr hsource) 60 none 64 ⟨[], none⟩
  exact ⟨hliteral, by decide +kernel, hfed, heval _ (by decide +kernel)⟩

namespace Exec

variable {α β : Type} {x : Exec α} {m m' : Machine}

theorem bind_of_eq_done {a : α} (h : x m = .done (.ok a, m')) (f : α → Exec β) : (x >>= f) m = f a m' := by
  change (x m).bind _ = _
  rw [h]
  rfl

theorem descend_of_eq_done {result : Except RuntimeError α} {env : Env} (hdescent : m.descent < maxDescent)
    (h : x { m with descent := m.descent + 1 } = .done (result, { m with env, descent := m.descent + 1 }))
    : descend x m = .done (result, { m with env }) := by
  unfold descend closing
  rw [if_neg (Nat.not_le.mpr hdescent), h]
  rfl

theorem evalItems_replicate_number (n : Float) (hdescent : m.descent < maxDescent) (bound count : Nat)
    : evalItems (bound + count + 1) (List.replicate count (.number n)) m =
      .done (.ok (List.replicate count (.number n)), m) := by
  induction count with
  | zero => rfl
  | succ count ih =>
    have hitem : Exec.eval (bound + count + 1) (.number n) m = .done (.ok (.number n), m) := by
      rw [eval]
      exact descend_of_eq_done hdescent rfl
    rw [replicate_succ, replicate_succ, evalItems]
    refine (bind_of_eq_done hitem _).trans ?_
    exact bind_of_eq_done ih _

theorem eval_array_replicate_number (n : Float) (hdescent : m.descent + 1 < maxDescent) (count : Nat)
    : eval (count + 2) (.array (List.replicate count (.number n))) m =
      .done (.ok (.array (List.replicate count (.number n))), m) := by
  rw [eval]
  apply descend_of_eq_done (Nat.lt_of_succ_lt hdescent)
  have hitems := evalItems_replicate_number n (m := { m with descent := m.descent + 1 }) hdescent 0 count
  rw [Nat.zero_add] at hitems
  exact bind_of_eq_done hitems _

theorem run_declare_of_eq_done {bound : Nat} {value : Option Expr}
    (h : exec (bound + 1) (.declare name value) m = .done (.ok .normal, m'))
    : run (bound + 2) ⟨[.declare name value]⟩ m = .done (.ok (), m') := by
  have hbody : execAll (bound + 2) [.declare name value] m = .done (.ok .normal, m') := by
    rw [execAll]
    exact bind_of_eq_done h _
  exact bind_of_eq_done hbody _

theorem run_declare_replicate [Generator] (n : Float) (count : Nat) (seed : Option Nat) (maxCalls : Nat)
    : ∃ m, run (count + 5) ⟨[.declare "a" (some (.array (List.replicate count (.number n))))]⟩ (.start seed maxCalls) =
        .done (.ok (), m)
      ∧ m.env.globals.entries = [("a", .array (List.replicate count (.number n)))] := by
  have hvalue := eval_array_replicate_number n (m := { Machine.start seed maxCalls with descent := 1 })
    (show 2 < maxDescent by decide) count
  have hstmt : exec (count + 4) (.declare "a" (some (.array (List.replicate count (.number n))))) (.start seed maxCalls)
      = .done (.ok .normal, { Machine.start seed maxCalls with
          env := ⟨.ofList [("a", .array (List.replicate count (.number n)))], []⟩ }) := by
    rw [exec]
    exact descend_of_eq_done (show 0 < maxDescent by decide) (bind_of_eq_done hvalue _)
  exact ⟨_, run_declare_of_eq_done hstmt, rfl⟩

theorem run_overlong_literal : ∃ m, run (Value.maxArrayLength + 6)
          ⟨[.declare "a" (some (.array (List.replicate (Value.maxArrayLength + 1) (.number 0))))]⟩ (.start none 64)
          =
        .done (.ok (), m)
      ∧ ¬ m.Bounded Value.maxArrayLength := by
  obtain ⟨m, hrun, hglobals⟩ := run_declare_replicate 0 (Value.maxArrayLength + 1) none 64
  refine ⟨m, hrun, fun hbounded => ?_⟩
  have harray := Value.longest_of_lookup hbounded.globals (by rw [hglobals]; exact lookup_cons_self)
  have hlength := (Value.longest_array_le_iff.mp harray).1
  rw [length_replicate] at hlength
  exact Nat.not_succ_le_self _ hlength

end Exec

end NodeScript.Script
