import NodeScript.Proofs.Connection
import NodeScript.Proofs.Environment

/-!
How the names in scope become more while a program runs, and which declarations can fail for that.
-/

namespace NodeScript.Script

open List

variable {e : RuntimeError} {name : String} {scope : Scope}

namespace Scope

theorem exists_ofParams {params : List String} (h : (scope.keys ++ params).Nodup) (args : List Value)
    : ∃ scope', scope.ofParams params args = .ok scope' ∧ scope'.keys = scope.keys ++ params := by
  induction params generalizing scope args with
  | nil => exact ⟨scope, rfl, (append_nil _).symm⟩
  | cons param params ih =>
    rw [ofParams]
    cases hscope : scope.declare param (args.head?.getD .undefined) with
    | error e =>
      have hparam := (declare_eq_error hscope).2
      exact absurd rfl ((nodup_append.mp h).2.2 param hparam param mem_cons_self)
    | ok scope' =>
      obtain ⟨hparam, rfl⟩ := declare_eq_ok hscope
      have hsplit : scope.keys ++ param :: params = (scope.insert param (args.head?.getD .undefined)).keys ++ params := by
        rw [Table.keys_insert, if_neg hparam, append_assoc, singleton_append]
      rw [hsplit] at h ⊢
      exact ih h args.tail

end Scope

namespace Env

def widen (names : List String) : List (List String) → List (List String)
  | [] => []
  | scope :: rest => (scope ++ names) :: rest

/-- Of the names, some have been declared, and if `exactly`, all have. The scope of the program has got only those, if
they were declared there, and such that are spilled. -/
structure Grows (exactly : Prop) (spills names : List String) (env env' : Env) : Prop where
  depth : env'.locals.length = env.locals.length
  outer : env'.shape.2.tail = env.shape.2.tail
  kept : env.shape.1 ⊆ env'.shape.1
  globals : ∀ name ∈ env'.shape.1, name ∈ env.shape.1 ∨ name ∈ spills ∨ env.locals = [] ∧ name ∈ names
  inner : exactly → env'.shape.2 = widen names env.shape.2
  added : exactly → env.locals = [] → names ⊆ env'.shape.1

variable {exactly : Prop} {spills scope names names' : List String} {env env' env'' : Env} {name : String}
  {value : Value}

theorem length_shape (env : Env) : env.shape.2.length = env.locals.length :=
  length_map _

namespace Grows

theorem of_shape (h : env'.shape = env.shape) : Grows exactly spills [] env env' where
  depth := by rw [← length_shape, h, length_shape]
  outer := by rw [h]
  kept := by rw [h]; exact List.Subset.refl _
  globals name hname := .inl (h ▸ hname)
  inner _ := by
    rw [h]
    cases env.shape.2 with
    | nil => rfl
    | cons scope rest => rw [widen, append_nil]
  added _ _ := nil_subset _

theorem locals_eq_nil (h : Grows exactly spills names env env') : env'.locals = [] ↔ env.locals = [] := by
  rw [← length_eq_zero_iff, h.depth, length_eq_zero_iff]

theorem trans (h : Grows True spills names env env') (h' : Grows exactly spills names' env' env'')
    : Grows exactly spills (names ++ names') env env'' where
  depth := h'.depth.trans h.depth
  outer := h'.outer.trans h.outer
  kept := List.Subset.trans h.kept h'.kept
  globals name hname := by
    obtain hname | hname | ⟨hnil, hname⟩ := h'.globals name hname
    · obtain hname | hname | ⟨hnil, hname⟩ := h.globals name hname
      · exact .inl hname
      · exact .inr (.inl hname)
      · exact .inr (.inr ⟨hnil, mem_append_left _ hname⟩)
    · exact .inr (.inl hname)
    · exact .inr (.inr ⟨h.locals_eq_nil.mp hnil, mem_append_right _ hname⟩)
  inner hexactly := by
    rw [h'.inner hexactly, h.inner trivial]
    cases env.shape.2 with
    | nil => rfl
    | cons scope rest => simp [widen]
  added hexactly hnil := by
    have hbefore := List.Subset.trans (h.added trivial hnil) h'.kept
    exact append_subset.mpr ⟨hbefore, h'.added hexactly (h.locals_eq_nil.mpr hnil)⟩

theorem isSome_get? (h : Grows True spills names env env') (hname : name ∈ names ∨ (env.get? name).isSome)
    : (env'.get? name).isSome := by
  rw [isSome_get?_eq, Bool.or_eq_true, contains_iff_mem, h.inner trivial]
  obtain hname | hname := hname
  · cases hlocals : env.locals with
    | nil => exact .inr (h.added trivial hlocals hname)
    | cons scope rest =>
      refine .inl ?_
      simp [shape, hlocals, widen, hname]
  · rw [isSome_get?_eq, Bool.or_eq_true, contains_iff_mem] at hname
    refine hname.imp (fun hlocal => ?_) fun hglobal => h.kept hglobal
    cases hshape : env.shape.2 with
    | nil => simp [hshape] at hlocal
    | cons scope rest =>
      rw [hshape, any_cons, Bool.or_eq_true] at hlocal
      rw [widen, any_cons, Bool.or_eq_true]
      refine hlocal.imp_left fun hscope => ?_
      rw [contains_iff_mem] at hscope ⊢
      exact mem_append_left _ hscope

theorem pop (h : Grows exactly spills names env.push env') : Grows True spills [] env env'.pop := by
  have hshape : env'.pop.shape.2 = env.shape.2 := by
    have houter := h.outer
    rw [show env.push.shape.2.tail = env.shape.2 from rfl] at houter
    rw [← houter]
    exact map_tail
  refine ⟨?_, by rw [hshape], h.kept, ?_, fun _ => ?_, fun _ _ => nil_subset _⟩
  · rw [← length_shape, hshape, length_shape]
  · intro name hname
    obtain hname | hname | ⟨hnil, -⟩ := h.globals name hname
    · exact .inl hname
    · exact .inr (.inl hname)
    · exact nomatch hnil
  · rw [hshape]
    cases env.shape.2 with
    | nil => rfl
    | cons scope rest => rw [widen, append_nil]

theorem returned {params : Scope} (h : Grows exactly spills names { env with locals := [params] } env')
    : Grows True spills [] env { env' with locals := env.locals } := by
  refine ⟨rfl, rfl, h.kept, ?_, fun _ => ?_, fun _ _ => nil_subset _⟩
  · intro name hname
    obtain hname | hname | ⟨hnil, -⟩ := h.globals name hname
    · exact .inl hname
    · exact .inr (.inl hname)
    · exact nomatch hnil
  · unfold shape
    cases env.locals with
    | nil => rfl
    | cons scope rest => simp [widen]

end Grows

theorem grows_assign (h : name ∈ spills ∨ (env.get? name).isSome) (value : Value)
    : Grows True spills [] env (env.assign name value) := by
  by_cases hknown : (env.get? name).isSome
  · exact .of_shape (shape_assign hknown value)
  · have hlocals := shape_locals_assign env name value
    refine ⟨?_, by rw [hlocals], (shape_globals_assign env name value).subset, ?_, fun _ => ?_,
      fun _ _ => nil_subset _⟩
    · rw [← length_shape, hlocals, length_shape]
    · intro other hother
      obtain hother | rfl := mem_shape_assign hother
      · exact .inl hother
      · exact .inr (.inl (h.resolve_right hknown))
    · rw [hlocals]
      cases env.shape.2 with
      | nil => rfl
      | cons scope rest => rw [widen, append_nil]

theorem grows_declare (h : env.declare name value = .ok env') : Grows True spills [name] env env' := by
  obtain ⟨hdepth, hglobals, houter⟩ := shape_declare h
  obtain ⟨hlocals, hname, rfl⟩ | ⟨scope, rest, hlocals, hname, rfl⟩ := declare_eq_ok h
  · have hkeys : (env.globals.insert name value).keys = env.globals.keys ++ [name] := by
      rw [Table.keys_insert, if_neg hname]
    refine ⟨hdepth, houter, hglobals.subset, ?_, fun _ => ?_, fun _ _ => ?_⟩
    · intro other hother
      simp only [shape, hkeys, mem_append] at hother
      exact hother.imp_right fun hother => .inr ⟨hlocals, hother⟩
    · simp [shape, hlocals, widen]
    · simp [shape, hkeys]
  · refine ⟨hdepth, houter, hglobals.subset, fun _ hother => .inl hother, fun _ => ?_, fun _ h => ?_⟩
    · simp [shape, hlocals, Table.keys_insert, hname, widen]
    · rw [hlocals] at h
      cases h

theorem declare_eq_error (h : env.declare name value = .error e) : e = .redeclared name
        ∧ (env.locals = [] ∧ name ∈ env.shape.1 ∨ ∃ names ∈ env.shape.2.head?, name ∈ names) := by
  obtain ⟨globals, locals⟩ := env
  unfold declare at h
  cases locals with
  | nil =>
    dsimp only at h
    cases hscope : globals.declare name value with
    | ok globals' =>
      rw [hscope] at h
      cases h
    | error e' =>
      rw [hscope] at h
      cases h
      obtain ⟨rfl, hname⟩ := Scope.declare_eq_error hscope
      exact ⟨rfl, .inl ⟨rfl, hname⟩⟩
  | cons scope rest =>
    dsimp only at h
    cases hscope : scope.declare name value with
    | ok scope' =>
      rw [hscope] at h
      cases h
    | error e' =>
      rw [hscope] at h
      cases h
      obtain ⟨rfl, hname⟩ := Scope.declare_eq_error hscope
      exact ⟨rfl, .inr ⟨_, rfl, hname⟩⟩

structure Ready (scope fresh : List String) (env : Env) : Prop where
  visible : ∀ name ∈ scope, (env.get? name).isSome
  free : ∀ names ∈ env.shape.2.head?, ∀ name ∈ fresh, name ∉ names

namespace Ready

variable {fresh : List String}

theorem push (h : Ready scope fresh env) (names : List String) : Ready scope names env.push := by
  refine ⟨h.visible, ?_⟩
  rintro _ ⟨⟩ name -
  exact not_mem_nil

theorem grows (h : Ready scope (names ++ names') env) (hdisjoint : ∀ name ∈ names', name ∉ names)
    (hgrows : Grows True spills names env env') : Ready (names ++ scope) names' env' := by
  refine ⟨fun name hname => ?_, fun inner hinner name hname => ?_⟩
  · refine hgrows.isSome_get? ((mem_append.mp hname).imp_right (h.visible name))
  · rw [hgrows.inner trivial] at hinner
    cases hshape : env.shape.2 with
    | nil =>
      rw [hshape] at hinner
      exact nomatch hinner
    | cons before rest =>
      rw [hshape] at hinner
      cases hinner
      have hbefore := h.free before (by rw [hshape]; rfl) name (mem_append_right _ hname)
      exact fun hmem => (mem_append.mp hmem).elim hbefore (hdisjoint name hname)

end Ready

end Env

namespace Exec

/-- What a computation that declares the names may come to. Functions are added only. A declaration fails only in the
scope of the program, and only if that had the name already or got it as one that is spilled. -/
def Declared {α : Type} (table : List (String × Function)) (exactly : Prop) (spills names : List String) (m : Machine)
    : Except RuntimeError α × Machine → Prop
  | (.ok _, m') => m'.functions ⊆ table ∧ m.functions ⊆ m'.functions ∧ m.env.Grows exactly spills names m'.env
  | (.error e, _) => ∀ name, e = .redeclared name
    → m.env.locals = [] ∧ name ∈ names ∧ (name ∈ m.env.shape.1 ∨ name ∈ spills)

/-- Whatever the host replies, and whichever functions of the table there are, the computation declares the names
where those in `scope` stand for something. -/
def Declares {α : Type} (table : List (String × Function)) (exactly : Prop) (spills scope names : List String)
    (x : Exec α) : Prop :=
  ∀ m, m.functions ⊆ table → m.env.Ready scope names
    → (x m).Results (fun _ => True) (Declared table exactly spills names m)

namespace Declares

variable {α β : Type} {table : List (String × Function)} {exactly : Prop} {spills scope names names' : List String}
  {x : Exec α}

theorem pure (h : exactly → names = []) (a : α) : Declares table exactly spills scope names (Pure.pure a : Exec α) := by
  intro m hm _
  refine .done ⟨hm, List.Subset.refl _, ?_⟩
  by_cases hexactly : exactly
  · rw [h hexactly]
    exact .of_shape rfl
  · exact ⟨rfl, rfl, List.Subset.refl _, fun _ hname => .inl hname, fun h => absurd h hexactly,
      fun h => absurd h hexactly⟩

theorem fail (h : ∀ name, e ≠ .redeclared name) : Declares table exactly spills scope names (fail e : Exec α) :=
  fun _ _ _ => .done fun name heq => absurd heq (h name)

theorem exhausted : Declares table exactly spills scope names (exhausted : Exec α) :=
  fun _ _ _ => .exhausted

theorem ask (request : Request) : Declares table exactly spills scope [] (ask request) := by
  refine fun m hm _ => .ask ?_
  rintro (text | _) _
  · exact .done ⟨hm, List.Subset.refl _, .of_shape rfl⟩
  · exact .done nofun

theorem ofExcept {x : Except RuntimeError α} (h : ∀ name, x ≠ .error (.redeclared name))
    : Declares table exactly spills scope [] (ofExcept x) := by
  cases x with
  | ok a => exact pure (fun _ => rfl) a
  | error e => exact fail fun name heq => h name (by rw [heq])

theorem bind {f : α → Exec β} (h : Declares table True spills scope names x)
    (hnext : ∀ a, Declares table exactly spills (names ++ scope) names' (f a)) (hdisjoint : ∀ name ∈ names', name ∉ names)
    : Declares table exactly spills scope (names ++ names') (x >>= f) := by
  intro m hm hready
  have hfirst : m.env.Ready scope names :=
    ⟨hready.visible, fun inner hinner name hname => hready.free inner hinner name (mem_append_left _ hname)⟩
  refine (h m hm hfirst).bind ?_
  rintro ⟨e | a, m'⟩ hresult
  · refine .done fun name heq => ?_
    obtain ⟨hnil, hname, hhad⟩ := hresult name heq
    exact ⟨hnil, mem_append_left _ hname, hhad⟩
  · obtain ⟨hm', hkept, hgrows⟩ := hresult
    refine (hnext a m' hm' (hready.grows hdisjoint hgrows)).mono ?_
    rintro ⟨e | b, m''⟩ hresult
    · intro name heq
      obtain ⟨hnil, hname, hhad⟩ := hresult name heq
      refine ⟨hgrows.locals_eq_nil.mp hnil, mem_append_right _ hname, ?_⟩
      obtain hhad | hhad := hhad
      · obtain hhad | hhad | ⟨-, hnew⟩ := hgrows.globals name hhad
        · exact .inl hhad
        · exact .inr hhad
        · exact absurd hnew (hdisjoint name hname)
      · exact .inr hhad
    · exact ⟨hresult.1, List.Subset.trans hkept hresult.2.1, hgrows.trans hresult.2.2⟩

theorem after {f : α → Exec β} (h : Declares table True spills scope [] x)
    (hnext : ∀ a, Declares table exactly spills scope names (f a))
    : Declares table exactly spills scope names (x >>= f) :=
  bind h hnext fun _ _ => not_mem_nil

theorem map {f : α → β} (h : Declares table exactly spills scope names x)
    : Declares table exactly spills scope names (f <$> x) := by
  intro m hm hready
  refine (h m hm hready).bind ?_
  rintro ⟨e | a, m'⟩ hresult
  all_goals exact .done hresult

theorem descend (h : Declares table exactly spills scope names x)
    : Declares table exactly spills scope names (descend x) := by
  intro m hm hready
  unfold Exec.descend
  split
  · exact .done nofun
  · refine (h { m with descent := m.descent + 1 } hm hready).bind ?_
    rintro ⟨e | a, m'⟩ hresult
    all_goals exact .done hresult

theorem inScope (h : Declares table exactly spills scope names x)
    : Declares table True spills scope [] (inScope x) := by
  intro m hm hready
  refine (h { m with env := m.env.push } hm (hready.push names)).bind ?_
  rintro ⟨e | a, m'⟩ hresult
  · exact .done fun name heq => nomatch (hresult name heq).1
  · exact .done ⟨hresult.1, hresult.2.1, hresult.2.2.pop⟩

theorem calling {params : List String} (hparams : params.Nodup) (h : Declares table exactly spills params names x)
    (hdisjoint : ∀ name ∈ names, name ∉ params) (args : List Value)
    : Declares table True spills scope [] (calling params args x) := by
  intro m hm _
  unfold Exec.calling
  split
  · exact .done fun _ h => by cases h
  · obtain ⟨own, hown, hkeys⟩ := Scope.exists_ofParams (show ((∅ : Scope).keys ++ params).Nodup from hparams) args
    change own.keys = params at hkeys
    rw [hown]
    have hready : Env.Ready params names { m.env with locals := [own] } := by
      refine ⟨fun name hname => ?_, ?_⟩
      · simp [Env.isSome_get?_eq, Env.shape, hkeys, hname]
      · rintro _ ⟨⟩ name hname
        rw [hkeys]
        exact hdisjoint name hname
    refine (h { m with env := { m.env with locals := [own] }, calls := m.calls + 1 } hm hready).bind ?_
    rintro ⟨e | a, m'⟩ hresult
    · exact .done fun name heq => by cases (hresult name heq).1
    · exact .done ⟨hresult.1, hresult.2.1, hresult.2.2.returned⟩

theorem get_bind {f : Machine → Exec β} (h : ∀ m, m.functions ⊆ table → Declares table exactly spills scope names (f m))
    : Declares table exactly spills scope names (get >>= f) :=
  fun m hm hready => h m hm m hm hready

theorem lookup? (name : String) : Declares table exactly spills scope [] (lookup? name) :=
  fun _ hm _ => .done ⟨hm, List.Subset.refl _, .of_shape rfl⟩

theorem lookup_bind {f : Value → Exec β} (h : ∀ value, Declares table exactly spills (name :: scope) names (f value))
    : Declares table exactly spills scope names (lookup name >>= f) := by
  intro m hm hready
  change Dialog.Results _ _ ((Exec.lookup name m).bind _)
  cases hvalue : m.env.get? name with
  | none =>
    rw [lookup_of_none hvalue]
    exact .done fun _ h => by cases h
  | some value =>
    rw [lookup_of_some hvalue]
    refine h value m hm ⟨forall_mem_cons.mpr ⟨?_, hready.visible⟩, hready.free⟩
    rw [hvalue]
    rfl

theorem assign (h : name ∈ scope ∨ name ∈ spills) (value : Value)
    : Declares table True spills scope [] (assign name value) :=
  fun _ hm hready => .done ⟨hm, List.Subset.refl _, Env.grows_assign (h.symm.imp_right (hready.visible name)) value⟩

theorem declare (name : String) (value : Value) : Declares table True spills scope [name] (declare name value) := by
  intro m hm hready
  unfold Exec.declare
  simp only [Bind.bind, get, Dialog.bind]
  cases henv : m.env.declare name value with
  | ok env => exact .done ⟨hm, List.Subset.refl _, Env.grows_declare henv⟩
  | error e =>
    refine .done fun other heq => ?_
    obtain ⟨rfl, hname⟩ := Env.declare_eq_error henv
    cases heq
    obtain ⟨hnil, hname⟩ | ⟨inner, hinner, hname⟩ := hname
    · exact ⟨hnil, mem_singleton_self _, .inl hname⟩
    · exact absurd hname (hready.free inner hinner name (mem_singleton_self _))

theorem methodCall (name : String) (method : Value.Method) (args : List Value)
    : Declares table True spills scope [] (methodCall name method args) := by
  refine lookup_bind fun holder => ?_
  refine after (ofExcept fun _ => Value.Method.call_ne_error (.redeclared _) method name holder args) fun _ => ?_
  exact after (assign (.inl mem_cons_self) _) fun _ => pure (fun _ => rfl) _

theorem store {target : Target} {op : AssignOp}
    (h : ∀ name, target = .variable name → op.reads = true ∨ name ∈ scope ∨ name ∈ spills) (position value : Value)
    : Declares table True spills scope [] (store target position op value) := by
  unfold Exec.store
  cases target with
  | «variable» name =>
    dsimp only
    split
    · exact lookup_bind fun _ => assign (.inl mem_cons_self) _
    · next hreads => exact assign ((h name rfl).resolve_left hreads) _
  | element name _ =>
    refine lookup_bind fun holder => ?_
    refine after (ofExcept fun _ => Value.updateElement_ne_error (.redeclared _) holder position name _) fun _ => ?_
    exact assign (.inl mem_cons_self) _

end Declares

theorem covers_declares (table : List (String × Function)) (spills scope : List String)
    : Covers fun _ x => Declares table True spills scope [] x where
  pure := .pure fun _ => rfl
  bind := .after
  fail h := .fail fun name he => h (he ▸ .redeclared name)
  lookup? := .lookup?
  mathCall name args := by
    refine .get_bind fun m hm => ?_
    split
    · exact fun _ hm _ => .done ⟨hm, List.Subset.refl _, .of_shape rfl⟩
    · exact .fail nofun

inductive Leaf (table : List (String × Function)) (spills scope : List String) : List String → Stmt → Prop where
  | declare (name : String) (value : Option Expr) : Leaf table spills scope [name] (.declare name value)
  | assign {target : Target} {op : AssignOp}
      (h : ∀ name, target = .variable name → op.reads = true ∨ name ∈ scope ∨ name ∈ spills) (value : Expr)
    : Leaf table spills scope [] (.assign target op value)
  | expr (value : Expr) : Leaf table spills scope [] (.expr value)
  | breakLoop : Leaf table spills scope [] .breakLoop
  | continueLoop : Leaf table spills scope [] .continueLoop
  | returnValue (value : Option Expr) : Leaf table spills scope [] (.returnValue value)
  | function {name : String} {params : List String} {body : List Stmt} (h : (name, ⟨params, body⟩) ∈ table)
    : Leaf table spills scope [] (.function name params body)

structure Quiet (table : List (String × Function)) (spills : List String) (bound : Nat) : Prop where
  eval (expr : Expr) (scope : List String) : Declares table True spills scope [] (eval bound expr)
  items (items : List Expr) (scope : List String) : Declares table True spills scope [] (evalItems bound items)
  fields (fields : List (String × Expr)) (scope : List String)
    : Declares table True spills scope [] (evalFields bound fields)
  call (callee : Expr) (args : List Value) (scope : List String)
    : Declares table True spills scope [] (call bound callee args)
  function (entry : String × Function) (hentry : entry ∈ table) (args : List Value) (scope : List String)
    : Declares table True spills scope [] (callFunction bound entry.2 args)
  evalOption (expr : Option Expr) (scope : List String) : Declares table True spills scope [] (evalOption bound expr)
  exec {scope names : List String} {stmt : Stmt} (h : Leaf table spills scope names stmt)
    : Declares table True spills scope names (exec bound stmt)
  execOption {scope names : List String} {stmt : Stmt} (h : Leaf table spills scope names stmt)
    : Declares table True spills scope names (execOption bound (some stmt))

section Quiet

variable {table : List (String × Function)} {spills : List String} {bound : Nat}

theorem quiet_zero : Quiet table spills 0 where
  eval _ _ := .exhausted
  items _ _ := .exhausted
  fields _ _ := .exhausted
  call _ _ _ := .exhausted
  function _ _ _ _ := .exhausted
  evalOption _ _ := .exhausted
  exec _ := .exhausted
  execOption _ := .exhausted

namespace Quiet

variable (ih : Quiet table spills bound)
include ih

theorem eval_succ (expr : Expr) (scope : List String)
    : Declares table True spills scope [] (Exec.eval (bound + 1) expr) :=
  (covers_declares table spills scope).eval_succ .descend (fun operand _ => ih.eval operand scope)
    (fun _ => ih.items _ scope) (fun _ => ih.fields _ scope) fun _ => ⟨ih.items _ scope, (ih.call _ · scope)⟩

theorem items_succ (items : List Expr) (scope : List String)
    : Declares table True spills scope [] (evalItems (bound + 1) items) :=
  (covers_declares table spills scope).evalItems_succ (fun item _ => ih.eval item scope) (ih.items _ scope)

theorem fields_succ (fields : List (String × Expr)) (scope : List String)
    : Declares table True spills scope [] (evalFields (bound + 1) fields) :=
  (covers_declares table spills scope).evalFields_succ (fun field _ => ih.eval field.2 scope) (ih.fields _ scope)

theorem call_succ (callee : Expr) (args : List Value) (scope : List String)
    : Declares table True spills scope [] (Exec.call (bound + 1) callee args) := by
  refine (covers_declares table spills scope).call_succ .ask ?_ fun _ _ => ⟨fun name => .methodCall name _ args, ih.eval _ scope⟩
  rintro name rfl
  rw [Exec.call]
  refine .get_bind fun m hm => ?_
  cases hfunction : m.function? name with
  | none => exact (covers_declares table spills scope).builtinCall .ask name args
  | some function =>
    obtain ⟨before, after, heq, -⟩ := lookup_eq_some_iff.mp hfunction
    have hentry : (name, function) ∈ m.functions := heq ▸ mem_append_right _ mem_cons_self
    exact ih.function _ (hm hentry) args scope

theorem evalOption_succ (expr : Option Expr) (scope : List String)
    : Declares table True spills scope [] (Exec.evalOption (bound + 1) expr) :=
  (covers_declares table spills scope).evalOption_succ fun expr _ => ih.eval expr scope

theorem exec_succ {scope names : List String} {stmt : Stmt} (h : Leaf table spills scope names stmt)
    : Declares table True spills scope names (Exec.exec (bound + 1) stmt) := by
  unfold Exec.exec
  apply Declares.descend
  cases h with
  | declare name value =>
    refine .after (ih.evalOption value scope) fun value => ?_
    exact .bind (.declare name value) (fun _ => .pure (fun _ => rfl) _) (forall_mem_nil _)
  | @assign target op h value =>
    refine .after (ih.eval value scope) fun value => ?_
    cases target with
    | «variable» name =>
      exact .after (.pure (fun _ => rfl) _) fun position => .after (.store h position value) fun _ => .pure (fun _ => rfl) _
    | element name position =>
      exact .after (ih.eval position scope) fun position => .after (.store h position value) fun _ => .pure (fun _ => rfl) _
  | expr value => exact .after (ih.eval value scope) fun _ => .pure (fun _ => rfl) _
  | breakLoop | continueLoop => exact .pure (fun _ => rfl) _
  | returnValue value => exact .map (ih.evalOption value scope)
  | function h => exact fun _ hm _ => .done ⟨cons_subset.mpr ⟨h, hm⟩, subset_cons_self _ _, .of_shape rfl⟩

theorem execOption_succ {scope names : List String} {stmt : Stmt} (h : Leaf table spills scope names stmt)
    : Declares table True spills scope names (Exec.execOption (bound + 1) (some stmt)) :=
  .map (ih.exec h)

theorem succ (hfunction : ∀ entry ∈ table, ∀ args scope,
      Declares table True spills scope [] (callFunction (bound + 1) entry.2 args)) : Quiet table spills (bound + 1) :=
  ⟨ih.eval_succ, ih.items_succ, ih.fields_succ, ih.call_succ, hfunction, ih.evalOption_succ, ih.exec_succ,
    ih.execOption_succ⟩

end Quiet

end Quiet

end Exec

end NodeScript.Script
