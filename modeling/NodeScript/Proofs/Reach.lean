import NodeScript.Proofs.Evaluation
import NodeScript.Proofs.Redeclaration
import NodeScript.Proofs.Transparency

/-!
Where the run of a program gets to, and what holds there: the functions of the graph are defined, names that are about
to be declared are still free, and none of the names that notices call stands for a variable.
-/

namespace NodeScript.Script

open List

namespace Exec

/-- What is in progress is so because of a statement, and that is the first one of those that are reached. -/
theorem InProgress.exists_statement {stmts : List Stmt} {m m' : Machine} {stack : List Activity} {activity : Activity}
    (h : InProgress (.all stmts) m stack activity m')
    : (∃ stmts', activity = .all stmts')
      ∨ ∃ stmt rest m₁ stack₁ stack₂, InProgress (.all stmts) m stack₁ (.all (stmt :: rest)) m₁
        ∧ InProgress (.stmt stmt) m₁ stack₂ activity m' := by
  induction h with
  | start => exact .inl ⟨stmts, rfl⟩
  | @next stack activity activity' m₁ m₂ m' h hopens hstarts ih =>
    obtain ⟨stmts', rfl⟩ | ⟨stmt, rest, m₀, stack₁, stack₂, hreached, hstmt⟩ := ih
    · cases hopens
      cases hstarts with
      | part hparts => exact absurd hparts (by simp [Activity.parts])
      | first stmt rest => exact .inr ⟨stmt, rest, m₁, stack, [], h, .start⟩
      | @rest _ rest => exact .inl ⟨rest, rfl⟩
    · exact .inr ⟨stmt, rest, m₀, stack₁, _, hreached, hstmt.next hopens hstarts⟩

theorem InProgress.all_nil {m m' : Machine} {stack : List Activity} {activity : Activity}
    (h : InProgress (.all []) m stack activity m') : activity = .all [] := by
  induction h with
  | start => rfl
  | next _ _ hstarts ih =>
    subst ih
    cases hstarts with
    | part hparts => exact absurd hparts (by simp [Activity.parts])

end Exec

/-- A run of the program comes to where these statements are run in this state of the machine. -/
def Program.Reaches [Generator] (program : Program) (seed : Option Nat) (maxCalls : Nat) (target : List Stmt)
    (m : Machine) : Prop :=
  ∃ stack, Exec.InProgress (.all program.body) ((Machine.start seed maxCalls).defineAll program.functions) stack
    (.all target) m

/-- All that a run of the program asks it asks at the first one of statements that are reached. -/
theorem Program.reaches_of_request [Generator] (program : Program) (seed : Option Nat) (maxCalls bound : Nat) (host : Host)
    {request : Request} (h : request ∈ ((Exec.run bound program (.start seed maxCalls)).play host).requests)
    : ∃ stmt rest m stack m', program.Reaches seed maxCalls (stmt :: rest) m
        ∧ Exec.InProgress (.stmt stmt) m stack (.request request) m' := by
  obtain ⟨stack, m', hprogress⟩ := (((Exec.traced_run bound program _).play host).1 request h).request
  obtain ⟨_, heq⟩ | ⟨stmt, rest, m, stack₁, stack₂, hreached, hstmt⟩ := hprogress.exists_statement
  · exact nomatch heq
  · exact ⟨stmt, rest, m, stack₂, m', ⟨stack₁, hreached⟩, hstmt⟩

theorem Env.Grows.get?_eq_none {spills names : List String} {env env' : Env} {name : String}
    (h : Env.Grows True spills names env env') (hspills : name ∉ spills) (hnames : name ∉ names)
    (hnone : env.get? name = none) : env'.get? name = none := by
  rw [← Option.not_isSome_iff_eq_none, Env.isSome_get?_eq, Bool.or_eq_true, contains_iff_mem] at hnone ⊢
  rintro (hlocal | hglobal)
  · refine hnone (.inl ?_)
    rw [h.inner trivial] at hlocal
    cases hshape : env.shape.2 with
    | nil => simp [hshape, Env.widen] at hlocal
    | cons scope rest =>
      rw [hshape, Env.widen, any_cons, Bool.or_eq_true, contains_iff_mem, mem_append] at hlocal
      rw [any_cons, Bool.or_eq_true, contains_iff_mem]
      exact hlocal.imp_left (·.resolve_right hnames)
  · obtain hglobal | hglobal | ⟨-, hglobal⟩ := h.globals name hglobal
    · exact hnone (.inr hglobal)
    · exact hspills hglobal
    · exact hnames hglobal

namespace Exec

/-- All functions of the table are defined, and no others. The names `fresh` can be declared, apart from such as are
spilled into the scope of the program. The hooks stand for nothing. -/
structure Fit (table : List (String × Function)) (hooks spills scope fresh : List String) (m : Machine) : Prop where
  functions : m.functions ⊆ table
  defined : table ⊆ m.functions
  ready : m.env.Ready scope fresh
  program : m.env.locals = [] → ∀ name ∈ fresh, name ∈ m.env.shape.1 → name ∈ spills
  hooks : ∀ hook ∈ hooks, m.env.get? hook = none

namespace Fit

variable {table : List (String × Function)} {hooks spills scope names fresh : List String} {m m' : Machine}

theorem mono (h : Fit table hooks spills scope fresh m) (hnames : names ⊆ fresh)
    : Fit table hooks spills scope names m :=
  { h with
    ready := ⟨h.ready.visible, fun inner hinner name hname => h.ready.free inner hinner name (hnames hname)⟩
    program := fun hnil name hname => h.program hnil name (hnames hname) }

theorem deeper (h : Fit table hooks spills scope fresh m) : Fit table hooks spills scope fresh m.deeper :=
  ⟨h.functions, h.defined, h.ready, h.program, h.hooks⟩

theorem inner (h : Fit table hooks spills scope fresh m) (names : List String)
    : Fit table hooks spills scope names m.inner :=
  ⟨h.functions, h.defined, h.ready.push names, nofun, h.hooks⟩

theorem inFunction (h : Fit table hooks spills scope fresh m) {params : List String} {args : List Value} {own : Scope}
    (hparams : params.Nodup) (hown : Scope.ofParams {} params args = .ok own) (hhooks : ∀ hook ∈ hooks, hook ∉ params)
    (hnames : ∀ name ∈ names, name ∉ params) : Fit table hooks spills params names (m.inFunction own) := by
  have hkeys : own.keys = params := by
    obtain ⟨scope, hscope, hkeys⟩ := Scope.exists_ofParams (show ((∅ : Scope).keys ++ params).Nodup from hparams) args
    cases hown.symm.trans hscope
    exact hkeys
  refine ⟨h.functions, h.defined, ⟨fun name hname => ?_, ?_⟩, nofun, fun hook hhook => ?_⟩
  · simp [Machine.inFunction, Env.isSome_get?_eq, Env.shape, hkeys, hname]
  · rintro _ ⟨⟩ name hname
    rw [hkeys]
    exact hnames name hname
  · have hnone := h.hooks hook hhook
    have hparam := hhooks hook hhook
    rw [← Option.not_isSome_iff_eq_none, Env.isSome_get?_eq, Bool.or_eq_true] at hnone ⊢
    rintro (hlocal | hglobal)
    · simp [Machine.inFunction, Env.shape, hkeys, hparam] at hlocal
    · exact hnone (.inr hglobal)

theorem gives {α : Type} {x : Nat → Exec α} {a : α} (h : Fit table hooks spills scope (names ++ fresh) m)
    (hgives : Gives x m a m') (hx : ∀ bound, Declares table True spills scope names (x bound))
    (hdisjoint : ∀ name ∈ fresh, name ∉ names) (hspills : ∀ hook ∈ hooks, hook ∉ spills)
    (hhooks : ∀ hook ∈ hooks, hook ∉ names) : Fit table hooks spills (names ++ scope) fresh m' := by
  obtain ⟨bound, replies, hleads⟩ := hgives
  have hnames := h.mono (subset_append_left names fresh)
  obtain ⟨hfunctions, hkept, hgrows⟩ := (hx bound m h.functions hnames.ready).of_leads hleads
  refine ⟨hfunctions, List.Subset.trans h.defined hkept, h.ready.grows hdisjoint hgrows, ?_, fun hook hhook =>
    hgrows.get?_eq_none (hspills hook hhook) (hhooks hook hhook) (h.hooks hook hhook)⟩
  intro hnil name hname hglobal
  obtain hglobal | hglobal | ⟨-, hglobal⟩ := hgrows.globals name hglobal
  · exact h.program (hgrows.locals_eq_nil.mp hnil) name (mem_append_right _ hname) hglobal
  · exact hglobal
  · exact absurd hglobal (hdisjoint name hname)

theorem exists_declare (h : Fit table hooks spills scope fresh m) {name : String} (hname : name ∈ fresh)
    (hspills : name ∉ spills) (value : Value) : ∃ env, m.env.declare name value = .ok env := by
  cases hdeclare : m.env.declare name value with
  | ok env => exact ⟨env, rfl⟩
  | error e =>
    obtain ⟨-, ⟨hnil, hglobal⟩ | ⟨inner, hinner, hlocal⟩⟩ := Env.declare_eq_error hdeclare
    · exact absurd (h.program hnil name hname hglobal) hspills
    · exact absurd hlocal (h.ready.free inner hinner name hname)

theorem gives_nil {α : Type} {x : Nat → Exec α} {a : α} (h : Fit table hooks spills scope fresh m)
    (hgives : Gives x m a m') (hx : ∀ bound, Declares table True spills scope [] (x bound))
    (hspills : ∀ hook ∈ hooks, hook ∉ spills) : Fit table hooks spills scope fresh m' :=
  gives (show Fit table hooks spills scope ([] ++ fresh) m from h) hgives hx (fun _ _ => not_mem_nil) hspills
    fun _ _ => not_mem_nil

end Fit

end Exec

end NodeScript.Script

namespace NodeScript.Compile

open List Script Exec

mutual

def Item.heads : Item → List String
  | .line _ => []
  | .ifElse _ thenItems elseItems => headsOf thenItems ++ headsOf elseItems
  | .whileLoop _ body => headsOf body
  | .forLoop name _ _ _ body => name :: headsOf body

def headsOf : List Item → List String
  | [] => []
  | item :: rest => item.heads ++ headsOf rest

end

structure Careful (hooks spills scope : List String) (items : List Item) : Prop where
  lets : (letsOf items).Nodup
  spilled : spillsOf scope items ⊆ spills
  hooks : ∀ hook ∈ hooks, hook ∉ letsOf items ∧ hook ∉ headsOf items

structure Neat (hooks spills : List String) (function : Function) : Prop where
  params : function.params.Nodup
  free : ∀ hook ∈ hooks, hook ∉ function.params
  body : ∃ items, function.body = treesOf items ∧ Careful hooks spills function.params items
    ∧ ∀ name ∈ declaresOf items, name ∉ function.params

theorem Neat.tidy {hooks spills : List String} {function : Function} (h : Neat hooks spills function)
    : Tidy spills function := by
  obtain ⟨items, hbody, hcareful, hparams⟩ := h.body
  exact ⟨h.params, items, hbody, hcareful.lets, hparams, hcareful.spilled⟩

variable {body : List Item} {name : String} {stmt : Stmt} {rest : List Stmt}

section Careful

variable {hooks spills scope : List String} {item : Item} {items : List Item}

theorem Careful.cons (h : Careful hooks spills scope (item :: items))
    : Careful hooks spills scope [item] ∧ Careful hooks spills (item.declares ++ scope) items := by
  obtain ⟨hlets, hspilled, hhooks⟩ := h
  obtain ⟨hitem, hitems, -⟩ := nodup_append.mp hlets
  obtain ⟨hitem', hitems'⟩ := append_subset.mp hspilled
  simp only [letsOf, headsOf, mem_append, not_or] at hhooks
  refine ⟨⟨?_, ?_, fun hook hhook => ?_⟩, ⟨hitems, hitems', fun hook hhook => ?_⟩⟩
  · rwa [letsOf, letsOf, append_nil]
  · rwa [spillsOf, spillsOf, append_nil]
  · simpa [letsOf, headsOf] using ⟨(hhooks hook hhook).1.1, (hhooks hook hhook).2.1⟩
  · exact ⟨(hhooks hook hhook).1.2, (hhooks hook hhook).2.2⟩

theorem Careful.ifElse {cond : Code} {thenItems elseItems : List Item}
    (h : Careful hooks spills scope [.ifElse cond thenItems elseItems])
    : Careful hooks spills scope thenItems ∧ Careful hooks spills scope elseItems := by
  obtain ⟨hlets, hspilled, hhooks⟩ := h
  simp only [letsOf, Item.lets, append_nil, spillsOf, Item.spills, headsOf, Item.heads, mem_append, not_or]
    at hlets hspilled hhooks
  obtain ⟨hthen, helse, -⟩ := nodup_append.mp hlets
  obtain ⟨hthen', helse'⟩ := append_subset.mp hspilled
  exact ⟨⟨hthen, hthen', fun hook hhook => ⟨(hhooks hook hhook).1.1, (hhooks hook hhook).2.1⟩⟩,
    ⟨helse, helse', fun hook hhook => ⟨(hhooks hook hhook).1.2, (hhooks hook hhook).2.2⟩⟩⟩

theorem Careful.whileLoop {cond : Code} (h : Careful hooks spills scope [.whileLoop cond body])
    : Careful hooks spills scope body := by
  obtain ⟨hlets, hspilled, hhooks⟩ := h
  simp only [letsOf, Item.lets, append_nil, spillsOf, Item.spills, headsOf, Item.heads] at hlets hspilled hhooks
  exact ⟨hlets, hspilled, hhooks⟩

theorem Careful.forLoop {start limit step : Code} (h : Careful hooks spills scope [.forLoop name start limit step body])
    : Careful hooks spills (name :: scope) body ∧ name ∉ hooks := by
  obtain ⟨hlets, hspilled, hhooks⟩ := h
  simp only [letsOf, Item.lets, append_nil, spillsOf, Item.spills, headsOf, Item.heads, mem_cons, not_or]
    at hlets hspilled hhooks
  exact ⟨⟨hlets, hspilled, fun hook hhook => ⟨(hhooks hook hhook).1, (hhooks hook hhook).2.2⟩⟩,
    fun hmem => (hhooks name hmem).2.1 rfl⟩

theorem Careful.split (h : Careful hooks spills scope items) (htrees : treesOf items = stmt :: rest)
    : ∃ (item : Item) (items' : List Item), item.trees = [stmt] ∧ treesOf items' = rest
        ∧ declaresOf items = item.declares ++ declaresOf items'
        ∧ Careful hooks spills scope [item] ∧ Careful hooks spills (item.declares ++ scope) items'
        ∧ ∀ name ∈ declaresOf items', name ∉ item.declares := by
  induction items with
  | nil => exact nomatch htrees
  | cons item items ih =>
    obtain ⟨hitem, hitems⟩ := h.cons
    rw [treesOf] at htrees
    obtain hnil | ⟨stmt', htree⟩ := item.trees_eq
    · have hdeclares := item.declares_eq_nil hnil
      rw [hnil, nil_append] at htrees
      rw [hdeclares, nil_append] at hitems
      simpa [declaresOf, hdeclares] using ih hitems htrees
    · rw [htree, singleton_append, List.cons.injEq] at htrees
      obtain ⟨rfl, rfl⟩ := htrees
      refine ⟨item, items, htree, rfl, rfl, hitem, hitems, fun name hname hother => ?_⟩
      exact (nodup_append.mp h.lets).2.2 name (item.declares_sublist_lets.subset hother) name
        ((declaresOf_sublist_letsOf items).subset hname) rfl

end Careful

theorem mem_declaresOf_of_mem_treesOf {items : List Item} {value : Option Expr}
    (h : .declare name value ∈ treesOf items) : name ∈ declaresOf items := by
  induction items with
  | nil => cases h
  | cons item items ih =>
    rw [treesOf] at h
    obtain h | h := mem_append.mp h
    · refine mem_append_left _ ?_
      cases item with
      | line line =>
        have htree := Option.mem_toList.mp h
        cases line with
        | assign fresh | ask fresh =>
          cases fresh <;> cases htree
          exact mem_singleton_self name
        | call temporary =>
          cases temporary <;> cases htree
          exact mem_singleton_self name
        | pop =>
          cases htree
          exact mem_singleton_self name
        | _ => cases htree
      | _ => cases mem_singleton.mp h
    · exact mem_append_right _ (ih h)

structure Held (table : List (String × Function)) (hooks spills scope : List String) (items : List Item) (m : Machine)
    : Prop where
  careful : Careful hooks spills scope items
  fit : Fit table hooks spills scope (declaresOf items) m

/-- What activities look like that come up in the program of a graph, where these names are in scope. -/
def Arranged (table : List (String × Function)) (hooks spills scope : List String) (m : Machine) : Activity → Prop
  | .all stmts => ∃ functions ⊆ table, ∃ items, Held table hooks spills scope items m
    ∧ stmts = functions.map (fun function => .function function.1 function.2.params function.2.body) ++ treesOf items
  | .stmt stmt => (∃ names, Leaf table spills scope names stmt)
    ∨ ∃ item : Item, item.trees = [stmt] ∧ Careful hooks spills scope [item] ∧ ∀ line, item ≠ .line line
  | .call function _ => Neat hooks spills function
  | .loop _ update body => (∃ items, body = treesOf items ∧ Careful hooks spills scope items)
    ∧ ∀ stmt ∈ update, Leaf table spills scope [] stmt
  | .expr _ | .request _ => True

def HeldAt (table : List (String × Function)) (hooks spills : List String) (activity : Activity) (m : Machine) : Prop :=
  ∃ scope, Fit table hooks spills scope [] m ∧ Arranged table hooks spills scope m activity

section Runs

variable {table : List (String × Function)} {hooks spills scope : List String} {items : List Item} {m m' m₂ : Machine}
  {activity activity' : Activity}

theorem Arranged.forLoop {init update : Option Stmt} {cond : Option Expr} {body : List Stmt}
    (h : Arranged table hooks spills scope m (.stmt (.forLoop init cond update body)))
    : ∃ name start limit step items, (Item.forLoop name start limit step items).trees = [.forLoop init cond update body]
        ∧ Careful hooks spills scope [.forLoop name start limit step items] := by
  obtain ⟨_, ⟨⟩⟩ | ⟨item, htree, hitem, hline⟩ := h
  cases item with
  | line line => exact absurd rfl (hline line)
  | ifElse | whileLoop => cases htree
  | forLoop => exact ⟨_, _, _, _, _, htree, hitem⟩

theorem Held.all (h : Held table hooks spills scope items m) {functions : List (String × Function)}
    (hfunctions : functions ⊆ table)
    : HeldAt table hooks spills (.all (functions.map (fun function =>
        .function function.1 function.2.params function.2.body) ++ treesOf items)) m :=
  ⟨scope, h.fit.mono (nil_subset _), functions, hfunctions, items, h, rfl⟩

theorem Held.statement (h : Held table hooks spills scope items m) (htrees : treesOf items = stmt :: rest)
    : HeldAt table hooks spills (.stmt stmt) m := by
  obtain ⟨item, items', htree, -, -, hitem, -, -⟩ := h.careful.split htrees
  refine ⟨scope, h.fit.mono (nil_subset _), ?_⟩
  by_cases hline : ∃ line, item = .line line
  · obtain ⟨line, rfl⟩ := hline
    have hspilled := hitem.spilled
    rw [spillsOf, spillsOf, append_nil] at hspilled
    have hmem : stmt ∈ (Item.line line).trees := htree ▸ mem_singleton_self stmt
    exact .inl ⟨_, Line.leaf_tree hspilled (Option.mem_toList.mp hmem)⟩
  · exact .inr ⟨item, htree, hitem, fun line heq => hline ⟨line, heq⟩⟩

variable (htable : ∀ entry ∈ table, Neat hooks spills entry.2) (hspills : ∀ hook ∈ hooks, hook ∉ spills)

include htable hspills

theorem Held.next (h : Held table hooks spills scope items m) (htrees : treesOf items = stmt :: rest)
    (hgives : Gives (exec · stmt) m .normal m')
    : ∃ scope' items', rest = treesOf items' ∧ Held table hooks spills scope' items' m' := by
  obtain ⟨hcareful, hfit⟩ := h
  obtain ⟨item, items', htree, hrest, hdeclares, hitem, hitems, hapart⟩ := hcareful.split htrees
  rw [hdeclares] at hfit
  obtain ⟨hlets, hspilled, hhooks⟩ := hitem
  rw [letsOf, letsOf, append_nil] at hlets hhooks
  rw [spillsOf, spillsOf, append_nil] at hspilled
  have hmem : stmt ∈ item.trees := htree ▸ mem_singleton_self stmt
  refine ⟨_, items', hrest.symm, hitems, hfit.gives hgives (fun bound => ?_) hapart hspills fun hook hhook hname => ?_⟩
  · exact (declaresUpTo (fun entry hentry => (htable entry hentry).tidy) bound).item hlets hspilled hmem
  · exact (hhooks hook hhook).1 (item.declares_sublist_lets.subset hname)

theorem fit_of_evaluated (h : Fit table hooks spills scope [] m) {exprs : List Expr} (hexprs : Evaluated exprs m m')
    : Fit table hooks spills scope [] m' := by
  have hupTo := declaresUpTo fun entry hentry => (htable entry hentry).tidy
  induction hexprs with
  | nil => exact h
  | cons hvalue _ ih => exact ih (h.gives_nil hvalue (fun bound => (hupTo bound).quiet.eval _ scope) hspills)

theorem fit_of_holds (h : Fit table hooks spills scope [] m) {cond : Option Expr} (hholds : Holds cond m m')
    : Fit table hooks spills scope [] m' := by
  cases hholds with
  | always => exact h
  | test hvalue _ => exact fit_of_evaluated htable hspills h (.cons hvalue (.nil m'))

/-- One step of a run: what holds of an activity that is under way holds of the one to which it comes. -/
theorem HeldAt.starts (h : HeldAt table hooks spills activity m) (hopens : activity.Opens m m₂)
    (hstarts : Starts activity m₂ activity' m') : HeldAt table hooks spills activity' m' := by
  have hupTo := declaresUpTo fun entry hentry => (htable entry hentry).tidy
  obtain ⟨scope, hfit, harranged⟩ := h
  have hitems {arguments : List Expr} {args : List Value} {m₁ m' : Machine} (h : Gives (evalItems · arguments) m₁ args m')
      (hfit : Fit table hooks spills scope [] m₁) : Fit table hooks spills scope [] m' :=
    hfit.gives_nil h (fun bound => (hupTo bound).quiet.items arguments scope) hspills
  cases hstarts with
  | part hparts h =>
    cases activity with
    | expr | stmt =>
      obtain ⟨-, rfl⟩ := Encloses.descend hopens
      exact ⟨scope, fit_of_evaluated htable hspills hfit.deeper h, trivial⟩
    | loop =>
      cases hopens
      exact ⟨scope, fit_of_evaluated htable hspills hfit h, trivial⟩
    | all | call | request => exact absurd hparts (by simp [Activity.parts])
  | call h hname =>
    obtain ⟨-, rfl⟩ := Encloses.descend hopens
    have hfit' := hitems h hfit.deeper
    exact ⟨scope, hfit', htable _ (hfit'.functions (mem_of_lookup_eq_some hname))⟩
  | builtin h | log h =>
    obtain ⟨-, rfl⟩ := Encloses.descend hopens
    exact ⟨scope, hitems h hfit.deeper, trivial⟩
  | body function args =>
    obtain ⟨-, own, hown, rfl⟩ := Encloses.calling hopens
    obtain ⟨hparams, hhooks, items', hbody, hcareful, hfresh⟩ := harranged
    rw [hbody]
    exact Held.all ⟨hcareful, hfit.inFunction hparams hown hhooks hfresh⟩ (nil_subset _)
  | @arm stmt body _ _ harm h =>
    obtain ⟨-, rfl⟩ := Encloses.descend hopens
    have hinner := fit_of_evaluated htable hspills hfit.deeper h
    obtain ⟨_, hleaf⟩ | ⟨item, htree, hitem, hline⟩ := harranged
    · have harms : stmt.arms = [] := by cases hleaf <;> rfl
      rw [harms] at harm
      exact nomatch harm
    · cases item with
      | line line => exact absurd rfl (hline line)
      | whileLoop | forLoop =>
        cases htree
        exact absurd harm not_mem_nil
      | ifElse cond thenItems elseItems =>
        cases htree
        have hbody : body = treesOf thenItems ∨ body = treesOf elseItems := by simpa [Stmt.arms] using harm
        obtain rfl | rfl := hbody
        · exact Held.all ⟨hitem.ifElse.1, hinner.inner _⟩ (nil_subset _)
        · exact Held.all ⟨hitem.ifElse.2, hinner.inner _⟩ (nil_subset _)
  | first stmt rest =>
    cases hopens
    obtain ⟨functions, hfunctions, items, hheld, hstmts⟩ := harranged
    cases functions with
    | nil => exact hheld.statement hstmts.symm
    | cons function functions =>
      cases hstmts
      exact ⟨scope, hfit, .inl ⟨_, .function (hfunctions mem_cons_self)⟩⟩
  | rest h =>
    cases hopens
    obtain ⟨functions, hfunctions, items, hheld, hstmts⟩ := harranged
    cases functions with
    | nil =>
      obtain ⟨scope', items', rfl, hheld'⟩ := hheld.next htable hspills hstmts.symm h
      exact hheld'.all (nil_subset _)
    | cons function functions =>
      cases hstmts
      obtain ⟨hmem, hrest⟩ := cons_subset.mp hfunctions
      exact Held.all ⟨hheld.careful, hheld.fit.gives_nil h (fun bound => (hupTo bound).quiet.exec (.function hmem)) hspills⟩
        hrest
  | whileLoop cond body =>
    obtain ⟨-, rfl⟩ := Encloses.descend hopens
    obtain ⟨_, ⟨⟩⟩ | ⟨item, htree, hitem, hline⟩ := harranged
    cases item with
    | line line => exact absurd rfl (hline line)
    | ifElse | forLoop => cases htree
    | whileLoop cond items =>
      cases htree
      exact ⟨scope, hfit.deeper, ⟨items, rfl, hitem.whileLoop⟩, nofun⟩
  | init init update cond body =>
    obtain ⟨-, rfl⟩ := Encloses.descend hopens
    obtain ⟨name, _, _, _, _, ⟨⟩, -⟩ := harranged.forLoop
    exact ⟨scope, hfit.deeper.inner [], .inl ⟨_, .declare name _⟩⟩
  | forLoop h =>
    obtain ⟨-, rfl⟩ := Encloses.descend hopens
    obtain ⟨name, _, _, _, items, ⟨⟩, hitem⟩ := harranged.forLoop
    obtain ⟨hbody, hname⟩ := hitem.forLoop
    have hinner : Fit table hooks spills scope ([name] ++ []) _ := hfit.deeper.inner [name]
    have hhead := hinner.gives h (fun bound => (hupTo bound).quiet.execOption (.declare name _)) nofun hspills
      fun hook hhook hmem => hname (mem_singleton.mp hmem ▸ hhook)
    refine ⟨name :: scope, hhead, ⟨items, rfl, hbody⟩, ?_⟩
    rintro _ ⟨⟩
    exact .assign (fun _ _ => .inl rfl) _
  | round h =>
    cases hopens
    obtain ⟨⟨items, rfl, hcareful⟩, -⟩ := harranged
    exact Held.all ⟨hcareful, (fit_of_holds htable hspills hfit h).inner _⟩ (nil_subset _)
  | update h hround =>
    cases hopens
    obtain ⟨⟨items, rfl, hcareful⟩, hupdate⟩ := harranged
    refine ⟨scope, (fit_of_holds htable hspills hfit h).gives_nil hround (fun bound => ?_) hspills, .inl ⟨_, hupdate _ rfl⟩⟩
    exact .inScope ((hupTo bound).all hcareful.lets hcareful.spilled)
  | @again update _ _ _ _ _ _ _ h hround hupdates =>
    cases hopens
    obtain ⟨⟨items, rfl, hcareful⟩, hupdate⟩ := harranged
    have hbody := (fit_of_holds htable hspills hfit h).gives_nil hround
      (fun bound => .inScope ((hupTo bound).all hcareful.lets hcareful.spilled)) hspills
    refine ⟨scope, hbody.gives_nil hupdates (fun bound => ?_) hspills, ⟨items, rfl, hcareful⟩, hupdate⟩
    cases update with
    | none =>
      cases bound with
      | zero => exact .exhausted
      | succ bound => exact .pure (fun _ => rfl) _
    | some stmt => exact (hupTo bound).quiet.execOption (hupdate stmt rfl)

theorem HeldAt.progress {first : Activity} (h : HeldAt table hooks spills first m) {stack : List Activity}
    (hprogress : InProgress first m stack activity m') : HeldAt table hooks spills activity m' := by
  induction hprogress with
  | start => exact h
  | next _ hopens hstarts ih => exact ih.starts htable hspills hopens hstarts

end Runs

section Emission

open Build

variable {r : Routine} {marks : Prop} {node : Node} {bindings bindings' : Bindings} {items : List Item}

theorem headsOf_append (items items' : List Item) : headsOf (items ++ items') = headsOf items ++ headsOf items' := by
  induction items with
  | nil => rfl
  | cons item items ih => rw [cons_append, headsOf, ih, headsOf, append_assoc]

@[simp]
theorem headsOf_enter : headsOf (enter r node) = [] := by
  unfold enter
  split <;> rfl

@[simp]
theorem headsOf_notify (name : String) : headsOf (notify r name) = [] := by
  unfold notify
  split <;> rfl

theorem Passes.heads (h : Passes r marks node bindings items bindings') : headsOf items = [] := by
  cases h <;> simp [headsOf_append, headsOf, Item.heads]

theorem Ends.heads {temps : List (Endpoint × Code)} (h : Ends r marks node temps items) : headsOf items = [] := by
  cases h <;> simp [headsOf_append, headsOf, Item.heads]

theorem Heads.heads {head : List Item → Item} (h : Heads r marks node bindings head bindings')
    (hreserves : r.Reserves) (hnode : node ∈ r.wiring.nodes)
    (hbody : headsOf body ⊆ r.functions.taken) : (head body).heads ⊆ r.functions.taken := by
  cases h with
  | forLoop =>
    simp only [Item.heads, headsOf_append, headsOf_enter, headsOf_notify, nil_append]
    exact cons_subset.mpr ⟨hreserves.bound node hnode "i" (by decide), hbody⟩
  | whileLoop =>
    simp only [Item.heads, headsOf_append, headsOf_enter, nil_append]
    exact hbody

theorem Emits.heads {tour : Tour} (h : Emits r marks tour bindings items bindings') (hreserves : r.Reserves)
    (hnodes : ∀ node ∈ tour.nodes, node ∈ r.wiring.nodes) : headsOf items ⊆ r.functions.taken := by
  induction h with
  | stop | cut => exact nil_subset _
  | pass h _ ih =>
    rw [headsOf_append, h.heads, nil_append]
    exact ih fun node hnode => hnodes node (mem_cons_of_mem _ hnode)
  | last h =>
    rw [h.heads]
    exact nil_subset _
  | branch _ _ _ ihTrue ihFalse =>
    simp only [headsOf_append, headsOf_enter, headsOf, Item.heads, nil_append, append_nil]
    refine append_subset.mpr ⟨ihTrue fun node hnode => hnodes node ?_, ihFalse fun node hnode => hnodes node ?_⟩
    · exact mem_cons_of_mem _ (mem_append_left _ hnode)
    · exact mem_cons_of_mem _ (mem_append_right _ hnode)
  | loop hhead _ _ ihBody ihRest =>
    simp only [headsOf_append, headsOf_enter, headsOf, nil_append, append_nil]
    have hbody := ihBody fun node hnode => hnodes node (mem_cons_of_mem _ (mem_append_left _ hnode))
    have hheads := hhead.heads hreserves (hnodes _ mem_cons_self) hbody
    refine append_subset.mpr ⟨hheads, ihRest fun node hnode => ?_⟩
    exact hnodes node (mem_cons_of_mem _ (mem_append_right _ hnode))

end Emission

namespace Job

open List

variable {job : Job} {hooks : List String}
  (hhooks : ∀ hook ∈ hooks, hook ∈ noticeNames ∧ hook ∉ (Signatures.ofGraph job.graph).taken)

def spillsAll (job : Job) : List String :=
  ((job.compileMain? (.ofGraph job.graph)).elim [] fun main => spillsOf [] main.1) ++ job.spills

include hhooks

theorem careful_compiled {outset : Outset} (h : outset ∈ job.outsets) {spills scope : List String}
    (hspills : spillsOf scope outset.compiled.1 ⊆ spills) : Careful hooks spills scope outset.compiled.1 := by
  have hfunctions := (routine_of_mem_outsets h).2
  obtain ⟨after, hintroduces⟩ := introduces_compiled h
  refine ⟨hintroduces.nodup, hspills, fun hook hhook => ?_⟩
  obtain ⟨hnotice, hfree⟩ := hhooks hook hhook
  rw [← hfunctions] at hfree
  refine ⟨fun hlet => ?_, fun hhead => hfree ?_⟩
  · obtain hdeclared | ⟨-, base, hbase, n, -, rfl⟩ := hintroduces.used hook hlet
    · exact hfree (hintroduces.taken hdeclared)
    · exact numbered_not_mem_noticeNames hbase n hnotice
  · obtain ⟨_, hemits⟩ := outset.routine.emits_compileFrom outset.entry outset.depth
    exact hemits.heads (reserves_of_mem_outsets h) (follows_of_mem_outsets h).mem_nodes hhead

theorem neat_function {sig : Signature} (h : sig ∈ (Signatures.ofGraph job.graph).list)
    : Neat hooks job.spillsAll (job.function sig) := by
  have hspills : job.spillsOfFunction sig ⊆ job.spillsAll :=
    fun name hname => mem_append_right _ (mem_flatMap.mpr ⟨sig, h, hname⟩)
  refine ⟨(Signatures.distinct_ofGraph job.graph sig h).params, fun hook hhook hparam => ?_, _, rfl, ?_⟩
  · exact (hhooks hook hhook).2 ((Signatures.apart_ofGraph job.graph sig h).takesParams hook hparam)
  · unfold spillsOfFunction at hspills
    obtain hnil | ⟨outset, hmem, hsig, heq⟩ := compileFunction_cases h
    · rw [hnil]
      exact ⟨⟨nodup_nil, nil_subset _, fun _ _ => ⟨not_mem_nil, not_mem_nil⟩⟩, nofun⟩
    · rw [heq] at hspills ⊢
      refine ⟨careful_compiled hhooks hmem hspills, fun name hname => ?_⟩
      exact (declares_once hmem).2 sig hsig name ((declaresOf_sublist_letsOf _).subset hname)

omit hhooks in
theorem spillsAll_subset : job.spillsAll ⊆ (Signatures.ofGraph job.graph).taken := by
  refine append_subset.mpr ⟨?_, fun name hname => ?_⟩
  · cases hmain : job.compileMain? (.ofGraph job.graph) with
    | none => exact nil_subset _
    | some main =>
      obtain ⟨after, hintroduces⟩ := introduces_main hmain
      exact fun name hname => hintroduces.taken (hintroduces.spilled [] name hname)
  · obtain ⟨sig, hsig, hname⟩ := mem_flatMap.mp hname
    unfold spillsOfFunction at hname
    obtain hnil | ⟨outset, hmem, -, heq⟩ := compileFunction_cases hsig
    · rw [hnil] at hname
      exact nomatch hname
    · rw [heq] at hname
      obtain ⟨after, hintroduces⟩ := introduces_compiled hmem
      rw [← (routine_of_mem_outsets hmem).2]
      exact hintroduces.taken (hintroduces.spilled _ name hname)

variable {m : Machine}

theorem held_of_reaches [Generator] {items : List Item} (hitems : treesOf items ≠ []) {seed : Option Nat} {maxCalls : Nat}
    (hreaches : job.program.Reaches seed maxCalls (treesOf items) m)
    : ∃ scope items', treesOf items = treesOf items' ∧ Held job.functions hooks job.spillsAll scope items' m := by
  have htable : ∀ entry ∈ job.functions, Neat hooks job.spillsAll entry.2 := by
    intro entry hentry
    obtain ⟨sig, hsig, rfl⟩ := mem_map.mp hentry
    exact neat_function hhooks hsig
  have hspills : ∀ hook ∈ hooks, hook ∉ job.spillsAll := fun hook hhook hspilled =>
    (hhooks hook hhook).2 (spillsAll_subset hspilled)
  obtain ⟨stack, hprogress⟩ := hreaches
  cases hmain : job.compileMain? (.ofGraph job.graph) with
  | none =>
    have hbody : job.program.body = [] := by
      unfold program
      dsimp only
      rw [hmain]
    rw [hbody] at hprogress
    exact absurd (Activity.all.inj hprogress.all_nil) hitems
  | some main =>
    have hcareful : Careful hooks job.spillsAll [] main.1 := by
      have hmem : spillsOf [] main.1 ⊆ job.spillsAll := by
        refine List.Subset.trans ?_ (subset_append_left _ _)
        rw [hmain]
        exact List.Subset.refl _
      rw [compileMain?_eq] at hmain
      obtain ⟨outset, houtset, rfl⟩ := Option.map_eq_some_iff.mp hmain
      exact careful_compiled hhooks (mem_append_left _ (Option.mem_toList.mpr houtset)) hmem
    rw [body_program hmain, Machine.defineAll_eq, functions_program hmain] at hprogress
    have hfit : Fit job.functions hooks job.spillsAll [] (declaresOf main.1)
        { Machine.start seed maxCalls with functions := job.functions.reverse ++ [] } := by
      refine ⟨?_, ?_, ⟨nofun, by rintro _ ⟨⟩⟩, fun _ name _ => nofun, fun _ _ => rfl⟩
      · simp
      · simp
    obtain ⟨scope, -, functions, -, items', hheld, htrees⟩ :=
      (Held.all ⟨hcareful, hfit⟩ (List.Subset.refl _)).progress htable hspills hprogress
    -- The functions come first, and none of them is among the statements.
    have hnone := functions_treesOf items
    cases functions with
    | nil => exact ⟨scope, items', htrees, hheld⟩
    | cons function functions =>
      rw [htrees] at hnone
      exact nomatch hnone

omit hhooks in
theorem function?_name (hfunctions : m.functions ⊆ job.functions) (hdefined : job.functions ⊆ m.functions)
    {sig : Signature} (h : sig ∈ (Signatures.ofGraph job.graph).list)
    : m.function? sig.name = some (job.function sig) := by
  cases hfunction : m.function? sig.name with
  | none =>
    have hmem := hdefined (mem_map_of_mem h)
    simpa using lookup_eq_none_iff.mp hfunction _ hmem
  | some function =>
    obtain ⟨sig', hsig', heq⟩ := mem_map.mp (hfunctions (mem_of_lookup_eq_some hfunction))
    obtain ⟨hname, rfl⟩ := Prod.ext_iff.mp heq
    rw [Signatures.name_inj job.graph hsig' h hname]

omit hhooks in
theorem function?_eq_none (hfunctions : m.functions ⊆ job.functions)
    (h : name ∉ (Signatures.ofGraph job.graph).taken) : m.function? name = none := by
  cases hfunction : m.function? name with
  | none => rfl
  | some function =>
    obtain ⟨sig, hsig, heq⟩ := mem_map.mp (hfunctions (mem_of_lookup_eq_some hfunction))
    obtain ⟨rfl, -⟩ := Prod.ext_iff.mp heq
    exact absurd (Signatures.apart_ofGraph job.graph sig hsig).takes h

end Job

end NodeScript.Compile
