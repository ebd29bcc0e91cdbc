import Mathlib.Algebra.Order.BigOperators.Group.List
import NodeScript.Proofs.Declarations
import NodeScript.Proofs.ExpressionLimit
import NodeScript.Proofs.Headroom
import NodeScript.Proofs.Widening

/-!
Programs of graphs declare no name twice, unless a function has spilled into the scope of the program a name that the
program declares later.
-/

namespace NodeScript.Compile

open List Script Exec

theorem Line.leaf_tree {table : List (String × Function)} {spills scope : List String} {line : Line}
    (h : (line.assigns.filter fun name => !scope.contains name) ⊆ spills) {stmt : Stmt} (hstmt : line.tree? = some stmt)
    : Leaf table spills scope line.declares stmt := by
  have hassign : ∀ name, line.assigns = [name] → ∀ other, Target.variable name = .variable other
        → AssignOp.reads .assign = true ∨ other ∈ scope ∨ other ∈ spills := by
    rintro name hname _ ⟨⟩
    refine .inr ?_
    by_cases hscope : name ∈ scope
    · exact .inl hscope
    · exact .inr (h (by simp [hname, hscope]))
  cases line with
  | assign fresh name value | ask fresh name message =>
    cases hstmt
    cases fresh with
    | true => exact .declare name _
    | false => exact .assign (hassign name rfl) _
  | pop temporary array =>
    cases hstmt
    exact .declare temporary _
  | call temporary function arguments =>
    cases hstmt
    cases temporary with
    | none => exact .expr _
    | some name => exact .declare name _
  | store array index value =>
    cases hstmt
    exact .assign (by rintro _ ⟨⟩) _
  | enter | notify | print | push =>
    cases hstmt
    exact .expr _
  | breakLoop =>
    cases hstmt
    exact .breakLoop
  | continueLoop =>
    cases hstmt
    exact .continueLoop
  | returnNothing | returnValue | returnRecord =>
    cases hstmt
    exact .returnValue _
  | unknownFunction | nestingTooDeep => cases hstmt

structure Tidy (spills : List String) (function : Function) : Prop where
  params : function.params.Nodup
  body : ∃ items, function.body = treesOf items ∧ (letsOf items).Nodup
    ∧ (∀ name ∈ declaresOf items, name ∉ function.params) ∧ spillsOf function.params items ⊆ spills

structure DeclaresUpTo (table : List (String × Function)) (spills : List String) (bound : Nat) : Prop where
  quiet : Quiet table spills bound
  all {items : List Item} {scope : List String} (hlets : (letsOf items).Nodup) (hspills : spillsOf scope items ⊆ spills)
    : Declares table False spills scope (declaresOf items) (execAll bound (treesOf items))
  item {item : Item} {scope : List String} (hlets : item.lets.Nodup) (hspills : item.spills scope ⊆ spills) {stmt : Stmt}
      (hstmt : stmt ∈ item.trees)
    : Declares table True spills scope item.declares (exec bound stmt)
  loop (cond : Expr) {update : Option Stmt} {body : List Item} {scope : List String}
      (hupdate : ∀ stmt ∈ update, Leaf table spills scope [] stmt) (hlets : (letsOf body).Nodup)
      (hspills : spillsOf scope body ⊆ spills)
    : Declares table True spills scope [] (execLoop bound (some cond) update (treesOf body))

section Statements

variable {table : List (String × Function)} {spills : List String}

theorem declaresUpTo_zero : DeclaresUpTo table spills 0 where
  quiet := quiet_zero
  all _ _ := .exhausted
  item _ _ _ _ := .exhausted
  loop _ _ _ _ _ _ _ := .exhausted

section Steps

variable {bound : Nat} (ih : DeclaresUpTo table spills bound)
include ih

theorem declares_all_succ {items : List Item} {scope : List String} (hlets : (letsOf items).Nodup)
    (hspills : spillsOf scope items ⊆ spills)
    : Declares table False spills scope (declaresOf items) (execAll (bound + 1) (treesOf items)) := by
  induction items with
  | nil => exact .pure False.elim _
  | cons item rest ihRest =>
    obtain ⟨hitem, hrest, hdisjoint⟩ := nodup_append.mp hlets
    obtain ⟨hitemSpills, hrestSpills⟩ := append_subset.mp hspills
    rw [treesOf, declaresOf, flatMap_cons]
    obtain htrees | ⟨stmt, htrees⟩ := item.trees_eq
    · -- A comment declares nothing.
      rw [htrees, nil_append, item.declares_eq_nil htrees, nil_append]
      rw [item.declares_eq_nil htrees, nil_append] at hrestSpills
      exact ihRest hrest hrestSpills
    · rw [htrees, singleton_append]
      have hmem : stmt ∈ item.trees := htrees ▸ mem_singleton_self stmt
      have hnames : ∀ name ∈ declaresOf rest, name ∉ item.declares := fun name hname hother =>
        hdisjoint name (item.declares_sublist_lets.subset hother) name
          ((declaresOf_sublist_letsOf rest).subset hname) rfl
      refine .bind (ih.item hitem hitemSpills hmem) (fun flow => ?_) hnames
      cases flow with
      | normal => exact ih.all hrest hrestSpills
      | broke | continued | returned => exact .pure False.elim _

theorem declares_item_succ {item : Item} {scope : List String} (hlets : item.lets.Nodup)
    (hspills : item.spills scope ⊆ spills) {stmt : Stmt} (hstmt : stmt ∈ item.trees)
    : Declares table True spills scope item.declares (exec (bound + 1) stmt) := by
  cases item with
  | line line => exact ih.quiet.exec_succ (Line.leaf_tree hspills (Option.mem_toList.mp hstmt))
  | ifElse cond thenItems elseItems =>
    cases mem_singleton.mp hstmt
    obtain ⟨hthen, helse, -⟩ := nodup_append.mp hlets
    obtain ⟨hthenSpills, helseSpills⟩ := append_subset.mp hspills
    unfold exec
    refine .descend (.after (ih.quiet.eval cond.tree scope) fun test => ?_)
    split
    · exact .inScope (ih.all hthen hthenSpills)
    · exact .inScope (ih.all helse helseSpills)
  | whileLoop cond body =>
    cases mem_singleton.mp hstmt
    unfold exec
    exact .descend (ih.loop cond.tree (by simp) hlets hspills)
  | forLoop name start limit step body =>
    cases mem_singleton.mp hstmt
    unfold exec
    have hupdate : ∀ stmt ∈ some (Stmt.assign (.variable name) .add step.tree),
        Leaf table spills (name :: scope) [] stmt := by
      rintro _ ⟨⟩
      exact .assign (fun _ _ => .inl rfl) _
    have hloop := ih.loop (.binary .less (.identifier name) limit.tree) hupdate hlets hspills
    exact .descend (.inScope (.bind (ih.quiet.execOption (.declare name _)) (fun _ => hloop) (by simp)))

theorem declares_loop_succ (cond : Expr) {update : Option Stmt} {body : List Item} {scope : List String}
    (hupdate : ∀ stmt ∈ update, Leaf table spills scope [] stmt) (hlets : (letsOf body).Nodup)
    (hspills : spillsOf scope body ⊆ spills)
    : Declares table True spills scope [] (execLoop (bound + 1) (some cond) update (treesOf body)) := by
  have hoption : Declares table True spills scope [] (execOption bound update) := by
    cases update with
    | none =>
      cases bound with
      | zero => exact .exhausted
      | succ bound => exact .pure (fun _ => rfl) _
    | some stmt => exact ih.quiet.execOption (hupdate stmt rfl)
  have hagain := Declares.after hoption fun _ => ih.loop cond hupdate hlets hspills
  refine .after (.map (ih.quiet.eval cond scope)) fun holds => ?_
  cases holds with
  | false => exact .pure (fun _ => rfl) _
  | true =>
    refine .after (.inScope (ih.all hlets hspills)) fun flow => ?_
    cases flow with
    | normal | continued => exact hagain
    | broke | returned => exact .pure (fun _ => rfl) _

theorem declares_callFunction_succ {function : Function} (h : Tidy spills function) (args : List Value)
    (scope : List String) : Declares table True spills scope [] (callFunction (bound + 1) function args) := by
  obtain ⟨items, hbody, hlets, hparams, hspills⟩ := h.body
  unfold callFunction
  rw [hbody]
  exact .calling h.params (.map (ih.all hlets hspills)) hparams args

end Steps

theorem declaresUpTo (htable : ∀ entry ∈ table, Tidy spills entry.2) (bound : Nat)
    : DeclaresUpTo table spills bound := by
  induction bound with
  | zero => exact declaresUpTo_zero
  | succ bound ih =>
    have hquiet := ih.quiet.succ fun entry hentry => declares_callFunction_succ ih (htable entry hentry)
    exact ⟨hquiet, declares_all_succ ih, declares_item_succ ih, declares_loop_succ ih⟩

end Statements

namespace Job

def spillsOfFunction (job : Job) (sig : Signature) : List String :=
  spillsOf sig.params (job.compileFunction (.ofGraph job.graph) sig).1

def spills (job : Job) : List String :=
  (Signatures.ofGraph job.graph).list.flatMap job.spillsOfFunction

def declared (job : Job) : List String :=
  (job.compileMain? (.ofGraph job.graph)).elim [] fun main => declaresOf main.1

variable {job : Job} {main : List Item × List Diagnostic}

theorem compileFunction_cases {sig : Signature} (h : sig ∈ (Signatures.ofGraph job.graph).list)
    : (job.compileFunction (.ofGraph job.graph) sig).1 = []
        ∨ ∃ outset ∈ job.outsets, outset.routine.signature = some sig
          ∧ (job.compileFunction (.ofGraph job.graph) sig).1 = outset.compiled.1 := by
  rw [compileFunction_eq]
  cases houtset : job.functionOutset? sig with
  | none => exact .inl rfl
  | some outset =>
    refine .inr ⟨outset, mem_append_right _ (mem_filterMap.mpr ⟨sig, h, houtset⟩), ?_, rfl⟩
    obtain ⟨entry, -, rfl⟩ := Option.map_eq_some_iff.mp houtset
    rfl

theorem tidy_function {sig : Signature} (h : sig ∈ (Signatures.ofGraph job.graph).list) {names : List String}
    (hnames : job.spills ⊆ names) : Tidy names (job.function sig) := by
  have hspills : job.spillsOfFunction sig ⊆ names :=
    fun name hname => hnames (mem_flatMap.mpr ⟨sig, h, hname⟩)
  refine ⟨(Signatures.distinct_ofGraph job.graph sig h).params, _, rfl, ?_⟩
  unfold spillsOfFunction at hspills
  obtain hnil | ⟨outset, hmem, hsig, heq⟩ := compileFunction_cases h
  · rw [hnil]
    exact ⟨nodup_nil, nofun, nil_subset _⟩
  · rw [heq] at hspills ⊢
    obtain ⟨hlets, hparams⟩ := declares_once hmem
    refine ⟨hlets, fun name hname => ?_, hspills⟩
    exact hparams sig hsig name ((declaresOf_sublist_letsOf _).subset hname)

theorem introduces_main (hmain : job.compileMain? (.ofGraph job.graph) = some main)
    : ∃ after, Introduces job.mainRoutine job.mainRoutine.start.bindings main.1 after := by
  rw [compileMain?_eq] at hmain
  obtain ⟨outset, houtset, rfl⟩ := Option.map_eq_some_iff.mp hmain
  have hintroduces := introduces_compiled (mem_append_left _ (Option.mem_toList.mpr houtset))
  obtain ⟨entry, -, rfl⟩ := Option.map_eq_some_iff.mp houtset
  exact hintroduces

theorem declares_body (hmain : job.compileMain? (.ofGraph job.graph) = some main) (bound : Nat)
    : Declares job.functions False (spillsOf [] main.1 ++ job.spills) [] (declaresOf main.1)
        (execAll bound job.program.body) := by
  have htable : ∀ entry ∈ job.functions, Tidy (spillsOf [] main.1 ++ job.spills) entry.2 := by
    intro entry hentry
    obtain ⟨sig, hsig, rfl⟩ := mem_map.mp hentry
    exact tidy_function hsig (subset_append_right _ _)
  obtain ⟨after, hintroduces⟩ := introduces_main hmain
  rw [body_program hmain]
  -- The functions come first: each is declared once more, as the one that it is.
  have hfunctions : ∀ functions ⊆ job.functions, ∀ bound,
      Declares job.functions False (spillsOf [] main.1 ++ job.spills) [] (declaresOf main.1) (execAll bound
        (functions.map (fun function => .function function.1 function.2.params function.2.body) ++ treesOf main.1)) := by
    intro functions hfunctions
    induction functions with
    | nil => exact fun bound => (declaresUpTo htable bound).all hintroduces.nodup (subset_append_left _ _)
    | cons function rest ih =>
      obtain ⟨hfunction, hrest⟩ := cons_subset.mp hfunctions
      intro bound
      cases bound with
      | zero => exact .exhausted
      | succ bound =>
        refine .after ((declaresUpTo htable bound).quiet.exec (.function hfunction)) fun flow => ?_
        cases flow with
        | normal => exact ih hrest bound
        | broke | continued | returned => exact .pure False.elim _
  exact hfunctions _ (List.Subset.refl _) bound

theorem results_run [Generator] (bound : Nat) (seed : Option Nat) (maxCalls : Nat)
    : (run bound job.program (.start seed maxCalls)).Results (fun _ => True) fun result =>
        ∀ name, result.1 = .error (.redeclared name) → name ∈ job.declared ∧ name ∈ job.spills := by
  cases hmain : job.compileMain? (.ofGraph job.graph) with
  | none =>
    have hprogram : job.program = ⟨[]⟩ := by
      unfold program
      dsimp only
      rw [hmain]
    rw [hprogram]
    cases bound with
    | zero => exact .exhausted
    | succ bound => exact .done nofun
  | some main =>
    have hstart : (Machine.start seed maxCalls).defineAll job.program.functions
        = { Machine.start seed maxCalls with functions := job.functions.reverse ++ [] } := by
      rw [Machine.defineAll_eq, functions_program hmain]
      rfl
    change ((execAll bound job.program.body ((Machine.start seed maxCalls).defineAll job.program.functions)).bind _).Results _ _
    rw [hstart]
    have hready : Env.Ready [] (declaresOf main.1) Env.empty := ⟨nofun, by rintro _ ⟨⟩⟩
    refine (declares_body hmain bound _ ?_ hready).bind ?_
    · rw [append_nil]
      exact reverse_subset.mpr (List.Subset.refl _)
    rintro ⟨e | flow, m⟩ hresult
    · refine .done fun name heq => ?_
      cases heq
      obtain ⟨-, hname, hspilled⟩ := hresult name rfl
      obtain hspilled | hspilled := mem_append.mp (hspilled.resolve_left not_mem_nil)
      · obtain ⟨after, hintroduces⟩ := introduces_main hmain
        exact absurd hspilled (hintroduces.apart [] name hname)
      · refine ⟨?_, hspilled⟩
        unfold declared
        rw [hmain]
        exact hname
    · cases flow with
      | normal | broke | continued | returned => exact .done nofun

theorem eq_program_of_parse (h : ∀ outset ∈ job.outsets, outset.routine.Legible outset.tour) {program : Program}
    (hparse : Program.parse job.compile.code = .ok program) : program = job.program := by
  let height := ((job.outsets.flatMap fun outset => codesOf outset.compiled.1).map Code.height).sum
  have hfits : ∀ outset ∈ job.outsets, FitsAll (Code.Within height) (maxNesting + 1) outset.compiled.1 := by
    intro outset houtset
    refine (fits_of_legible houtset (h outset houtset)).and fun code hcode => ?_
    exact le_sum_of_mem (mem_map_of_mem (mem_flatMap.mpr ⟨outset, houtset, hcode⟩))
  exact Program.eq_of_parse_of_isBlock (isBlock_code hfits) hparse

/-- In what is compiled for a graph, no two lines declare one name, and none declares a parameter. A run of it fails to
declare a name only where the program itself declares the name and a function spills it, in whatever branches it goes
and however often it loops or calls. -/
theorem redeclares_only_spilled [Generator] (job : Job) : (∀ outset ∈ job.outsets, (letsOf outset.compiled.1).Nodup
          ∧ ∀ signature ∈ outset.routine.signature, ∀ name ∈ letsOf outset.compiled.1, name ∉ signature.params)
        ∧ ((∀ outset ∈ job.outsets, outset.routine.Legible outset.tour) → ∀ bound options host name,
          ((Run.dialog bound job.compile.code options).play host).result = some (.error (.redeclared name))
            → name ∈ job.declared ∧ name ∈ job.spills) := by
  refine ⟨fun outset houtset => declares_once houtset, ?_⟩
  intro hlegible bound options host name hresult
  have hverdict : (Run.dialog bound job.compile.code options).Results (fun _ => True) fun verdict =>
      ∀ name, verdict = .error (.redeclared name) → name ∈ job.declared ∧ name ∈ job.spills := by
    unfold Run.dialog runSource
    cases hparse : Program.parse job.compile.code with
    | error e => exact .done nofun
    | ok program =>
      rw [eq_program_of_parse hlegible hparse]
      exact (results_run bound options.seed options.maxCalls).bind fun _ hended => .done hended
  exact hverdict.of_play host hresult name rfl

def settings : Graph where
  nodes :=
    [⟨"start", .start, none, {}⟩,
     ⟨"call", .callFunction, none, { functionId := some "f", inlineValues := .ofList [("p", "true")] }⟩,
     ⟨"make", .arrayCreate, none, { variableName := some "list" }⟩,
     ⟨"loop", .forLoop, none, {}⟩,
     ⟨"ask", .input, none, { variableName := some "x" }⟩,
     ⟨"after", .set, none, { variableName := some "x" }⟩,
     ⟨"pop", .arrayPop, none, { variableName := some "list" }⟩]
  edges :=
    [.control "start" "exec-out" "call", .control "call" "exec-out" "make", .control "make" "exec-out" "loop",
     .control "loop" "body" "ask", .control "ask" "exec-out" "pop", .control "loop" "done" "after",
     .control "after" "exec-out" "pop"]
  functions := .ofList [("f",
    { id := "f"
      name := "x"
      params := [⟨"p", "x", .boolean⟩]
      nodes :=
        [⟨"entry", .functionEntry, none, {}⟩, ⟨"first", .set, none, { variableName := some "y" }⟩,
         ⟨"if", .branch, none, {}⟩, ⟨"again", .callFunction, none, { functionId := some "f" }⟩,
         ⟨"last", .set, none, { variableName := some "y" }⟩]
      edges :=
        [.control "entry" "exec-out" "first", .control "first" "exec-out" "if", .control "if" "true" "again",
         .control "again" "exec-out" "last", .control "if" "false" "last", .data "entry" "p" "if" "condition"] })]

theorem redeclares_only_spilled_settings
    : let job : Job := ⟨settings, ⟨true⟩, {}⟩
      (∀ outset ∈ job.outsets, outset.routine.Legible outset.tour)
        ∧ job.declared = ["list", "__pop_1"] ∧ job.spills = []
        ∧ ∀ bound options host name,
          ((Run.dialog bound job.compile.code options).play host).result ≠ some (.error (.redeclared name)) := by
  intro job
  have hlegible : ∀ outset ∈ job.outsets, outset.routine.Legible outset.tour := fun outset houtset =>
    (legible_of_hasTokens (by decide +kernel) outset houtset).statements
  have hspills : job.spills = [] := by decide +kernel
  refine ⟨hlegible, by decide +kernel, hspills, fun bound options host name hresult => ?_⟩
  obtain ⟨-, hname⟩ := (redeclares_only_spilled job).2 hlegible bound options host name hresult
  rw [hspills] at hname
  exact not_mem_nil hname

def spilledName : Graph where
  nodes :=
    [⟨"s", .start, none, {}⟩, ⟨"c", .callFunction, none, { functionId := some "f" }⟩,
     ⟨"w", .set, none, { variableName := some "x", inlineValues := .ofList [("value", "5")] }⟩]
  edges := [.control "s" "exec-out" "c", .control "c" "exec-out" "w"]
  functions := .ofList [("f",
    { id := "f"
      name := "f"
      nodes :=
        [⟨"e", .functionEntry, none, {}⟩, ⟨"i", .branch, none, { inlineValues := .ofList [("condition", "false")] }⟩,
         ⟨"a", .set, none, { variableName := some "x", inlineValues := .ofList [("value", "1")] }⟩,
         ⟨"b", .set, none, { variableName := some "x", inlineValues := .ofList [("value", "2")] }⟩]
      edges := [.control "e" "exec-out" "i", .control "i" "true" "a", .control "i" "false" "b"] })]

theorem spilledName_redeclares
    : let job : Job := ⟨spilledName, ⟨false⟩, {}⟩
      job.declared = ["x"] ∧ job.spills = ["x"]
        ∧ ((Run.dialog 1000 job.compile.code ⟨.manual, none, 64⟩).play ⟨[], none⟩).result
          = some (.error (.redeclared "x")) := by
  intro job
  refine ⟨by decide +kernel, by decide +kernel, ?_⟩
  exact Dialog.eq_of_isFailure (by decide +kernel)

end Job

end NodeScript.Compile
