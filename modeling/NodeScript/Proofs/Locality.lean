import NodeScript.Proofs.Programs

/-!
Which variables of the program a call of one of its functions can change. Functions write to variables
of their own, but for those that are written where no scope around has them.
-/

namespace NodeScript.Compile

open List

variable {name : String} {r : Routine}

open Script

namespace Line

def declares : Line → List String
  | assign true name _ | ask true name _ | pop name _ | call (some name) _ _ => [name]
  | _ => []

def writes : Line → List String
  | assign false name _ | ask false name _ | push name _ | pop _ name | store name _ _ => [name]
  | _ => []

end Line

def Item.declares : Item → List String
  | .line l => l.declares
  | _ => []

mutual

def Item.strays (scope : List String) : Item → List String
  | .line line => line.writes.filter fun name => !scope.contains name
  | .ifElse _ thenItems elseItems => straysOf scope thenItems ++ straysOf scope elseItems
  | .whileLoop _ body => straysOf scope body
  | .forLoop name _ _ _ body => straysOf (name :: scope) body

def straysOf (scope : List String) : List Item → List String
  | [] => []
  | item :: rest => item.strays scope ++ straysOf (item.declares ++ scope) rest

end

def Line.IsLocal (hooks : List String) : Line → Prop
  | enter _ => "__onNode" ∈ hooks
  | notify _ => "__onVar" ∈ hooks
  | ask _ _ _ => "prompt" ∈ hooks ∧ "parseFloat" ∈ hooks
  | assign _ _ _ | print _ | breakLoop | continueLoop | returnNothing | returnValue _ | returnRecord _
  | nestingTooDeep => True
  | push _ _ | pop _ _ | store _ _ _ | call _ _ _ | unknownFunction _ => False

mutual

def Item.Every (p : Line → Prop) : Item → Prop
  | .line line => p line
  | .ifElse _ thenItems elseItems => EveryIn p thenItems ∧ EveryIn p elseItems
  | .whileLoop _ body => EveryIn p body
  | .forLoop _ _ _ _ body => EveryIn p body

def EveryIn (p : Line → Prop) : List Item → Prop
  | [] => True
  | item :: rest => item.Every p ∧ EveryIn p rest

end

variable {items : List Item} {bindings bindings' : Bindings} {value : Expr}

theorem everyIn_append {p : Line → Prop} {items' : List Item}
    : EveryIn p (items ++ items') ↔ EveryIn p items ∧ EveryIn p items' := by
  induction items with
  | nil => simp [EveryIn]
  | cons item items ih => simp [EveryIn, ih, and_assoc]

def namesAfter (scope declared : List String) : Flow → List String
  | .normal => declared ++ scope
  | _ => scope

section Statements

open Exec

variable {hooks strays scope : List String}

theorem keeps_evalOption {value : Option Expr} (h : ∀ expr, value = some expr → Expr.Calm hooks expr) (bound : Nat)
    : Keeps hooks (evalOption bound value) := by
  cases bound with
  | zero => exact .exhausted
  | succ bound =>
    cases value with
    | none => exact .pure _
    | some expr => exact (keeps_eval bound).1 _ (h expr rfl)

theorem evolves_declaration (h : Expr.Calm hooks value) (bound : Nat)
    : Evolves hooks strays scope (fun _ => name :: scope) (exec bound (.declare name (some value))) := by
  cases bound with
  | zero => exact .exhausted
  | succ bound =>
    unfold exec
    refine .descend (.bind (.of_keeps (keeps_evalOption (by rintro _ ⟨⟩; exact h) bound)) fun value => ?_)
    exact .bind (.declare name value) fun _ => .pure (List.Subset.refl _)

theorem evolves_assignment (h : Expr.Calm hooks value) (hname : name ∈ scope ∨ name ∈ strays) (op : AssignOp)
    (bound : Nat) : Evolves hooks strays scope (fun _ => scope) (exec bound (.assign (.variable name) op value)) := by
  cases bound with
  | zero => exact .exhausted
  | succ bound =>
    unfold exec
    refine .descend (.bind (.of_keeps ((keeps_eval bound).1 _ h)) fun value => ?_)
    refine .bind (.of_keeps (.pure _)) fun position => ?_
    exact .bind (.store hname position op value) fun _ => .pure (List.Subset.refl _)

theorem evolves_expr (h : Expr.Calm hooks value) (bound : Nat)
    : Evolves hooks strays scope (fun _ => scope) (exec bound (.expr value)) := by
  cases bound with
  | zero => exact .exhausted
  | succ bound =>
    unfold exec
    exact .descend (.bind (.of_keeps ((keeps_eval bound).1 _ h)) fun _ => .pure (List.Subset.refl _))

theorem evolves_return {value : Option Expr} (h : ∀ expr, value = some expr → Expr.Calm hooks expr) (bound : Nat)
    : Evolves hooks strays scope (fun _ => scope) (exec bound (.returnValue value)) := by
  cases bound with
  | zero => exact .exhausted
  | succ bound =>
    unfold exec
    exact .descend (.bind (.of_keeps (keeps_evalOption h bound)) fun _ => .pure (List.Subset.refl _))

theorem namesAfter_subset (scope declared : List String) (flow : Flow)
    : namesAfter scope declared flow ⊆ declared ++ scope := by
  cases flow with
  | normal => exact List.Subset.refl _
  | _ => exact subset_append_right _ _

theorem evolves_line (bound : Nat) {line : Line} (hlocal : line.IsLocal hooks) {stmt : Stmt}
    (hstmt : line.tree? = some stmt)
    : Evolves hooks (line.writes.filter fun name => !scope.contains name) scope
      (fun _ => line.declares ++ scope) (exec bound stmt) := by
  have hwrites : ∀ name, name ∈ scope ∨ name ∈ [name].filter fun name => !scope.contains name := by
    intro name
    by_cases hname : name ∈ scope
    · exact .inl hname
    · exact .inr (by simp [hname])
  have hanswer : "prompt" ∈ hooks ∧ "parseFloat" ∈ hooks → ∀ message : Code, Expr.Calm hooks
      (.call (.identifier "parseFloat") [.await (.call (.identifier "prompt") [message.tree])]) := by
    rintro ⟨hprompt, hparse⟩ message
    refine .call hparse (forall_mem_singleton.mpr (.await (.call hprompt ?_)))
    exact forall_mem_singleton.mpr message.calm_tree
  cases line with
  | enter node =>
    cases hstmt
    exact evolves_expr (.await (.call hlocal (forall_mem_singleton.mpr (.str node)))) bound
  | notify name =>
    cases hstmt
    refine evolves_expr (.call hlocal ?_) bound
    exact forall_mem_cons.mpr ⟨.str name, forall_mem_singleton.mpr (.identifier name)⟩
  | assign fresh name value =>
    cases hstmt
    cases fresh with
    | true => exact evolves_declaration value.calm_tree bound
    | false => exact evolves_assignment value.calm_tree (hwrites name) .assign bound
  | ask fresh name message =>
    cases hstmt
    cases fresh with
    | true => exact evolves_declaration (hanswer hlocal message) bound
    | false => exact evolves_assignment (hanswer hlocal message) (hwrites name) .assign bound
  | print value =>
    cases hstmt
    exact evolves_expr (.callMember rfl (forall_mem_singleton.mpr value.calm_tree)) bound
  | breakLoop | continueLoop =>
    cases hstmt
    cases bound with
    | zero => exact .exhausted
    | succ bound =>
      unfold exec
      exact .descend (.pure (List.Subset.refl _))
  | returnNothing =>
    cases hstmt
    exact evolves_return (fun _ h => by cases h) bound
  | returnValue value =>
    cases hstmt
    refine evolves_return ?_ bound
    rintro _ ⟨⟩
    exact value.calm_tree
  | returnRecord fields =>
    cases hstmt
    refine evolves_return ?_ bound
    rintro _ ⟨⟩
    refine .object ?_
    rw [forall_mem_map]
    exact fun field _ => field.2.calm_tree
  | nestingTooDeep => exact nomatch hstmt
  | push | pop | store | call | unknownFunction => exact hlocal.elim

theorem Item.trees_eq (item : Item) : item.trees = [] ∨ ∃ stmt, item.trees = [stmt] := by
  cases item with
  | line line => cases line <;> simp [trees, Line.tree?]
  | _ => exact .inr ⟨_, rfl⟩

theorem Item.declares_eq_nil {item : Item} (h : item.trees = []) : item.declares = [] := by
  cases item with
  | line line => cases line <;> first | rfl | simp [trees, Line.tree?] at h
  | _ => rfl

structure EvolvesUpTo (hooks : List String) (bound : Nat) : Prop where
  all {items : List Item} (h : EveryIn (Line.IsLocal hooks) items) (scope : List String)
    : Evolves hooks (straysOf scope items) scope (fun _ => []) (execAll bound (treesOf items))
  item {item : Item} (h : item.Every (Line.IsLocal hooks)) (scope : List String) {stmt : Stmt} (hstmt : stmt ∈ item.trees)
    : Evolves hooks (item.strays scope) scope (namesAfter scope item.declares) (exec bound stmt)
  loop {cond : Expr} (hcond : Expr.Calm hooks cond) {update : Option Stmt} {strays scope : List String}
      (hupdate : ∀ stmt, update = some stmt → ∀ bound, Evolves hooks strays scope (fun _ => scope) (exec bound stmt))
      {body : List Item} (hbody : EveryIn (Line.IsLocal hooks) body) (hstrays : straysOf scope body ⊆ strays)
    : Evolves hooks strays scope (fun _ => scope) (execLoop bound (some cond) update (treesOf body))

theorem evolvesUpTo_zero : EvolvesUpTo hooks 0 where
  all _ _ := .exhausted
  item _ _ _ _ := .exhausted
  loop _ _ _ _ _ _ _ _ := .exhausted

section Steps

variable {bound : Nat} (ih : EvolvesUpTo hooks bound)
include ih

theorem evolves_all_succ (h : EveryIn (Line.IsLocal hooks) items) (scope : List String)
    : Evolves hooks (straysOf scope items) scope (fun _ => []) (execAll (bound + 1) (treesOf items)) := by
  induction items with
  | nil => exact .pure (nil_subset _)
  | cons item rest ihRest =>
    obtain ⟨hitem, hrest⟩ := h
    rw [treesOf, straysOf]
    obtain htrees | ⟨stmt, htrees⟩ := item.trees_eq
    · -- A comment declares nothing.
      rw [htrees, nil_append, item.declares_eq_nil htrees]
      exact (ihRest hrest).mono (subset_append_right _ _)
    · rw [htrees, singleton_append]
      have hmem : stmt ∈ item.trees := htrees ▸ mem_singleton_self stmt
      have hfirst := ih.item hitem scope hmem
      refine .bind (hfirst.mono (subset_append_left _ _)) fun flow => ?_
      cases flow with
      | normal => exact (ih.all hrest (item.declares ++ scope)).mono (subset_append_right _ _)
      | broke | continued | returned => exact .pure (nil_subset _)

theorem evolves_item_succ {item : Item} (h : item.Every (Line.IsLocal hooks)) (scope : List String) {stmt : Stmt}
    (hstmt : stmt ∈ item.trees)
    : Evolves hooks (item.strays scope) scope (namesAfter scope item.declares) (exec (bound + 1) stmt) := by
  cases item with
  | line line =>
    exact (evolves_line (bound + 1) h (Option.mem_toList.mp hstmt)).names_mono (namesAfter_subset scope _)
  | ifElse cond thenItems elseItems =>
    cases mem_singleton.mp hstmt
    unfold exec
    apply Evolves.names_mono _ (namesAfter_subset scope [])
    refine .descend (.bind (.of_keeps ((keeps_eval bound).1 _ cond.calm_tree)) fun test => ?_)
    split
    · exact .inScope ((ih.all h.1 scope).mono (subset_append_left _ _))
    · exact .inScope ((ih.all h.2 scope).mono (subset_append_right _ _))
  | whileLoop cond body =>
    cases mem_singleton.mp hstmt
    unfold exec
    apply Evolves.names_mono _ (namesAfter_subset scope [])
    exact .descend (ih.loop cond.calm_tree (fun _ h => by cases h) h (List.Subset.refl _))
  | forLoop name start limit step body =>
    cases mem_singleton.mp hstmt
    unfold exec
    apply Evolves.names_mono _ (namesAfter_subset scope [])
    have hinit : Evolves hooks (straysOf (name :: scope) body) scope (fun _ => name :: scope)
        (execOption bound (some (.declare name (some start.tree)))) := by
      cases bound with
      | zero => exact .exhausted
      | succ bound => exact .bind (evolves_declaration start.calm_tree bound) fun _ => .pure (List.Subset.refl _)
    refine .descend (.inScope (.bind hinit fun _ => ih.loop (.binary (.identifier name) limit.calm_tree) ?_ h (List.Subset.refl _)))
    rintro _ ⟨⟩ bound
    exact evolves_assignment step.calm_tree (.inl mem_cons_self) .add bound

theorem evolves_loop_succ {cond : Expr} (hcond : Expr.Calm hooks cond) {update : Option Stmt}
    (hupdate : ∀ stmt, update = some stmt → ∀ bound, Evolves hooks strays scope (fun _ => scope) (exec bound stmt))
    {body : List Item} (hbody : EveryIn (Line.IsLocal hooks) body) (hstrays : straysOf scope body ⊆ strays)
    : Evolves hooks strays scope (fun _ => scope) (execLoop (bound + 1) (some cond) update (treesOf body)) := by
  have hoption : Evolves hooks strays scope (fun _ => scope) (execOption bound update) := by
    cases bound with
    | zero => exact .exhausted
    | succ bound =>
      cases update with
      | none => exact .pure (List.Subset.refl _)
      | some stmt => exact .bind (hupdate stmt rfl bound) fun _ => .pure (List.Subset.refl _)
  have hagain := Evolves.bind hoption fun _ => ih.loop hcond hupdate hbody hstrays
  have hholds : Evolves hooks strays scope (fun _ => scope) (Value.isTruthy <$> eval bound cond) :=
    .of_keeps (.bind ((keeps_eval bound).1 _ hcond) fun _ => .pure _)
  refine .bind hholds fun holds => ?_
  cases holds with
  | false => exact .pure (List.Subset.refl _)
  | true =>
    refine .bind (.inScope ((ih.all hbody scope).mono hstrays)) fun flow => ?_
    cases flow with
    | normal | continued => exact hagain
    | broke | returned => exact .pure (List.Subset.refl _)

end Steps

theorem evolvesUpTo (bound : Nat) : EvolvesUpTo hooks bound := by
  induction bound with
  | zero => exact evolvesUpTo_zero
  | succ bound ih => exact ⟨evolves_all_succ ih, evolves_item_succ ih, fun hcond => evolves_loop_succ ih hcond⟩

end Statements

theorem binds_ofParams {scope scope' : Scope} {params : List String} {args : List Value}
    (h : scope.ofParams params args = .ok scope')
    : scope.Grows scope' ∧ ∀ param ∈ params, scope'.contains param := by
  induction params generalizing scope args with
  | nil =>
    cases h
    exact ⟨fun _ h => h, nofun⟩
  | cons param params ih =>
    rw [Scope.ofParams] at h
    unfold Scope.declare at h
    split at h
    · exact nomatch h
    · obtain ⟨hgrows, hparams⟩ := ih h
      refine ⟨fun name hname => hgrows name (scope.grows_insert param _ name hname), ?_⟩
      rw [forall_mem_cons]
      exact ⟨hgrows param (by simp [Table.contains_insert]), hparams⟩

theorem results_callFunction {hooks : List String} (h : EveryIn (Line.IsLocal hooks) items) (params : List String)
    (bound : Nat) (args : List Value) {m : Machine} (hm : Exec.Lacks hooks m)
    : (Exec.callFunction bound ⟨params, treesOf items⟩ args m).Results (fun _ => True) fun result =>
        result.2.env.locals = m.env.locals
          ∧ ∀ name, name ∉ straysOf params items → result.2.env.globals.get? name = m.env.globals.get? name := by
  cases bound with
  | zero => exact .exhausted
  | succ bound =>
    unfold Exec.callFunction Exec.calling
    dsimp only
    split
    · exact .done ⟨rfl, fun _ _ => rfl⟩
    · split
      · exact .done ⟨rfl, fun _ _ => rfl⟩
      · next scope hscope =>
        have hbinds : Env.Binds params { m.env with locals := [scope] } :=
          ⟨cons_ne_nil _ _, fun param hparam => by simp [(binds_ofParams hscope).2 param hparam]⟩
        have hbody : Exec.Evolves hooks (straysOf params items) params (fun _ => [])
            (do return (← Exec.execAll bound (treesOf items)).result) :=
          .bind ((evolvesUpTo bound).all h params) fun _ => .pure (nil_subset _)
        refine (hbody { m with env := { m.env with locals := [scope] }, calls := m.calls + 1 } hm hbinds).bind ?_
        rintro ⟨r, m'⟩ ⟨-, hevolves, -⟩
        exact .done ⟨rfl, hevolves.globals⟩

def Routine.hooks (r : Routine) : List String :=
  ["prompt", "parseFloat"] ++ if r.instrument then ["__onNode", "__onVar"] else []

def reachingKinds : List NodeKind :=
  [.arrayPush, .arrayPop, .arraySet, .callFunction]

def Line.IsOf (kind : NodeKind) : Line → Prop
  | ask _ _ _ => kind = .input
  | print _ => kind = .output
  | assign _ _ _ => kind = .set ∨ kind = .arrayCreate
  | push _ _ => kind = .arrayPush
  | pop _ _ => kind = .arrayPop
  | store _ _ _ => kind = .arraySet
  | call _ _ _ | unknownFunction _ => kind = .callFunction
  | breakLoop => kind = .breakLoop
  | continueLoop => kind = .continueLoop
  | returnNothing | returnValue _ | returnRecord _ => kind = .functionReturn
  | enter _ | notify _ | nestingTooDeep => False

section Emission

open Build

variable {r : Routine} {marks : Prop} {node : Node} {p : Line → Prop}
  (hnotices : r.instrument → (∀ node, p (.enter node)) ∧ ∀ name, p (.notify name))
include hnotices

theorem everyIn_enter : EveryIn p (enter r node) := by
  unfold enter
  split
  · next hinstrument => exact ⟨(hnotices hinstrument).1 _, trivial⟩
  · trivial

theorem everyIn_notify : EveryIn p (notify r name) := by
  unfold notify
  split
  · next hinstrument => exact ⟨(hnotices hinstrument).2 _, trivial⟩
  · trivial

theorem everyIn_line {line : Line} (h : p line) : EveryIn p (enter r node ++ [.line line]) :=
  everyIn_append.mpr ⟨everyIn_enter hnotices, h, trivial⟩

theorem Passes.everyIn (h : Passes r marks node bindings items bindings')
    (hlines : ∀ line : Line, line.IsOf (r.kindOf node) → p line) : EveryIn p items := by
  have hline (line : Line) (hof : line.IsOf (r.kindOf node)) : EveryIn p (enter r node ++ [.line line]) :=
    everyIn_line hnotices (hlines line hof)
  have hnotified (line : Line) (hof : line.IsOf (r.kindOf node)) (name : String)
      : EveryIn p (enter r node ++ [.line line] ++ notify r name) :=
    everyIn_append.mpr ⟨hline line hof, everyIn_notify hnotices⟩
  cases h with
  | ask hkind | push hkind | pop hkind | store hkind =>
    apply hnotified
    exact hkind
  | set hkind =>
    apply hnotified
    exact .inl hkind
  | create hkind =>
    apply hnotified
    exact .inr hkind
  | print hkind | callUnknown hkind | callNothing hkind | call hkind =>
    apply hline
    exact hkind
  | other => trivial

theorem Ends.everyIn {temps : List (Endpoint × Code)} (h : Ends r marks node temps items)
    (hlines : ∀ line : Line, line.IsOf (r.kindOf node) → p line) : EveryIn p items := by
  cases h with
  | stop => exact everyIn_enter hnotices
  | breakLoop hkind | continueLoop hkind => exact everyIn_line hnotices (hlines _ hkind)
  | @returnFrom sig values hkind =>
    refine everyIn_line hnotices (hlines _ ?_)
    match values with
    | [] | [_] | _ :: _ :: _ => exact hkind
  | other => trivial

theorem Heads.every {head : List Item → Item} (h : Heads r marks node bindings head bindings')
    (hitems : EveryIn p items)
    : (head items).Every p := by
  have henter : EveryIn p (enter r node) := everyIn_enter hnotices
  cases h with
  | forLoop => exact everyIn_append.mpr ⟨everyIn_append.mpr ⟨henter, everyIn_notify hnotices⟩, hitems⟩
  | whileLoop => exact everyIn_append.mpr ⟨henter, hitems⟩

theorem Emits.everyIn {tour : Tour} (h : Emits r marks tour bindings items bindings')
    (hlines : ∀ node ∈ tour.nodes, ∀ line : Line, line.IsOf (r.kindOf node) → p line)
    (hcut : p .nestingTooDeep) : EveryIn p items := by
  induction h with
  | stop => trivial
  | cut => exact ⟨hcut, trivial⟩
  | pass h _ ih =>
    obtain ⟨hnode, hrest⟩ := forall_mem_cons.mp hlines
    exact everyIn_append.mpr ⟨h.everyIn hnotices hnode, ih hrest⟩
  | last h => exact h.everyIn hnotices (hlines _ (mem_singleton_self _))
  | branch _ _ _ ihTrue ihFalse =>
    obtain ⟨-, hrest⟩ := forall_mem_cons.mp hlines
    obtain ⟨htrue, hfalse⟩ := forall_mem_append.mp hrest
    exact everyIn_append.mpr ⟨everyIn_enter hnotices, ⟨ihTrue htrue, ihFalse hfalse⟩, trivial⟩
  | loop hhead _ _ ihBody ihRest =>
    obtain ⟨-, hrest⟩ := forall_mem_cons.mp hlines
    obtain ⟨hbody, hrest⟩ := forall_mem_append.mp hrest
    refine everyIn_append.mpr ⟨everyIn_append.mpr ⟨everyIn_enter hnotices, ?_, trivial⟩, ihRest hrest⟩
    exact hhead.every hnotices (ihBody hbody)

end Emission

theorem Line.isLocal_of_isOf {kind : NodeKind} (hkind : kind ∉ reachingKinds) (line : Line) (h : line.IsOf kind)
    : line.IsLocal r.hooks := by
  cases line with
  | ask => simp [IsLocal, Routine.hooks]
  | push | pop | store | call | unknownFunction =>
    cases h
    simp [reachingKinds] at hkind
  | enter | notify => exact h.elim
  | _ => trivial

theorem Emits.isLocal {marks : Prop} {tour : Tour} (h : Emits r marks tour bindings items bindings')
    (hkinds : ∀ node ∈ tour.nodes, r.kindOf node ∉ reachingKinds)
    : EveryIn (Line.IsLocal r.hooks) items := by
  refine h.everyIn ?_ (fun node hnode => Line.isLocal_of_isOf (hkinds node hnode)) trivial
  intro hinstrument
  simp [Line.IsLocal, Routine.hooks, hinstrument]

namespace Job

def straysOfFunction (job : Job) (sig : Signature) : List String :=
  straysOf sig.params (job.compileFunction (.ofGraph job.graph) sig).1

variable {job : Job} {sig : Signature}

theorem isLocal_compileFunction
    (hkinds : ∀ node ∈ sig.function.nodes, (job.functionRoutine sig).kindOf node ∉ reachingKinds)
    : EveryIn (Line.IsLocal (job.functionRoutine sig).hooks)
        (job.compileFunction (.ofGraph job.graph) sig).1 := by
  rw [compileFunction_eq]
  cases houtset : job.functionOutset? sig with
  | none => trivial
  | some outset =>
    obtain ⟨entry, -, rfl⟩ := Option.map_eq_some_iff.mp houtset
    obtain ⟨bindings, hemits⟩ := (job.functionRoutine sig).emits_compileFrom entry 1
    have hfollows := (job.functionRoutine sig).follows_tourFrom entry (show 1 ≤ maxNesting by decide)
    refine hemits.isLocal fun node hnode => hkinds node ?_
    have hmem := hfollows.mem_nodes node hnode
    rwa [functionRoutine, routine, Wiring.ofEdges_nodes] at hmem

section Hooks

variable (hhooks : job.options.instrument
  → ∀ other ∈ (Signatures.ofGraph job.graph).list, other.name ∉ ["__onNode", "__onVar"])
include hhooks

theorem name_not_mem_hooks (hroutine : r.instrument = job.options.instrument) {other : Signature}
    (hother : other ∈ (Signatures.ofGraph job.graph).list) : other.name ∉ r.hooks := by
  intro hname
  rw [Routine.hooks, mem_append] at hname
  obtain hname | hname := hname
  · exact (Signatures.apart_ofGraph job.graph other hother).name
      ((by decide : ∀ name ∈ ["prompt", "parseFloat"], name ∈ reservedWords) _ hname)
  · split at hname
    · next hinstrument => exact hhooks (hroutine ▸ hinstrument) other hother hname
    · exact not_mem_nil hname

theorem lacks_hooks {m : Machine} (hm : m.functions ⊆ job.functions)
    : Exec.Lacks (job.functionRoutine sig).hooks m := by
  intro name hname
  unfold Machine.function?
  rw [lookup_eq_none_iff]
  intro function hfunction
  obtain ⟨other, hother, rfl⟩ := mem_map.mp (hm hfunction)
  rw [bne_iff_ne]
  rintro rfl
  exact name_not_mem_hooks hhooks rfl hother hname

end Hooks

/-- A call of a function that neither changes arrays nor calls functions leaves the variables of the program as they
are, but for those to which it writes outside of the blocks that declare them. -/
theorem callFunction_keeps_globals (hsignature : signature ∈ (Signatures.ofGraph job.graph).list)
    (hkinds : ∀ node ∈ signature.function.nodes, (job.functionRoutine signature).kindOf node ∉ reachingKinds)
    (hhooks : job.options.instrument
      → ∀ other ∈ (Signatures.ofGraph job.graph).list, other.name ∉ ["__onNode", "__onVar"])
    : (∀ bound args m, m.functions ⊆ job.functions
        → (Exec.callFunction bound (job.function signature) args m).Results (fun _ => True) fun result =>
          result.2.env.locals = m.env.locals ∧ ∀ name, name ∉ job.straysOfFunction signature
              → result.2.env.globals.get? name = m.env.globals.get? name)
      ∧ (job.mainOutset?.isSome → (∀ outset ∈ job.outsets, outset.Legible)
        → ∃ program, Program.parse job.compile.code = .ok program ∧ program.functions = job.functions
          ∧ (signature.name, job.function signature) ∈ program.functions) := by
  constructor
  · intro bound args m hm
    exact results_callFunction (isLocal_compileFunction hkinds) signature.params bound args (lacks_hooks hhooks hm)
  · intro hstart hlegible
    obtain ⟨outset, houtset⟩ := Option.isSome_iff_exists.mp hstart
    have hmain : job.compileMain? (.ofGraph job.graph) = some outset.compiled := by
      rw [compileMain?_eq, houtset]
      rfl
    refine ⟨job.program, parse_of_readable (readable_of_legible hlegible), functions_program hmain, ?_⟩
    rw [functions_program hmain]
    exact mem_map_of_mem hsignature

def twoArms : Graph where
  nodes :=
    [⟨"start", .start, none, {}⟩,
     ⟨"set", .set, none, { variableName := some "x", inlineValues := .ofList [("value", "\"old\"")] }⟩,
     ⟨"call", .callFunction, none, { functionId := some "f" }⟩, ⟨"show", .output, none, {}⟩,
     ⟨"get", .get, none, { variableName := some "x" }⟩]
  edges :=
    [.control "start" "exec-out" "set", .control "set" "exec-out" "call", .control "call" "exec-out" "show",
     .data "get" "value" "show" "value"]
  functions := .ofList [("f",
    { id := "f"
      name := "f"
      nodes :=
        [⟨"entry", .functionEntry, none, {}⟩, ⟨"if", .branch, none, { inlineValues := .ofList [("condition", "false")] }⟩,
         ⟨"one", .set, none, { variableName := some "x", inlineValues := .ofList [("value", "\"one\"")] }⟩,
         ⟨"two", .set, none, { variableName := some "x", inlineValues := .ofList [("value", "\"two\"")] }⟩]
      edges :=
        [.control "entry" "exec-out" "if", .control "if" "true" "one", .control "if" "false" "two"] })]

theorem callFunction_keeps_globals_twoArms
    : let job : Job := ⟨twoArms, .default, {}⟩
      ∃ signature ∈ (Signatures.ofGraph job.graph).list, job.straysOfFunction signature = ["x"]
        ∧ ∀ bound args m, m.functions ⊆ job.functions
          → (Exec.callFunction bound (job.function signature) args m).Results (fun _ => True) fun result =>
            ∀ name, name ≠ "x" → result.2.env.globals.get? name = m.env.globals.get? name := by
  intro job
  obtain ⟨signature, hsignature, hstrays, hkinds⟩ : ∃ signature ∈ (Signatures.ofGraph job.graph).list,
      job.straysOfFunction signature = ["x"]
        ∧ ∀ node ∈ signature.function.nodes, (job.functionRoutine signature).kindOf node ∉ reachingKinds := by
    decide +kernel
  refine ⟨signature, hsignature, hstrays, fun bound args m hm => ?_⟩
  refine ((callFunction_keeps_globals hsignature hkinds nofun).1 bound args m hm).mono ?_
  rintro result ⟨-, hglobals⟩ name hname
  exact hglobals name (by rw [hstrays]; simpa using hname)

theorem twoArms_overwrites_global
    : let job : Job := ⟨twoArms, .default, {}⟩
      let before : Machine :=
        { Machine.start none 64 with env := ⟨.ofList [("x", .str "old")], []⟩, functions := job.functions }
      ∃ sig ∈ (Signatures.ofGraph job.graph).list,
        (((Exec.callFunction 20 (job.function sig) [] before).play ⟨[], none⟩).result.any fun result =>
          match result.2.env.globals.get? "x" with
          | some (.str "two") => true
          | _ => false) = true := by
  decide +kernel

end Job

end NodeScript.Compile
