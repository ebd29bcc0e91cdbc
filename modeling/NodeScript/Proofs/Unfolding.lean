import NodeScript.Proofs.Build
import NodeScript.Proofs.Wiring

/-!
The expressions of outputs, said without the state that finds them: an expression unfolds its
output along data edges, up to markers. Remembered expressions do so too, so that it makes no
difference whether one was remembered.
-/

namespace NodeScript.Compile

variable {r : Routine}

def operandSockets (kind : NodeKind) : List String :=
  match kind.operator? with
  | some _ => ["a", "b"]
  | none =>
    match kind with
    | .concat => ["a", "b"]
    | .random => ["min", "max"]
    | .not => ["value"]
    | .arrayGet => ["index"]
    | _ => []

def typedOperand (kind : NodeKind) (node : Node) (socket : String) : Code :=
  let text := node.data.inline? socket
  match kind with
  | .concat => .quoted (text.getD "")
  | .random => .raw (text.getD (if socket = "max" then "100" else "0"))
  | .not => .raw (text.getD "false")
  | _ => .raw (text.getD "0")

variable {socket : String} {out : Endpoint} {code : Code} {temps : List (Endpoint × Code)}

namespace Routine

def dependencies (r : Routine) (out : Endpoint) : List Endpoint :=
  match r.wiring.node? out.node with
  | some node => (operandSockets (r.kindOf node)).filterMap (r.wiring.source? node.id)
  | none => []

theorem mem_dependencies {node : Node} {source : Endpoint} (hnode : r.wiring.node? out.node = some node)
    (hsocket : socket ∈ operandSockets (r.kindOf node))
    (hsource : r.wiring.source? node.id socket = some source) : source ∈ r.dependencies out := by
  unfold dependencies
  rw [hnode]
  exact List.mem_filterMap.mpr ⟨socket, hsocket, hsource⟩

def nodeCode (r : Routine) (temps : List (Endpoint × Code)) (node : Node)
    (socket : String) (operand : String → Code) : Code :=
  match (r.kindOf node).operator? with
  | some operator => .binary operator (operand "a") (operand "b")
  | none =>
    match r.kindOf node, socket with
    | .get, _ => .ident (variableOf node "_var")
    | .concat, _ => .binary "+" (operand "a") (operand "b")
    | .random, _ => .random (operand "min") (operand "max")
    | .not, _ => .not (operand "value")
    | .set, "out-value" => .ident (variableOf node "_var")
    | .input, "out-value" => .ident (variableOf node "_input")
    | .forLoop, "i" => .ident (variableOf node "i")
    | .arrayLength, _ => .length (variableOf node "_arr")
    | .arrayGet, _ => .element (variableOf node "_arr") (operand "index")
    | .arrayPop, _ | .callFunction, _ =>
      (temps.lookup ⟨node.id, socket⟩).getD .undefined
    | .functionEntry, _ =>
      (r.signature.bind (·.paramName? socket)).elim .undefined .ident
    | _, _ => .raw "0"

theorem nodeCode_congr {node : Node} {operand operand' : String → Code}
    (h : ∀ socket ∈ operandSockets (r.kindOf node), operand socket = operand' socket) (socket : String)
    : r.nodeCode temps node socket operand = r.nodeCode temps node socket operand' := by
  unfold nodeCode
  unfold operandSockets at h
  generalize r.kindOf node = kind at h ⊢
  split
  · next hoperator =>
    simp only [hoperator, List.forall_mem_cons] at h
    rw [h.1, h.2.1]
  · next hoperator =>
    simp only [hoperator] at h
    split
    any_goals rfl
    · rw [h "a" (by simp), h "b" (by simp)]
    · rw [h "min" (by simp), h "max" (by simp)]
    · rw [h "value" (by simp)]
    · rw [h "index" (by simp)]

end Routine

/-- The expression follows data edges back from the output. It may end in markers if `marks`. -/
inductive Unfolds (r : Routine) (temps : List (Endpoint × Code)) (marks : Prop)
    : Endpoint → Code → Prop where
  | circular (out : Endpoint) (h : marks) : Unfolds r temps marks out .circular
  | tooDeep (out : Endpoint) (h : marks) : Unfolds r temps marks out .tooDeep
  | missing {out : Endpoint} (h : r.wiring.node? out.node = none) :
    Unfolds r temps marks out (.raw "0")
  | node {out : Endpoint} {node : Node} (operand : String → Code)
    (h : r.wiring.node? out.node = some node)
    (hwired : ∀ socket ∈ operandSockets (r.kindOf node), ∀ source,
      r.wiring.source? node.id socket = some source → Unfolds r temps marks source (operand socket))
    (htyped : ∀ socket ∈ operandSockets (r.kindOf node), r.wiring.source? node.id socket = none
        → operand socket = typedOperand (r.kindOf node) node socket) :
    Unfolds r temps marks out (r.nodeCode temps node out.socket operand)

theorem Unfolds.mono {marks marks' : Prop} (hmarks : marks → marks') (h : Unfolds r temps marks out code)
    : Unfolds r temps marks' out code := by
  induction h with
  | circular out h => exact .circular out (hmarks h)
  | tooDeep out h => exact .tooDeep out (hmarks h)
  | missing h => exact .missing h
  | node operand h _ htyped ih => exact .node operand h ih htyped

theorem mem_of_lookup_eq_some {α β : Type} [BEq α] [LawfulBEq α] {entries : List (α × β)} {key : α}
    {value : β} (h : entries.lookup key = some value) : (key, value) ∈ entries := by
  obtain ⟨before, after, heq, -⟩ := List.lookup_eq_some_iff.mp h
  rw [heq]
  simp

structure Bindings where
  declared : List String
  temporaries : List (Endpoint × Code)
  nextTemporary : Nat

namespace State

def bindings (s : State) : Bindings :=
  ⟨s.declared, s.temporaries, s.nextTemporary⟩

def Marked (s : State) : Prop :=
  s.diagnostics ≠ []

end State

structure Sound (r : Routine) (s : State) : Prop where
  memo : ∀ entry ∈ s.memo, Unfolds r s.temporaries s.Marked entry.1 entry.2 ∧ entry.2.isProvisional = false
  cycles : s.reportedCycles ≠ [] → s.Marked
  depth : s.depthReported = true → s.Marked

theorem Sound.report {s s' : State} (h : Sound r s) (hmemo : s'.memo = s.memo)
    (htemps : s'.temporaries = s.temporaries) (hmarked : s'.Marked) : Sound r s' := by
  refine ⟨?_, fun _ => hmarked, fun _ => hmarked⟩
  intro entry hentry
  rw [hmemo] at hentry
  rw [htemps]
  exact ⟨(h.memo entry hentry).1.mono fun _ => hmarked, (h.memo entry hentry).2⟩

namespace Build

variable {α β : Type} {r : Routine}

theorem run_get (f : State → Build β) (s : State) : (get >>= f).run s = (f s).run s := rfl

/-- The computation takes the step from sound states on, where `marks` is whether something has been
reported in the end, or anything that follows from it. -/
def Performs (r : Routine) (x : Build α) (step : Prop → Bindings → α → Bindings → Prop) : Prop :=
  ∀ s, Sound r s → Sound r (x.run s).2 ∧ (s.Marked → (x.run s).2.Marked)
    ∧ ∀ marks : Prop, ((x.run s).2.Marked → marks) → step marks s.bindings (x.run s).1 (x.run s).2.bindings

namespace Performs

variable {x : Build α} {step step' : Prop → Bindings → α → Bindings → Prop}

theorem pure {a : α} (h : ∀ marks bindings, step marks bindings a bindings) : Performs r (Pure.pure a : Build α) step :=
  fun _ hs => ⟨hs, id, fun _ _ => h _ _⟩

theorem bind {f : α → Build β} {step' : Prop → Bindings → β → Bindings → Prop} (hx : Performs r x step)
    (hf : ∀ a, Performs r (f a) fun marks bindings' b bindings'' =>
      ∀ bindings, step marks bindings a bindings' → step' marks bindings b bindings'')
    : Performs r (x >>= f) step' := by
  intro s hs
  obtain ⟨hsound, hmarked, hstep⟩ := hx s hs
  obtain ⟨hsound', hmarked', hstep'⟩ := hf (x.run s).1 _ hsound
  rw [run_bind]
  refine ⟨hsound', hmarked' ∘ hmarked, ?_⟩
  intro marks hmarks
  exact hstep' marks hmarks _ (hstep marks (hmarks ∘ hmarked'))

theorem weaken (h : Performs r x step)
    (hstep : ∀ marks bindings a bindings', step marks bindings a bindings' → step' marks bindings a bindings')
    : Performs r x step' :=
  fun s hs => ⟨(h s hs).1, (h s hs).2.1, fun marks hmarks => hstep _ _ _ _ ((h s hs).2.2 marks hmarks)⟩

theorem and (h : Performs r x step) (h' : Performs r x step')
    : Performs r x fun marks bindings a bindings' =>
        step marks bindings a bindings' ∧ step' marks bindings a bindings' :=
  fun s hs => ⟨(h s hs).1, (h s hs).2.1, fun marks hmarks =>
    ⟨(h s hs).2.2 marks hmarks, (h' s hs).2.2 marks hmarks⟩⟩

end Performs

def Finds (r : Routine) (x : Build α) (good : List (Endpoint × Code) → Prop → α → Prop) : Prop :=
  Performs r x fun marks bindings a bindings' =>
    bindings' = bindings ∧ good bindings.temporaries marks a

namespace Finds

variable {x : Build α} {good good' : List (Endpoint × Code) → Prop → α → Prop}

theorem pure {a : α} (h : ∀ temps marks, good temps marks a) : Finds r (Pure.pure a : Build α) good :=
  Performs.pure fun _ _ => ⟨rfl, h _ _⟩

theorem bind {f : α → Build β} {good' : List (Endpoint × Code) → Prop → β → Prop} (hx : Finds r x good)
    (hf : ∀ a, Finds r (f a) fun temps marks b => good temps marks a → good' temps marks b)
    : Finds r (x >>= f) good' := by
  refine Performs.bind hx fun a => (hf a).weaken ?_
  rintro marks bindings b _ ⟨rfl, hgood'⟩ _ ⟨rfl, hgood⟩
  exact ⟨rfl, hgood' hgood⟩

theorem weaken (h : Finds r x good) (hgood : ∀ temps marks a, good temps marks a → good' temps marks a)
    : Finds r x good' :=
  Performs.weaken h fun _ _ _ _ h => ⟨h.1, hgood _ _ _ h.2⟩

theorem and (h : Finds r x good) (h' : Finds r x good')
    : Finds r x fun temps marks a => good temps marks a ∧ good' temps marks a :=
  (Performs.and h h').weaken fun _ _ _ _ h => ⟨h.1.1, h.1.2, h.2.2⟩

end Finds

theorem finds_reportCycle (out : Endpoint) : Finds r (reportCycle out) fun _ marks _ => marks := by
  intro s hs
  unfold reportCycle
  rw [run_get]
  split
  · have hmarked : s.diagnostics ++ [.circularDependency out.node out.socket] ≠ [] :=
      List.append_ne_nil_of_right_ne_nil _ (List.cons_ne_nil _ _)
    exact ⟨hs.report rfl rfl hmarked, fun _ => hmarked, fun _ hmarks => ⟨rfl, hmarks hmarked⟩⟩
  · next hold =>
    have hmem : out ∈ s.reportedCycles := by simpa using hold
    exact ⟨hs, id, fun _ hmarks => ⟨rfl, hmarks (hs.cycles (List.ne_nil_of_mem hmem))⟩⟩

theorem finds_reportDepth (node : String) : Finds r (reportDepth node) fun _ marks _ => marks := by
  intro s hs
  unfold reportDepth
  rw [run_get]
  split
  · have hmarked : s.diagnostics ++ [.expressionTooDeep node] ≠ [] :=
      List.append_ne_nil_of_right_ne_nil _ (List.cons_ne_nil _ _)
    exact ⟨hs.report rfl rfl hmarked, fun _ => hmarked, fun _ hmarks => ⟨rfl, hmarks hmarked⟩⟩
  · next hold => exact ⟨hs, id, fun _ hmarks => ⟨rfl, hmarks (hs.depth (by simpa using hold))⟩⟩

theorem finds_remember {s : State} (hs : Sound r s) (h : Unfolds r s.temporaries s.Marked out code)
    : Sound r ((remember out code).run s).2 ∧ ((remember out code).run s).2.bindings = s.bindings
        ∧ ((remember out code).run s).2.Marked = s.Marked := by
  unfold remember
  split
  · exact ⟨hs, rfl, rfl⟩
  · next hprovisional =>
    refine ⟨⟨List.forall_mem_cons.mpr ⟨⟨h, ?_⟩, hs.memo⟩, hs.cycles, hs.depth⟩, rfl, rfl⟩
    simpa using hprovisional

section Operands

variable {resolve : Resolver} {node : Node}
  {good : List (Endpoint × Code) → Prop → Endpoint → Code → Prop}

structure Supplied (r : Routine) (good : Endpoint → Code → Prop) (node : Node)
    (socket : String) (typed code : Code) : Prop where
  wired : ∀ source, r.wiring.source? node.id socket = some source → good source code
  typed : r.wiring.source? node.id socket = none → code = typed

theorem Supplied.of_source {good : Endpoint → Code → Prop} {source : Endpoint}
    (hsource : r.wiring.source? node.id socket = some source) {typed : Code} (h : good source code)
    : Supplied r good node socket typed code where
  wired := fun _ heq => Option.some.inj (hsource.symm.trans heq) ▸ h
  typed := fun hnone => nomatch hsource.symm.trans hnone

theorem Supplied.of_none {good : Endpoint → Code → Prop} (hnone : r.wiring.source? node.id socket = none) (typed : Code)
    : Supplied r good node socket typed typed where
  wired := fun _ heq => nomatch hnone.symm.trans heq
  typed := fun _ => rfl

def FindsSource (r : Routine) (resolve : Resolver)
    (good : List (Endpoint × Code) → Prop → Endpoint → Code → Prop) (node : Node) (socket : String)
    : Prop :=
  ∀ source, r.wiring.source? node.id socket = some source
    → Finds r (resolve source) fun temps marks => good temps marks source

theorem finds_operand (h : FindsSource r resolve good node socket) (fallback : String)
    : Finds r (operand r resolve node socket fallback) fun temps marks =>
        Supplied r (good temps marks) node socket (.raw ((node.data.inline? socket).getD fallback)) := by
  unfold operand
  split
  · next source hsource => exact (h source hsource).weaken fun _ _ _ => .of_source hsource
  · next hnone => exact .pure fun _ _ => .of_none hnone _

theorem finds_textOperand (h : FindsSource r resolve good node socket)
    : Finds r (textOperand r resolve node socket) fun temps marks =>
        Supplied r (good temps marks) node socket (.quoted ((node.data.inline? socket).getD "")) := by
  unfold textOperand
  split
  · next source hsource => exact (h source hsource).weaken fun _ _ _ => .of_source hsource
  · next hnone => exact .pure fun _ _ => .of_none hnone _

section Several

variable {good : List (Endpoint × Code) → Prop → String → Code → Prop}

theorem finds_single {x : Build Code} (hx : Finds r x fun temps marks => good temps marks socket)
    (f : Code → Code)
    : Finds r (do let a ← x; return f a) fun temps marks code =>
        ∃ operand : String → Code,
          (∀ s ∈ [socket], good temps marks s (operand s)) ∧ code = f (operand socket) := by
  refine .bind hx fun a => .pure fun temps marks ha => ⟨fun _ => a, ?_, rfl⟩
  simpa using ha

theorem finds_pair {x y : Build Code} {first second : String} (hne : first ≠ second)
    (hx : Finds r x fun temps marks => good temps marks first)
    (hy : Finds r y fun temps marks => good temps marks second) (f : Code → Code → Code)
    : Finds r (do let a ← x; let b ← y; return f a b) fun temps marks code =>
        ∃ operand : String → Code, (∀ socket ∈ [first, second], good temps marks socket (operand socket))
            ∧ code = f (operand first) (operand second) := by
  refine .bind hx fun a => .bind hy fun b => .pure fun temps marks hb ha =>
    ⟨fun socket => if socket = first then a else b, ?_, ?_⟩
  · simp [ha, hb, hne.symm]
  · simp [hne.symm]

end Several

theorem typedOperand_of_operator? {kind : NodeKind} {operator : String} (h : kind.operator? = some operator)
    (socket : String) : typedOperand kind node socket = .raw ((node.data.inline? socket).getD "0") := by
  cases kind <;> first | rfl | exact nomatch h

theorem finds_resolveNode
    (h : ∀ socket ∈ operandSockets (r.kindOf node), FindsSource r resolve good node socket)
    (socket : String)
    : Finds r (resolveNode r resolve node socket) fun temps marks code =>
        ∃ operand : String → Code, (∀ socket ∈ operandSockets (r.kindOf node),
            Supplied r (good temps marks) node socket
              (typedOperand (r.kindOf node) node socket) (operand socket))
            ∧ code = r.nodeCode temps node socket operand := by
  unfold resolveNode Routine.nodeCode operandSockets
  unfold operandSockets at h
  generalize r.kindOf node = kind at *
  dsimp only
  split
  · next operator hoperator =>
    simp only [hoperator, typedOperand_of_operator? hoperator] at h ⊢
    exact finds_pair (by decide) (finds_operand (h _ (by simp)) _) (finds_operand (h _ (by simp)) _) _
  · next hoperator =>
    simp only [hoperator] at h ⊢
    split
    any_goals exact .pure fun _ _ => ⟨fun _ => .undefined, by simp [*], by simp [*]⟩
    any_goals exact finds_single (finds_operand (h _ (by simp)) _) _
    · exact finds_pair (by decide) (finds_textOperand (h _ (by simp))) (finds_textOperand (h _ (by simp))) _
    · exact finds_pair (by decide) (finds_operand (h _ (by simp)) _) (finds_operand (h _ (by simp)) _) _
    · exact fun s hs => ⟨hs, id, fun _ _ => ⟨rfl, fun _ => .undefined, by simp, rfl⟩⟩
    · exact fun s hs => ⟨hs, id, fun _ _ => ⟨rfl, fun _ => .undefined, by simp, rfl⟩⟩

inductive Assembled (r : Routine) (temps : List (Endpoint × Code))
    (good : Endpoint → Code → Prop) (out : Endpoint) : Code → Prop where
  | missing (h : r.wiring.node? out.node = none) :
    Assembled r temps good out (.raw "0")
  | node {node : Node} (operand : String → Code) (h : r.wiring.node? out.node = some node)
    (hsupplied : ∀ socket ∈ operandSockets (r.kindOf node),
      Supplied r good node socket (typedOperand (r.kindOf node) node socket) (operand socket)) :
    Assembled r temps good out (r.nodeCode temps node out.socket operand)

theorem finds_resolveOutput (out : Endpoint) (h : ∀ source ∈ r.dependencies out,
      Finds r (resolve source) fun temps marks => good temps marks source)
    : Finds r (resolveOutput r resolve out) fun temps marks =>
        Assembled r temps (good temps marks) out := by
  unfold resolveOutput
  split
  · next node hnode =>
    have hsources : ∀ socket ∈ operandSockets (r.kindOf node), FindsSource r resolve good node socket :=
      fun socket hsocket source hsource => h source (Routine.mem_dependencies hnode hsocket hsource)
    refine (finds_resolveNode hsources out.socket).weaken ?_
    rintro temps marks code ⟨operand, hsupplied, rfl⟩
    exact .node operand hnode hsupplied
  · next hnone => exact .pure fun _ _ => .missing hnone

end Operands

theorem Assembled.unfolds {marks : Prop} (h : Assembled r temps (Unfolds r temps marks) out code)
    : Unfolds r temps marks out code := by
  cases h with
  | missing h => exact .missing h
  | node operand h hsupplied =>
    exact .node operand h (fun socket hsocket => (hsupplied socket hsocket).wired)
      fun socket hsocket => (hsupplied socket hsocket).typed

theorem finds_resolve_cases {room : Nat} {passed : List Endpoint} {good : List (Endpoint × Code) → Prop → Code → Prop}
    (hmemo : ∀ temps marks code, Unfolds r temps marks out code
      → code.isProvisional = false → good temps marks code)
    (hcircular : out ∈ passed → ∀ temps marks, marks → good temps marks .circular)
    (htooDeep : room = 0 → ∀ temps marks, marks → good temps marks .tooDeep)
    (houtput : ∀ room', room = room' + 1 → out ∉ passed
      → Finds r (resolveOutput r (resolve r room' (out :: passed)) out)
          fun temps marks code =>
            Unfolds r temps marks out code ∧ good temps marks code)
    : Finds r (resolve r room passed out) good := by
  intro s hs
  unfold resolve
  rw [run_get]
  split
  · next code hcode =>
    obtain ⟨hunfolds, hprovisional⟩ := hs.memo _ (mem_of_lookup_eq_some hcode)
    exact ⟨hs, id, fun _ hmarks => ⟨rfl, hmemo _ _ _ (hunfolds.mono hmarks) hprovisional⟩⟩
  · split
    · next hpassed =>
      have hpassed : out ∈ passed := by simpa using hpassed
      exact Finds.bind (finds_reportCycle out) (fun _ => .pure fun _ _ => hcircular hpassed _ _) s hs
    · next hpassed =>
      cases room with
      | zero =>
        exact Finds.bind (finds_reportDepth out.node) (fun _ => .pure fun _ _ => htooDeep rfl _ _) s hs
      | succ room =>
        obtain ⟨hsound, hmarked, hfound⟩ := houtput room rfl (by simpa using hpassed) s hs
        obtain ⟨hbindings, hunfolds, -⟩ := hfound _ id
        rw [← hbindings] at hunfolds
        obtain ⟨hsound', hbindings', hmarked'⟩ := finds_remember hsound hunfolds
        refine ⟨hsound', fun hs => hmarked' ▸ hmarked hs, ?_⟩
        intro marks hmarks
        exact ⟨hbindings'.trans hbindings, (hfound marks (hmarked' ▸ hmarks)).2.2⟩

theorem finds_resolveOutput_unfolds {resolve : Resolver} (out : Endpoint)
    (h : ∀ source, Finds r (resolve source) fun temps marks => Unfolds r temps marks source)
    : Finds r (resolveOutput r resolve out) fun temps marks =>
        Unfolds r temps marks out :=
  (finds_resolveOutput out fun source _ => h source).weaken fun _ _ _ h => h.unfolds

theorem finds_resolve (r : Routine) (room : Nat) (passed : List Endpoint) (out : Endpoint)
    : Finds r (resolve r room passed out) fun temps marks =>
        Unfolds r temps marks out := by
  induction room generalizing passed out with
  | zero =>
    exact finds_resolve_cases (fun _ _ _ h _ => h) (fun _ _ _ => .circular out)
      (fun _ _ _ => .tooDeep out) (fun _ heq => nomatch heq)
  | succ room ih =>
    refine finds_resolve_cases (fun _ _ _ h _ => h) (fun _ _ _ => .circular out) (fun _ _ _ => .tooDeep out) ?_
    rintro _ heq -
    cases heq
    exact (finds_resolveOutput_unfolds out (ih (out :: passed))).weaken fun _ _ _ h => ⟨h, h⟩

end Build

end NodeScript.Compile
