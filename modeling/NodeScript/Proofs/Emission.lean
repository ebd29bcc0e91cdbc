import NodeScript.Proofs.ExpressionDepth

/-!
What a walk writes down, said without the state that it carries along: each node of a tour gives
rise to statements that read its inputs, and leaves bindings for those after it.
-/

namespace NodeScript.Compile

open List Build

structure Resolved (r : Routine) (temps : List (Endpoint × Code)) (marks : Prop)
    (source : Endpoint) (code : Code) : Prop where
  unfolds : Unfolds r temps marks source code
  height : (∀ sig ∈ r.signature, sig.Named) → r.ShortChains
    → (∀ entry ∈ temps, entry.2.Within 0) → code.height ≤ 3 * maxExpressionDepth
  direct : ∀ node, r.wiring.node? source.node = some node → operandSockets (r.kindOf node) = []
    → ∀ operand, code = r.nodeCode temps node source.socket operand

def Reading (r : Routine) (temps : List (Endpoint × Code)) (marks : Prop) (node : Node)
    (socket fallback : String) (code : Code) : Prop :=
  Supplied r (Resolved r temps marks) node socket
    (.raw ((node.data.inline? socket).getD fallback)) code

def Saying (r : Routine) (temps : List (Endpoint × Code)) (marks : Prop) (node : Node) (code : Code) : Prop :=
  Supplied r (Resolved r temps marks) node "prompt" (.quoted (node.data.prompt.getD "")) code

def Readings (r : Routine) (temps : List (Endpoint × Code)) (marks : Prop) (node : Node)
    : List Port → List Code → Prop :=
  List.Forall₂ fun port => Reading r temps marks node port.id port.dataType.fallback

namespace Bindings

def isFresh (bindings : Bindings) (name : String) : Bool :=
  !bindings.declared.contains name

def declare (bindings : Bindings) (name : String) : Bindings :=
  if bindings.isFresh name then { bindings with declared := name :: bindings.declared } else bindings

theorem temporaries_declare (bindings : Bindings) (name : String)
    : (bindings.declare name).temporaries = bindings.temporaries := by
  unfold declare
  split <;> rfl

theorem nextTemporary_declare (bindings : Bindings) (name : String)
    : (bindings.declare name).nextTemporary = bindings.nextTemporary := by
  unfold declare
  split <;> rfl

theorem declared_subset_declare (bindings : Bindings) (name : String)
    : bindings.declared ⊆ (bindings.declare name).declared := by
  unfold declare
  split
  · exact subset_cons_self _ _
  · exact List.Subset.refl _

theorem mem_declared_declare (bindings : Bindings) (name : String) : name ∈ (bindings.declare name).declared := by
  unfold declare
  split
  · exact mem_cons_self
  · next hold => simpa [isFresh] using hold

def number (bindings : Bindings) (r : Routine) (base : String) : Nat :=
  let taken := r.functions.taken
  firstFree taken (fun n => base ++ "_" ++ Nat.repr n) (taken.length + 1) bindings.nextTemporary

def temporary (bindings : Bindings) (r : Routine) (base : String) : String :=
  base ++ "_" ++ Nat.repr (bindings.number r base)

def take (bindings : Bindings) (r : Routine) (base : String) : Bindings :=
  { bindings with nextTemporary := bindings.number r base + 1 }

def bind (bindings : Bindings) (out : Endpoint) (code : Code) : Bindings :=
  { bindings with temporaries := (out, code) :: bindings.temporaries }

def bindResults (bindings : Bindings) (node : Node) (result : String) (sig : Signature) : Bindings :=
  match sig.function.returns with
  | [] => bindings
  | [port] => bindings.bind ⟨node.id, port.id⟩ (.ident result)
  | ports => (ports.zip sig.returns).foldl
      (fun bindings (port, field) => bindings.bind ⟨node.id, port.id⟩ (.member result field)) bindings

end Bindings

def passKinds : List NodeKind :=
  [.input, .output, .set, .arrayCreate, .arrayPush, .arrayPop, .arraySet, .callFunction]

inductive Passes (r : Routine) (marks : Prop) (node : Node) (bindings : Bindings)
    : List Item → Bindings → Prop where
  | ask {message : Code} (hkind : r.kindOf node = .input)
    (hmessage : Saying r bindings.temporaries marks node message) :
    Passes r marks node bindings (enter r node
        ++ [.line (.ask (bindings.isFresh (variableOf node "_input")) (variableOf node "_input") message)]
        ++ notify r (variableOf node "_input"))
      (bindings.declare (variableOf node "_input"))
  | print {value : Code} (hkind : r.kindOf node = .output)
    (hvalue : Reading r bindings.temporaries marks node "value" "0" value) :
    Passes r marks node bindings (enter r node ++ [.line (.print value)]) bindings
  | set {value : Code} (hkind : r.kindOf node = .set)
    (hvalue : Reading r bindings.temporaries marks node "value" "0" value) :
    Passes r marks node bindings (enter r node
        ++ [.line (.assign (bindings.isFresh (variableOf node "_var")) (variableOf node "_var") value)]
        ++ notify r (variableOf node "_var"))
      (bindings.declare (variableOf node "_var"))
  | create (hkind : r.kindOf node = .arrayCreate) :
    Passes r marks node bindings (enter r node
        ++ [.line (.assign (bindings.isFresh (variableOf node "_arr")) (variableOf node "_arr") (.raw "[]"))]
        ++ notify r (variableOf node "_arr"))
      (bindings.declare (variableOf node "_arr"))
  | push {value : Code} (hkind : r.kindOf node = .arrayPush)
    (hvalue : Reading r bindings.temporaries marks node "value" "0" value) :
    Passes r marks node bindings (enter r node ++ [.line (.push (variableOf node "_arr") value)]
        ++ notify r (variableOf node "_arr"))
      bindings
  | pop (hkind : r.kindOf node = .arrayPop) :
    Passes r marks node bindings (enter r node
        ++ [.line (.pop (bindings.temporary r "__pop") (variableOf node "_arr"))]
        ++ notify r (variableOf node "_arr"))
      ((bindings.take r "__pop").bind ⟨node.id, "value"⟩ (.ident (bindings.temporary r "__pop")))
  | store {index value : Code} (hkind : r.kindOf node = .arraySet)
    (hindex : Reading r bindings.temporaries marks node "index" "0" index)
    (hvalue : Reading r bindings.temporaries marks node "value" "0" value) :
    Passes r marks node bindings (enter r node ++ [.line (.store (variableOf node "_arr") index value)]
        ++ notify r (variableOf node "_arr"))
      bindings
  | callUnknown (hkind : r.kindOf node = .callFunction)
    (hfunction : r.functions.get? (node.data.functionId.getD "") = none) (hmarks : marks) :
    Passes r marks node bindings
      (enter r node ++ [.line (.unknownFunction (node.data.functionId.getD ""))]) bindings
  | callNothing {sig : Signature} {arguments : List Code}
    (hkind : r.kindOf node = .callFunction)
    (hfunction : r.functions.get? (node.data.functionId.getD "") = some sig)
    (harguments : Readings r bindings.temporaries marks node sig.function.params arguments)
    (hreturns : sig.function.returns = []) :
    Passes r marks node bindings (enter r node ++ [.line (.call none sig.name arguments)]) bindings
  | call {sig : Signature} {arguments : List Code}
    (hkind : r.kindOf node = .callFunction)
    (hfunction : r.functions.get? (node.data.functionId.getD "") = some sig)
    (harguments : Readings r bindings.temporaries marks node sig.function.params arguments)
    (hreturns : sig.function.returns ≠ []) :
    Passes r marks node bindings (enter r node
        ++ [.line (.call (some (bindings.temporary r "__ret")) sig.name arguments)])
      ((bindings.take r "__ret").bindResults node (bindings.temporary r "__ret") sig)
  | other (hkind : r.kindOf node ∉ passKinds) : Passes r marks node bindings [] bindings

def returnLine (sig : Signature) : List Code → Line
  | [] => .returnNothing
  | [value] => .returnValue value
  | values => .returnRecord (sig.returns.zip values)

theorem codes_returnLine {sig : Signature} {values : List Code}
    (h : sig.returns.length = values.length) : (returnLine sig values).codes = values := by
  match values, h with
  | [], _ | [_], _ => rfl
  | _ :: _ :: _, h => exact map_snd_zip (Nat.le_of_eq h.symm)

inductive Ends (r : Routine) (marks : Prop) (node : Node) (temps : List (Endpoint × Code))
    : List Item → Prop where
  | stop (hkind : r.kindOf node = .stop) : Ends r marks node temps (enter r node)
  | breakLoop (hkind : r.kindOf node = .breakLoop) :
    Ends r marks node temps (enter r node ++ [.line .breakLoop])
  | continueLoop (hkind : r.kindOf node = .continueLoop) :
    Ends r marks node temps (enter r node ++ [.line .continueLoop])
  | returnFrom {sig : Signature} {values : List Code}
    (hkind : r.kindOf node = .functionReturn) (hsig : r.signature = some sig)
    (hvalues : Readings r temps marks node sig.function.returns values) :
    Ends r marks node temps (enter r node ++ [.line (returnLine sig values)])
  | other (hkind : r.kindOf node ∉ [.stop, .breakLoop, .continueLoop])
    (hsig : r.kindOf node = .functionReturn → r.signature = none) :
    Ends r marks node temps []

inductive Heads (r : Routine) (marks : Prop) (node : Node) (bindings : Bindings)
    : (List Item → Item) → Bindings → Prop where
  | forLoop {start limit step : Code} (hkind : r.kindOf node = .forLoop)
    (hstart : Reading r bindings.temporaries marks node "from" "0" start)
    (hlimit : Reading r bindings.temporaries marks node "to" "10" limit)
    (hstep : Reading r bindings.temporaries marks node "step" "1" step) :
    Heads r marks node bindings (fun body => .forLoop (variableOf node "i") start limit step
        (enter r node ++ notify r (variableOf node "i") ++ body))
      (bindings.declare (variableOf node "i"))
  | whileLoop {cond : Code} (hkind : r.kindOf node ≠ .forLoop)
    (hcond : Reading r bindings.temporaries marks node "condition" "false" cond) :
    Heads r marks node bindings (fun body => .whileLoop cond (enter r node ++ body)) bindings

inductive Emits (r : Routine) (marks : Prop) : Tour → Bindings → List Item → Bindings → Prop where
  | stop {bindings : Bindings} : Emits r marks .stop bindings [] bindings
  | cut {bindings : Bindings} (node : Node) (hmarks : marks) :
    Emits r marks (.cut node) bindings [.line .nestingTooDeep] bindings
  | pass {node : Node} {rest : Tour} {bindings bindings' bindings'' : Bindings}
    {items items' : List Item} (h : Passes r marks node bindings items bindings')
    (hrest : Emits r marks rest bindings' items' bindings'') :
    Emits r marks (.pass node rest) bindings (items ++ items') bindings''
  | last {node : Node} {bindings : Bindings} {items : List Item}
    (h : Ends r marks node bindings.temporaries items) :
    Emits r marks (.last node) bindings items bindings
  | branch {node : Node} {onTrue onFalse : Tour} {bindings bindings' bindings'' : Bindings}
    {cond : Code} {items items' : List Item}
    (hcond : Reading r bindings.temporaries marks node "condition" "false" cond)
    (htrue : Emits r marks onTrue bindings items bindings')
    (hfalse : Emits r marks onFalse bindings' items' bindings'') :
    Emits r marks (.branch node onTrue onFalse) bindings
      (enter r node ++ [.ifElse cond items items']) bindings''
  | loop {node : Node} {body rest : Tour} {bindings bindings' bindings'' bindings''' : Bindings}
    {head : List Item → Item} {items items' : List Item}
    (hhead : Heads r marks node bindings head bindings')
    (hbody : Emits r marks body bindings' items bindings'')
    (hrest : Emits r marks rest bindings'' items' bindings''') :
    Emits r marks (.loop node body rest) bindings (enter r node ++ [head items] ++ items') bindings'''

namespace Build

variable {r : Routine}

theorem finds_direct (source : Endpoint)
    : Finds r (resolve r maxExpressionDepth [] source) fun temps _ code =>
        ∀ node, r.wiring.node? source.node = some node → operandSockets (r.kindOf node) = []
          → ∀ operand, code = r.nodeCode temps node source.socket operand := by
  have hcongr {temps : List (Endpoint × Code)} {node : Node} (hnone : operandSockets (r.kindOf node) = [])
      (operand operand' : String → Code) : r.nodeCode temps node source.socket operand
        = r.nodeCode temps node source.socket operand' :=
    Routine.nodeCode_congr (by simp [hnone]) source.socket
  refine finds_resolve_cases ?_ (fun hpassed => nomatch hpassed) (fun hroom => nomatch hroom) fun room _ _ => ?_
  · intro temps marks code h hprovisional node hnode hnone operand
    cases h with
    | circular => exact nomatch Code.isProvisional_circular.symm.trans hprovisional
    | tooDeep => exact nomatch Code.isProvisional_tooDeep.symm.trans hprovisional
    | missing h => exact nomatch h.symm.trans hnode
    | node operand' h =>
      cases h.symm.trans hnode
      exact hcongr hnone operand' operand
  · have hresolve := finds_resolve r room [source]
    have hassembled := finds_resolveOutput source fun source' _ => hresolve source'
    refine ((finds_resolveOutput_unfolds source hresolve).and hassembled).weaken ?_
    rintro temps marks code ⟨hunfolds, h⟩
    refine ⟨hunfolds, fun node hnode hnone operand => ?_⟩
    cases h with
    | missing h => exact nomatch h.symm.trans hnode
    | node operand' h =>
      cases h.symm.trans hnode
      exact hcongr hnone operand' operand

theorem finds_resolved (source : Endpoint)
    : Finds r (resolve r maxExpressionDepth [] source) fun temps marks =>
        Resolved r temps marks source := by
  have hunfolds := (finds_resolve r maxExpressionDepth [] source).and (finds_direct source)
  by_cases h : (∀ sig ∈ r.signature, sig.Named) ∧ r.ShortChains
  · have hheight := finds_resolve_height h.1 h.2 nodup_nil (isChain_singleton source) (Nat.add_zero maxExpressionDepth)
    exact (hunfolds.and hheight).weaken fun _ _ _ hcode => ⟨hcode.1.1, fun _ _ => hcode.2, hcode.1.2⟩
  · exact hunfolds.weaken fun _ _ _ hcode =>
      ⟨hcode.1, fun hsig hshort => absurd ⟨hsig, hshort⟩ h, hcode.2⟩

theorem finds_input (node : Node) (socket fallback : String)
    : Finds r (input r node socket fallback) fun temps marks =>
        Reading r temps marks node socket fallback :=
  finds_operand (fun source _ => finds_resolved source) fallback

theorem finds_inputs (node : Node) (ports : List Port)
    : Finds r (inputs r node ports) fun temps marks =>
        Readings r temps marks node ports := by
  unfold inputs
  induction ports with
  | nil =>
    rw [mapM_nil]
    exact .pure fun _ _ => .nil
  | cons port ports ih =>
    rw [mapM_cons]
    exact .bind (finds_input node port.id _) fun code => .bind ih fun codes =>
      .pure fun _ _ hcodes hcode => .cons hcode hcodes

theorem finds_message (node : Node) : Finds r (message r node) fun temps marks =>
        Saying r temps marks node := by
  unfold message
  split
  · next source hsource =>
    exact (finds_input node "prompt" _).weaken fun _ _ _ hcode => .of_source hsource (hcode.wired _ hsource)
  · next hnone => exact .pure fun _ _ => .of_none hnone _

theorem performs_declare (name : String) : Performs r (declare name) fun _ bindings fresh bindings' =>
        fresh = bindings.isFresh name ∧ bindings' = bindings.declare name := by
  intro s hs
  unfold declare
  rw [run_get]
  dsimp only
  split
  · next hfresh =>
    refine ⟨⟨hs.memo, hs.cycles, hs.depth⟩, id, fun _ _ => ⟨rfl, ?_⟩⟩
    exact (if_pos (show s.bindings.isFresh name from hfresh)).symm
  · next hfresh =>
    refine ⟨hs, id, fun _ _ => ⟨rfl, ?_⟩⟩
    exact (if_neg (show ¬ s.bindings.isFresh name from hfresh)).symm

theorem performs_temporary (base : String) : Performs r (temporary r base) fun _ bindings name bindings' =>
        name = bindings.temporary r base ∧ bindings' = bindings.take r base :=
  fun _ hs => ⟨⟨hs.memo, hs.cycles, hs.depth⟩, id, fun _ _ => ⟨rfl, rfl⟩⟩

theorem performs_bindTemporary (out : Endpoint) (code : Code)
    : Performs r (bindTemporary out code) fun _ bindings _ bindings' =>
        bindings' = bindings.bind out code :=
  fun _ hs => ⟨⟨fun _ hentry => (not_mem_nil hentry).elim, hs.cycles, hs.depth⟩, id, fun _ _ => rfl⟩

theorem performs_report (diagnostic : Diagnostic)
    : Performs r (report diagnostic) fun marks bindings _ bindings' =>
        bindings' = bindings ∧ marks := by
  intro s hs
  have hmarked : s.diagnostics ++ [diagnostic] ≠ [] :=
    append_ne_nil_of_right_ne_nil _ (cons_ne_nil _ _)
  exact ⟨hs.report rfl rfl hmarked, fun _ => hmarked, fun _ hmarks => ⟨rfl, hmarks hmarked⟩⟩

theorem performs_bindResults (node : Node) (result : String) (sig : Signature)
    : Performs r (bindResults node result sig) fun _ bindings _ bindings' =>
        bindings' = bindings.bindResults node result sig := by
  have hforM : ∀ fields : List (Port × String), Performs r
        (fields.forM fun (port, field) => bindTemporary ⟨node.id, port.id⟩ (.member result field))
        fun _ bindings _ bindings' => bindings' = fields.foldl
          (fun bindings (port, field) => bindings.bind ⟨node.id, port.id⟩ (.member result field))
          bindings := by
    intro fields
    induction fields with
    | nil => exact .pure fun _ _ => rfl
    | cons field fields ih =>
      refine Performs.bind (performs_bindTemporary _ _) fun _ => ih.weaken ?_
      rintro _ _ _ _ rfl _ rfl
      rfl
  unfold bindResults Bindings.bindResults
  generalize sig.function.returns = ports
  match ports with
  | [] => exact .pure fun _ _ => rfl
  | [port] => exact performs_bindTemporary _ _
  | port :: port' :: ports => exact hforM _

theorem performs_callItems {node : Node} (hkind : r.kindOf node = .callFunction)
    : Performs r (callItems r node) fun marks => Passes r marks node := by
  unfold callItems
  dsimp only
  split
  · next hfunction =>
    refine Performs.bind (performs_report _) fun _ => .pure ?_
    rintro marks _ _ ⟨rfl, hmarks⟩
    exact .callUnknown hkind hfunction hmarks
  · next sig hfunction =>
    refine Performs.bind (finds_inputs node _) fun arguments => ?_
    split
    · next hreturns =>
      refine .pure ?_
      rintro marks _ _ ⟨rfl, harguments⟩
      exact .callNothing hkind hfunction harguments (isEmpty_iff.mp hreturns)
    · next hreturns =>
      refine Performs.bind (performs_temporary "__ret") fun result =>
        Performs.bind (performs_bindResults node result sig) fun _ => .pure ?_
      rintro marks _ _ rfl _ ⟨rfl, rfl⟩ _ ⟨rfl, harguments⟩
      exact .call hkind hfunction harguments (by simpa using hreturns)

theorem performs_passItems (node : Node) : Performs r (passItems r node) fun marks => Passes r marks node := by
  unfold passItems
  dsimp only
  split
  · next hkind =>
    refine Performs.bind (finds_message node) fun message =>
      Performs.bind (performs_declare _) fun fresh => .pure ?_
    rintro marks _ _ ⟨rfl, rfl⟩ _ ⟨rfl, hmessage⟩
    exact .ask hkind hmessage
  · next hkind =>
    refine Performs.bind (finds_input node _ _) fun value => .pure ?_
    rintro marks _ _ ⟨rfl, hvalue⟩
    exact .print hkind hvalue
  · next hkind =>
    refine Performs.bind (finds_input node _ _) fun value =>
      Performs.bind (performs_declare _) fun fresh => .pure ?_
    rintro marks _ _ ⟨rfl, rfl⟩ _ ⟨rfl, hvalue⟩
    exact .set hkind hvalue
  · next hkind =>
    refine Performs.bind (performs_declare _) fun fresh => .pure ?_
    rintro marks _ _ ⟨rfl, rfl⟩
    exact .create hkind
  · next hkind =>
    refine Performs.bind (finds_input node _ _) fun value => .pure ?_
    rintro marks _ _ ⟨rfl, hvalue⟩
    exact .push hkind hvalue
  · next hkind =>
    refine Performs.bind (performs_temporary "__pop") fun result =>
      Performs.bind (performs_bindTemporary _ _) fun _ => .pure ?_
    rintro marks _ _ rfl _ ⟨rfl, rfl⟩
    exact .pop hkind
  · next hkind =>
    refine Performs.bind (finds_input node _ _) fun index =>
      Performs.bind (finds_input node _ _) fun value => .pure ?_
    rintro marks _ _ ⟨rfl, hvalue⟩ _ ⟨rfl, hindex⟩
    exact .store hkind hindex hvalue
  · next hkind => exact performs_callItems hkind
  · next =>
    refine .pure fun marks bindings => .other ?_
    simp_all [passKinds]

theorem performs_lastItems (node : Node)
    : Performs r (lastItems r node) fun marks bindings items bindings' =>
        bindings' = bindings ∧ Ends r marks node bindings.temporaries items := by
  unfold lastItems
  dsimp only
  split
  · next hkind => exact .pure fun _ _ => ⟨rfl, .stop hkind⟩
  · next hkind => exact .pure fun _ _ => ⟨rfl, .breakLoop hkind⟩
  · next hkind => exact .pure fun _ _ => ⟨rfl, .continueLoop hkind⟩
  · next hkind =>
    unfold returnItems
    split
    · next hsig => exact .pure fun _ _ => ⟨rfl, .other (by simp [hkind]) fun _ => hsig⟩
    · next sig hsig =>
      refine Performs.bind (finds_inputs node _) fun values => .pure ?_
      rintro marks _ _ ⟨rfl, hvalues⟩
      have hends := Ends.returnFrom hkind hsig hvalues
      match values, hends with
      | [], hends | [_], hends | _ :: _ :: _, hends => exact ⟨rfl, hends⟩
  · next =>
    refine .pure fun _ _ => ⟨rfl, .other ?_ ?_⟩
    · simp_all
    · intro h
      contradiction

theorem performs_loopHead (node : Node) : Performs r (loopHead r node) fun marks => Heads r marks node := by
  unfold loopHead
  dsimp only
  split
  · next hkind =>
    refine Performs.bind (finds_input node _ _) fun start =>
      Performs.bind (finds_input node _ _) fun limit =>
      Performs.bind (finds_input node _ _) fun step =>
      Performs.bind (performs_declare _) fun _ => .pure ?_
    rintro marks _ _ ⟨rfl, rfl⟩ _ ⟨rfl, hstep⟩ _ ⟨rfl, hlimit⟩ _ ⟨rfl, hstart⟩
    exact .forLoop hkind hstart hlimit hstep
  · next hkind =>
    refine Performs.bind (finds_input node _ _) fun cond => .pure ?_
    rintro marks _ _ ⟨rfl, hcond⟩
    exact .whileLoop hkind hcond

theorem performs_walk (tour : Tour) : Performs r (walk r tour) fun marks => Emits r marks tour := by
  induction tour with
  | stop => exact .pure fun _ _ => .stop
  | cut node =>
    refine Performs.bind (performs_report _) fun _ => .pure ?_
    rintro marks _ _ ⟨rfl, hmarks⟩
    exact .cut node hmarks
  | pass node rest ih =>
    refine Performs.bind (performs_passItems node) fun items => Performs.bind ih fun items' => .pure ?_
    intro marks _ _ hrest _ h
    exact .pass h hrest
  | last node =>
    refine (performs_lastItems node).weaken ?_
    rintro marks _ items _ ⟨rfl, h⟩
    exact .last h
  | branch node onTrue onFalse ihTrue ihFalse =>
    refine Performs.bind (finds_input node _ _) fun cond =>
      Performs.bind ihTrue fun items => Performs.bind ihFalse fun items' => .pure ?_
    rintro marks _ _ hfalse _ htrue _ ⟨rfl, hcond⟩
    exact .branch hcond htrue hfalse
  | loop node body rest ihBody ihRest =>
    refine Performs.bind (performs_loopHead node) fun head =>
      Performs.bind ihBody fun items => Performs.bind ihRest fun items' => .pure ?_
    intro marks _ _ hrest _ hbody _ hhead
    exact .loop hhead hbody hrest

end Build

theorem Routine.sound_start (r : Routine) : Sound r r.start where
  memo := fun _ hentry => (not_mem_nil hentry).elim
  cycles := fun h => absurd rfl h
  depth := fun h => nomatch h

theorem Routine.emits_compileFrom (r : Routine) (entry : Node) (depth : Nat)
    : ∃ bindings, Emits r ((r.compileFrom entry depth).2 ≠ []) (r.tourFrom entry depth)
        r.start.bindings (r.compileFrom entry depth).1 bindings :=
  ⟨_, (performs_walk (r.tourFrom entry depth) _ r.sound_start).2.2 _ id⟩

end NodeScript.Compile
