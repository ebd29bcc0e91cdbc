import Mathlib.Data.List.Forall2
import NodeScript.Proofs.Build
import NodeScript.Proofs.Tables
import NodeScript.Proofs.Tours

/-!
Routines that agree in all that a compilation asks them compile to the same statements. It asks where
edges lead and which node has a name, and never how nodes, edges or the bodies of functions are listed.
-/

namespace NodeScript

/-- The nodes are the same to a compilation, but may call different functions. -/
structure Node.Alike (node node' : Node) : Prop where
  id : node.id = node'.id
  kind : node.kind = node'.kind
  boundName? : node.data.boundName? = node'.data.boundName?
  prompt : node.data.prompt = node'.data.prompt
  inline? : ∀ socket, node.data.inline? socket = node'.data.inline? socket

structure Node.Coincides (node node' : Node) : Prop extends node.Alike node' where
  functionId : node.data.functionId = node'.data.functionId

end NodeScript

namespace NodeScript.Compile

structure Signature.Alike (sig sig' : Signature) : Prop where
  key : sig.key = sig'.key
  name : sig.name = sig'.name
  params : sig.params = sig'.params
  returns : sig.returns = sig'.returns
  functionName : sig.function.name = sig'.function.name
  paramPorts : sig.function.params = sig'.function.params
  returnPorts : sig.function.returns = sig'.function.returns

structure Routine.Coincides (routine routine' : Routine) : Prop where
  next? : ∀ id socket, routine.wiring.next? id socket = routine'.wiring.next? id socket
  source? : ∀ id socket, routine.wiring.source? id socket = routine'.wiring.source? id socket
  length : routine.wiring.nodes.length = routine'.wiring.nodes.length
  duplicates : routine.wiring.duplicates = routine'.wiring.duplicates
  taken : routine.functions.taken = routine'.functions.taken
  get? : ∀ key, Option.Rel Signature.Alike (routine.functions.get? key) (routine'.functions.get? key)
  aliases : routine.aliases = routine'.aliases
  signature : Option.Rel Signature.Alike routine.signature routine'.signature
  instrument : routine.instrument = routine'.instrument

structure Routine.Resembles (r : Node → Node → Prop) (routine routine' : Routine) : Prop
    extends routine.Coincides routine' where
  alike : ∀ {node node'}, r node node' → node.Alike node'
  node? : ∀ id, Option.Rel r (routine.wiring.node? id) (routine'.wiring.node? id)

inductive Tour.Parallels (r : Node → Node → Prop) : Tour → Tour → Prop where
  | stop : Parallels r .stop .stop
  | cut {node node' : Node} (h : r node node') : Parallels r (.cut node) (.cut node')
  | pass {node node' : Node} {rest rest' : Tour} (h : r node node') (hrest : Parallels r rest rest') :
    Parallels r (.pass node rest) (.pass node' rest')
  | last {node node' : Node} (h : r node node') : Parallels r (.last node) (.last node')
  | branch {node node' : Node} {onTrue onTrue' onFalse onFalse' : Tour} (h : r node node')
    (htrue : Parallels r onTrue onTrue') (hfalse : Parallels r onFalse onFalse') :
    Parallels r (.branch node onTrue onFalse) (.branch node' onTrue' onFalse')
  | loop {node node' : Node} {body body' rest rest' : Tour} (h : r node node')
    (hbody : Parallels r body body') (hrest : Parallels r rest rest') :
    Parallels r (.loop node body rest) (.loop node' body' rest')

theorem Signatures.map_function_get?_ofGraph (graph : Graph) (key : String)
    : ((ofGraph graph).get? key).map Signature.function = graph.functions.get? key := by
  have hfoldl (entries : List (String × FunctionDef)) (signatures : Signatures)
      : ((entries.foldl (fun signatures entry => signatures.add entry.1 entry.2) signatures).get? key).map
          Signature.function = ((signatures.get? key).map Signature.function).or (entries.lookup key) := by
    induction entries generalizing signatures with
    | nil => exact (Option.or_none).symm
    | cons entry entries ih =>
      rw [List.foldl_cons, ih, List.lookup_cons]
      unfold get? add
      rw [List.find?_append]
      cases signatures.list.find? fun sig => sig.key = key with
      | some => rfl
      | none =>
        cases heq : key == entry.1 with
        | true => simp [eq_of_beq heq]
        | false => simp [Ne.symm (ne_of_beq_false heq)]
  exact (hfoldl graph.functions.sorted.entries _).trans (graph.functions.get?_sorted key)

theorem Signatures.forall₂_foldl_add {r : FunctionDef → FunctionDef → Prop} {q : Signature → Signature → Prop}
    (hr : ∀ function function', r function function' → function.name = function'.name
      ∧ function.params = function'.params ∧ function.returns = function'.returns)
    (hq : ∀ sig sig', sig.Alike sig' → r sig.function sig'.function
      → q sig sig') {entries entries' : List (String × FunctionDef)}
    (h : List.Forall₂ (fun entry entry' => entry.1 = entry'.1 ∧ r entry.2 entry'.2) entries entries')
    {signatures signatures' : Signatures} (hlist : List.Forall₂ q signatures.list signatures'.list)
    (htaken : signatures.taken = signatures'.taken)
    : List.Forall₂ q (entries.foldl (fun signatures (key, function) => signatures.add key function) signatures).list
        (entries'.foldl (fun signatures (key, function) => signatures.add key function) signatures').list
      ∧ (entries.foldl (fun signatures (key, function) => signatures.add key function) signatures).taken
        = (entries'.foldl (fun signatures (key, function) => signatures.add key function) signatures').taken := by
  induction h generalizing signatures signatures' with
  | nil => exact ⟨hlist, htaken⟩
  | cons hentry _ ih =>
    obtain ⟨hkey, hfunction⟩ := hentry
    obtain ⟨hname, hparams, hreturns⟩ := hr _ _ hfunction
    apply ih
    · refine List.rel_append hlist (.cons (hq _ _ ⟨hkey, ?_, ?_, ?_, hname, hparams, hreturns⟩ hfunction) .nil)
      · rw [htaken, hname]
      · rw [hparams]
      · rw [hreturns]
    · unfold Signatures.add
      dsimp only
      rw [htaken, hname, hparams]

theorem eq_none_or_some_of_rel {α β : Type} {r : α → β → Prop} {a : Option α} {b : Option β}
    (h : Option.Rel r a b) : (a = none ∧ b = none) ∨ ∃ x y, a = some x ∧ b = some y ∧ r x y := by
  cases h with
  | none => exact .inl ⟨rfl, rfl⟩
  | some hr => exact .inr ⟨_, _, rfl, rfl, hr⟩

namespace Routine.Resembles

open Build

variable {r : Node → Node → Prop} {routine routine' : Routine} (h : routine.Resembles r routine')
include h

theorem start_eq : routine.start = routine'.start := by
  have hdeclared : routine.signature.elim [] Signature.params = routine'.signature.elim [] Signature.params := by
    obtain ⟨hnone, hnone'⟩ | ⟨_, _, hsome, hsome', halike⟩ := eq_none_or_some_of_rel h.signature
    · rw [hnone, hnone']
    · rw [hsome, hsome']
      exact halike.params
  unfold start
  rw [hdeclared, h.duplicates]

theorem paramName?_eq (port : String)
    : routine.signature.bind (·.paramName? port) = routine'.signature.bind (·.paramName? port) := by
  obtain ⟨hnone, hnone'⟩ | ⟨_, _, hsome, hsome', halike⟩ := eq_none_or_some_of_rel h.signature
  · rw [hnone, hnone']
  · rw [hsome, hsome']
    simp only [Option.bind_some, Signature.paramName?]
    rw [halike.paramPorts, halike.params]

theorem notify_eq (name : String) : notify routine name = notify routine' name := by
  unfold notify
  rw [h.instrument]

theorem temporary_eq (base : String) : temporary routine base = temporary routine' base := by
  unfold temporary
  rw [h.taken]

section Nodes

variable {node node' : Node} (hnode : node.Alike node')
include hnode

omit h in
theorem variableOf_eq (default : String) : variableOf node default = variableOf node' default := by
  unfold variableOf
  rw [hnode.boundName?]

theorem kindOf_eq : routine.kindOf node = routine'.kindOf node' := by
  unfold kindOf
  rw [hnode.kind, h.aliases]

theorem enter_eq : enter routine node = enter routine' node' := by
  unfold enter
  rw [hnode.id, h.instrument]

theorem operand_eq (resolver : Resolver) (socket fallback : String)
    : operand routine resolver node socket fallback = operand routine' resolver node' socket fallback := by
  unfold operand
  rw [hnode.id, hnode.inline?, h.source?]

theorem textOperand_eq (resolver : Resolver) (socket : String)
    : textOperand routine resolver node socket = textOperand routine' resolver node' socket := by
  unfold textOperand
  rw [hnode.id, hnode.inline?, h.source?]

theorem resolveNode_eq (resolver : Resolver) (socket : String)
    : resolveNode routine resolver node socket = resolveNode routine' resolver node' socket := by
  unfold resolveNode
  simp only [h.kindOf_eq hnode, h.operand_eq hnode, h.textOperand_eq hnode, h.paramName?_eq, variableOf_eq hnode,
    hnode.id]

omit hnode in
theorem resolve_eq (room : Nat) : resolve routine room = resolve routine' room := by
  have houtput : ∀ resolver out, resolveOutput routine resolver out = resolveOutput routine' resolver out := by
    intro resolver out
    unfold resolveOutput
    obtain ⟨hnone, hnone'⟩ | ⟨_, _, hsome, hsome', hnode⟩ := eq_none_or_some_of_rel (h.node? out.node)
    · rw [hnone, hnone']
    · rw [hsome, hsome']
      exact h.resolveNode_eq (h.alike hnode) resolver out.socket
  induction room with
  | zero =>
    funext passed out
    unfold resolve
    rfl
  | succ room ih =>
    funext passed out
    unfold resolve
    simp only [ih, houtput]

theorem input_eq (socket fallback : String)
    : input routine node socket fallback = input routine' node' socket fallback := by
  unfold input
  rw [h.operand_eq hnode, h.resolve_eq]

theorem inputs_eq (ports : List Port) : inputs routine node ports = inputs routine' node' ports := by
  unfold inputs
  simp only [h.input_eq hnode]

theorem message_eq : message routine node = message routine' node' := by
  unfold message
  simp only [h.input_eq hnode, hnode.id, hnode.prompt, h.source?]

theorem returnItems_eq : returnItems routine node = returnItems routine' node' := by
  unfold returnItems
  obtain ⟨hnone, hnone'⟩ | ⟨_, _, hsome, hsome', halike⟩ := eq_none_or_some_of_rel h.signature
  · rw [hnone, hnone']
  · rw [hsome, hsome']
    dsimp only
    rw [halike.returnPorts, halike.returns]
    simp only [h.inputs_eq hnode, h.enter_eq hnode]

theorem callItems_eq (hfunction : node.data.functionId = node'.data.functionId)
    : callItems routine node = callItems routine' node' := by
  unfold callItems
  dsimp only
  rw [hfunction]
  obtain ⟨hnone, hnone'⟩ | ⟨_, _, hsome, hsome', halike⟩ :=
    eq_none_or_some_of_rel (h.get? (node'.data.functionId.getD ""))
  · rw [hnone, hnone']
    simp only [h.enter_eq hnode, hnode.id]
  · rw [hsome, hsome']
    dsimp only
    rw [halike.paramPorts, halike.returnPorts, halike.name]
    simp only [h.inputs_eq hnode, h.enter_eq hnode, h.temporary_eq, bindResults, hnode.id,
      halike.returnPorts, halike.returns]

theorem passItems_eq (hcall : routine.kindOf node = .callFunction → node.data.functionId = node'.data.functionId)
    : passItems routine node = passItems routine' node' := by
  by_cases hkind : routine.kindOf node = .callFunction
  · unfold passItems
    simp only [h.kindOf_eq hnode ▸ hkind, hkind, h.callItems_eq hnode (hcall hkind)]
  · unfold passItems
    simp only [h.enter_eq hnode, h.notify_eq, h.input_eq hnode, h.message_eq hnode, h.temporary_eq,
      variableOf_eq hnode, hnode.id]
    rw [← h.kindOf_eq hnode]
    split <;> first | rfl | contradiction

theorem lastItems_eq : lastItems routine node = lastItems routine' node' := by
  unfold lastItems
  simp only [h.kindOf_eq hnode, h.enter_eq hnode, h.returnItems_eq hnode]

theorem loopHead_eq : loopHead routine node = loopHead routine' node' := by
  unfold loopHead
  simp only [h.kindOf_eq hnode, h.enter_eq hnode, h.notify_eq, h.input_eq hnode, variableOf_eq hnode]

end Nodes

theorem tour (steps depth : Nat) (passed : List String) (id : String)
    : (routine.tour steps depth passed id).Parallels r (routine'.tour steps depth passed id) := by
  induction steps generalizing depth passed id with
  | zero => exact .stop
  | succ steps ih =>
    rw [Routine.tour, Routine.tour]
    split
    · exact .stop
    obtain ⟨hnone, hnone'⟩ | ⟨node, node', hsome, hsome', hnode⟩ := eq_none_or_some_of_rel (h.node? id)
    · rw [hnone, hnone']
      exact .stop
    rw [hsome, hsome']
    have halike := h.alike hnode
    have hafter : ∀ socket, (routine.after (routine.tour steps depth (id :: passed)) node socket).Parallels r
        (routine'.after (routine'.tour steps depth (id :: passed)) node' socket) := by
      intro socket
      unfold after
      rw [h.next?, halike.id]
      split
      · exact .stop
      · exact ih ..
    have harm : ∀ socket, Tour.Parallels r
        (routine.arm (routine.tour steps (depth + 1) (id :: passed)) (depth + 1) node socket)
        (routine'.arm (routine'.tour steps (depth + 1) (id :: passed)) (depth + 1) node' socket) := by
      intro socket
      unfold arm
      rw [h.next?, halike.id]
      split
      · exact .stop
      · split
        · exact .cut hnode
        · exact ih ..
    dsimp only
    rw [h.kindOf_eq halike]
    split
    · exact .pass hnode (hafter _)
    · exact .last hnode
    · exact .branch hnode (harm _) (harm _)
    · exact .loop hnode (harm _) (hafter _)

theorem tourFrom {entry entry' : Node} (hentry : r entry entry') (depth : Nat)
    : (routine.tourFrom entry depth).Parallels r (routine'.tourFrom entry' depth) := by
  unfold Routine.tourFrom
  rw [h.length, (h.alike hentry).id]
  exact h.tour ..

end Routine.Resembles

section Coinciding

open Build

variable {routine routine' : Routine} (h : routine.Resembles Node.Coincides routine')
include h

theorem walk_eq_of_parallels {tour tour' : Tour} (htour : tour.Parallels Node.Coincides tour')
    : walk routine tour = walk routine' tour' := by
  induction htour with
  | stop => rfl
  | cut hnode => simp only [walk, hnode.id]
  | pass hnode _ ih => simp only [walk, h.passItems_eq hnode.toAlike fun _ => hnode.functionId, ih]
  | last hnode => simp only [walk, h.lastItems_eq hnode.toAlike]
  | branch hnode _ _ ihTrue ihFalse =>
    simp only [walk, h.input_eq hnode.toAlike, h.enter_eq hnode.toAlike, ihTrue, ihFalse]
  | loop hnode _ _ ihBody ihRest =>
    simp only [walk, h.loopHead_eq hnode.toAlike, h.enter_eq hnode.toAlike, ihBody, ihRest]

theorem compileFrom_eq_of_coincides {entry entry' : Node} (hentry : entry.Coincides entry') (depth : Nat)
    : routine.compileFrom entry depth = routine'.compileFrom entry' depth := by
  unfold Routine.compileFrom
  rw [walk_eq_of_parallels h (h.tourFrom hentry depth), h.start_eq]

end Coinciding

end NodeScript.Compile
