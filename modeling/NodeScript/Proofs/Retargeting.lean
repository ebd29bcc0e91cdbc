import NodeScript.Proofs.Containment
import NodeScript.Proofs.Instrumentation
import NodeScript.Proofs.Reordering
import NodeScript.Proofs.RoundTrip

/-!
Calls of functions that do not exist leave a comment in place of a statement. Which function it was makes
no difference to how the program reads, as long as its name has no line break and no text that is taken over
from the graph leaves a string or a comment open.
-/

namespace NodeScript

open List

variable {outset : Outset} {sig sig' : Signature}

/-- The nodes differ at most in the functions that they call. -/
def Node.Retargets (node node' : Node) : Prop :=
  node' = { node with data := { node.data with functionId := node'.data.functionId } }

/-- The second node is the first one, but may call `y` where the first one calls `x`. -/
structure Node.Redirects (x y : String) (node node' : Node) : Prop where
  retargets : node.Retargets node'
  function : node.data.functionId = node'.data.functionId
    ∨ node.data.functionId = some x ∧ node'.data.functionId = some y

theorem Node.Redirects.alike {x y : String} {node node' : Node} (h : node.Redirects x y node') : node.Alike node' := by
  rw [h.retargets]
  exact ⟨rfl, rfl, rfl, rfl, fun _ => rfl⟩

structure FunctionDef.Redirects (x y : String) (function function' : FunctionDef) : Prop where
  name : function.name = function'.name
  params : function.params = function'.params
  returns : function.returns = function'.returns
  nodes : List.Forall₂ (Node.Redirects x y) function.nodes function'.nodes
  edges : function.edges = function'.edges

structure Graph.Redirects (x y : String) (graph graph' : Graph) : Prop where
  nodes : List.Forall₂ (Node.Redirects x y) graph.nodes graph'.nodes
  edges : graph.edges = graph'.edges
  functions : List.Forall₂ (fun entry entry' => entry.1 = entry'.1 ∧ entry.2.Redirects x y entry'.2)
    graph.functions.entries graph'.functions.entries

namespace Compile

open Build Script

/-- Text that is typed into the input becomes a part of the code as it is. -/
def Routine.Copies (routine : Routine) (node : Node) (socket : String) : Prop :=
  routine.wiring.source? node.id socket = none ∧ (socket ∈ routine.statementSockets node
      ∨ routine.kindOf node ≠ .concat ∧ socket ∈ operandSockets (routine.kindOf node))

instance (routine : Routine) (node : Node) (socket : String) : Decidable (routine.Copies node socket) :=
  inferInstanceAs (Decidable (_ ∧ (_ ∨ _ ∧ _)))

/-- No text that the routine takes over leaves a string or a comment open. -/
@[mk_iff]
structure Routine.Contained (routine : Routine) : Prop where
  texts : ∀ node ∈ routine.wiring.nodes, ∀ entry ∈ node.data.inlineValues.entries,
    routine.Copies node entry.1 → Closed entry.2.toList
  calls : ∀ node ∈ routine.wiring.nodes, routine.kindOf node = .callFunction
    → (routine.functions.get? (node.data.functionId.getD "")).isNone → '\n' ∉ (node.data.functionId.getD "").toList

instance (routine : Routine) : Decidable routine.Contained :=
  decidable_of_iff _ routine.contained_iff.symm

section Contained

variable {routine : Routine} (h : routine.Contained)

include h

theorem Routine.Contained.closed {node : Node} (hnode : node ∈ routine.wiring.nodes) {socket : String}
    (hcopies : routine.Copies node socket) {fallback : String} (hfallback : Closed fallback.toList)
    : Closed ((node.data.inline? socket).getD fallback).toList := by
  cases hinline : node.data.inline? socket with
  | none => exact hfallback
  | some text =>
    have hentry := mem_of_lookup_eq_some (Option.filter_eq_some_iff.mp hinline).1
    exact h.texts node hnode (socket, text) hentry hcopies

theorem Unfolds.closes (hsig : ∀ sig ∈ routine.signature, sig.Named)
    {temps : List (Endpoint × Code)} (hplain : Plain temps) {marks : Prop} {out : Endpoint}
    {code : Code} (hunfolds : Unfolds routine temps marks out code) : code.Closes := by
  induction hunfolds with
  | circular | tooDeep | missing =>
    unfold Code.Closes
    decide
  | @node out node operand hnode _ htyped ih =>
    apply (shaped_nodeCode hsig hplain node out.socket operand).closed
    intro socket hsocket
    cases hsource : routine.wiring.source? node.id socket with
    | some source => exact ih socket hsocket source hsource
    | none =>
      have hmem := Wiring.mem_of_node?_eq_some hnode
      have hcopies := fun hkind => (⟨hsource, .inr ⟨hkind, hsocket⟩⟩ : routine.Copies node socket)
      rw [htyped socket hsocket hsource]
      unfold typedOperand
      dsimp only
      split
      · exact (ended_quote _).closed
      · next hkind =>
        refine h.closed hmem (hcopies (by rw [hkind]; decide)) ?_
        split <;> decide
      · next hkind => exact h.closed hmem (hcopies (by rw [hkind]; decide)) (by decide)
      · next hkind _ _ => exact h.closed hmem (hcopies hkind) (by decide)

theorem Routine.Contained.serves (hsig : ∀ sig ∈ routine.signature, sig.Named)
    {node : Node} (hnode : node ∈ routine.wiring.nodes) : routine.Serves Code.Closes node where
  typed _ hsocket hnone fallback hfallback := by
    have hclosed : (Code.raw fallback).Closes := Code.closed_of_fits hfallback
    exact h.closed hnode ⟨hnone, .inl hsocket⟩ hclosed
  wired _ _ _ _ _ _ _ hplain hresolved := Unfolds.closes h hsig hplain hresolved.unfolds
  call hkind hnone := h.calls node hnode hkind (Option.isNone_iff_eq_none.mpr hnone)

end Contained

namespace Build

variable {α β γ δ : Type}

def Mirrors (r : α → β → Prop) (x : Build α) (y : Build β) : Prop :=
  ∀ s old, ∃ new, r (x.run s).1 (y.run (s.withDiagnostics old)).1
    ∧ (y.run (s.withDiagnostics old)).2 = (x.run s).2.withDiagnostics new

namespace Mirrors

theorem pure {r : α → β → Prop} {a : α} {b : β} (h : r a b)
    : Mirrors r (Pure.pure a : Build α) (Pure.pure b : Build β) :=
  fun _ old => ⟨old, h, rfl⟩

theorem bind {r : α → β → Prop} {q : γ → δ → Prop} {x : Build α} {y : Build β} {f : α → Build γ}
    {g : β → Build δ} (hx : Mirrors r x y) (hf : ∀ a b, r a b → Mirrors q (f a) (g b))
    : Mirrors q (x >>= f) (y >>= g) := by
  intro s old
  obtain ⟨middle, hr, hstate⟩ := hx s old
  obtain ⟨new, hq, hstate'⟩ := hf _ _ hr (x.run s).2 middle
  refine ⟨new, ?_, ?_⟩
  all_goals rwa [run_bind, run_bind, hstate]

theorem report (d d' : Diagnostic) : Mirrors (fun _ _ => True) (Build.report d) (Build.report d') :=
  fun _ _ => ⟨_, trivial, rfl⟩

theorem of_adds {x : Build α} (h : Adds (fun _ => True) x) : Mirrors (· = ·) x x := by
  intro s old
  obtain ⟨added, -, hrun⟩ := h s
  exact ⟨old ++ added, by rw [hrun], by rw [hrun]⟩

theorem mono {r q : α → β → Prop} (h : ∀ a b, r a b → q a b) {x : Build α} {y : Build β} (hx : Mirrors r x y)
    : Mirrors q x y := by
  intro s old
  obtain ⟨new, hr, hstate⟩ := hx s old
  exact ⟨new, h _ _ hr, hstate⟩

end Mirrors

theorem ordinary_trivial {functions : Signatures} : Ordinary functions fun _ => True :=
  ⟨fun _ _ => trivial, fun _ => trivial, fun _ _ _ => trivial⟩

end Build

section Lines

variable (x y : String)

def SameOrUnknown (line line' : String) : Prop :=
  line = line' ∨ ∃ depth, line = indented depth (Line.unknownFunction x).text
    ∧ line' = indented depth (Line.unknownFunction y).text

def Renames (items items' : List Item) : Prop :=
  ∀ depth, List.Forall₂ (SameOrUnknown x y) (linesOf depth items) (linesOf depth items')

variable {x y}

theorem SameOrUnknown.same (lines : List String) : List.Forall₂ (SameOrUnknown x y) lines lines :=
  forall₂_same.mpr fun _ _ => .inl rfl

namespace Renames

theorem refl (items : List Item) : Renames x y items items :=
  fun _ => SameOrUnknown.same _

theorem append {items items' rest rest' : List Item} (h : Renames x y items items') (hrest : Renames x y rest rest')
    : Renames x y (items ++ rest) (items' ++ rest') := by
  intro depth
  rw [linesOf_append, linesOf_append]
  exact rel_append (h depth) (hrest depth)

theorem unknownFunction : Renames x y [.line (.unknownFunction x)] [.line (.unknownFunction y)] :=
  fun depth => .cons (.inr ⟨depth, rfl, rfl⟩) .nil

theorem of_lines {item item' : Item}
    (h : ∀ depth, List.Forall₂ (SameOrUnknown x y) (item.lines depth) (item'.lines depth))
    : Renames x y [item] [item'] := by
  intro depth
  rw [linesOf, linesOf]
  exact rel_append (h depth) .nil

variable {items items' rest rest' : List Item}

theorem ifElse (cond : Code) (h : Renames x y items items') (hrest : Renames x y rest rest')
    : Renames x y [.ifElse cond items rest] [.ifElse cond items' rest'] := by
  apply of_lines
  intro depth
  rw [Item.lines, Item.lines]
  refine rel_append (rel_append (rel_append ?_ (SameOrUnknown.same _)) (hrest (depth + 1))) (SameOrUnknown.same _)
  exact rel_append (SameOrUnknown.same _) (h (depth + 1))

theorem whileLoop (cond : Code) (h : Renames x y items items')
    : Renames x y [.whileLoop cond items] [.whileLoop cond items'] := by
  apply of_lines
  intro depth
  rw [Item.lines, Item.lines]
  exact rel_append (rel_append (SameOrUnknown.same _) (h (depth + 1))) (SameOrUnknown.same _)

theorem forLoop (name : String) (start limit step : Code) (h : Renames x y items items')
    : Renames x y [.forLoop name start limit step items] [.forLoop name start limit step items'] := by
  apply of_lines
  intro depth
  rw [Item.lines, Item.lines]
  exact rel_append (rel_append (SameOrUnknown.same _) (h (depth + 1))) (SameOrUnknown.same _)

theorem readsAlike (h : Renames x y items items') (hx : '\n' ∉ x.toList) (hy : '\n' ∉ y.toList)
    {room : Nat} (hfits : FitsAll Code.Closes room items) (depth : Nat)
    : List.Forall₂ ReadsAlike (linesOf depth items) (linesOf depth items') := by
  have hboth := (forall₂_and_left _ _).mpr ⟨readsAlike_linesOf depth hfits, h depth⟩
  refine hboth.imp fun line line' hline => ?_
  obtain ⟨halike, rfl | ⟨depth, rfl, rfl⟩⟩ := hline
  · exact halike
  · exact readsAlike_unknownFunction depth hx hy

end Renames

end Lines

structure Routine.Redirects (x y : String) (routine routine' : Routine) : Prop
    extends routine.Resembles (Node.Redirects x y) routine' where
  absent : routine.functions.get? x = none
  absent' : routine.functions.get? y = none

namespace Routine.Redirects

variable {x y : String} {routine routine' : Routine} (h : routine.Redirects x y routine')

include h

variable {node node' : Node} (hnode : node.Redirects x y node')

include hnode

theorem mirrors_passItems : Mirrors (Renames x y) (passItems routine node) (passItems routine' node') := by
  have hsame : Mirrors (Renames x y) (passItems routine node) (passItems routine node) :=
    .mono (fun items _ heq => heq ▸ .refl items) (.of_adds (adds_passItems routine ordinary_trivial node))
  by_cases hcall : routine.kindOf node = .callFunction → node.data.functionId = node'.data.functionId
  · rwa [← h.passItems_eq hnode.alike hcall]
  · -- A call that is redirected finds no function before and none after.
    obtain ⟨hkind, hne⟩ := Classical.not_imp.mp hcall
    obtain ⟨hx, hy⟩ := hnode.function.resolve_left hne
    have hkind' : routine'.kindOf node' = .callFunction := h.kindOf_eq hnode.alike ▸ hkind
    have habsent : routine'.functions.get? y = none := by
      obtain ⟨-, hnone⟩ | ⟨_, _, hsome, -⟩ := eq_none_or_some_of_rel (h.get? y)
      · exact hnone
      · rw [h.absent'] at hsome
        cases hsome
    unfold passItems
    simp only [hkind, hkind']
    unfold callItems
    simp only [hx, hy, Option.getD_some, h.absent, habsent, h.enter_eq hnode.alike]
    exact .bind (.report _ _) fun _ _ _ => .pure ((Renames.refl _).append .unknownFunction)

theorem mirrors_loopHead : Mirrors (fun head head' => ∀ body body', Renames x y body body'
      → Renames x y [head body] [head' body']) (loopHead routine node) (loopHead routine' node') := by
  have hinput := fun socket fallback =>
    Mirrors.of_adds (adds_input routine' ordinary_trivial node' socket fallback)
  rw [h.loopHead_eq hnode.alike]
  unfold loopHead
  dsimp only
  split
  · refine .bind (hinput _ _) ?_
    rintro start _ rfl
    refine .bind (hinput _ _) ?_
    rintro limit _ rfl
    refine .bind (hinput _ _) ?_
    rintro step _ rfl
    refine .bind (.of_adds (adds_declare _)) ?_
    intro _ _ _
    exact .pure fun _ _ hbody => .forLoop _ start limit step ((Renames.refl _).append hbody)
  · refine .bind (hinput _ _) ?_
    rintro cond _ rfl
    exact .pure fun _ _ hbody => .whileLoop cond ((Renames.refl _).append hbody)

omit hnode in
theorem mirrors_walk {tour tour' : Tour} (htour : tour.Parallels (Node.Redirects x y) tour')
    : Mirrors (Renames x y) (walk routine tour) (walk routine' tour') := by
  induction htour with
  | stop => exact .pure (.refl _)
  | cut hnode => exact .bind (.report _ _) fun _ _ _ => .pure (.refl _)
  | pass hnode _ ih =>
    exact .bind (h.mirrors_passItems hnode) fun _ _ hitems => .bind ih fun _ _ hrest => .pure (hitems.append hrest)
  | @last node node' hnode =>
    simp only [walk]
    rw [h.lastItems_eq hnode.alike]
    exact .mono (fun items _ heq => heq ▸ .refl items) (.of_adds (adds_lastItems routine' ordinary_trivial node'))
  | @branch node node' _ _ _ _ hnode _ _ ihTrue ihFalse =>
    simp only [walk]
    rw [h.input_eq hnode.alike, h.enter_eq hnode.alike]
    refine .bind (.of_adds (adds_input routine' ordinary_trivial node' _ _)) ?_
    rintro cond _ rfl
    exact .bind ihTrue fun _ _ hthen => .bind ihFalse fun _ _ helse =>
      .pure ((Renames.refl _).append (.ifElse cond hthen helse))
  | loop hnode _ _ ihBody ihRest =>
    simp only [walk]
    rw [h.enter_eq hnode.alike]
    exact .bind (h.mirrors_loopHead hnode) fun _ _ hhead => .bind ihBody fun _ _ hbody =>
      .bind ihRest fun _ _ hrest => .pure (((Renames.refl _).append (hhead _ _ hbody)).append hrest)

omit hnode in
theorem renames_compileFrom {entry entry' : Node} (hentry : entry.Redirects x y entry') (depth : Nat)
    : Renames x y (routine.compileFrom entry depth).1 (routine'.compileFrom entry' depth).1 := by
  obtain ⟨new, hitems, -⟩ := h.mirrors_walk (h.tourFrom hentry depth) routine.start routine.start.diagnostics
  rw [show routine.start.withDiagnostics routine.start.diagnostics = routine'.start from h.start_eq] at hitems
  exact hitems

end Routine.Redirects

section Graphs

variable {x y : String} {graph graph' : Graph} (h : graph.Redirects x y graph')

include h

theorem match_ofGraph_of_redirects : (Signatures.ofGraph graph).Match (FunctionDef.Redirects x y) (.ofGraph graph') :=
  match_ofGraph (fun _ _ hnode => (Node.Redirects.alike hnode).boundName?)
    (fun _ _ hfunction => ⟨hfunction.name, hfunction.params, hfunction.returns, .of_forall₂ hfunction.nodes⟩)
    (.of_forall₂ h.nodes) (.of_forall₂ h.functions)

end Graphs

theorem Signatures.get?_ofGraph_eq_none {graph : Graph} {key : String} (h : graph.functions.get? key = none)
    : (ofGraph graph).get? key = none := by
  rwa [← Option.map_eq_none_iff, map_function_get?_ofGraph]

theorem Wiring.ofEdges_eq (nodes : List Node) (edges : List Edge)
    : ofEdges nodes edges = { ofEdges [] edges with nodes } := by
  induction edges using reverseRecOn with
  | nil => rfl
  | append_singleton edges edge ih =>
    rw [ofEdges_concat, ofEdges_concat, ih]
    unfold addEdge
    split <;> rfl

theorem Wiring.rel_node? {r : Node → Node → Prop} (hr : ∀ node node', r node node' → node.id = node'.id)
    {nodes nodes' : List Node} (h : List.Forall₂ r nodes nodes') (edges : List Edge) (id : String)
    : Option.Rel r ((ofEdges nodes edges).node? id) ((ofEdges nodes' edges).node? id) := by
  unfold node?
  rw [ofEdges_nodes, ofEdges_nodes]
  refine rel_find?_of_forall₂ ?_ (rel_reverse h)
  intro node node' hnode
  rw [hr node node' hnode]

theorem isEmpty_eq_of_forall₂ {α β : Type} {r : α → β → Prop} {l : List α} {l' : List β}
    (h : List.Forall₂ r l l') : l.isEmpty = l'.isEmpty := by
  cases h <;> rfl

theorem isEmpty_linesOf (depth : Nat) (items : List Item) : (linesOf depth items).isEmpty = items.isEmpty := by
  cases items with
  | nil => rfl
  | cons item items => cases item <;> simp [linesOf, Item.lines]

structure Outset.Redirects (x y : String) (outset outset' : Outset) : Prop where
  routine : outset.routine.Redirects x y outset'.routine
  entry : outset.entry.Redirects x y outset'.entry
  depth : outset.depth = outset'.depth

theorem Outset.Redirects.renames {x y : String} {outset' : Outset} (h : outset.Redirects x y outset')
    : Renames x y outset.compiled.1 outset'.compiled.1 := by
  unfold compiled
  rw [h.depth]
  exact h.routine.renames_compileFrom h.entry _

namespace Job

section Redirected

variable {x y : String} {job : Job} {graph' : Graph} (h : job.graph.Redirects x y graph')
  (hx : job.graph.functions.get? x = none) (hy : job.graph.functions.get? y = none)

include h hx hy

theorem redirects_routine {nodes nodes' : List Node} (hnodes : List.Forall₂ (Node.Redirects x y) nodes nodes')
    (edges : List Edge) {sig sig' : Option Signature} (hsig : Option.Rel Signature.Alike sig sig')
    : (job.routine (.ofGraph job.graph) nodes edges sig).Redirects x y
        ({ job with graph := graph' }.routine (.ofGraph graph') nodes' edges sig') where
  alike h := h.alike
  node? := Wiring.rel_node? (fun _ _ hnode => hnode.alike.id) hnodes edges
  next? id socket := by
    unfold Job.routine
    dsimp only
    rw [Wiring.ofEdges_eq nodes, Wiring.ofEdges_eq nodes']
    rfl
  source? id socket := by
    unfold Job.routine
    dsimp only
    rw [Wiring.ofEdges_eq nodes, Wiring.ofEdges_eq nodes']
    rfl
  length := by simpa only [nodes_routine] using hnodes.length_eq
  duplicates := by
    unfold Job.routine
    dsimp only
    rw [Wiring.ofEdges_eq nodes, Wiring.ofEdges_eq nodes']
  taken := (match_ofGraph_of_redirects h).taken
  get? := (match_ofGraph_of_redirects h).rel_get?
  aliases := rfl
  signature := hsig
  instrument := rfl
  absent := Signatures.get?_ofGraph_eq_none hx
  absent' := Signatures.get?_ofGraph_eq_none hy

omit h hx hy in
theorem rel_outset {routine routine' : Routine} (h : routine.Redirects x y routine')
    (hnodes : List.Forall₂ (Node.Redirects x y) routine.wiring.nodes routine'.wiring.nodes) (kind : NodeKind)
    (depth : Nat)
    : Option.Rel (Outset.Redirects x y) ((routine.entry? kind).map fun entry => ⟨routine, entry, depth⟩)
        ((routine'.entry? kind).map fun entry => ⟨routine', entry, depth⟩) := by
  have hentry : Option.Rel (Node.Redirects x y) (routine.entry? kind) (routine'.entry? kind) := by
    refine rel_find?_of_forall₂ ?_ hnodes
    intro node node' hnode
    rw [h.kindOf_eq hnode.alike]
  obtain ⟨hnone, hnone'⟩ | ⟨_, _, hsome, hsome', hentry⟩ := eq_none_or_some_of_rel hentry
  · rw [hnone, hnone']
    exact .none
  · rw [hsome, hsome']
    exact .some ⟨h, hentry, rfl⟩

theorem rel_mainOutset?
    : Option.Rel (Outset.Redirects x y) job.mainOutset? { job with graph := graph' }.mainOutset? := by
  have hroutine : job.mainRoutine.Redirects x y { job with graph := graph' }.mainRoutine := by
    unfold mainRoutine
    dsimp only
    rw [← h.edges]
    exact redirects_routine h hx hy h.nodes _ .none
  apply rel_outset hroutine
  simpa only [mainRoutine, nodes_routine] using h.nodes

theorem rel_functionOutset? (hsig : sig.Matches (FunctionDef.Redirects x y) sig')
    : Option.Rel (Outset.Redirects x y) (job.functionOutset? sig)
        ({ job with graph := graph' }.functionOutset? sig') := by
  have hroutine : (job.functionRoutine sig).Redirects x y
      ({ job with graph := graph' }.functionRoutine sig') := by
    unfold functionRoutine
    dsimp only
    rw [← hsig.function.edges]
    exact redirects_routine h hx hy hsig.function.nodes _ (.some hsig.toAlike)
  apply rel_outset hroutine
  simpa only [functionRoutine, nodes_routine] using hsig.function.nodes

omit h hx hy in
theorem readsAlike_functionText (halike : sig.Alike sig') (hnamed : sig.Named)
    {items items' : List Item} (hlines : List.Forall₂ ReadsAlike (linesOf 1 items) (linesOf 1 items'))
    : ReadsAlike (functionText sig items) (functionText sig' items') := by
  have hparams : ∀ param ∈ sig.params, Closed param.toList :=
    fun param hparam => (hnamed.params param hparam).ended.closed
  have hname := ((show Ended "async function ".toList by decide).text hnamed.name.ended.closed).text
    (show Separates "(".toList by decide)
  have hheader := (hname.text (closed_intercalate hparams)).text (show Separates ") \x7b".toList by decide)
  unfold functionText
  rw [← halike.name, ← halike.params]
  apply ReadsAlike.intercalate (.inl rfl)
  exact .cons (.of_closed hheader.closed) (rel_append hlines (.cons (.of_closed (by decide)) .nil))

omit h hx hy in
theorem readsAlike_programText {functions functions' : List String}
    (hfunctions : List.Forall₂ ReadsAlike functions functions') {main main' : List Item}
    (hlines : List.Forall₂ ReadsAlike (linesOf 0 main) (linesOf 0 main'))
    : ReadsAlike (programText functions main) (programText functions' main') := by
  have hempty : main.isEmpty = main'.isEmpty := by
    rw [← isEmpty_linesOf 0 main, isEmpty_eq_of_forall₂ hlines, isEmpty_linesOf]
  unfold programText
  dsimp only
  rw [hempty, isEmpty_eq_of_forall₂ hfunctions]
  apply ReadsAlike.intercalate (.inr rfl)
  split
  · exact hfunctions
  · exact rel_append hfunctions (.cons (.intercalate (.inl rfl) hlines) .nil)

variable (hcontained : ∀ outset ∈ job.outsets, outset.routine.Contained)

include hcontained

omit h hx hy in
theorem closes_of_mem_outsets (houtset : outset ∈ job.outsets)
    : FitsAll Code.Closes (maxNesting + 1) outset.compiled.1 := by
  have hnamed := Signatures.named_ofGraph job.graph
  have hsig : ∀ sig ∈ outset.routine.signature, sig.Named :=
    fun sig hmem => hnamed sig (signature_of_mem_outsets houtset sig hmem)
  have hadmits : outset.routine.Admits Code.Closes :=
    { signature := hsig
      functions := (routine_of_mem_outsets houtset).2 ▸ hnamed
      flat := fun _ hcode => Code.closed_of_fits hcode.1
      resolved := fun _ _ => Code.closed_of_fits }
  have hfollows := follows_of_mem_outsets houtset
  exact Outset.fits_of_serves hadmits
    (fun node hnode => (hcontained outset houtset).serves hsig (hfollows.mem_nodes node hnode)) hfollows

variable (hlineX : '\n' ∉ x.toList) (hlineY : '\n' ∉ y.toList)

include hlineX hlineY

omit h hx hy in
theorem Outset.Redirects.readsAlike {outset' : Outset} (houtset : outset ∈ job.outsets)
    (h : outset.Redirects x y outset') (depth : Nat)
    : List.Forall₂ ReadsAlike (linesOf depth outset.compiled.1) (linesOf depth outset'.compiled.1) :=
  h.renames.readsAlike hlineX hlineY (closes_of_mem_outsets hcontained houtset) depth

theorem readsAlike_function (hmem : sig ∈ (Signatures.ofGraph job.graph).list)
    (hsig : sig.Matches (FunctionDef.Redirects x y) sig')
    : ReadsAlike (functionText sig (job.compileFunction (.ofGraph job.graph) sig).1)
        (functionText sig' ({ job with graph := graph' }.compileFunction (.ofGraph graph') sig').1) := by
  apply readsAlike_functionText hsig.toAlike (Signatures.named_ofGraph job.graph sig hmem)
  have hfunction' := compileFunction_eq { job with graph := graph' } sig'
  rw [compileFunction_eq, hfunction']
  obtain ⟨hnone, hnone'⟩ | ⟨outset, outset', hsome, hsome', houtset⟩ :=
    eq_none_or_some_of_rel (rel_functionOutset? h hx hy hsig)
  · rw [hnone, hnone']
    exact .nil
  · rw [hsome, hsome']
    have hmem : outset ∈ job.outsets := mem_append_right _ (mem_filterMap.mpr ⟨sig, hmem, hsome⟩)
    exact Outset.Redirects.readsAlike hcontained hlineX hlineY hmem houtset 1

end Redirected

/-- A program reads the same whichever of two functions that do not exist is called: both graphs have the
same program, or both are rejected. Neither name may have a line break, and no text that is taken over from
the graph may leave a string or a comment open. -/
theorem parse_compile_eq_of_redirects {x y : String} {job : Job} {graph' : Graph}
    (h : job.graph.Redirects x y graph') (hx : job.graph.functions.get? x = none)
    (hy : job.graph.functions.get? y = none) (hlineX : '\n' ∉ x.toList) (hlineY : '\n' ∉ y.toList)
    (hcontained : ∀ outset ∈ job.outsets, outset.routine.Contained)
    : Program.parse job.compile.code = Program.parse { job with graph := graph' }.compile.code := by
  have hmain' := compileMain?_eq { job with graph := graph' }
  unfold compile
  dsimp only at hmain' ⊢
  rw [compileMain?_eq, hmain']
  obtain ⟨hnone, hnone'⟩ | ⟨outset, outset', hsome, hsome', houtset⟩ :=
    eq_none_or_some_of_rel (rel_mainOutset? h hx hy)
  · rw [hnone, hnone']
    rfl
  · have hmem : outset ∈ job.outsets := mem_append_left _ (Option.mem_toList.mpr hsome)
    have hlines := Outset.Redirects.readsAlike hcontained hlineX hlineY hmem houtset 0
    have hfunctions := (forall₂_and_left _ _).mpr ⟨fun _ hmem => hmem, (match_ofGraph_of_redirects h).list⟩
    rw [hsome, hsome']
    apply ReadsAlike.parse_eq
    refine readsAlike_programText ?_ hlines
    simp only [map_map, Function.comp_def]
    rw [forall₂_map_left_iff, forall₂_map_right_iff]
    exact hfunctions.imp fun _ _ hboth =>
      readsAlike_function h hx hy hcontained hlineX hlineY hboth.1 hboth.2

end Job

def lostCalls (id : String) : Graph where
  nodes :=
    [⟨"start", .start, none, {}⟩, ⟨"show", .output, none, { inlineValues := .ofList [("value", "\"*/ //\" /* ' */")] }⟩,
     ⟨"check", .branch, none, { inlineValues := .ofList [("condition", "a < 'b'")] }⟩,
     ⟨"call", .callFunction, none, { functionId := some "f" }⟩,
     ⟨"lost", .callFunction, none, { functionId := some id }⟩]
  edges :=
    [.control "start" "exec-out" "show", .control "show" "exec-out" "check", .control "check" "true" "call",
     .control "check" "false" "lost"]
  functions :=
    ⟨[("f",
        { id := "f", name := "f",
          nodes := [⟨"entry", .functionEntry, none, {}⟩, ⟨"self", .callFunction, none, { functionId := some "f" }⟩,
            ⟨"lost", .callFunction, none, { functionId := some id }⟩],
          edges := [.control "entry" "exec-out" "self", .control "self" "exec-out" "lost"] })], by simp⟩

theorem redirects_lostCalls (x y : String) : (lostCalls x).Redirects x y (lostCalls y) where
  nodes := .cons ⟨rfl, .inl rfl⟩ (.cons ⟨rfl, .inl rfl⟩ (.cons ⟨rfl, .inl rfl⟩ (.cons ⟨rfl, .inl rfl⟩
    (.cons ⟨rfl, .inr ⟨rfl, rfl⟩⟩ .nil))))
  edges := rfl
  functions := .cons ⟨rfl, rfl, rfl, rfl,
    .cons ⟨rfl, .inl rfl⟩ (.cons ⟨rfl, .inl rfl⟩ (.cons ⟨rfl, .inr ⟨rfl, rfl⟩⟩ .nil)), rfl⟩ .nil

theorem Job.parse_compile_eq_of_redirects_lostCalls
    : let job : Job := ⟨lostCalls "gone", ⟨true⟩, {}⟩
      let quote := "*/ \"'); console.log(1); //"
      (∀ outset ∈ job.outsets, outset.routine.Contained)
        ∧ Program.parse job.compile.code = Program.parse { job with graph := lostCalls quote }.compile.code := by
  intro job quote
  have hcontained : ∀ outset ∈ job.outsets, outset.routine.Contained := by decide
  exact ⟨hcontained, parse_compile_eq_of_redirects (redirects_lostCalls "gone" quote) rfl rfl (by decide)
    (by decide) hcontained⟩

def lostCall (text id : String) : Graph where
  nodes :=
    [⟨"start", .start, none, {}⟩, ⟨"show", .output, none, { inlineValues := ⟨[("value", text)], by simp⟩ }⟩,
     ⟨"lost", .callFunction, none, { functionId := some id }⟩]
  edges := [.control "start" "exec-out" "show", .control "show" "exec-out" "lost"]

theorem Job.lostCall_injects
    : let statements (text id : String) : Option Nat :=
        (Program.parse (⟨lostCall text id, ⟨false⟩, {}⟩ : Job).compile.code).toOption.map (·.body.length)
      statements "true" "gone" = some 1 ∧ statements "true" "\nconsole.log(false); //" = some 2
        ∧ statements "'\\u0" "gone" = none ∧ statements "'\\u0" "); console.log(false); //" = some 2 := by
  decide +kernel

end Compile

end NodeScript
