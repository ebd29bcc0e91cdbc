import Mathlib.Data.List.Forall2
import Mathlib.Data.List.Nodup
import NodeScript.Graph.Editor
import NodeScript.Proofs.Tables
import NodeScript.Socket.Connection

/-!
Flows of an editor as graphs. A flow becomes a graph unless one of its parts repeats a node or has an edge that leads
nowhere, and the edges carry what the check of connections says that they do.
-/

namespace NodeScript

open List

def FunctionDef.outline (function : FunctionDef) : FunctionDef :=
  { id := function.id, name := function.name, params := function.params, returns := function.returns }

theorem Shape.of_outline (kind : NodeKind) (function : Option FunctionDef)
    : Shape.of kind (function.map FunctionDef.outline) = Shape.of kind function := by
  cases function with
  | none | some => rfl

theorem Node.function?_outline (node : Node) (functions : Table FunctionDef) (owner : Option FunctionDef)
    : node.function? (functions.map FunctionDef.outline) (owner.map FunctionDef.outline)
        = (node.function? functions owner).map FunctionDef.outline := by
  have hnamed : node.data.functionId.bind (functions.map FunctionDef.outline).get?
      = (node.data.functionId.bind functions.get?).map FunctionDef.outline := by
    cases node.data.functionId with
    | none => rfl
    | some id => exact functions.get?_map _ id
  unfold Node.function?
  rw [hnamed]
  cases node.data.functionId.bind functions.get? with
  | some => rfl
  | none => cases node.kind <;> rfl

namespace Editor

/-- The conversion succeeds if and only if all is fine, and then its result is good. -/
def Converts {α : Type} (x : Except FlowError α) (fine : Prop) (good : α → Prop) : Prop :=
  (∃ a, x = .ok a ∧ fine ∧ good a) ∨ ∃ e, x = .error e ∧ ¬ fine

namespace Converts

variable {α β : Type} {x : Except FlowError α} {fine fine' : Prop} {good : α → Prop} {good' : β → Prop}

theorem bind {f : α → Except FlowError β} (h : Converts x fine good)
    (hnext : ∀ a, good a → Converts (f a) fine' good') : Converts (x >>= f) (fine ∧ fine') good' := by
  obtain ⟨a, rfl, hfine, hgood⟩ | ⟨e, rfl, hfine⟩ := h
  · obtain ⟨b, hb, hfine', hgood'⟩ | ⟨e, he, hfine'⟩ := hnext a hgood
    · exact .inl ⟨b, hb, ⟨hfine, hfine'⟩, hgood'⟩
    · exact .inr ⟨e, he, fun h => hfine' h.2⟩
  · exact .inr ⟨e, rfl, fun h => hfine h.1⟩

theorem congr (h : Converts x fine good) (hfine : fine ↔ fine') : Converts x fine' good := by
  rwa [propext hfine] at h

theorem map {f : α → β} (h : Converts x fine good) (hnext : ∀ a, good a → good' (f a))
    : Converts (x >>= fun a => pure (f a)) fine good' :=
  (h.bind fun a ha => .inl ⟨f a, rfl, trivial, hnext a ha⟩).congr (iff_of_eq (and_true fine))

theorem mapM {f : β → Except FlowError α} {fine : β → Prop} {good : β → α → Prop}
    (h : ∀ b, Converts (f b) (fine b) (good b)) (l : List β)
    : Converts (l.mapM f) (∀ b ∈ l, fine b) (List.Forall₂ good l) := by
  induction l with
  | nil => exact .inl ⟨[], rfl, forall_mem_nil _, .nil⟩
  | cons b l ih =>
    rw [mapM_cons]
    exact ((h b).bind fun a ha => ih.map fun l' hl' => .cons ha hl').congr forall_mem_cons.symm

end Converts

structure WellFormed (nodes : List Node) (edges : List Edge) : Prop where
  nodup : (nodes.map Node.id).Nodup
  ends : ∀ edge ∈ edges, edge.source ∈ nodes.map Node.id ∧ edge.target ∈ nodes.map Node.id

/-- The edge of the graph is the edge of the editor. It has a type if and only if it carries data, and it carries what
the check of the connection says, if that accepts it. -/
structure Edge.Becomes (nodes : List Node) (functions : Table FunctionDef) (owner : Option FunctionDef) (edge : Edge)
    (edge' : NodeScript.Edge) : Prop where
  id : edge'.id = edge.id.getD (NodeScript.Edge.deriveId edge.source edge.sourceSocket edge.target edge.targetSocket)
  source : edge'.source = edge.source
  sourceSocket : edge'.sourceSocket = edge.sourceSocket
  target : edge'.target = edge.target
  targetSocket : edge'.targetSocket = edge.targetSocket
  typed : edge'.dataType.isSome ↔ edge'.kind = .data
  checked : ∀ source ∈ nodes, source.id = edge.source → ∀ target ∈ nodes, target.id = edge.target
    → ∀ carried, checkConnection (.of source.kind (source.function? functions owner)) edge.sourceSocket
        (.of target.kind (target.function? functions owner)) edge.targetSocket = .ok carried
      → (edge'.kind, edge'.dataType) = carried

theorem checkConnection_eq_ok {source target : Shape} {socket socket' : String} {carried : EdgeKind × Option DataType}
    (h : checkConnection source socket target socket' = .ok carried)
    : ∃ declared, source.output? socket = some declared
        ∧ carried = (declared.kind.edgeKind, declared.kind.dataType?) := by
  unfold checkConnection at h
  split at h
  · cases h
  · cases h
  · next start stop hstart hstop =>
    refine ⟨start, hstart, ?_⟩
    split at h
    · next hkind _ =>
      cases h
      rw [hkind]
      rfl
    · next hkind _ =>
      split at h
      · cases h
        rw [hkind]
        rfl
      · cases h
    · cases h

theorem firstDuplicate?_eq_none_iff {seen : List String} {nodes : List Node}
    : firstDuplicate? seen nodes = none ↔ (nodes.map Node.id).Nodup ∧ ∀ node ∈ nodes, node.id ∉ seen := by
  induction nodes generalizing seen with
  | nil => simp [firstDuplicate?]
  | cons node nodes ih =>
    rw [firstDuplicate?]
    split
    · simp_all
    · rw [ih]
      simp only [map_cons, nodup_cons, mem_map, mem_cons]
      grind

section Scope

variable {nodes : List Node} {functions : Table FunctionDef} {owner : Option FunctionDef}

theorem Edge.converts (hnodup : (nodes.map Node.id).Nodup) (edge : Edge) : Converts (edge.convert nodes functions owner)
        (edge.source ∈ nodes.map Node.id ∧ edge.target ∈ nodes.map Node.id) (edge.Becomes nodes functions owner) := by
  unfold Edge.convert
  cases hfound : nodes.find? fun node => node.id = edge.source with
  | none =>
    refine .inr ⟨_, rfl, fun hends => ?_⟩
    obtain ⟨node, hnode, hid⟩ := mem_map.mp hends.1
    simp_all
  | some node =>
    have hnode : node ∈ nodes ∧ node.id = edge.source :=
      ⟨mem_of_find?_eq_some hfound, by simpa using find?_some hfound⟩
    dsimp only
    split
    · next htarget =>
      refine .inl ⟨_, rfl, ⟨mem_map.mpr ⟨node, hnode⟩, by simpa using htarget⟩, rfl, rfl, rfl, rfl, rfl, ?_, ?_⟩
      · cases classify node edge.sourceSocket functions owner <;> simp [SocketKind.dataType?, SocketKind.edgeKind]
      · intro source hsource hid _ _ _ carried hcheck
        obtain rfl : source = node := inj_on_of_nodup_map hnodup hsource hnode.1 (hid.trans hnode.2.symm)
        obtain ⟨declared, hdeclared, rfl⟩ := checkConnection_eq_ok hcheck
        simp only [classify, hdeclared]
    · next htarget =>
      refine .inr ⟨_, rfl, fun hends => htarget ?_⟩
      simpa using hends.2

theorem converts_convertEdges (edges : List Edge)
    : Converts (convertEdges nodes edges functions owner) (WellFormed nodes edges)
        (List.Forall₂ (Edge.Becomes nodes functions owner) edges) := by
  unfold convertEdges
  cases hduplicate : firstDuplicate? [] nodes with
  | some id =>
    refine .inr ⟨_, rfl, fun hwell => ?_⟩
    cases (firstDuplicate?_eq_none_iff.mpr ⟨hwell.nodup, by simp⟩).symm.trans hduplicate
  | none =>
    have hnodup := (firstDuplicate?_eq_none_iff.mp hduplicate).1
    exact (Converts.mapM (Edge.converts hnodup) edges).congr ⟨fun hends => ⟨hnodup, hends⟩, WellFormed.ends⟩

theorem Edge.Becomes.congr {functions' : Table FunctionDef} {owner' : Option FunctionDef} {edge : Edge}
    {edge' : NodeScript.Edge} (h : edge.Becomes nodes functions owner edge')
    (hfunctions : functions.map FunctionDef.outline = functions'.map FunctionDef.outline)
    (howner : owner.map FunctionDef.outline = owner'.map FunctionDef.outline)
    : edge.Becomes nodes functions' owner' edge' := by
  have hshape (node : Node) : Shape.of node.kind (node.function? functions' owner')
      = Shape.of node.kind (node.function? functions owner) := by
    rw [← Shape.of_outline, ← Node.function?_outline, ← hfunctions, ← howner, Node.function?_outline, Shape.of_outline]
  refine { h with checked := ?_ }
  simpa only [hshape] using h.checked

end Scope

structure Function.Becomes (functions : Table FunctionDef) (function : Function) (function' : FunctionDef)
    : Prop where
  same : function' = { function.signature with
    color := function.color, nodes := function.nodes, edges := function'.edges }
  edges : List.Forall₂ (Edge.Becomes function.nodes functions (some function')) function.edges function'.edges

def Flow.WellFormed (flow : Flow) : Prop :=
  (∀ entry ∈ flow.functions.entries, Editor.WellFormed entry.2.nodes entry.2.edges)
    ∧ Editor.WellFormed flow.nodes flow.edges

structure Flow.Becomes (flow : Flow) (graph : Graph) : Prop where
  nodes : graph.nodes = flow.nodes
  edges : List.Forall₂ (Edge.Becomes flow.nodes graph.functions none) flow.edges graph.edges
  functions : List.Forall₂ (fun entry entry' => entry'.1 = entry.1 ∧ entry.2.Becomes graph.functions entry'.2)
    flow.functions.entries graph.functions.entries

theorem Function.converts (function : Function) (functions : Table FunctionDef)
    : Converts (function.convert functions) (WellFormed function.nodes function.edges) (function.Becomes functions) :=
  (converts_convertEdges function.edges).map fun _ hedges => ⟨rfl, hedges.imp fun _ _ h => h.congr rfl rfl⟩

/-- A flow becomes a graph if and only if all its parts are well-formed. -/
theorem Flow.converts_toGraph (flow : Flow) : Converts flow.toGraph flow.WellFormed flow.Becomes := by
  have hfunction (entry : String × Function)
      : Converts ((entry.1, ·) <$> entry.2.convert (flow.functions.map Function.signature))
        (Editor.WellFormed entry.2.nodes entry.2.edges) fun entry' =>
          entry'.1 = entry.1 ∧ entry.2.Becomes (flow.functions.map Function.signature) entry'.2 :=
    (entry.2.converts _).map fun _ h => ⟨rfl, h⟩
  refine (Converts.mapM hfunction flow.functions.entries).bind fun functions hall =>
    (converts_convertEdges flow.edges).map fun edges hedges => ?_
  -- Edges were classified by the signatures alone, which the functions of the graph still have.
  have hkeys : functions.map Prod.fst = flow.functions.entries.map Prod.fst := by
    rw [← forall₂_eq_eq_eq, forall₂_map_left_iff, forall₂_map_right_iff]
    exact hall.flip.imp fun _ _ h => h.1
  have hentries := Table.entries_ofList (hkeys ▸ flow.functions.nodup)
  have houtline : (flow.functions.map Function.signature).map FunctionDef.outline
      = (Table.ofList functions).map FunctionDef.outline := by
    unfold Table.map
    rw [Table.mk.injEq, hentries, map_map, ← forall₂_eq_eq_eq, forall₂_map_left_iff, forall₂_map_right_iff]
    refine hall.imp fun entry entry' h => Prod.ext h.1.symm ?_
    change entry.2.signature.outline = entry'.2.outline
    rw [h.2.same]
    rfl
  refine ⟨rfl, hedges.imp fun _ _ h => h.congr houtline rfl, hentries.symm ▸ hall.imp fun _ _ h => ⟨h.1, h.2.same, ?_⟩⟩
  exact h.2.edges.imp fun _ _ h => h.congr houtline rfl

end Editor

end NodeScript
