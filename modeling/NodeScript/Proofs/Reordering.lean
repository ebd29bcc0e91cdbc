import Mathlib.Data.List.Forall2
import Mathlib.Tactic.MkIffOfInductiveProp
import NodeScript.Proofs.Agreement

/-!
The order in which a graph is listed makes no difference to its program: neither that of the nodes,
the edges and the functions nor that of the text typed into sockets. For this no name of a node, no socket
and no entry may be there twice, since of several the place in a list decides.
-/

namespace NodeScript

variable {α β γ : Type} {aliases : Table NodeKind} {edges : List Edge} {nodes : List Node}

/-- The elements of the second list are related to those of the first one in another order. -/
def Reorders (r : α → β → Prop) (l : List α) (l' : List β) : Prop :=
  ∃ middle, l.Perm middle ∧ List.Forall₂ r middle l'

def Node.Shuffles (node node' : Node) : Prop :=
  ∃ inlineValues : Table String, node.data.inlineValues.entries.Perm inlineValues.entries
    ∧ node' = { node with data := { node.data with inlineValues } }

structure FunctionDef.Shuffles (function function' : FunctionDef) : Prop where
  id : function.id = function'.id
  name : function.name = function'.name
  color : function.color = function'.color
  params : function.params = function'.params
  returns : function.returns = function'.returns
  nodes : Reorders Node.Shuffles function.nodes function'.nodes
  edges : function.edges.Perm function'.edges

/-- The second graph is the first one with its lists and tables in another order. -/
structure Graph.Shuffles (graph graph' : Graph) : Prop where
  nodes : Reorders Node.Shuffles graph.nodes graph'.nodes
  edges : graph.edges.Perm graph'.edges
  functions : Reorders (fun entry entry' => entry.1 = entry'.1 ∧ entry.2.Shuffles entry'.2)
    graph.functions.entries graph'.functions.entries

namespace Compile

def kindUnder (aliases : Table NodeKind) (node : Node) : NodeKind :=
  match node.kind with
  | .unknown tag => (aliases.get? tag).getD node.kind
  | kind => kind

/-- No two nodes have one name, at most one is an entry, no output has two control edges and no input
two data edges. -/
@[mk_iff]
structure Unambiguous (aliases : Table NodeKind) (entry : NodeKind) (nodes : List Node)
    (edges : List Edge) : Prop where
  ids : (nodes.map Node.id).Nodup
  entries : (nodes.countP fun node => kindUnder aliases node = entry) ≤ 1
  control : ((edges.filter fun edge => edge.kind = .control).map outputOf).Nodup
  data : ((edges.filter fun edge => edge.kind = .data).map inputOf).Nodup

instance (aliases : Table NodeKind) (entry : NodeKind) (nodes : List Node) (edges : List Edge)
    : Decidable (Unambiguous aliases entry nodes edges) :=
  decidable_of_iff _ (unambiguous_iff aliases entry nodes edges).symm

end Compile

@[mk_iff]
structure Graph.Unambiguous (aliases : Table NodeKind) (graph : Graph) : Prop where
  main : Compile.Unambiguous aliases .start graph.nodes graph.edges
  functions : ∀ entry ∈ graph.functions.entries, Compile.Unambiguous aliases .functionEntry entry.2.nodes entry.2.edges

instance (aliases : Table NodeKind) (graph : Graph) : Decidable (graph.Unambiguous aliases) :=
  decidable_of_iff _ (Graph.unambiguous_iff aliases graph).symm

section Lists

variable {r : α → β → Prop} {l : List α} {l' : List β}

theorem rel_find?_of_forall₂ {p : α → Bool} {q : β → Bool} (hr : ∀ a b, r a b → p a = q b)
    (h : List.Forall₂ r l l') : Option.Rel r (l.find? p) (l'.find? q) := by
  induction h with
  | nil => exact .none
  | @cons a b _ _ hab _ ih =>
    rw [List.find?_cons, List.find?_cons, hr a b hab]
    cases q b with
    | true => exact .some hab
    | false => exact ih

theorem map_eq_of_forall₂ {f : α → γ} {g : β → γ} (hr : ∀ a b, r a b → f a = g b) (h : List.Forall₂ r l l')
    : l.map f = l'.map g := by
  induction h with
  | nil => rfl
  | cons hab _ ih => rw [List.map_cons, List.map_cons, hr _ _ hab, ih]

theorem eq_of_perm_of_length_le_one {l l' : List α} (h : l.Perm l') (hlength : l.length ≤ 1) : l = l' := by
  match l, hlength with
  | [], _ => exact (List.nil_perm.mp h).symm
  | [a], _ => exact List.singleton_perm.mp h

theorem find?_eq_of_perm {p : α → Bool} {l l' : List α} (h : l.Perm l') (hcount : l.countP p ≤ 1)
    : l.find? p = l'.find? p := by
  have hfilter : l.filter p = l'.filter p := by
    apply eq_of_perm_of_length_le_one (h.filter p)
    rwa [← List.countP_eq_length_filter]
  rw [← List.head?_filter, ← List.head?_filter, hfilter]

theorem lookup_reverse_map_eq_of_perm {κ : Type} [BEq κ] [LawfulBEq κ] {f : α → κ} {g : α → β}
    {l l' : List α} (h : (l.map f).Nodup) (hperm : l.Perm l') (key : κ)
    : (l.map fun a => (f a, g a)).reverse.lookup key
        =
      (l'.map fun a => (f a, g a)).reverse.lookup key := by
  apply Table.lookup_eq_of_perm
  · rw [List.map_reverse, List.nodup_reverse, List.map_map]
    exact h
  · exact ((List.reverse_perm _).trans (hperm.map _)).trans (List.reverse_perm _).symm

namespace Reorders

theorem of_forall₂ (h : List.Forall₂ r l l') : Reorders r l l' :=
  ⟨l, .refl l, h⟩

theorem imp {r' : α → β → Prop} (hr : ∀ a b, r a b → r' a b) (h : Reorders r l l') : Reorders r' l l' := by
  obtain ⟨middle, hperm, hmiddle⟩ := h
  exact ⟨middle, hperm, hmiddle.imp hr⟩

theorem reverse (h : Reorders r l l') : Reorders r l.reverse l'.reverse := by
  obtain ⟨middle, hperm, hmiddle⟩ := h
  exact ⟨middle.reverse, ((List.reverse_perm _).trans hperm).trans (List.reverse_perm _).symm, List.rel_reverse hmiddle⟩

theorem length_eq (h : Reorders r l l') : l.length = l'.length := by
  obtain ⟨middle, hperm, hmiddle⟩ := h
  exact hperm.length_eq.trans hmiddle.length_eq

theorem flatMap_perm {f : α → List γ} {g : β → List γ} (hr : ∀ a b, r a b → (f a).Perm (g b))
    (h : Reorders r l l') : (l.flatMap f).Perm (l'.flatMap g) := by
  obtain ⟨middle, hperm, hmiddle⟩ := h
  refine (hperm.flatMap_right f).trans ?_
  clear hperm
  induction hmiddle with
  | nil => exact .refl _
  | cons hab _ ih =>
    rw [List.flatMap_cons, List.flatMap_cons]
    exact (hr _ _ hab).append ih

theorem filterMap_perm {f : α → Option γ} {g : β → Option γ} (hr : ∀ a b, r a b → f a = g b)
    (h : Reorders r l l') : (l.filterMap f).Perm (l'.filterMap g) := by
  rw [List.filterMap_eq_flatMap_toList, List.filterMap_eq_flatMap_toList]
  exact h.flatMap_perm fun a b hab => .of_eq (by rw [hr a b hab])

/-- Where the related elements are found by the same test, which at most one passes. -/
theorem rel_find? {p : α → Bool} {q : β → Bool} (hr : ∀ a b, r a b → p a = q b) (h : Reorders r l l')
    (hcount : l.countP p ≤ 1) : Option.Rel r (l.find? p) (l'.find? q) := by
  obtain ⟨middle, hperm, hmiddle⟩ := h
  rw [find?_eq_of_perm hperm hcount]
  exact rel_find?_of_forall₂ hr hmiddle

end Reorders

end Lists

section Tables

variable {r : String × α → String × β → Prop} (hr : ∀ a b, r a b → a.1 = b.1)
include hr

theorem forall₂_insertEntry {entry : String × α} {entry' : String × β} (hentry : r entry entry')
    {entries : List (String × α)} {entries' : List (String × β)} (h : List.Forall₂ r entries entries')
    : List.Forall₂ r (SortedTable.insertEntry entry.1 entry.2 entries)
        (SortedTable.insertEntry entry'.1 entry'.2 entries') := by
  obtain ⟨key, value⟩ := entry
  obtain ⟨key', value'⟩ := entry'
  obtain rfl : key = key' := hr _ _ hentry
  induction h with
  | nil => exact .cons hentry .nil
  | @cons first first' rest rest' hfirst hrest ih =>
    obtain ⟨first, v⟩ := first
    obtain ⟨first', v'⟩ := first'
    obtain rfl : first = first' := hr _ _ hfirst
    unfold SortedTable.insertEntry
    split
    · exact .cons hentry (.cons hfirst hrest)
    · split
      · exact .cons hentry hrest
      · exact .cons hfirst ih

theorem forall₂_ofList {entries : List (String × α)} {entries' : List (String × β)} (h : List.Forall₂ r entries entries')
    : List.Forall₂ r (SortedTable.ofList entries).entries (SortedTable.ofList entries').entries := by
  have hfold : ∀ (t : SortedTable α) (t' : SortedTable β), List.Forall₂ r t.entries t'.entries
      → List.Forall₂ r (entries.foldl (fun t entry => t.insert entry.1 entry.2) t).entries
          (entries'.foldl (fun t entry => t.insert entry.1 entry.2) t').entries := by
    induction h with
    | nil => exact fun _ _ ht => ht
    | cons hentry _ ih =>
      intro t t' ht
      exact ih _ _ (forall₂_insertEntry hr hentry ht)
  exact hfold .empty .empty .nil

theorem forall₂_sorted {t : Table α} {t' : Table β} (h : Reorders r t.entries t'.entries)
    : List.Forall₂ r t.sorted.entries t'.sorted.entries := by
  obtain ⟨middle, hperm, hmiddle⟩ := h
  -- Entries are matched first and sorted by their keys then, which those matched have in common.
  let shuffled : Table α := ⟨middle, (hperm.map _).nodup_iff.mp t.nodup⟩
  have hsorted : t.sorted = shuffled.sorted := Table.sorted_eq_of_perm hperm
  rw [hsorted]
  exact forall₂_ofList hr hmiddle

end Tables

namespace Compile

theorem ofList_unit_eq {names names' : List String} (h : ∀ name, name ∈ names ↔ name ∈ names')
    : SortedTable.ofList (names.map fun name => (name, ())) = .ofList (names'.map fun name => (name, ())) := by
  have hget : ∀ (names : List String) (key : String),
      (SortedTable.ofList (names.map fun name => (name, ()))).get? key = if key ∈ names then some () else none := by
    intro names key
    rw [SortedTable.get?_ofList, ← List.map_reverse]
    by_cases hmem : key ∈ names
    · rw [if_pos hmem]
      exact List.lookup_graph (fun _ => ()) (List.mem_reverse.mpr hmem)
    · rw [if_neg hmem, List.lookup_eq_none_iff]
      intro pair hpair
      obtain ⟨name, hname, rfl⟩ := List.mem_map.mp hpair
      rw [bne_iff_ne]
      rintro rfl
      exact hmem (List.mem_reverse.mp hname)
  apply SortedTable.ext
  intro key
  simp only [hget, h key]

section Signatures

variable {graph graph' : Graph} {r : Node → Node → Prop} {q : FunctionDef → FunctionDef → Prop}
  (hbound : ∀ node node', r node node' → node.data.boundName? = node'.data.boundName?)
  (hfunction : ∀ function function', q function function' → function.name = function'.name
    ∧ function.params = function'.params ∧ function.returns = function'.returns
    ∧ Reorders r function.nodes function'.nodes)
  (hnodes : Reorders r graph.nodes graph'.nodes)
  (hfunctions : Reorders (fun entry entry' => entry.1 = entry'.1 ∧ q entry.2 entry'.2)
    graph.functions.entries graph'.functions.entries)

include hbound hfunction hnodes hfunctions

theorem bindingNames_eq : bindingNames graph = bindingNames graph' := by
  have hbodies : ((graph.functions.values.flatMap FunctionDef.nodes).filterMap fun node => node.data.boundName?).Perm
      ((graph'.functions.values.flatMap FunctionDef.nodes).filterMap fun node => node.data.boundName?) := by
    unfold Table.values
    rw [List.flatMap_map, List.flatMap_map, List.filterMap_flatMap, List.filterMap_flatMap]
    exact hfunctions.flatMap_perm fun _ _ hentry => (hfunction _ _ hentry.2).2.2.2.filterMap_perm hbound
  have hparams : (graph.functions.values.flatMap fun function => function.params.map Port.name).Perm
      (graph'.functions.values.flatMap fun function => function.params.map Port.name) := by
    unfold Table.values
    rw [List.flatMap_map, List.flatMap_map]
    exact hfunctions.flatMap_perm fun _ _ hentry => .of_eq (by rw [(hfunction _ _ hentry.2).2.1])
  unfold bindingNames
  dsimp only
  rw [ofList_unit_eq]
  intro name
  rw [List.filterMap_append, List.filterMap_append]
  exact ((((hnodes.filterMap_perm hbound).append hbodies).append hparams).map sanitize |>.append_left _).mem_iff

structure Signature.Matches (q : FunctionDef → FunctionDef → Prop) (sig sig' : Signature) : Prop
    extends sig.Alike sig' where
  function : q sig.function sig'.function

structure Signatures.Match (q : FunctionDef → FunctionDef → Prop) (signatures signatures' : Signatures) : Prop where
  list : List.Forall₂ (Signature.Matches q) signatures.list signatures'.list
  taken : signatures.taken = signatures'.taken

theorem match_ofGraph : Signatures.Match q (.ofGraph graph) (.ofGraph graph') := by
  obtain ⟨hlist, htaken⟩ : List.Forall₂ (Signature.Matches q) (Signatures.ofGraph graph).list
      (Signatures.ofGraph graph').list ∧ (Signatures.ofGraph graph).taken = (Signatures.ofGraph graph').taken := by
    refine Signatures.forall₂_foldl_add (fun _ _ h => ?_) (fun _ _ halike h => ⟨halike, h⟩)
      (forall₂_sorted (fun _ _ hentry => hentry.1) hfunctions) .nil
      (bindingNames_eq hbound hfunction hnodes hfunctions)
    obtain ⟨hname, hparams, hreturns, -⟩ := hfunction _ _ h
    exact ⟨hname, hparams, hreturns⟩
  exact ⟨hlist, htaken⟩

end Signatures

theorem Signatures.Match.rel_get? {q : FunctionDef → FunctionDef → Prop} {signatures signatures' : Signatures}
    (h : signatures.Match q signatures') (key : String)
    : Option.Rel Signature.Alike (signatures.get? key) (signatures'.get? key) := by
  refine rel_find?_of_forall₂ (fun sig sig' halike => ?_) (h.list.imp fun _ _ h => h.toAlike)
  rw [halike.key]

theorem countP_id_le_one (h : (nodes.map Node.id).Nodup) (id : String)
    : (nodes.countP fun node => node.id = id) ≤ 1 := by
  have hcount : (nodes.map Node.id).count id ≤ 1 := List.nodup_iff_count_le_one.mp h id
  rw [List.count_eq_countP, List.countP_map] at hcount
  simpa only [Function.comp_def, beq_eq_decide] using hcount

theorem Wiring.duplicates_eq_nil (nodes : List Node)
    (h : ((edges.filter fun edge => edge.kind = .data).map inputOf).Nodup) : (ofEdges nodes edges).duplicates = [] := by
  refine List.eq_nil_iff_forall_not_mem.mpr fun d hd => ?_
  obtain ⟨node, socket, -, hcount⟩ := (mem_duplicates_iff nodes edges d).mp hd
  have hone := List.nodup_iff_count_le_one.mp h ⟨node, socket⟩
  rw [List.count_eq_countP, List.countP_map, List.countP_filter] at hone
  have hle := (hcount.trans (List.countP_mono_left fun edge _ hfeeds => ?_)).trans hone
  · omega
  · simpa [feeds, and_comm] using hfeeds

theorem nodes_routine (job : Job) (signatures : Signatures) (nodes : List Node) (edges : List Edge)
    (sig : Option Signature) : (job.routine signatures nodes edges sig).wiring.nodes = nodes :=
  Wiring.ofEdges_nodes nodes edges

end Compile

theorem Node.Shuffles.coincides {node node' : Node} (h : node.Shuffles node') : node.Coincides node' := by
  obtain ⟨inlineValues, hperm, rfl⟩ := h
  refine ⟨⟨rfl, rfl, rfl, rfl, fun socket => ?_⟩, rfl⟩
  unfold NodeData.inline?
  rw [Table.get?_eq_of_perm hperm]

namespace Compile

/-- The functions are the same up to their order, and their order makes no difference. -/
structure Relisted (aliases : Table NodeKind) (function function' : FunctionDef) : Prop
    extends function.Shuffles function' where
  unambiguous : Unambiguous aliases .functionEntry function.nodes function.edges

section Shuffled

variable {signatures signatures' : Signatures} (graph graph' : Graph) (options : Options)
  (hsignatures : signatures.Match (Relisted aliases) signatures') {entry : NodeKind} {nodes' : List Node}
  {edges' : List Edge} (hscope : Unambiguous aliases entry nodes edges)
  (hnodes : Reorders Node.Shuffles nodes nodes') (hedges : edges.Perm edges')
  {sig sig' : Option Signature} (hsig : Option.Rel Signature.Alike sig sig')
include hsignatures hscope hnodes hedges hsig

theorem resembles_routine
    : ((⟨graph, options, aliases⟩ : Job).routine signatures nodes edges sig).Resembles Node.Coincides
        ((⟨graph', options, aliases⟩ : Job).routine signatures' nodes' edges' sig') where
  alike h := h.toAlike
  node? id := by
    unfold Wiring.node?
    rw [nodes_routine, nodes_routine]
    -- Of several nodes with one name the last one would count.
    refine (hnodes.imp fun _ _ h => h.coincides).reverse.rel_find? (fun node node' hnode => by rw [hnode.id]) ?_
    rw [List.countP_reverse]
    exact countP_id_le_one hscope.ids id
  next? id socket := by
    unfold Wiring.next? Job.routine
    dsimp only
    rw [Wiring.control_ofEdges, Wiring.control_ofEdges]
    exact lookup_reverse_map_eq_of_perm hscope.control (hedges.filter _) _
  source? id socket := by
    unfold Wiring.source? Job.routine
    dsimp only
    rw [Wiring.data_ofEdges, Wiring.data_ofEdges]
    exact lookup_reverse_map_eq_of_perm hscope.data (hedges.filter _) _
  length := by simpa only [nodes_routine] using hnodes.length_eq
  duplicates := by
    have hdata : ((edges'.filter fun edge => edge.kind = .data).map inputOf).Nodup :=
      ((hedges.filter _).map _).nodup_iff.mp hscope.data
    unfold Job.routine
    dsimp only
    rw [Wiring.duplicates_eq_nil nodes hscope.data, Wiring.duplicates_eq_nil nodes' hdata]
  taken := hsignatures.taken
  get? := hsignatures.rel_get?
  aliases := rfl
  signature := hsig
  instrument := rfl

theorem rel_entry
    : Option.Rel Node.Coincides
        ( Routine.entry? ((⟨graph, options, aliases⟩ : Job).routine signatures nodes edges sig) entry)
        ( Routine.entry? ((⟨graph', options, aliases⟩ : Job).routine signatures' nodes' edges' sig') entry) := by
  have hresembles := resembles_routine graph graph' options hsignatures hscope hnodes hedges hsig
  unfold Routine.entry?
  rw [nodes_routine, nodes_routine]
  refine (hnodes.imp fun _ _ h => h.coincides).rel_find? (fun node node' hnode => ?_) hscope.entries
  rw [hresembles.kindOf_eq hnode.toAlike]

end Shuffled

section Compiled

variable {signatures signatures' : Signatures} {graph graph' : Graph} (options : Options)
  (hsignatures : signatures.Match (Relisted aliases) signatures')
include hsignatures

theorem compileFunction_eq_of_matches {sig sig' : Signature} (h : sig.Matches (Relisted aliases) sig')
    : (⟨graph, options, aliases⟩ : Job).compileFunction signatures sig =
      (⟨graph', options, aliases⟩ : Job).compileFunction signatures' sig' := by
  have hfunction := h.function
  have hresembles := resembles_routine graph graph' options hsignatures hfunction.unambiguous hfunction.nodes
    hfunction.edges (.some h.toAlike)
  unfold Job.compileFunction
  dsimp only
  obtain ⟨hnone, hnone'⟩ | ⟨_, _, hsome, hsome', hentry⟩ := eq_none_or_some_of_rel
    (rel_entry graph graph' options hsignatures hfunction.unambiguous hfunction.nodes hfunction.edges (.some h.toAlike))
  · rw [hnone, hnone', hresembles.start_eq, h.functionName]
  · rw [hsome, hsome']
    exact compileFrom_eq_of_coincides hresembles hentry 1

theorem compileMain?_eq_of_shuffles (h : graph.Shuffles graph')
    (hscope : Unambiguous aliases .start graph.nodes graph.edges)
    : (⟨graph, options, aliases⟩ : Job).compileMain? signatures =
      (⟨graph', options, aliases⟩ : Job).compileMain? signatures' := by
  have hresembles := resembles_routine graph graph' options hsignatures hscope h.nodes h.edges .none
  unfold Job.compileMain?
  dsimp only
  obtain ⟨hnone, hnone'⟩ | ⟨_, _, hsome, hsome', hentry⟩ := eq_none_or_some_of_rel
    (rel_entry graph graph' options hsignatures hscope h.nodes h.edges .none)
  · rw [hnone, hnone', Option.map_none, Option.map_none]
  · rw [hsome, hsome', Option.map_some, Option.map_some, compileFrom_eq_of_coincides hresembles hentry 0]

end Compiled

end Compile

theorem Graph.Shuffles.match_ofGraph {graph graph' : Graph} (h : graph.Shuffles graph')
    (hgraph : graph.Unambiguous aliases)
    : (Compile.Signatures.ofGraph graph).Match (Compile.Relisted aliases) (.ofGraph graph') := by
  apply Compile.match_ofGraph (fun _ _ hnode => (Node.Shuffles.coincides hnode).boundName?)
    (fun _ _ hfunction => ⟨hfunction.name, hfunction.params, hfunction.returns, hfunction.nodes⟩) h.nodes
  obtain ⟨middle, hperm, hmiddle⟩ := h.functions
  have hscopes : ∀ entry ∈ middle, Compile.Unambiguous aliases .functionEntry entry.2.nodes entry.2.edges :=
    fun entry hmem => hgraph.functions entry (hperm.mem_iff.mpr hmem)
  refine ⟨middle, hperm, ((List.forall₂_and_left _ _).mpr ⟨hscopes, hmiddle⟩).imp fun _ _ hentry => ?_⟩
  exact ⟨hentry.2.1, hentry.2.2, hentry.1⟩

/-- However an unambiguous graph is listed, it compiles to the same program with the same
diagnostics. -/
theorem Compile.Job.compile_eq_of_shuffles {graph graph' : Graph} (h : graph.Shuffles graph')
    (aliases : Table NodeKind) (hgraph : graph.Unambiguous aliases) (options : Options)
    : (⟨graph, options, aliases⟩ : Job).compile = (⟨graph', options, aliases⟩ : Job).compile := by
  have hsignatures := h.match_ofGraph hgraph
  have hfunction : ∀ signature signature', signature.Matches (Relisted aliases) signature'
      → (⟨graph, options, aliases⟩ : Job).compileFunction (.ofGraph graph) signature
        = (⟨graph', options, aliases⟩ : Job).compileFunction (.ofGraph graph') signature' :=
    fun _ _ h => compileFunction_eq_of_matches options hsignatures h
  have htexts := map_eq_of_forall₂ (fun signature signature' h =>
    show functionText signature (compileFunction ⟨graph, options, aliases⟩ _ signature).1
      = functionText signature' (compileFunction ⟨graph', options, aliases⟩ _ signature').1 by
    unfold functionText
    rw [hfunction signature signature' h, h.name, h.params]) hsignatures.list
  have hdiagnostics := map_eq_of_forall₂ (fun signature signature' h =>
    congrArg Prod.snd (hfunction signature signature' h)) hsignatures.list
  unfold compile
  dsimp only
  rw [compileMain?_eq_of_shuffles options hsignatures h hgraph.main]
  split
  · rfl
  · simp only [List.map_map, List.flatMap_def, Function.comp_def]
    rw [htexts, hdiagnostics]

def Table.backwards (t : Table α) : Table α :=
  ⟨t.entries.reverse, by simpa [List.map_reverse] using t.nodup⟩

def Node.backwards (node : Node) : Node :=
  { node with data := { node.data with inlineValues := node.data.inlineValues.backwards } }

def FunctionDef.backwards (function : FunctionDef) : FunctionDef :=
  { function with nodes := function.nodes.reverse.map Node.backwards, edges := function.edges.reverse }

def Graph.backwards (graph : Graph) : Graph where
  nodes := graph.nodes.reverse.map Node.backwards
  edges := graph.edges.reverse
  functions := graph.functions.backwards.map FunctionDef.backwards

theorem reorders_backwards (nodes : List Node) : Reorders Node.Shuffles nodes (nodes.reverse.map Node.backwards) := by
  refine ⟨nodes.reverse, (List.reverse_perm nodes).symm, ?_⟩
  rw [List.forall₂_map_right_iff, List.forall₂_same]
  intro node _
  exact ⟨_, (List.reverse_perm _).symm, rfl⟩

theorem Graph.shuffles_backwards (graph : Graph) : graph.Shuffles graph.backwards where
  nodes := reorders_backwards graph.nodes
  edges := (List.reverse_perm _).symm
  functions := by
    refine ⟨graph.functions.entries.reverse, (List.reverse_perm _).symm, ?_⟩
    unfold backwards Table.backwards Table.map
    rw [List.forall₂_map_right_iff, List.forall₂_same]
    intro entry _
    exact ⟨rfl, rfl, rfl, rfl, rfl, rfl, reorders_backwards entry.2.nodes, (List.reverse_perm _).symm⟩

def namesakes : Graph where
  nodes :=
    [⟨"sum", .add, none, { inlineValues := .ofList [("b", "2"), ("a", "1")] }⟩,
     ⟨"out", .output, none, {}⟩,
     ⟨"call", .callFunction, none, { functionId := some "second" }⟩,
     ⟨"start", .unknown "begin", none, {}⟩]
  edges :=
    [.data "sum" "result" "out" "value", .control "start" "exec-out" "call", .control "call" "exec-out" "out"]
  functions :=
    .ofList [("second",
        { id := "second", name := "f",
          nodes := [⟨"entry", .functionEntry, none, {}⟩, ⟨"call", .callFunction, none, { functionId := some "first" }⟩],
          edges := [.control "entry" "exec-out" "call"] }),
      ("first",
        { id := "first", name := "f", params := [⟨"p", "out", .any⟩],
          nodes := [⟨"print", .output, none, {}⟩, ⟨"entry", .functionEntry, none, {}⟩],
          edges := [.data "entry" "p" "print" "value", .control "entry" "exec-out" "print"] })]

theorem Compile.Job.compile_namesakes_backwards
    : let aliases : Table NodeKind := ⟨[("begin", .start)], by decide⟩
      namesakes.Shuffles namesakes.backwards ∧ namesakes.Unambiguous aliases
        ∧ (⟨namesakes, ⟨true⟩, aliases⟩ : Job).compile
          = (⟨namesakes.backwards, ⟨true⟩, aliases⟩ : Job).compile := by
  intro aliases
  have hshuffles := namesakes.shuffles_backwards
  have hgraph : namesakes.Unambiguous aliases := by decide
  exact ⟨hshuffles, hgraph, compile_eq_of_shuffles hshuffles aliases hgraph ⟨true⟩⟩

end NodeScript
