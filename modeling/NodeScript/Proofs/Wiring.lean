import Mathlib.Data.List.Induction
import Mathlib.Data.List.Nodup
import NodeScript.Compile.Wiring

/-!
The wiring of a graph in terms of its list of edges: of several edges at one socket the last one counts.
-/

namespace NodeScript.Compile

open List

def outputOf (edge : Edge) : Endpoint := ⟨edge.source, edge.sourceSocket⟩

def inputOf (edge : Edge) : Endpoint := ⟨edge.target, edge.targetSocket⟩

def controlTarget (edges : List Edge) (id socket : String) : Option String :=
  (edges.filter fun e => e.kind = .control ∧ e.source = id ∧ e.sourceSocket = socket).getLast?.map
    Edge.target

def feeds (input : Endpoint) (edge : Edge) : Bool :=
  edge.kind = .data ∧ inputOf edge = input

def dataSource (edges : List Edge) (id socket : String) : Option Endpoint :=
  (edges.filter (feeds ⟨id, socket⟩)).getLast?.map outputOf

def secondEdges (edges : List Edge) : List Edge :=
  (edges.zipIdx.filter fun entry =>
    entry.1.kind = .data ∧ (edges.take entry.2).countP (feeds (inputOf entry.1)) = 1).map Prod.fst

theorem Wiring.foldl_addEdge_nodes (edges : List Edge) (wiring : Wiring)
    : (edges.foldl addEdge wiring).nodes = wiring.nodes := by
  induction edges generalizing wiring with
  | nil => rfl
  | cons edge edges ih =>
    rw [foldl_cons, ih]
    unfold addEdge
    split <;> rfl

@[simp]
theorem Wiring.ofEdges_nodes (nodes : List Node) (edges : List Edge) : (ofEdges nodes edges).nodes = nodes := by
  unfold ofEdges
  rw [foldl_addEdge_nodes]

variable {wiring : Wiring} {id : String} {node : Node}

theorem Wiring.id_of_node?_eq_some (h : wiring.node? id = some node) : node.id = id := by
  unfold node? at h
  simpa using find?_some h

theorem Wiring.mem_of_node?_eq_some (h : wiring.node? id = some node) : node ∈ wiring.nodes := by
  unfold node? at h
  simpa using mem_of_find?_eq_some h

theorem Wiring.isSome_node?_iff : (wiring.node? id).isSome ↔ ∃ node ∈ wiring.nodes, node.id = id := by
  unfold node?
  rw [find?_isSome]
  simp

theorem Wiring.ofEdges_concat (nodes : List Node) (edges : List Edge) (edge : Edge)
    : ofEdges nodes (edges ++ [edge]) = (ofEdges nodes edges).addEdge edge := by
  simp [ofEdges]

theorem Wiring.control_ofEdges (nodes : List Node) (edges : List Edge) : (ofEdges nodes edges).control =
      ((edges.filter fun edge => edge.kind = .control).map fun edge =>
        (outputOf edge, edge.target)).reverse := by
  induction edges using reverseRecOn with
  | nil => rfl
  | append_singleton edges edge ih =>
    rw [ofEdges_concat]
    unfold addEdge
    cases hkind : edge.kind with
    | control => simp [ih, hkind, outputOf]
    | data => simp [ih, hkind]

theorem Wiring.data_ofEdges (nodes : List Node) (edges : List Edge) : (ofEdges nodes edges).data =
      ((edges.filter fun edge => edge.kind = .data).map fun edge =>
        (inputOf edge, outputOf edge)).reverse := by
  induction edges using reverseRecOn with
  | nil => rfl
  | append_singleton edges edge ih =>
    rw [ofEdges_concat]
    unfold addEdge
    cases hkind : edge.kind with
    | control => simp [ih, hkind]
    | data => simp [ih, hkind, inputOf, outputOf]

theorem Wiring.node?_of_mem (h : (wiring.nodes.map Node.id).Nodup) (hnode : node ∈ wiring.nodes)
    : wiring.node? node.id = some node := by
  obtain ⟨found, hfound⟩ := Option.isSome_iff_exists.mp (isSome_node?_iff.mpr ⟨node, hnode, rfl⟩)
  rw [hfound, inj_on_of_nodup_map h (mem_of_node?_eq_some hfound) hnode (id_of_node?_eq_some hfound)]

theorem lookup_reverse_map {α κ ν : Type} [DecidableEq κ] (f : α → κ) (g : α → ν) (l : List α) (key : κ)
    : (l.map fun a => (f a, g a)).reverse.lookup key = (l.filter fun a => f a = key).getLast?.map g := by
  induction l using reverseRecOn with
  | nil => rfl
  | append_singleton l a ih =>
    rw [map_append, reverse_append, filter_append]
    by_cases h : f a = key
    · simp [h]
    · have hne : (key == f a) = false := beq_false_of_ne (Ne.symm h)
      simpa [h, hne, lookup_cons] using ih

theorem Wiring.ofEdges_next? (nodes : List Node) (edges : List Edge) (id socket : String)
    : (ofEdges nodes edges).next? id socket = controlTarget edges id socket := by
  unfold next? controlTarget
  rw [control_ofEdges, lookup_reverse_map, filter_filter]
  simp only [outputOf, Endpoint.mk.injEq, Bool.decide_and, Bool.and_comm, Bool.and_assoc]

theorem Wiring.ofEdges_source? (nodes : List Node) (edges : List Edge) (id socket : String)
    : (ofEdges nodes edges).source? id socket = dataSource edges id socket := by
  unfold source? dataSource feeds
  rw [data_ofEdges, lookup_reverse_map, filter_filter]
  simp only [Bool.decide_and, Bool.and_comm]

theorem secondEdges_concat (edges : List Edge) (edge : Edge) : secondEdges (edges ++ [edge]) = secondEdges edges
        ++ if edge.kind = .data ∧ edges.countP (feeds (inputOf edge)) = 1 then [edge] else [] := by
  unfold secondEdges
  rw [zipIdx_append, filter_append, map_append]
  congr 1
  · -- The edges before an edge of the first part are all in that part.
    congr 1
    apply filter_congr
    intro entry hentry
    rw [take_append_of_le_length (Nat.le_of_lt (snd_lt_of_mem_zipIdx hentry))]
  · simp only [zipIdx_cons, zipIdx_nil, Nat.zero_add, filter_cons, filter_nil, take_left, decide_eq_true_eq]
    split <;> rfl

theorem mem_secondEdges_iff (edges : List Edge) (input : Endpoint)
    : input ∈ (secondEdges edges).map inputOf ↔ 2 ≤ edges.countP (feeds input) := by
  induction edges using reverseRecOn with
  | nil => simp [secondEdges]
  | append_singleton edges edge ih =>
    rw [secondEdges_concat, map_append, mem_append, ih, countP_append, countP_singleton]
    by_cases hfeeds : feeds input edge
    · obtain ⟨hkind, rfl⟩ := of_decide_eq_true hfeeds
      rw [if_pos hfeeds]
      by_cases hone : edges.countP (feeds (inputOf edge)) = 1
      · simp [hkind, hone]
      · simp only [hkind, hone, and_false, if_false, map_nil, not_mem_nil, or_false]
        omega
    · rw [if_neg hfeeds]
      have hother : input ∉ (if edge.kind = .data ∧ edges.countP (feeds (inputOf edge)) = 1 then [edge]
          else []).map inputOf := by
        intro hmem
        split at hmem
        · next h => exact hfeeds (decide_eq_true ⟨h.1, (mem_singleton.mp hmem).symm⟩)
        · exact not_mem_nil hmem
      simp [hother]

theorem nodup_secondEdges (edges : List Edge) : ((secondEdges edges).map inputOf).Nodup := by
  induction edges using reverseRecOn with
  | nil => exact nodup_nil
  | append_singleton edges edge ih =>
    rw [secondEdges_concat]
    split
    · next h =>
      rw [map_append]
      refine nodup_append.mpr ⟨ih, nodup_singleton _, ?_⟩
      intro input hinput other hother heq
      obtain rfl := mem_singleton.mp hother
      have := (mem_secondEdges_iff edges _).mp (heq ▸ hinput)
      omega
    · simpa using ih

theorem Wiring.isSome_source?_iff (nodes : List Node) (edges : List Edge) (id socket : String)
    : ((ofEdges nodes edges).source? id socket).isSome ↔ 1 ≤ edges.countP (feeds ⟨id, socket⟩) := by
  rw [ofEdges_source?, dataSource, Option.isSome_map, getLast?_isSome, countP_eq_length_filter]
  exact length_pos_iff.symm

def duplicateOf (input : Endpoint) : Diagnostic := .duplicateDataEdge input.node input.socket

theorem duplicateOf_injective : Function.Injective duplicateOf := by
  rintro ⟨_, _⟩ ⟨_, _⟩ heq
  cases heq
  rfl

theorem Wiring.duplicates_ofEdges (nodes : List Node) (edges : List Edge)
    : (ofEdges nodes edges).duplicates = ((secondEdges edges).map inputOf).map duplicateOf := by
  induction edges using reverseRecOn with
  | nil => rfl
  | append_singleton edges edge ih =>
    rw [ofEdges_concat, secondEdges_concat, map_append, map_append, ← ih]
    unfold addEdge
    cases hkind : edge.kind with
    | control => simp
    | data =>
      have hsome := isSome_source?_iff nodes edges edge.target edge.targetSocket
      have hmem : .duplicateDataEdge edge.target edge.targetSocket ∈ (ofEdges nodes edges).duplicates
          ↔ 2 ≤ edges.countP (feeds (inputOf edge)) := by
        rw [ih, ← mem_secondEdges_iff]
        exact mem_map_of_injective duplicateOf_injective (a := inputOf edge)
      unfold source? at hsome
      dsimp only
      simp only [hsome, hmem, true_and]
      change _ = _ ++ ((if edges.countP (feeds (inputOf edge)) = 1 then [edge] else []).map inputOf).map duplicateOf
      by_cases hone : edges.countP (feeds (inputOf edge)) = 1
      · have hone' : edges.countP (feeds ⟨edge.target, edge.targetSocket⟩) = 1 := hone
        simp [hone', duplicateOf, inputOf]
      · rw [if_neg hone, if_neg]
        · simp
        · rintro ⟨h, h'⟩
          exact hone (Nat.le_antisymm (by omega) h)

theorem Wiring.mem_duplicates_iff (nodes : List Node) (edges : List Edge) (d : Diagnostic)
    : d ∈ (ofEdges nodes edges).duplicates ↔
      ∃ node socket, d = .duplicateDataEdge node socket ∧ 2 ≤ edges.countP (feeds ⟨node, socket⟩) := by
  rw [duplicates_ofEdges, mem_map]
  constructor
  · rintro ⟨input, hinput, rfl⟩
    exact ⟨input.node, input.socket, rfl, (mem_secondEdges_iff edges input).mp hinput⟩
  · rintro ⟨node, socket, rfl, h⟩
    exact ⟨⟨node, socket⟩, (mem_secondEdges_iff edges _).mpr h, rfl⟩

/-- The wiring in terms of the lists of nodes and edges: the last control edge from an output, the last data edge to an
input and the last node of a name count, and the inputs with several data edges are listed by their second ones. -/
theorem Wiring.lastEdges_ofEdges (nodes : List Node) (edges : List Edge)
    : (∀ id socket, (ofEdges nodes edges).next? id socket = controlTarget edges id socket)
        ∧ (∀ id socket, (ofEdges nodes edges).source? id socket = dataSource edges id socket)
        ∧ (∀ id, (ofEdges nodes edges).node? id = (nodes.filter fun node => node.id = id).getLast?)
        ∧ (ofEdges nodes edges).duplicates = (secondEdges edges).map (fun edge =>
            .duplicateDataEdge edge.target edge.targetSocket)
        ∧ (ofEdges nodes edges).duplicates.Nodup
        ∧ ∀ d, d ∈ (ofEdges nodes edges).duplicates
            ↔ ∃ node socket, d = .duplicateDataEdge node socket ∧ 2 ≤ edges.countP (feeds ⟨node, socket⟩) := by
  refine ⟨ofEdges_next? nodes edges, ofEdges_source? nodes edges, ?_, ?_, ?_, mem_duplicates_iff nodes edges⟩
  · intro id
    rw [node?, ← head?_filter, filter_reverse, head?_reverse, ofEdges_nodes]
  · rw [duplicates_ofEdges, map_map]
    rfl
  · rw [duplicates_ofEdges]
    exact (nodup_secondEdges edges).map duplicateOf_injective

end NodeScript.Compile
