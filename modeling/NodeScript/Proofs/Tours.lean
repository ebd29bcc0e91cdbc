import NodeScript.Compile
import NodeScript.Proofs.Wiring

/-!
Tours seen from their nodes: what their statements read, which nodes came before them, and how deeply
they stand inside each other.
-/

namespace NodeScript.Compile

open List

def Routine.statementSockets (r : Routine) (node : Node) : List String :=
  match r.kindOf node with
  -- A prompt that is not connected says a text of the node's own.
  | .input => if (r.wiring.source? node.id "prompt").isSome then ["prompt"] else []
  | .output | .set | .arrayPush => ["value"]
  | .arraySet => ["index", "value"]
  | .branch | .whileLoop => ["condition"]
  | .forLoop => ["from", "to", "step"]
  | .callFunction =>
    (r.functions.get? (node.data.functionId.getD "")).elim [] fun sig =>
      sig.function.params.map Port.id
  | .functionReturn =>
    r.signature.elim [] fun sig => sig.function.returns.map Port.id
  | _ => []

theorem Shape.eq_branch_of_ofKind {kind : NodeKind} (h : ofKind kind = .branch) : kind = .branch := by
  cases kind <;> first | rfl | exact nomatch h

theorem Shape.eq_loop_of_ofKind {kind : NodeKind} (h : ofKind kind = .loop) (hfor : kind ≠ .forLoop)
    : kind = .whileLoop := by
  cases kind <;> first | rfl | exact absurd rfl hfor | exact nomatch h

variable {depth : Nat} {passed : List String}

namespace Tour

def nodes : Tour → List Node
  | stop | cut _ => []
  | pass node rest => node :: rest.nodes
  | last node => [node]
  | branch node onTrue onFalse => node :: (onTrue.nodes ++ onFalse.nodes)
  | loop node body rest => node :: (body.nodes ++ rest.nodes)

def ids (tour : Tour) : List String :=
  tour.nodes.map Node.id

def nesting : Tour → Nat
  | stop | cut _ | last _ => 0
  | pass _ rest => rest.nesting
  | branch _ onTrue onFalse => max onTrue.nesting onFalse.nesting + 1
  | loop _ body rest => max (body.nesting + 1) rest.nesting

structure Meets (r : Routine) (passed : List String) (node : Node) (shape : Shape) : Prop where
  found : r.wiring.node? node.id = some node
  fresh : node.id ∉ passed
  shape : Shape.ofKind (r.kindOf node) = shape

def Follows (r : Routine) : Nat → List String → Tour → Prop
  | _, _, stop => True
  | depth, _, cut _ => maxNesting < depth
  | depth, passed, pass node rest =>
    Meets r passed node .pass ∧ rest.Follows r depth (passed ++ [node.id])
  | _, passed, last node => Meets r passed node .last
  | depth, passed, branch node onTrue onFalse =>
    Meets r passed node .branch ∧ depth ≤ maxNesting ∧ onTrue.Follows r (depth + 1) (passed ++ [node.id])
      ∧ onFalse.Follows r (depth + 1) (passed ++ [node.id])
  | depth, passed, loop node body rest =>
    Meets r passed node .loop ∧ depth ≤ maxNesting ∧ body.Follows r (depth + 1) (passed ++ [node.id])
      ∧ rest.Follows r depth (passed ++ [node.id])

variable {r : Routine} {tour : Tour}

theorem Follows.nesting_le (h : tour.Follows r depth passed) : tour.nesting ≤ maxNesting + 1 - depth := by
  induction tour generalizing depth passed with
  | stop | cut | last => exact Nat.zero_le _
  | pass node rest ih => exact ih h.2
  | branch node onTrue onFalse ihTrue ihFalse =>
    obtain ⟨-, hdepth, htrue, hfalse⟩ := h
    have := ihTrue htrue
    have := ihFalse hfalse
    simp only [nesting]
    omega
  | loop node body rest ihBody ihRest =>
    obtain ⟨-, hdepth, hbody, hrest⟩ := h
    have := ihBody hbody
    have := ihRest hrest
    simp only [nesting]
    omega

theorem Follows.node?_eq_some (h : tour.Follows r depth passed)
    : ∀ node ∈ tour.nodes, r.wiring.node? node.id = some node := by
  induction tour generalizing depth passed with
  | stop | cut => simp [nodes]
  | pass node rest ih => exact forall_mem_cons.mpr ⟨h.1.found, ih h.2⟩
  | last node => exact forall_mem_singleton.mpr h.found
  | branch node onTrue onFalse ihTrue ihFalse =>
    obtain ⟨hmeets, -, htrue, hfalse⟩ := h
    exact forall_mem_cons.mpr ⟨hmeets.found, forall_mem_append.mpr ⟨ihTrue htrue, ihFalse hfalse⟩⟩
  | loop node body rest ihBody ihRest =>
    obtain ⟨hmeets, -, hbody, hrest⟩ := h
    exact forall_mem_cons.mpr ⟨hmeets.found, forall_mem_append.mpr ⟨ihBody hbody, ihRest hrest⟩⟩

theorem Follows.mem_nodes (h : tour.Follows r depth passed) : ∀ node ∈ tour.nodes, node ∈ r.wiring.nodes :=
  fun node hnode => Wiring.mem_of_node?_eq_some (h.node?_eq_some node hnode)

end Tour

namespace Routine

variable (r : Routine)

theorem follows_after (tour : String → Tour) (h : ∀ next, (tour next).Follows r depth passed) (node : Node)
    (socket : String)
    : (r.after tour node socket).Follows r depth passed := by
  unfold after
  split
  · trivial
  · exact h _

theorem follows_arm (tour : String → Tour)
    (h : depth ≤ maxNesting → ∀ next, (tour next).Follows r depth passed) (node : Node) (socket : String)
    : (r.arm tour depth node socket).Follows r depth passed := by
  unfold arm
  split
  · trivial
  · split
    · next hdepth => exact hdepth
    · next hdepth => exact h (Nat.le_of_not_lt hdepth) _

theorem follows_tour {steps : Nat} (hdepth : depth ≤ maxNesting) {passed' : List String}
    (hpassed : passed' ⊆ passed) {id : String}
    : (r.tour steps depth passed id).Follows r depth passed' := by
  induction steps generalizing depth passed passed' id with
  | zero => trivial
  | succ steps ih =>
    rw [tour]
    split
    · trivial
    · next hnew =>
      split
      · trivial
      · next node hnode =>
        have hid := Wiring.id_of_node?_eq_some hnode
        have hfresh : node.id ∉ passed' := by
          intro hmem
          rw [hid] at hmem
          exact hnew (contains_iff_mem.mpr (hpassed hmem))
        have hsubset : passed' ++ [node.id] ⊆ id :: passed := by
          rw [hid, append_subset]
          exact ⟨subset_cons_of_subset _ hpassed, by simp⟩
        have hmeets : ∀ {shape}, Shape.ofKind (r.kindOf node) = shape → Tour.Meets r passed' node shape :=
          fun hshape => ⟨by rwa [hid], hfresh, hshape⟩
        have hafter := r.follows_after (r.tour steps depth (id :: passed)) (fun _ => ih hdepth hsubset) node
        have harm := r.follows_arm (r.tour steps (depth + 1) (id :: passed))
          (fun hdepth _ => ih hdepth hsubset) node
        dsimp only
        split
        · next hshape => exact ⟨hmeets hshape, hafter _⟩
        · next hshape => exact hmeets hshape
        · next hshape => exact ⟨hmeets hshape, hdepth, harm _, harm _⟩
        · next hshape => exact ⟨hmeets hshape, hdepth, harm _, hafter _⟩

theorem follows_tourFrom (entry : Node) (hdepth : depth ≤ maxNesting) : (r.tourFrom entry depth).Follows r depth [] :=
  r.follows_tour hdepth (nil_subset _)

end Routine

/-- A routine with the node where it starts and the depth of its statements. -/
structure Outset where
  routine : Routine
  entry : Node
  depth : Nat

namespace Outset

def tour (outset : Outset) : Tour :=
  outset.routine.tourFrom outset.entry outset.depth

def compiled (outset : Outset) : List Item × List Diagnostic :=
  outset.routine.compileFrom outset.entry outset.depth

end Outset

namespace Job

def mainRoutine (job : Job) : Routine :=
  job.routine (.ofGraph job.graph) job.graph.nodes job.graph.edges none

def functionRoutine (job : Job) (sig : Signature) : Routine :=
  job.routine (.ofGraph job.graph) sig.function.nodes sig.function.edges (some sig)

def mainOutset? (job : Job) : Option Outset :=
  (job.mainRoutine.entry? .start).map fun entry => ⟨job.mainRoutine, entry, 0⟩

def functionOutset? (job : Job) (sig : Signature) : Option Outset :=
  let r := job.functionRoutine sig
  (r.entry? .functionEntry).map fun entry => ⟨r, entry, 1⟩

def outsets (job : Job) : List Outset :=
  job.mainOutset?.toList ++ (Signatures.ofGraph job.graph).list.filterMap job.functionOutset?

theorem of_mem_outsets {job : Job} {outset : Outset} (h : outset ∈ job.outsets)
    : (∃ entry, outset = ⟨job.mainRoutine, entry, 0⟩) ∨ ∃ sig ∈ (Signatures.ofGraph job.graph).list, ∃ entry,
          outset = ⟨job.functionRoutine sig, entry, 1⟩ := by
  obtain hmain | hfunction := mem_append.mp h
  · obtain ⟨entry, -, rfl⟩ := Option.map_eq_some_iff.mp (Option.mem_toList.mp hmain)
    exact .inl ⟨entry, rfl⟩
  · obtain ⟨sig, hsig, houtset⟩ := mem_filterMap.mp hfunction
    obtain ⟨entry, -, rfl⟩ := Option.map_eq_some_iff.mp houtset
    exact .inr ⟨sig, hsig, entry, rfl⟩

theorem follows_of_mem_outsets {job : Job} {outset : Outset} (h : outset ∈ job.outsets)
    : outset.tour.Follows outset.routine outset.depth [] := by
  obtain ⟨entry, rfl⟩ | ⟨sig, -, entry, rfl⟩ := of_mem_outsets h
  · exact Routine.follows_tourFrom _ entry (Nat.zero_le _)
  · exact Routine.follows_tourFrom _ entry (show 1 ≤ maxNesting by decide)

theorem routine_of_mem_outsets {job : Job} {outset : Outset} (h : outset ∈ job.outsets)
    : outset.routine.instrument = job.options.instrument ∧ outset.routine.functions = Signatures.ofGraph job.graph := by
  obtain ⟨entry, rfl⟩ | ⟨sig, -, entry, rfl⟩ := of_mem_outsets h
  all_goals exact ⟨rfl, rfl⟩

theorem signature_of_mem_outsets {job : Job} {outset : Outset} (h : outset ∈ job.outsets)
    : ∀ sig ∈ outset.routine.signature, sig ∈ (Signatures.ofGraph job.graph).list := by
  obtain ⟨entry, rfl⟩ | ⟨sig, hsig, entry, rfl⟩ := of_mem_outsets h
  · rintro _ ⟨⟩
  · rintro _ ⟨⟩
    exact hsig

theorem compileMain?_eq (job : Job) : job.compileMain? (.ofGraph job.graph) = job.mainOutset?.map Outset.compiled := by
  unfold compileMain? mainOutset?
  rw [Option.map_map]
  rfl

theorem compileFunction_eq (job : Job) (sig : Signature) : (job.compileFunction (.ofGraph job.graph) sig).1
        =
      (job.functionOutset? sig).elim [] fun outset => outset.compiled.1 := by
  unfold compileFunction functionOutset? functionRoutine
  dsimp only
  split
  · next entry hentry => rw [hentry]; rfl
  · next hentry => rw [hentry]; rfl

end Job

end NodeScript.Compile
