import NodeScript.Proofs.Memo
import NodeScript.Proofs.Tables
import NodeScript.Proofs.Tours

/-!
Ladders: graphs of any height in which every sum has the one below it as an operand. They show how far
expressions reach, and what a shortcut to a rung further down changes about that.
-/

namespace NodeScript.Compile

open List

def tally (n : Nat) : String :=
  String.ofList (List.replicate n '*')

variable {n room : Nat} {s : State} {passed : List Endpoint} {socket : String}

theorem tally_inj {m : Nat} : tally m = tally n ↔ m = n := by
  refine ⟨fun h => ?_, congrArg tally⟩
  have hlength := congrArg (fun text : String => text.toList.length) h
  simpa [tally] using hlength

def rung (n : Nat) : Endpoint := ⟨tally n, "result"⟩

theorem rung_inj {m : Nat} : rung m = rung n ↔ m = n := by
  rw [rung, rung, Endpoint.mk.injEq, tally_inj, and_iff_left rfl]

namespace Routine

variable {routine : Routine} {node : Node}

theorem tour_pass {steps depth : Nat} {passed : List String} {id : String} (hnew : id ∉ passed)
    (hnode : routine.wiring.node? id = some node) (hshape : Shape.ofKind (routine.kindOf node) = .pass)
    : routine.tour (steps + 1) depth passed id =
      .pass node (routine.after (routine.tour steps depth (id :: passed)) node "exec-out") := by
  have hnew : passed.contains id = false := by simpa using hnew
  rw [tour]
  simp only [hnew, hnode, hshape, Bool.false_eq_true, if_false]

theorem after_eq {tour : String → Tour} {next : Option String} (h : routine.wiring.next? node.id socket = next)
    : routine.after tour node socket = next.elim .stop tour := by
  rw [after, h]
  cases next <;> rfl

end Routine

namespace Ladder

def node (height n : Nat) : Node :=
  ⟨tally n, if n = 0 then .start else if n = height + 2 then .output else .add, none, {}⟩

/-- Sums each of which has the one below it as an operand, and an output of the last one. With a
shortcut, the last one has another operand, which is two rungs below. -/
def graph (height : Nat) (shortcut : Bool) : Graph where
  nodes := (List.range (height + 3)).map (node height)
  edges := (List.range height).map (fun n => .data (tally (n + 1)) "result" (tally (n + 2)) "b")
    ++ [.data (tally (height + 1)) "result" (tally (height + 2)) "value",
        .control (tally 0) "exec-out" (tally (height + 2))]
    ++ if shortcut then [.data (tally (height - 1)) "result" (tally (height + 1)) "a"] else []

def job (height : Nat) (shortcut : Bool) : Job :=
  ⟨graph height shortcut, .default, {}⟩

def routine (height : Nat) (shortcut : Bool) : Routine :=
  (job height shortcut).mainRoutine

variable {height : Nat} {shortcut : Bool}

theorem wiring_eq : (routine height shortcut).wiring
    = .ofEdges (graph height shortcut).nodes (graph height shortcut).edges := rfl

theorem node?_tally (h : n < height + 3) : (routine height shortcut).wiring.node? (tally n) = some (node height n) := by
  have hnodes : (routine height shortcut).wiring.nodes = (List.range (height + 3)).map (node height) := by
    rw [wiring_eq, Wiring.ofEdges_nodes]
    rfl
  have hids : ((routine height shortcut).wiring.nodes.map Node.id).Nodup := by
    rw [hnodes, map_map]
    exact nodup_range.map fun m n heq => tally_inj.mp heq
  have hnode : node height n ∈ (routine height shortcut).wiring.nodes := by
    rw [hnodes]
    exact mem_map_of_mem (mem_range.mpr h)
  exact Wiring.node?_of_mem hids hnode

theorem kindOf_node (h : n < height + 1) : (routine height shortcut).kindOf (node height (n + 1)) = .add := by
  have hlast : n ≠ height + 1 := Nat.ne_of_lt h
  simp [Routine.kindOf, node, hlast]

theorem data_eq : (routine height shortcut).wiring.data =
    (if shortcut then [(⟨tally (height + 1), "a"⟩, rung (height - 1))] else [])
      ++ (⟨tally (height + 2), "value"⟩, rung (height + 1))
      :: ((List.range height).map fun n => (⟨tally (n + 2), "b"⟩, rung (n + 1))).reverse := by
  rw [wiring_eq, Wiring.data_ofEdges]
  cases shortcut <;>
    simp [graph, Edge.data, Edge.control, inputOf, outputOf, rung, filter_map, Function.comp_def]

theorem source?_eq_some {name : String} {out : Endpoint}
    (h : (⟨name, socket⟩, out) ∈ (routine height shortcut).wiring.data)
    : (routine height shortcut).wiring.source? name socket = some out := by
  have hinputs : ((routine height shortcut).wiring.data.map Prod.fst).Nodup := by
    have hrange : (((List.range height).map fun n => (⟨tally (n + 2), "b"⟩, rung (n + 1))).reverse.map
        (Prod.fst : Endpoint × Endpoint → Endpoint)).Nodup := by
      rw [map_reverse, nodup_reverse, map_map]
      refine nodup_range.map fun m n heq => ?_
      simpa [tally_inj] using heq
    rw [data_eq]
    cases shortcut <;> simpa using hrange
  exact (Table.lookup_eq_some_iff_mem hinputs).mpr h

theorem source?_b (h : n < height)
    : (routine height shortcut).wiring.source? (tally (n + 2)) "b" = some (rung (n + 1)) := by
  apply source?_eq_some
  rw [data_eq]
  refine mem_append_right _ (mem_cons_of_mem _ ?_)
  exact mem_reverse.mpr (mem_map.mpr ⟨n, mem_range.mpr h, rfl⟩)

theorem source?_value : (routine height shortcut).wiring.source? (node height (height + 2)).id "value" =
      some (rung (height + 1)) := by
  apply source?_eq_some
  rw [data_eq]
  exact mem_append_right _ (mem_cons_self ..)

theorem source?_a (h : n ≠ height ∨ shortcut = false)
    : (routine height shortcut).wiring.source? (tally (n + 1)) "a" = none := by
  unfold Wiring.source?
  rw [lookup_eq_none_iff, data_eq]
  cases shortcut <;> simp_all [tally_inj]

theorem dependencies_rung (h : n < height) (hshortcut : n + 1 ≠ height ∨ shortcut = false)
    : (routine height shortcut).dependencies (rung (n + 2)) = [rung (n + 1)] := by
  unfold Routine.dependencies
  rw [rung, node?_tally (by omega)]
  dsimp only
  rw [kindOf_node (by omega)]
  show List.filterMap ((routine height shortcut).wiring.source? (tally (n + 2))) ["a", "b"] = _
  rw [filterMap_cons_none (source?_a hshortcut), filterMap_cons_some (source?_b h)]
  rfl

theorem isSource_rung (h : n < height) : (routine height shortcut).IsSource (rung (n + 1)) (rung (n + 2)) := by
  apply Routine.mem_dependencies (node?_tally (by omega)) _ (source?_b h)
  rw [kindOf_node (by omega)]
  exact mem_cons_of_mem _ (mem_singleton_self _)

theorem not_ranked (h : room < n + 1) (hn : n ≤ height) : ¬ (routine height shortcut).Ranked room (rung (n + 1)) := by
  induction room generalizing n with
  | zero => exact id
  | succ room ih =>
    obtain ⟨n, rfl⟩ : ∃ m, n = m + 1 := ⟨n - 1, by omega⟩
    intro hranked
    exact ih (by omega) (by omega) (hranked _ (isSource_rung (by omega)))

theorem exists_chain (shortcut : Bool) (h : n ≤ height) : ∃ chain : List Endpoint,
    (rung (n + 1) :: chain).IsChain (fun out source => (routine height shortcut).IsSource source out)
      ∧ (rung (n + 1) :: chain).Nodup ∧ (∀ m, rung m ∈ rung (n + 1) :: chain → m ≤ n + 1)
      ∧ chain.length = n := by
  induction n with
  | zero =>
    refine ⟨[], isChain_singleton _, nodup_singleton _, ?_, rfl⟩
    intro m hm
    rw [rung_inj.mp (mem_singleton.mp hm)]
  | succ n ih =>
    obtain ⟨chain, hchain, hnodup, hle, hlength⟩ := ih (Nat.le_of_succ_le h)
    refine ⟨rung (n + 1) :: chain, isChain_cons_cons.mpr ⟨isSource_rung h, hchain⟩, ?_, ?_, congrArg Nat.succ hlength⟩
    · refine nodup_cons.mpr ⟨fun hmem => ?_, hnodup⟩
      exact absurd (hle _ hmem) (Nat.not_succ_le_self _)
    · intro m hm
      obtain heq | hm := mem_cons.mp hm
      · rw [rung_inj.mp heq]
      · exact Nat.le_succ_of_le (hle m hm)

theorem longChain (h : maxExpressionDepth ≤ height) : (routine height shortcut).LongChain (rung (height + 1)) := by
  obtain ⟨chain, hchain, hnodup, -, hlength⟩ := exists_chain shortcut (Nat.le_refl height)
  refine ⟨chain, hchain, hnodup, ?_⟩
  rw [length_cons, hlength]
  exact Nat.lt_succ_of_le h

theorem not_ranked_of_mem_visits (h : room < n + 1) (hn : n ≤ height) {visit : Visit}
    (hvisit : visit ∈ (routine height false).visits room passed (rung (n + 1)))
    : ¬ (routine height false).Ranked visit.room visit.output := by
  induction room generalizing n passed with
  | zero =>
    rw [mem_singleton.mp hvisit]
    exact id
  | succ room ih =>
    obtain ⟨n, rfl⟩ : ∃ m, n = m + 1 := ⟨n - 1, by omega⟩
    -- One rung further down there is one output less room.
    unfold Routine.visits at hvisit
    rw [dependencies_rung (by omega) (.inr rfl), flatMap_singleton] at hvisit
    obtain rfl | hvisit := mem_cons.mp hvisit
    · exact not_ranked h hn
    · split at hvisit
      · exact (not_mem_nil hvisit).elim
      · exact ih (by omega) (by omega) hvisit

theorem next?_start : (routine height shortcut).wiring.next? (tally 0) "exec-out" = some (tally (height + 2)) := by
  rw [wiring_eq, Wiring.ofEdges_next?, controlTarget]
  cases shortcut <;> simp [graph, Edge.data, Edge.control, filter_map, Function.comp_def]

theorem next?_output : (routine height shortcut).wiring.next? (tally (height + 2)) "exec-out" = none := by
  rw [wiring_eq, Wiring.ofEdges_next?, controlTarget]
  cases shortcut <;>
    simp [graph, Edge.data, Edge.control, filter_map, Function.comp_def, tally_inj]

theorem kindOf_output : (routine height shortcut).kindOf (node height (height + 2)) = .output := by
  simp [Routine.kindOf, node]

theorem tourFrom_start : (routine height shortcut).tourFrom (node height 0) 0 =
      .pass (node height 0) (.pass (node height (height + 2)) .stop) := by
  have hlength : (routine height shortcut).wiring.nodes.length = height + 3 := by
    rw [wiring_eq, Wiring.ofEdges_nodes]
    simp [graph]
  have hnew : tally (height + 2) ∉ [tally 0] := by simp [tally_inj]
  have hshape : Shape.ofKind ((routine height shortcut).kindOf (node height (height + 2))) = .pass := by
    rw [kindOf_output]
    rfl
  unfold Routine.tourFrom
  rw [hlength]
  show (routine height shortcut).tour (height + 3 + 1) 0 [] (tally 0) = _
  rw [Routine.tour_pass not_mem_nil (node?_tally (by omega)) rfl, Routine.after_eq next?_start, Option.elim_some,
    Routine.tour_pass hnew (node?_tally (by omega)) hshape, Routine.after_eq next?_output, Option.elim_none]

theorem outsets_job : (job height shortcut).outsets = [⟨routine height shortcut, node height 0, 0⟩] := by
  have hentry : Routine.entry? (routine height shortcut) .start = some (node height 0) := by
    unfold Routine.entry?
    rw [wiring_eq, Wiring.ofEdges_nodes, graph, range_succ_eq_map]
    rfl
  unfold Job.outsets Job.mainOutset?
  rw [show (job height shortcut).mainRoutine = routine height shortcut from rfl, hentry]
  rfl

open Build

def sum : Nat → Code
  | 0 => .binary "+" (.raw "0") (.raw "0")
  | n + 1 => .binary "+" (.raw "0") (sum n)

theorem isProvisional_sum (n : Nat) : (sum n).isProvisional = false := by
  have hbinary : ∀ code : Code, '/' ∉ code.text.toList → '/' ∉ (Code.binary "+" (.raw "0") code).text.toList := by
    intro code h
    change '/' ∉ ("(" ++ "0" ++ " " ++ "+" ++ " " ++ code.text ++ ")").toList
    rw [String.toList_append, String.toList_append, mem_append, mem_append, not_or, not_or]
    exact ⟨⟨by decide, h⟩, by decide⟩
  have htext : '/' ∉ (sum n).text.toList := by
    induction n with
    | zero => exact hbinary (.raw "0") (show '/' ∉ "0".toList by decide)
    | succ n ih => exact hbinary (sum n) ih
  have hslash : '/' ∈ circularMarker.toList ∧ '/' ∈ depthMarker.toList := by decide
  by_contra h
  rw [Bool.not_eq_false, Code.isProvisional, Bool.or_eq_true, occurs_iff, occurs_iff] at h
  obtain h | h := h
  · exact htext (h.subset hslash.1)
  · exact htext (h.subset hslash.2)

theorem isCut_sum (n : Nat) : (sum n).isCut = false := by
  by_contra h
  have := isProvisional_sum n
  rw [Code.isProvisional_of_isCut (by simpa using h)] at this
  exact nomatch this

theorem source?_b_one : (routine height shortcut).wiring.source? (tally 1) "b" = none := by
  unfold Wiring.source?
  rw [lookup_eq_none_iff, data_eq]
  cases shortcut <;> simp [tally_inj]

def reading (height : Nat) (shortcut : Bool) (resolver : Resolver) (n : Nat) (socket : String) : Build Code :=
  ((routine height shortcut).wiring.source? (tally n) socket).elim (pure (.raw "0")) resolver

theorem resolveOutput_rung (resolver : Resolver) (h : n < height + 1)
    : resolveOutput (routine height shortcut) resolver (rung (n + 1)) = do
        let a ← reading height shortcut resolver (n + 1) "a"
        let b ← reading height shortcut resolver (n + 1) "b"
        return .binary "+" a b := by
  have hoperand : ∀ socket, operand (routine height shortcut) resolver (node height (n + 1)) socket "0"
      = reading height shortcut resolver (n + 1) socket := by
    intro socket
    have hid : (node height (n + 1)).id = tally (n + 1) := rfl
    unfold operand reading
    rw [hid]
    cases (routine height shortcut).wiring.source? (tally (n + 1)) socket <;> rfl
  unfold resolveOutput
  rw [rung, node?_tally (by omega)]
  unfold resolveNode
  dsimp only
  rw [kindOf_node h]
  dsimp only [NodeKind.operator?]
  rw [hoperand, hoperand]

def Remembers (height : Nat) (s : State) : Prop :=
  ∀ entry ∈ s.memo, ∀ n < height, entry.1 = rung (n + 1) → entry.2 = sum n

def Finds (height : Nat) (x : Build Code) (s : State) (code : Code) : Prop :=
  (x.run s).1 = code ∧ Remembers height (x.run s).2

theorem finds_resolve (hs : Remembers height s) (hn : n < height) (hnew : rung (n + 1) ∉ passed)
    (h : Finds height (resolveOutput (routine height shortcut)
      (resolve (routine height shortcut) room (rung (n + 1) :: passed)) (rung (n + 1))) s (sum n))
    : Finds height (resolve (routine height shortcut) (room + 1) passed (rung (n + 1))) s (sum n) := by
  unfold resolve Finds
  rw [run_get]
  split
  · next code hcode => exact ⟨hs _ (mem_of_lookup_eq_some hcode) n hn rfl, hs⟩
  · rw [if_neg (by simpa using hnew)]
    dsimp only
    rw [run_bind, run_bind, run_pure, h.1]
    refine ⟨rfl, ?_⟩
    unfold remember
    rw [if_neg (by rw [isProvisional_sum]; exact Bool.false_ne_true)]
    refine forall_mem_cons.mpr ⟨?_, h.2⟩
    intro m _ heq
    rw [Nat.succ.inj (rung_inj.mp heq)]

theorem finds_resolve_succ (hs : Remembers height s) (hn : n + 1 < height) (hnew : rung (n + 2) ∉ passed)
    (h : Finds height (resolve (routine height shortcut) room (rung (n + 2) :: passed) (rung (n + 1))) s (sum n))
    : Finds height (resolve (routine height shortcut) (room + 1) passed (rung (n + 2))) s (sum (n + 1)) := by
  apply finds_resolve hs hn hnew
  rw [resolveOutput_rung _ (by omega)]
  unfold reading
  rw [source?_a (.inl (by omega)), source?_b (by omega)]
  exact ⟨congrArg (Code.binary "+" (.raw "0")) h.1, h.2⟩

theorem finds_rung (hs : Remembers height s) (hn : n < height) (hroom : n < room)
    (hnew : ∀ m ≤ n, rung (m + 1) ∉ passed)
    : Finds height (resolve (routine height shortcut) room passed (rung (n + 1))) s (sum n) := by
  induction n generalizing room passed with
  | zero =>
    obtain ⟨room, rfl⟩ : ∃ r, room = r + 1 := ⟨room - 1, by omega⟩
    apply finds_resolve hs hn (hnew 0 (Nat.le_refl 0))
    rw [resolveOutput_rung _ (by omega)]
    unfold reading
    rw [source?_a (.inl (by omega)), source?_b_one]
    exact ⟨rfl, hs⟩
  | succ n ih =>
    obtain ⟨room, rfl⟩ : ∃ r, room = r + 1 := ⟨room - 1, by omega⟩
    apply finds_resolve_succ hs hn (hnew (n + 1) (Nat.le_refl _))
    apply ih (by omega) (by omega)
    intro m hm hmem
    obtain heq | hmem := mem_cons.mp hmem
    · have := rung_inj.mp heq
      omega
    · exact hnew m (by omega) hmem

theorem run_resolve_shortcut (hs : s.memo = [])
    : ((resolve (routine (height + 2) true) (height + 2) [] (rung (height + 3))).run s).1 =
      .binary "+" (sum height) (sum (height + 1)) := by
  have hempty : Remembers (height + 2) s := by
    rw [Remembers, hs]
    exact nofun
  have hnew : ∀ m ≤ height + 1, rung (m + 1) ∉ [rung (height + 3)] := by
    intro m hm hmem
    have := rung_inj.mp (mem_singleton.mp hmem)
    omega
  have hshortcut : Finds (height + 2) (resolve (routine (height + 2) true) (height + 1)
      [rung (height + 3)] (rung (height + 1))) s (sum height) :=
    finds_rung hempty (by omega) (Nat.lt_succ_self height) fun m hm => hnew m (by omega)
  have hremembered := lookup_resolve (height + 1) [rung (height + 3)] (rung (height + 1)) s
    (by rw [hshortcut.1]; exact isProvisional_sum height)
  have hsource : (routine (height + 2) true).wiring.source? (tally (height + 3)) "a"
      = some (rung (height + 1)) := by
    apply source?_eq_some
    rw [data_eq]
    exact mem_cons_self ..
  rw [resolve, run_get, hs]
  dsimp only [lookup_nil]
  rw [if_neg (by simp), run_bind, run_bind, run_pure, resolveOutput_rung _ (by omega)]
  unfold reading
  rw [hsource, source?_b (by omega)]
  dsimp only [Option.elim_some]
  rw [run_bind, run_bind, run_pure]
  obtain ⟨hleft, hkept⟩ := hshortcut
  generalize (resolve (routine (height + 2) true) (height + 1) [rung (height + 3)]
    (rung (height + 1))).run s = found at *
  -- The other operand comes to the same rung with too little room, and finds it remembered.
  have hright : Finds (height + 2) (resolve (routine (height + 2) true) (height + 1)
      [rung (height + 3)] (rung (height + 2))) found.2 (sum (height + 1)) := by
    apply finds_resolve_succ hkept (by omega) (hnew (height + 1) (Nat.le_refl _))
    unfold Finds resolve
    rw [run_get, hremembered]
    exact ⟨hleft, hkept⟩
  rw [hleft, hright.1]

theorem isCut_shortcut (h : 2 ≤ height) (hs : s.memo = [])
    : ((resolve (routine height true) height [] (rung (height + 1))).run s).1.isCut = false := by
  obtain ⟨height, rfl⟩ : ∃ h, height = h + 2 := ⟨height - 2, by omega⟩
  rw [run_resolve_shortcut hs, Code.isCut, isCut_sum, isCut_sum]
  rfl

end Ladder

end NodeScript.Compile
