import Mathlib.Data.Set.Card
import NodeScript.Compile
import NodeScript.Proofs.Wiring

/-!
The tour of a routine comes to a node once for every control path to it that passes no node twice
and goes into no more arms than may be nested. Arms beyond that leave a diagnostic and a comment.
-/

namespace NodeScript.Compile

open List

variable {depth : Nat}

def Shape.sockets : Shape → List String
  | pass => ["exec-out"]
  | last => []
  | branch => ["true", "false"]
  | loop => ["body", "done"]

def armSockets : List String := ["true", "false", "body"]

variable {socket id target : String} {node : Node} {l : List (List Endpoint × Station)} {station : Station}
  {steps : Nat} {passed : List String}

namespace Routine

def sockets (r : Routine) (id : String) : List String :=
  (r.wiring.node? id).elim [] fun node => (Shape.ofKind (r.kindOf node)).sockets

theorem isSome_node?_of_mem_sockets {r : Routine} (h : socket ∈ r.sockets id) : (r.wiring.node? id).isSome := by
  unfold sockets at h
  cases hnode : r.wiring.node? id with
  | none => simp [hnode] at h
  | some => rfl

/-- A control path, given by the outputs that it leaves by. -/
inductive Leads (r : Routine) (edges : List Edge) : String → List Endpoint → String → Prop where
  | nil (id : String) : Leads r edges id [] id
  | cons {id socket next target : String} {path : List Endpoint}
      (hsocket : socket ∈ r.sockets id) (hnext : controlTarget edges id socket = some next)
      (hpath : Leads r edges next path target)
      : Leads r edges id (⟨id, socket⟩ :: path) target

end Routine

def arms (path : List Endpoint) : Nat :=
  path.countP fun out => out.socket ∈ armSockets

def passes (path : List Endpoint) (target : String) : List String :=
  path.map Endpoint.node ++ [target]

def Routine.simplePaths (r : Routine) (edges : List Edge) (room : Nat) (source target : String) : Set (List Endpoint) :=
  { path | r.Leads edges source path target ∧ (passes path target).Nodup ∧ arms path ≤ room }

/-- What a tour comes to: a node, or an arm of a node that is left out. -/
inductive Station where
  | node (id : String)
  | cut (id : String)
  deriving DecidableEq, Repr

namespace Tour

def stations : Tour → List Station
  | stop => []
  | cut node => [.cut node.id]
  | pass node rest => .node node.id :: rest.stations
  | last node => [.node node.id]
  | branch node onTrue onFalse => .node node.id :: (onTrue.stations ++ onFalse.stations)
  | loop node body rest => .node node.id :: (body.stations ++ rest.stations)

def visits (tour : Tour) (id : String) : Nat :=
  tour.stations.count (.node id)

def cuts (tour : Tour) (id : String) : Nat :=
  tour.stations.count (.cut id)

def paths : Tour → List (List Endpoint × Station)
  | stop => []
  | cut node => [([], .cut node.id)]
  | pass node rest => ([], .node node.id) :: via node "exec-out" rest.paths
  | last node => [([], .node node.id)]
  | branch node onTrue onFalse =>
    ([], .node node.id) :: (via node "true" onTrue.paths ++ via node "false" onFalse.paths)
  | loop node body rest =>
    ([], .node node.id) :: (via node "body" body.paths ++ via node "done" rest.paths)
where
  via (node : Node) (socket : String) : List (List Endpoint × Station) → List (List Endpoint × Station) :=
    List.map fun (path, station) => (⟨node.id, socket⟩ :: path, station)

theorem paths.map_snd_via (node : Node) (socket : String) (l : List (List Endpoint × Station))
    : (via node socket l).map Prod.snd = l.map Prod.snd := by
  unfold via
  rw [map_map]
  rfl

theorem map_snd_paths (tour : Tour) : tour.paths.map Prod.snd = tour.stations := by
  induction tour with
  | stop | cut | last => rfl
  | pass node rest ih => simp [paths, stations, paths.map_snd_via, ih]
  | branch _ _ _ ih ih' | loop _ _ _ ih ih' => simp [paths, stations, paths.map_snd_via, ih, ih']

theorem paths.mem_via {path : List Endpoint} : (path, station) ∈ via node socket l ↔
      ∃ rest, path = ⟨node.id, socket⟩ :: rest ∧ (rest, station) ∈ l := by
  unfold via
  simp only [mem_map, Prod.mk.injEq, Prod.exists]
  constructor
  · rintro ⟨rest, _, hmem, rfl, rfl⟩
    exact ⟨rest, rfl, hmem⟩
  · rintro ⟨rest, rfl, hmem⟩
    exact ⟨rest, station, hmem, rfl, rfl⟩

end Tour

def depthAfter (depth : Nat) (socket : String) : Nat :=
  if socket ∈ armSockets then depth + 1 else depth

theorem depthAfter_add_arms (depth : Nat) (id socket : String) (path : List Endpoint)
    : depthAfter depth socket + arms path = depth + arms (⟨id, socket⟩ :: path) := by
  unfold depthAfter arms
  rw [countP_cons]
  by_cases h : socket ∈ armSockets
  · simp only [h, ↓reduceIte, decide_true]
    omega
  · simp [h]

namespace Routine

def goesOn (r : Routine) (steps depth : Nat) (passed : List String) (id socket next : String)
    (path : List Endpoint) (station : Station) : Prop :=
  if socket ∈ armSockets ∧ maxNesting < depthAfter depth socket then
    path = [] ∧ station = .cut id
  else
    (path, station) ∈ (r.tour steps (depthAfter depth socket) passed next).paths

variable {r : Routine} {path : List Endpoint}

theorem mem_via_after (h : socket ∉ armSockets) : (path, station) ∈ Tour.paths.via node socket
          (r.after (r.tour steps depth passed) node socket).paths
        ↔
      ∃ next rest, path = ⟨node.id, socket⟩ :: rest ∧ r.wiring.next? node.id socket = some next
        ∧ r.goesOn steps depth passed node.id socket next rest station := by
  unfold after goesOn depthAfter
  rw [Tour.paths.mem_via]
  cases r.wiring.next? node.id socket with
  | none => simp [Tour.paths]
  | some next => simp [h]

theorem mem_via_arm (h : socket ∈ armSockets) : (path, station) ∈ Tour.paths.via node socket
          (r.arm (r.tour steps (depth + 1) passed) (depth + 1) node socket).paths
        ↔
      ∃ next rest, path = ⟨node.id, socket⟩ :: rest ∧ r.wiring.next? node.id socket = some next
        ∧ r.goesOn steps depth passed node.id socket next rest station := by
  unfold arm goesOn depthAfter
  rw [Tour.paths.mem_via]
  cases r.wiring.next? node.id socket with
  | none => simp [Tour.paths]
  | some next =>
    by_cases hd : maxNesting < depth + 1
    · simp [h, hd, Tour.paths]
    · simp [h, hd]

theorem mem_paths_tour_succ : (path, station) ∈ (r.tour (steps + 1) depth passed id).paths ↔
      id ∉ passed ∧ (r.wiring.node? id).isSome ∧ ((path = [] ∧ station = .node id) ∨
          ∃ socket ∈ r.sockets id, ∃ next rest, path = ⟨id, socket⟩ :: rest
            ∧ r.wiring.next? id socket = some next
            ∧ r.goesOn steps depth (id :: passed) id socket next rest station) := by
  rw [tour]
  by_cases hpassed : id ∈ passed
  · simp [hpassed, Tour.paths]
  · simp only [contains_eq_mem, hpassed, decide_false, Bool.false_eq_true, ↓reduceIte, not_false_eq_true, true_and]
    unfold sockets
    cases hnode : r.wiring.node? id with
    | none => simp [Tour.paths]
    | some node =>
      have hid := Wiring.id_of_node?_eq_some hnode
      simp only [Option.isSome_some, Option.elim_some, true_and]
      -- Each shape has its own list of outputs; the two lemmas above speak about one of them.
      cases Shape.ofKind (r.kindOf node) with
      | pass =>
        simp only [Tour.paths, mem_cons, Prod.mk.injEq]
        rw [mem_via_after (by decide)]
        simp [Shape.sockets, hid]
      | last => simp [Tour.paths, Shape.sockets, hid]
      | branch =>
        simp only [Tour.paths, mem_cons, Prod.mk.injEq, mem_append]
        rw [mem_via_arm (by decide), mem_via_arm (by decide)]
        simp [Shape.sockets, hid]
      | loop =>
        simp only [Tour.paths, mem_cons, Prod.mk.injEq, mem_append]
        rw [mem_via_arm (by decide), mem_via_after (by decide)]
        simp [Shape.sockets, hid]

def Enough (r : Routine) (steps : Nat) (passed : List String) : Prop :=
  (r.wiring.nodes.filter fun node => node.id ∉ passed).length < steps

theorem enough_start (r : Routine) : r.Enough (r.wiring.nodes.length + 1) [] := by
  unfold Enough
  simp

theorem Enough.step (h : r.Enough (steps + 1) passed) (hpassed : id ∉ passed)
    (hnode : (r.wiring.node? id).isSome) : r.Enough steps (id :: passed) := by
  unfold Enough at h ⊢
  obtain ⟨node, hnode⟩ := Option.isSome_iff_exists.mp hnode
  have hid := Wiring.id_of_node?_eq_some hnode
  have hmem := Wiring.mem_of_node?_eq_some hnode
  -- The node itself is the one that the longer list filters out in addition.
  have hlt : (r.wiring.nodes.filter fun node => node.id ∉ id :: passed).length
      < (r.wiring.nodes.filter fun node => node.id ∉ passed).length := by
    have hfilter : (r.wiring.nodes.filter fun node => node.id ∉ id :: passed)
        = (r.wiring.nodes.filter fun node => node.id ∉ passed).filter fun node =>
          node.id ≠ id := by
      rw [filter_filter]
      congr 1
      funext node
      simp
    rw [hfilter]
    apply length_filter_lt_length_iff_exists.mpr
    refine ⟨node, ?_, ?_⟩
    · simp [hmem, hid, hpassed]
    · simp [hid]
  omega

theorem nodup_passes_cons {path : List Endpoint}
    : (passes (⟨id, socket⟩ :: path) target).Nodup ∧ (∀ n ∈ passes (⟨id, socket⟩ :: path) target, n ∉ passed) ↔
      id ∉ passed ∧ (passes path target).Nodup ∧ ∀ n ∈ passes path target, n ∉ id :: passed := by
  have hpasses : passes (⟨id, socket⟩ :: path) target = id :: passes path target := rfl
  rw [hpasses, nodup_cons, forall_mem_cons]
  simp only [mem_cons, not_or]
  grind

theorem arms_cons_le {path : List Endpoint} : arms (⟨id, socket⟩ :: path) ≤ maxNesting - depth ↔
      ¬ (socket ∈ armSockets ∧ maxNesting < depthAfter depth socket)
        ∧ arms path ≤ maxNesting - depthAfter depth socket := by
  have harms := depthAfter_add_arms depth id socket path
  unfold depthAfter at harms ⊢
  by_cases h : socket ∈ armSockets
  · simp only [h, ↓reduceIte, true_and] at harms ⊢
    omega
  · simp only [h, ↓reduceIte, false_and, not_false_eq_true, true_and] at harms ⊢
    omega

theorem mem_paths_tour_node {edges : List Edge}
    (hedges : ∀ id socket, r.wiring.next? id socket = controlTarget edges id socket)
    (htarget : (r.wiring.node? target).isSome)
    : ∀ (steps depth : Nat) (passed : List String) (id : String) (path : List Endpoint), r.Enough steps passed →
        ((path, .node target) ∈ (r.tour steps depth passed id).paths ↔
        r.Leads edges id path target ∧ (passes path target).Nodup
          ∧ (∀ n ∈ passes path target, n ∉ passed) ∧ arms path ≤ maxNesting - depth) := by
  intro steps
  induction steps with
  | zero =>
    intro depth passed id path henough
    unfold Enough at henough
    omega
  | succ steps ih =>
    intro depth passed id path henough
    rw [mem_paths_tour_succ]
    constructor
    · rintro ⟨hpassed, hnode, ⟨rfl, heq⟩ | ⟨socket, hsocket, next, rest, rfl, hnext, hrest⟩⟩
      · obtain rfl : target = id := by simpa using heq
        exact ⟨.nil _, by simp [passes], by simpa [passes] using hpassed, by simp [arms]⟩
      · unfold goesOn at hrest
        split at hrest
        · simp at hrest
        · next hroom =>
          obtain ⟨hleads, hnodup, hfresh, hrest⟩ := (ih _ _ _ _ (henough.step hpassed hnode)).mp hrest
          obtain ⟨hnodup, hfresh⟩ := nodup_passes_cons.mpr ⟨hpassed, hnodup, hfresh⟩
          exact ⟨.cons hsocket ((hedges _ _).symm.trans hnext) hleads, hnodup, hfresh, arms_cons_le.mpr ⟨hroom, hrest⟩⟩
    · rintro ⟨hleads, hnodup, hfresh, hroom⟩
      cases hleads with
      | nil =>
        refine ⟨?_, htarget, .inl ⟨rfl, rfl⟩⟩
        exact hfresh target (by simp [passes])
      | @cons _ socket next _ rest hsocket hnext hleads =>
        obtain ⟨hpassed, hnodup, hfresh⟩ := nodup_passes_cons.mp ⟨hnodup, hfresh⟩
        obtain ⟨hroom, hrest⟩ := arms_cons_le.mp hroom
        have hnode := isSome_node?_of_mem_sockets hsocket
        refine ⟨hpassed, hnode, .inr ⟨socket, hsocket, next, rest, rfl, (hedges _ _).trans hnext, ?_⟩⟩
        unfold goesOn
        rw [if_neg hroom]
        exact (ih _ _ _ _ (henough.step hpassed hnode)).mpr ⟨hleads, hnodup, hfresh, hrest⟩

end Routine

namespace Routine

variable {r : Routine} {edges : List Edge}
  (hedges : ∀ id socket, r.wiring.next? id socket = controlTarget edges id socket)

include hedges

theorem mem_paths_tourFrom (htarget : (r.wiring.node? target).isSome) (entry : Node) (depth : Nat) (path : List Endpoint)
    : (path, .node target) ∈ (r.tourFrom entry depth).paths ↔
      path ∈ r.simplePaths edges (maxNesting - depth) entry.id target := by
  unfold tourFrom simplePaths
  rw [mem_paths_tour_node hedges htarget _ _ _ _ _ r.enough_start]
  simp

end Routine

end NodeScript.Compile
