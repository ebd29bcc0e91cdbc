import NodeScript.Compile.Resolve

/-!
Where control goes from a node on.

A tour follows control edges and ends where it meets a node a second time. The arms of a branch and
the body of a loop are tours of their own, which know the nodes passed so far.
-/

namespace NodeScript.Compile

def maxNesting : Nat := 64

inductive Tour where
  | stop
  /-- An arm of the node was left out, because it is nested too deeply. -/
  | cut (node : Node)
  | pass (node : Node) (rest : Tour)
  | last (node : Node)
  | branch (node : Node) (onTrue onFalse : Tour)
  | loop (node : Node) (body rest : Tour)
  deriving Repr

inductive Shape where
  | pass | last | branch | loop
  deriving DecidableEq, Repr

def Shape.ofKind : NodeKind → Shape
  | .stop | .breakLoop | .continueLoop | .functionReturn => last
  | .branch => branch
  | .whileLoop | .forLoop => loop
  | _ => pass

namespace Routine

def after (routine : Routine) (tour : String → Tour) (node : Node) (socket : String) : Tour :=
  match routine.wiring.next? node.id socket with
  | none => .stop
  | some next => tour next

def arm (routine : Routine) (tour : String → Tour) (depth : Nat) (node : Node) (socket : String) :
    Tour :=
  match routine.wiring.next? node.id socket with
  | none => .stop
  | some next => if maxNesting < depth then .cut node else tour next

/-- The tour from a node on, inside so many statements, that has passed some nodes. Every node that
is passed is a new one, so that the number of nodes bounds the number of steps. -/
def tour (routine : Routine) : (steps : Nat) → Nat → List String → String → Tour
  | 0, _, _, _ => .stop
  | steps + 1, depth, passed, id =>
    if passed.contains id then
      .stop
    else
      match routine.wiring.node? id with
      | none => .stop
      | some node =>
        let after := routine.after (tour routine steps depth (id :: passed)) node
        let arm := routine.arm (tour routine steps (depth + 1) (id :: passed)) (depth + 1) node
        match Shape.ofKind (routine.kindOf node) with
        | .pass => .pass node (after "exec-out")
        | .last => .last node
        | .branch => .branch node (arm "true") (arm "false")
        | .loop => .loop node (arm "body") (after "done")

def tourFrom (routine : Routine) (entry : Node) (depth : Nat) : Tour :=
  routine.tour (routine.wiring.nodes.length + 1) depth [] entry.id

end Routine

end NodeScript.Compile
