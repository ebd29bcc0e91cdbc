import NodeScript.Proofs.Tours
import NodeScript.Proofs.Trees
import NodeScript.Script.Eval

/-!
Graphs as they run, without a program: all variables are in one store, values are found along data
edges when a node needs them, and control follows the sockets of the nodes until it meets a node that it
has passed.
-/

namespace NodeScript.Compile

open Script

abbrev Store := List (String × Value)

namespace Store

def read (store : Store) (name : String) : Except RuntimeError Value :=
  match store.lookup name with
  | some value => .ok value
  | none => .error (.undefinedName name)

def word (store : Store) (name : String) : Except RuntimeError Value :=
  match store.lookup name with
  | some value => .ok value
  | none =>
    match name with
    | "NaN" => .ok (.number (0.0 / 0.0))
    | "Infinity" => .ok (.number (1.0 / 0.0))
    | _ => .error (.undefinedName name)

def typed (store : Store) (text : String) : Except RuntimeError Value :=
  match atomTree? text with
  | some (.number x) => .ok (.number x)
  | some (.str s) => .ok (.str s)
  | some (.bool b) => .ok (.bool b)
  | some .null => .ok .null
  | some (.identifier name) => store.word name
  | _ => .ok .undefined

end Store

def operation? : NodeKind → Option BinaryOp
  | .add => some .add
  | .subtract => some .subtract
  | .multiply => some .multiply
  | .divide => some .divide
  | .modulo => some .modulo
  | .greater => some .greater
  | .less => some .less
  | .equal => some .strictEqual
  | .greaterEq => some .greaterEqual
  | .lessEq => some .lessEqual
  | .notEqual => some .strictNotEqual
  | _ => none

namespace Routine

variable (r : Routine) (store : Store)

def inputValue (valueOf : Endpoint → Except RuntimeError Value) (node : Node) (socket fallback : String)
    : Except RuntimeError Value :=
  match r.wiring.source? node.id socket with
  | some source => valueOf source
  | none => store.typed ((node.data.inline? socket).getD fallback)

def textValue (valueOf : Endpoint → Except RuntimeError Value) (node : Node) (socket : String)
    : Except RuntimeError Value :=
  match r.wiring.source? node.id socket with
  | some source => valueOf source
  | none => .ok (.str ((node.data.inline? socket).getD ""))

def nodeValue (valueOf : Endpoint → Except RuntimeError Value) (node : Node) (socket : String)
    : Except RuntimeError Value :=
  match operation? (r.kindOf node) with
  | some op => do
    let a ← r.inputValue store valueOf node "a" "0"
    let b ← r.inputValue store valueOf node "b" "0"
    return op.apply a b
  | none =>
    match r.kindOf node, socket with
    | .get, _ => store.read (variableOf node "_var")
    | .concat, _ => do
      let a ← r.textValue valueOf node "a"
      let b ← r.textValue valueOf node "b"
      return BinaryOp.add.apply a b
    | .not, _ => do
      let value ← r.inputValue store valueOf node "value" "false"
      return UnaryOp.not.apply value
    | .set, "out-value" => store.read (variableOf node "_var")
    | .input, "out-value" => store.read (variableOf node "_input")
    | .arrayLength, _ => do
      let array ← store.read (variableOf node "_arr")
      array.readProperty "length"
    | .arrayGet, _ => do
      let array ← store.read (variableOf node "_arr")
      let index ← r.inputValue store valueOf node "index" "0"
      array.readElement index
    | _, _ => store.typed "0"

def valueOf : (room : Nat) → Endpoint → Except RuntimeError Value
  | 0, _ => .ok .undefined
  | room + 1, out =>
    match r.wiring.node? out.node with
    | some node => r.nodeValue store (valueOf room) node out.socket
    | none => store.typed "0"

end Routine

def Run (α : Type) : Type :=
  Store → Dialog (Except RuntimeError (α × Store))

namespace Run

variable {α β : Type}

instance : Monad Run where
  pure a := fun store => .done (.ok (a, store))
  bind x f := fun store => (x store).bind fun
    | .ok (a, store) => f a store
    | .error e => .done (.error e)

def exhausted : Run α :=
  fun _ => .exhausted

def find (f : Store → Except RuntimeError α) : Run α :=
  fun store => .done ((f store).map fun a => (a, store))

def write (name : String) (value : Value) : Run Unit :=
  fun store => .done (.ok ((), (name, value) :: store))

def ask (request : Request) : Run String :=
  fun store => .ask request fun
    | .answer text => .done (.ok (text, store))
    | .disconnected => .done (.error .disconnected)

end Run

inductive Ending where
  | finished
  | broke
  | continued
  deriving DecidableEq, Repr

def Run.loop (cond : Run Bool) (body : Run Ending) : (bound : Nat) → Run Unit
  | 0 => exhausted
  | bound + 1 => do
    if ← cond then
      match ← body with
      | .broke => return ()
      | .finished | .continued => loop cond body bound
    else
      return ()

namespace Routine

variable (r : Routine)

def input (node : Node) (socket fallback : String) : Run Value :=
  .find fun store =>
    r.inputValue store (r.valueOf store maxExpressionDepth) node socket fallback

def message (node : Node) : Run Value :=
  match r.wiring.source? node.id "prompt" with
  | some _ => r.input node "prompt" "\"\""
  | none => return .str (node.data.prompt.getD "")

def act (node : Node) : Run Unit :=
  match r.kindOf node with
  | .input => do
    let message ← r.message node
    let answer ← .ask (.prompt message.text)
    .write (variableOf node "_input") (.number (Builtin.parseFloat answer))
  | .output => do
    let value ← r.input node "value" "0"
    let _ ← Run.ask (.log value.text)
    return ()
  | .set => do
    let value ← r.input node "value" "0"
    .write (variableOf node "_var") value
  | .arrayCreate => .write (variableOf node "_arr") (.array [])
  | .arrayPush => do
    let name := variableOf node "_arr"
    let value ← r.input node "value" "0"
    let array ← .find (Store.read · name)
    let (updated, _) ← .find fun _ => Value.Method.push.call name array [value]
    .write name updated
  | .arraySet => do
    let name := variableOf node "_arr"
    let value ← r.input node "value" "0"
    let index ← r.input node "index" "0"
    let array ← .find (Store.read · name)
    let updated ← .find fun _ => array.updateElement index name fun _ => value
    .write name updated
  | _ => return ()

def holds (node : Node) : Run Bool := do
  let value ← r.input node "condition" "false"
  return value.isTruthy

def leave (follow : String → Run Ending) (node : Node) (socket : String) : Run Ending :=
  match r.wiring.next? node.id socket with
  | none => return .finished
  | some next => follow next

/-- Follows control from a node on, past nodes that have been passed. Every node that is passed is a new
one, so that the number of nodes bounds the number of steps; `bound` is how often loops may go round. -/
def follow (bound : Nat) : (steps : Nat) → List String → String → Run Ending
  | 0, _, _ => return .finished
  | steps + 1, passed, id =>
    if passed.contains id then
      return .finished
    else
      match r.wiring.node? id with
      | none => return .finished
      | some node =>
        let leave := r.leave (follow bound steps (id :: passed)) node
        match r.kindOf node with
        | .stop => return .finished
        | .breakLoop => return .broke
        | .continueLoop => return .continued
        | .branch => do
          if ← r.holds node then leave "true" else leave "false"
        | .whileLoop => do
          .loop (r.holds node) (leave "body") bound
          leave "done"
        | _ => do
          r.act node
          leave "exec-out"

end Routine

def Job.perform (job : Job) (bound : Nat) : Dialog (Except RuntimeError Unit) :=
  match job.mainRoutine.entry? .start with
  | none => .done (.ok ())
  | some entry =>
    (job.mainRoutine.follow bound (job.graph.nodes.length + 1) [] entry.id []).bind fun
      | .ok (.finished, _) => .done (.ok ())
      | .ok (.broke, _) => .done (.error .illegalBreak)
      | .ok (.continued, _) => .done (.error .illegalContinue)
      | .error e => .done (.error e)

namespace Tour

def Uncut : Tour → Prop
  | stop | last _ => True
  | cut _ => False
  | pass _ rest => rest.Uncut
  | branch _ onTrue onFalse => onTrue.Uncut ∧ onFalse.Uncut
  | loop _ body rest => body.Uncut ∧ rest.Uncut

def ending (r : Routine) (node : Node) : Ending :=
  match r.kindOf node with
  | .breakLoop => .broke
  | .continueLoop => .continued
  | _ => .finished

def run (r : Routine) (bound : Nat) : Tour → Run Ending
  | stop | cut _ => return .finished
  | pass node rest => do
    r.act node
    rest.run r bound
  | last node => return ending r node
  | branch node onTrue onFalse => do
    if ← r.holds node then onTrue.run r bound else onFalse.run r bound
  | loop node body rest => do
    .loop (r.holds node) (body.run r bound) bound
    rest.run r bound

end Tour

namespace Routine

variable {r : Routine}

/-- The kinds of nodes that neither count, draw lots, take from arrays nor have to do with functions. -/
def Structured (r : Routine) : Prop :=
  ∀ node ∈ r.wiring.nodes, r.kindOf node
    ∉ [.forLoop, .random, .arrayPop, .functionEntry, .functionReturn, .callFunction]

instance (r : Routine) : Decidable r.Structured :=
  inferInstanceAs (Decidable (∀ node ∈ r.wiring.nodes, r.kindOf node
    ∉ [.forLoop, .random, .arrayPop, .functionEntry, .functionReturn, .callFunction]))

theorem run_after {tour : String → Tour} {bound : Nat} {follow : String → Run Ending}
    (h : ∀ next, (tour next).Uncut → follow next = (tour next).run r bound) {node : Node}
    {socket : String} (huncut : (r.after tour node socket).Uncut)
    : r.leave follow node socket = (r.after tour node socket).run r bound := by
  unfold after at huncut ⊢
  unfold leave
  cases hnext : r.wiring.next? node.id socket with
  | none => rfl
  | some next =>
    rw [hnext] at huncut
    exact h next huncut

theorem run_arm {tour : String → Tour} {bound : Nat} {follow : String → Run Ending}
    (h : ∀ next, (tour next).Uncut → follow next = (tour next).run r bound) {depth : Nat}
    {node : Node} {socket : String} (huncut : (r.arm tour depth node socket).Uncut)
    : r.leave follow node socket = (r.arm tour depth node socket).run r bound := by
  unfold arm at huncut ⊢
  unfold leave
  cases hnext : r.wiring.next? node.id socket with
  | none => rfl
  | some next =>
    rw [hnext] at huncut
    dsimp only at huncut ⊢
    split at huncut
    · exact huncut.elim
    · next hdepth =>
      rw [if_neg hdepth]
      exact h next huncut

theorem follow_eq_run (hroutine : r.Structured) (bound : Nat) {steps depth : Nat}
    {passed : List String} {id : String} (huncut : (r.tour steps depth passed id).Uncut)
    : r.follow bound steps passed id = (r.tour steps depth passed id).run r bound := by
  induction steps generalizing depth passed id with
  | zero => rfl
  | succ steps ih =>
    rw [follow, tour]
    rw [tour] at huncut
    split
    · rfl
    · next hpassed =>
      rw [if_neg hpassed] at huncut
      cases hnode : r.wiring.node? id with
      | none => rfl
      | some node =>
        rw [hnode] at huncut
        have hkind := hroutine node (Wiring.mem_of_node?_eq_some hnode)
        have hih : ∀ {depth} next, (r.tour steps depth (id :: passed) next).Uncut
            → r.follow bound steps (id :: passed) next
              = (r.tour steps depth (id :: passed) next).run r bound :=
          fun next huncut => ih huncut
        have hending : (Tour.last node).run r bound = return Tour.ending r node := rfl
        cases hshape : r.kindOf node with
        | stop | breakLoop | continueLoop => simp [Shape.ofKind, hending, Tour.ending, hshape]
        | branch =>
          simp only [hshape, Shape.ofKind] at huncut ⊢
          rw [run_arm hih huncut.1, run_arm hih huncut.2]
          rfl
        | whileLoop =>
          simp only [hshape, Shape.ofKind] at huncut ⊢
          rw [run_arm hih huncut.1, run_after hih huncut.2]
          rfl
        | forLoop | random | arrayPop | functionEntry | functionReturn | callFunction =>
          simp [hshape] at hkind
        | _ =>
          simp only [hshape, Shape.ofKind] at huncut ⊢
          rw [run_after hih huncut]
          rfl

end Routine

end NodeScript.Compile
