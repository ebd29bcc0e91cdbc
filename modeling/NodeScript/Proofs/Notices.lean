import NodeScript.Proofs.Emission
import NodeScript.Proofs.Tours

/-!
Notices are the lines that tell the host which node is entered and which variable is written. They are
all that sets instrumented code apart: without them it is the code that is compiled without instrumentation.
-/

namespace NodeScript.Compile

open Build

def Line.isNotice : Line → Bool
  | enter _ | notify _ => true
  | _ => false

mutual

def Item.silence : Item → List Item
  | .line line => if line.isNotice then [] else [.line line]
  | .ifElse cond thenItems elseItems =>
    [.ifElse cond (silenceAll thenItems) (silenceAll elseItems)]
  | .whileLoop cond body => [.whileLoop cond (silenceAll body)]
  | .forLoop name start limit step body => [.forLoop name start limit step (silenceAll body)]

def silenceAll : List Item → List Item
  | [] => []
  | item :: rest => item.silence ++ silenceAll rest

end

@[simp]
theorem silenceAll_nil : silenceAll [] = [] := rfl

@[simp]
theorem silenceAll_append (items items' : List Item)
    : silenceAll (items ++ items') = silenceAll items ++ silenceAll items' := by
  induction items with
  | nil => rfl
  | cons item items ih => rw [List.cons_append, silenceAll, ih, silenceAll, List.append_assoc]

@[simp]
theorem silenceAll_enter (r : Routine) (node : Node) : silenceAll (enter r node) = [] := by
  unfold enter
  split <;> rfl

@[simp]
theorem silenceAll_notify (r : Routine) (name : String) : silenceAll (notify r name) = [] := by
  unfold notify
  split <;> rfl

def Routine.silent (r : Routine) : Routine :=
  { r with instrument := false }

namespace Build

variable (r : Routine)

theorem run_map {α β : Type} (f : α → β) (x : Build α) (s : State)
    : (f <$> x).run s = (f (x.run s).1, (x.run s).2) := rfl

@[simp]
theorem enter_silent (node : Node) : enter r.silent node = [] := rfl

@[simp]
theorem notify_silent (name : String) : notify r.silent name = [] := rfl

theorem resolve_silent (room : Nat) : resolve r.silent room = resolve r room := by
  have houtput : ∀ other out, resolveOutput r.silent other out = resolveOutput r other out :=
    fun _ _ => rfl
  induction room with
  | zero =>
    funext passed out
    unfold resolve
    rfl
  | succ room ih =>
    funext passed out
    unfold resolve
    simp only [ih, houtput]

@[simp]
theorem input_silent (node : Node) (socket fallback : String)
    : input r.silent node socket fallback = input r node socket fallback := by
  unfold input
  rw [resolve_silent]
  rfl

@[simp]
theorem inputs_silent (node : Node) (ports : List Port) : inputs r.silent node ports = inputs r node ports := by
  unfold inputs
  simp

@[simp]
theorem message_silent (node : Node) : message r.silent node = message r node := by
  unfold message
  simp
  rfl

theorem returnItems_silent (node : Node) : returnItems r.silent node = silenceAll <$> returnItems r node := by
  have hsig : r.silent.signature = r.signature := rfl
  unfold returnItems
  rw [hsig]
  split
  · rfl
  · simp only [inputs_silent, map_bind, map_pure]
    congr 1
    funext values
    rcases values with _ | ⟨value, _ | ⟨value', values⟩⟩ <;> simp [silenceAll, Item.silence, Line.isNotice]

theorem callItems_silent (node : Node) : callItems r.silent node = silenceAll <$> callItems r node := by
  have hfunctions : r.silent.functions = r.functions := rfl
  have htemporary : ∀ base, temporary r.silent base = temporary r base := fun _ => rfl
  unfold callItems
  rw [hfunctions]
  dsimp only
  split
  · simp [silenceAll, Item.silence, Line.isNotice]
  · simp only [inputs_silent, map_bind]
    congr 1
    funext arguments
    split <;> simp [silenceAll, Item.silence, Line.isNotice, htemporary]

theorem passItems_silent (node : Node) : passItems r.silent node = silenceAll <$> passItems r node := by
  have hkind : r.silent.kindOf node = r.kindOf node := rfl
  have htemporary : ∀ base, temporary r.silent base = temporary r base := fun _ => rfl
  unfold passItems
  rw [hkind]
  dsimp only
  split
  case h_8 => exact callItems_silent r node
  all_goals simp [silenceAll, Item.silence, Line.isNotice, htemporary]

theorem lastItems_silent (node : Node) : lastItems r.silent node = silenceAll <$> lastItems r node := by
  have hkind : r.silent.kindOf node = r.kindOf node := rfl
  unfold lastItems
  rw [hkind]
  dsimp only
  split
  case h_4 => exact returnItems_silent r node
  all_goals simp [silenceAll, Item.silence, Line.isNotice]

theorem loopHead_silent (node : Node) (s : State)
    : ((loopHead r.silent node).run s).2 = ((loopHead r node).run s).2
        ∧ ∀ body, (((loopHead r node).run s).1 body).silence
          = [((loopHead r.silent node).run s).1 (silenceAll body)] := by
  have hkind : r.silent.kindOf node = r.kindOf node := rfl
  unfold loopHead
  rw [hkind]
  dsimp only
  split <;> simp only [input_silent, run_bind, run_pure, enter_silent, notify_silent, Item.silence,
    silenceAll_append, silenceAll_enter, silenceAll_notify, List.nil_append, implies_true, and_self]

theorem walk_silent (tour : Tour) : walk r.silent tour = silenceAll <$> walk r tour := by
  induction tour with
  | stop => rfl
  | cut node => simp [walk, silenceAll, Item.silence, Line.isNotice]
  | pass node rest ih => simp [walk, passItems_silent, ih]
  | last node => simp [walk, lastItems_silent]
  | branch node onTrue onFalse ihTrue ihFalse =>
    simp [walk, ihTrue, ihFalse, silenceAll, Item.silence]
  | loop node body rest ihBody ihRest =>
    apply StateT.ext
    intro s
    obtain ⟨hstate, hhead⟩ := loopHead_silent r node s
    simp only [walk, ihBody, ihRest, run_bind, run_pure, run_map, hstate, enter_silent, silenceAll_append,
      silenceAll_enter, silenceAll, hhead, List.append_nil, List.nil_append]

end Build

theorem Routine.tour_silent (r : Routine) (steps depth : Nat) (passed : List String) (id : String)
    : r.silent.tour steps depth passed id = r.tour steps depth passed id := by
  have hkind : ∀ node, r.silent.kindOf node = r.kindOf node := fun _ => rfl
  induction steps generalizing depth passed id with
  | zero => rfl
  | succ steps ih =>
    rw [tour, tour]
    simp only [after, arm, ih, hkind]
    rfl

theorem Routine.compileFrom_silent (r : Routine) (entry : Node) (depth : Nat)
    : r.silent.compileFrom entry depth =
      (silenceAll (r.compileFrom entry depth).1, (r.compileFrom entry depth).2) := by
  have htour : r.silent.tourFrom entry depth = r.tourFrom entry depth :=
    r.tour_silent _ _ _ _
  unfold compileFrom
  rw [htour, walk_silent]
  rfl

def Outset.silent (outset : Outset) : Outset :=
  { outset with routine := outset.routine.silent }

theorem Outset.compiled_silent (outset : Outset)
    : outset.silent.compiled = (silenceAll outset.compiled.1, outset.compiled.2) :=
  outset.routine.compileFrom_silent outset.entry outset.depth

namespace Job

def silent (job : Job) : Job :=
  { job with options := ⟨false⟩ }

variable (job : Job)

theorem mainOutset?_silent : job.silent.mainOutset? = job.mainOutset?.map Outset.silent := by
  unfold mainOutset?
  rw [Option.map_map]
  rfl

theorem functionOutset?_silent (sig : Signature)
    : job.silent.functionOutset? sig = (job.functionOutset? sig).map Outset.silent := by
  unfold functionOutset?
  dsimp only
  rw [Option.map_map]
  rfl

theorem outsets_silent : job.silent.outsets = job.outsets.map Outset.silent := by
  unfold outsets
  rw [mainOutset?_silent, List.map_append, List.map_filterMap, Option.toList_map]
  simp only [functionOutset?_silent]
  rfl

theorem compileMain?_silent : job.silent.compileMain? (.ofGraph job.graph) =
      (job.compileMain? (.ofGraph job.graph)).map fun main => (silenceAll main.1, main.2) := by
  have hmain := job.silent.compileMain?_eq
  rw [mainOutset?_silent] at hmain
  rw [compileMain?_eq, Option.map_map]
  refine hmain.trans ?_
  rw [Option.map_map]
  congr 1
  funext outset
  exact outset.compiled_silent

theorem compileFunction_silent (sig : Signature) : job.silent.compileFunction (.ofGraph job.graph) sig =
      (silenceAll (job.compileFunction (.ofGraph job.graph) sig).1,
        (job.compileFunction (.ofGraph job.graph) sig).2) := by
  have hroutine : ∀ functions nodes edges sig, job.silent.routine functions nodes edges sig
      = (job.routine functions nodes edges sig).silent := fun _ _ _ _ => rfl
  have hentry : ∀ (r : Routine) kind, r.silent.entry? kind = r.entry? kind :=
    fun _ _ => rfl
  unfold compileFunction
  simp only [hroutine, hentry]
  split
  · exact Routine.compileFrom_silent _ _ _
  · rfl

theorem diagnostics_compile_silent : job.silent.compile.diagnostics = job.compile.diagnostics := by
  have hgraph : job.silent.graph = job.graph := rfl
  unfold compile
  dsimp only
  rw [hgraph, compileMain?_silent]
  cases job.compileMain? (.ofGraph job.graph) with
  | none => rfl
  | some main => simp [List.flatMap_map, compileFunction_silent]

end Job

end NodeScript.Compile
