import NodeScript.Proofs.Descent
import NodeScript.Proofs.Locality

/-!
The limits on graphs leave room below the limit on levels. However many nodes of a graph are chained and however many
of its blocks stand inside each other, its program does not run out of levels, as long as none of its functions is
called.
-/

namespace NodeScript.Compile

open List Script

def expressionRoom : Nat := 5 * maxExpressionDepth + 2

def statementRoom : Nat := expressionRoom + 4

def programRoom : Nat := maxNesting + 1 + statementRoom

variable {hooks : List String}

theorem shallow_rawTree (text : String) (room : Nat) : (rawTree text).Shallow hooks (room + 1) := by
  obtain htree | htree := rawTree_eq_or_isAtomic text
  · rw [htree]
    exact .array nofun
  · generalize rawTree text = tree at htree ⊢
    cases htree <;> constructor

theorem Code.shallow_tree (code : Code) {room : Nat} (h : 5 * code.height ≤ 3 * room)
    : code.tree.Shallow hooks (room + 2) := by
  induction code generalizing room with
  | ident name => exact .identifier name
  | member record field => exact .member (.identifier record)
  | raw text => exact shallow_rawTree text _
  | quoted text => exact .str text
  | binary operator left right ihLeft ihRight =>
    rw [height] at h
    obtain ⟨room, rfl⟩ := Nat.exists_eq_add_of_le' (show 1 ≤ room by omega)
    exact .binary (ihLeft (by omega)) (ihRight (by omega))
  | random least greatest ihLeast ihGreatest =>
    rw [height] at h
    obtain ⟨room, rfl⟩ := Nat.exists_eq_add_of_le' (show 5 ≤ room by omega)
    have hspan : Expr.Shallow hooks (room + 4)
        (.binary .add (.binary .subtract greatest.tree least.tree) (rawTree "1")) :=
      .binary (.binary (ihGreatest (by omega)) (ihLeast (by omega))) (shallow_rawTree "1" _)
    have hfraction : Expr.Shallow hooks (room + 4) (.call (.member (.identifier "Math") "random") []) :=
      .callMember (.identifier "Math") (forall_mem_nil _)
    refine .binary (.callMember (.identifier "Math") ?_) (ihLeast (show 5 * least.height ≤ 3 * (room + 4) by omega))
    exact forall_mem_singleton.mpr (.binary hfraction hspan)
  | not operand ih =>
    rw [height] at h
    obtain ⟨room, rfl⟩ := Nat.exists_eq_add_of_le' (show 1 ≤ room by omega)
    exact .unary (ih (by omega))
  | length array => exact .member (.identifier array)
  | element array index ih =>
    rw [height] at h
    obtain ⟨room, rfl⟩ := Nat.exists_eq_add_of_le' (show 1 ≤ room by omega)
    exact .index (.identifier array) (ih (by omega))
  | undefined | circular | tooDeep => exact .undefined

theorem Code.Within.shallow {code : Code} (h : code.Within maxHeight) (room : Nat)
    : code.tree.Shallow hooks (room + expressionRoom) := by
  have hheight : 5 * code.height ≤ 3 * (room + 5 * maxExpressionDepth) := by
    have := h.2
    unfold maxHeight at this
    omega
  exact code.shallow_tree hheight

def Line.calls : Line → List String
  | enter _ => ["__onNode"]
  | notify _ => ["__onVar"]
  | ask _ _ _ => ["prompt", "parseFloat"]
  | call _ function _ => [function]
  | _ => []

theorem shallow_bindTree {value : Expr} {room : Nat} (h : value.Shallow hooks room) (fresh : Bool) (name : String)
    : (bindTree fresh name value).Shallow hooks (room + 1) := by
  cases fresh with
  | true =>
    apply Stmt.Shallow.declare
    rintro _ ⟨⟩
    exact h
  | false => exact .assign h

theorem Line.shallow_tree {line : Line} (hcodes : ∀ code ∈ line.codes, code.Within maxHeight)
    (hcalls : ∀ name ∈ line.calls, name ∈ hooks) (room : Nat) {stmt : Stmt} (hstmt : line.tree? = some stmt)
    : stmt.Shallow hooks (room + statementRoom) := by
  cases line with
  | enter node =>
    cases hstmt
    have hhook := hcalls "__onNode" (mem_singleton_self _)
    exact .expr (.await (.call hhook (forall_mem_singleton.mpr (.str node))))
  | notify name =>
    cases hstmt
    have hhook := hcalls "__onVar" (mem_singleton_self _)
    refine .expr (.call hhook (forall_mem_cons.mpr ⟨.str name, ?_⟩))
    exact forall_mem_singleton.mpr (.identifier name)
  | assign fresh name value =>
    cases hstmt
    apply shallow_bindTree
    exact (hcodes value (mem_singleton_self _)).shallow (room + 3)
  | ask fresh name message =>
    cases hstmt
    obtain ⟨hprompt, hparse⟩ := forall_mem_cons.mp hcalls
    have hmessage : message.tree.Shallow hooks (room + expressionRoom) :=
      (hcodes message (mem_singleton_self _)).shallow room
    apply shallow_bindTree
    refine .call (forall_mem_singleton.mp hparse) (forall_mem_singleton.mpr ?_)
    exact .await (.call hprompt (forall_mem_singleton.mpr hmessage))
  | print value | push array value =>
    cases hstmt
    have hvalue : value.tree.Shallow hooks (room + 2 + expressionRoom) :=
      (hcodes value (mem_singleton_self _)).shallow (room + 2)
    exact .expr (.callMember (.identifier _) (forall_mem_singleton.mpr hvalue))
  | breakLoop =>
    cases hstmt
    exact .breakLoop
  | continueLoop =>
    cases hstmt
    exact .continueLoop
  | pop temporary array =>
    cases hstmt
    apply Stmt.Shallow.declare
    rintro _ ⟨⟩
    exact .callMember (.identifier _) nofun
  | store array index value =>
    cases hstmt
    obtain ⟨hindex, hvalue⟩ := forall_mem_cons.mp hcodes
    exact .store (hindex.shallow (room + 3)) ((forall_mem_singleton.mp hvalue).shallow (room + 3))
  | returnNothing =>
    cases hstmt
    apply Stmt.Shallow.returnValue
    rintro _ ⟨⟩
  | returnValue value =>
    cases hstmt
    apply Stmt.Shallow.returnValue
    rintro _ ⟨⟩
    exact (hcodes value (mem_singleton_self _)).shallow (room + 3)
  | returnRecord fields =>
    cases hstmt
    apply Stmt.Shallow.returnValue
    rintro _ ⟨⟩
    apply Expr.Shallow.object
    rw [forall_mem_map]
    exact fun field hfield => (hcodes field.2 (mem_map_of_mem hfield)).shallow (room + 2)
  | call temporary function arguments =>
    cases hstmt
    have hhook := hcalls function (mem_singleton_self _)
    have hresult : Expr.Shallow hooks (room + expressionRoom + 3)
        (.await (.call (.identifier function) (arguments.map Code.tree))) := by
      refine .await (.call hhook ?_)
      rw [forall_mem_map]
      exact fun argument hargument => (hcodes argument hargument).shallow (room + 1)
    cases temporary with
    | none => exact .expr hresult
    | some name =>
      apply Stmt.Shallow.declare
      rintro _ ⟨⟩
      exact hresult
  | unknownFunction | nestingTooDeep => cases hstmt

mutual

theorem Item.shallow_trees : {item : Item} → {room : Nat} → item.Fits (Code.Within maxHeight) room
    → item.Every (fun line => ∀ name ∈ line.calls, name ∈ hooks)
      → ∀ stmt ∈ item.trees, stmt.Shallow hooks (room + statementRoom)
  | .line line, 0, hfits, hcalls, stmt, hstmt => line.shallow_tree hfits.codes hcalls 0 (Option.mem_toList.mp hstmt)
  | .line line, room + 1, hfits, hcalls, stmt, hstmt =>
    line.shallow_tree hfits.codes hcalls (room + 1) (Option.mem_toList.mp hstmt)
  | .ifElse cond thenItems elseItems, room + 1, ⟨hcond, hthen, helse⟩, ⟨hcalls, hcalls'⟩, _, hstmt => by
    cases mem_singleton.mp hstmt
    rw [Nat.add_right_comm]
    apply Stmt.Shallow.ifElse (hcond.shallow (room + 4)) (shallow_treesOf hthen hcalls)
    rintro _ ⟨⟩
    exact shallow_treesOf helse hcalls'
  | .whileLoop cond body, room + 1, ⟨hcond, hbody⟩, hcalls, _, hstmt => by
    cases mem_singleton.mp hstmt
    rw [Nat.add_right_comm]
    exact .whileLoop (hcond.shallow (room + 4)) (shallow_treesOf hbody hcalls)
  | .forLoop name start limit step body, room + 1, ⟨_, hstart, hlimit, hstep, hbody⟩, hcalls, _, hstmt => by
    cases mem_singleton.mp hstmt
    rw [Nat.add_right_comm]
    refine .forLoop ?_ ?_ ?_ (shallow_treesOf hbody hcalls)
    · rintro _ ⟨⟩
      exact shallow_bindTree (hstart.shallow (room + 3)) true name
    · rintro _ ⟨⟩
      exact .binary (.identifier name) (hlimit.shallow (room + 3))
    · rintro _ ⟨⟩
      exact .assign (hstep.shallow (room + 3))

theorem shallow_treesOf : {items : List Item} → {room : Nat} → FitsAll (Code.Within maxHeight) room items
    → EveryIn (fun line => ∀ name ∈ line.calls, name ∈ hooks) items
      → ∀ stmt ∈ treesOf items, stmt.Shallow hooks (room + statementRoom)
  | [], _, _, _ => nofun
  | _ :: _, _, ⟨hitem, hrest⟩, ⟨hcalls, hrestCalls⟩ =>
    forall_mem_append.mpr ⟨Item.shallow_trees hitem hcalls, shallow_treesOf hrest hrestCalls⟩

end

theorem Line.calls_of_isOf {r : Routine} {kind : NodeKind} (hkind : kind ≠ .callFunction) (line : Line)
    (h : line.IsOf kind) : ∀ name ∈ line.calls, name ∈ r.hooks := by
  cases line with
  | enter | notify => exact h.elim
  | ask => exact fun name hname => mem_append_left _ hname
  | call => exact absurd h hkind
  | _ => nofun

theorem Emits.calls {r : Routine} {marks : Prop} {tour : Tour} {bindings bindings' : Bindings}
    {items : List Item} (h : Emits r marks tour bindings items bindings')
    (hkinds : ∀ node ∈ tour.nodes, r.kindOf node ≠ .callFunction)
    : EveryIn (fun line => ∀ name ∈ line.calls, name ∈ r.hooks) items := by
  refine h.everyIn ?_ (fun node hnode => Line.calls_of_isOf (hkinds node hnode)) nofun
  intro hinstrument
  simp [Line.calls, Routine.hooks, hinstrument]

namespace Job

open List

section Programs

variable {job : Job} (hlegible : ∀ outset ∈ job.outsets, outset.Legible)
  (hcalls : ∀ node ∈ job.graph.nodes, job.mainRoutine.kindOf node ≠ .callFunction)
  (hnames : job.options.instrument
    → ∀ sig ∈ (Signatures.ofGraph job.graph).list, sig.name ∉ ["__onNode", "__onVar"])
include hlegible hcalls

theorem shallow_main {main : List Item × List Diagnostic} (hmain : job.compileMain? (.ofGraph job.graph) = some main)
    : ∀ stmt ∈ treesOf main.1, stmt.Shallow job.mainRoutine.hooks programRoom := by
  rw [compileMain?_eq] at hmain
  obtain ⟨outset, houtset, rfl⟩ := Option.map_eq_some_iff.mp hmain
  have hfits := readable_of_legible hlegible outset (mem_append_left _ (Option.mem_toList.mpr houtset))
  obtain ⟨entry, -, rfl⟩ := Option.map_eq_some_iff.mp houtset
  obtain ⟨bindings, hemits⟩ := job.mainRoutine.emits_compileFrom entry 0
  have hfollows := job.mainRoutine.follows_tourFrom entry (Nat.zero_le _)
  apply shallow_treesOf hfits
  apply hemits.calls
  intro node hnode
  have hmem := hfollows.mem_nodes node hnode
  rw [mainRoutine, routine, Wiring.ofEdges_nodes] at hmem
  exact hcalls node hmem

include hnames

theorem shallow_program : ∀ stmt ∈ job.program.body, stmt.Shallow job.mainRoutine.hooks programRoom := by
  cases hmain : job.compileMain? (.ofGraph job.graph) with
  | none =>
    unfold program
    dsimp only
    rw [hmain]
    nofun
  | some main =>
    rw [body_program hmain, forall_mem_append]
    refine ⟨?_, shallow_main hlegible hcalls hmain⟩
    rw [forall_mem_map]
    intro function hfunction
    obtain ⟨sig, hsig, rfl⟩ := mem_map.mp hfunction
    exact .function (name_not_mem_hooks hnames rfl hsig)

theorem clears_code (bound : Nat)
    : Exec.Clears job.mainRoutine.hooks programRoom (Exec.runSource bound job.compile.code) := by
  unfold Exec.runSource
  rw [parse_of_readable (readable_of_legible hlegible)]
  exact Exec.clears_run (shallow_program hlegible hcalls hnames) bound

end Programs

/-- A program whose graph calls no functions does not run out of levels, unless a function of the graph has one of the
names that notices call. The longest chains and the deepest blocks that the compiler admits take fewer levels than the
machine has, whatever the host replies and however often loops go round. -/
theorem never_overflows [Generator] (job : Job) (hlegible : ∀ outset ∈ job.outsets, outset.Legible)
    (hcalls : ∀ node ∈ job.graph.nodes, job.mainRoutine.kindOf node ≠ .callFunction)
    (hnames : job.options.instrument
      → ∀ signature ∈ (Signatures.ofGraph job.graph).list, signature.name ∉ ["__onNode", "__onVar"])
    : programRoom < maxDescent ∧ (∀ bound m, Exec.Lacks job.mainRoutine.hooks m → m.descent + programRoom ≤ maxDescent
          → (Exec.runSource bound job.compile.code m).Results (fun _ => True) fun result =>
            result.1 ≠ .error .stackOverflow ∧ result.2.descent = m.descent)
        ∧ ∀ bound options host,
          ((Run.dialog bound job.compile.code options).play host).result ≠ some (.error .stackOverflow) := by
  have hclears := fun bound => clears_code hlegible hcalls hnames bound
  refine ⟨by decide, ?_, ?_⟩
  · intro bound m hm hroom
    exact (hclears bound m hm hroom).mono fun result hresult => ⟨hresult.1, hresult.2.2⟩
  · intro bound options host hresult
    have hstart := hclears bound (.start options.seed options.maxCalls) (fun _ _ => rfl)
      (show 0 + programRoom ≤ maxDescent by decide)
    have hverdict : (Run.dialog bound job.compile.code options).Results (fun _ => True) (· ≠ .error .stackOverflow) :=
      hstart.bind fun _ hended => .done hended.1
    exact hverdict.of_play host hresult rfl

def drawnTwice : Graph where
  nodes :=
    [⟨"start", .start, none, {}⟩, ⟨"loop", .whileLoop, none, { inlineValues := .ofList [("condition", "true")] }⟩,
     ⟨"if", .branch, none, {}⟩, ⟨"ask", .input, none, { variableName := some "n" }⟩,
     ⟨"inner", .random, none, {}⟩, ⟨"outer", .random, none, {}⟩]
  edges :=
    [.control "start" "exec-out" "loop", .control "loop" "body" "if", .control "if" "true" "ask",
     .data "outer" "result" "if" "condition", .data "inner" "result" "outer" "max"]
  functions := .ofList [("f",
    { id := "f"
      name := "prompt"
      nodes := [⟨"entry", .functionEntry, none, {}⟩, ⟨"show", .output, none, {}⟩]
      edges := [.control "entry" "exec-out" "show"] })]

theorem never_overflows_drawnTwice
    : let job : Job := ⟨drawnTwice, ⟨true⟩, {}⟩
      (∀ outset ∈ job.outsets, outset.Legible)
        ∧ (∀ node ∈ drawnTwice.nodes, job.mainRoutine.kindOf node ≠ .callFunction)
        ∧ (∀ signature ∈ (Signatures.ofGraph drawnTwice).list, signature.name ∉ ["__onNode", "__onVar"])
        ∧ ∀ bound host, ((Run.dialog bound job.compile.code ⟨.manual, none, 64⟩).play host).result
          ≠ some (.error .stackOverflow) := by
  intro job
  have hlegible : ∀ outset ∈ job.outsets, outset.Legible := legible_of_hasTokens (by decide +kernel)
  have hcalls : ∀ node ∈ drawnTwice.nodes, job.mainRoutine.kindOf node ≠ .callFunction := by decide +kernel
  have hnames : ∀ signature ∈ (Signatures.ofGraph drawnTwice).list, signature.name ∉ ["__onNode", "__onVar"] := by
    decide +kernel
  obtain ⟨-, -, hruns⟩ := never_overflows job hlegible hcalls fun _ => hnames
  exact ⟨hlegible, hcalls, hnames, fun bound host => hruns bound _ host⟩

def noticeFunction : Graph where
  nodes :=
    [⟨"start", .start, none, {}⟩, ⟨"show", .output, none, { inlineValues := .ofList [("value", "\"here\"")] }⟩]
  edges := [.control "start" "exec-out" "show"]
  functions := .ofList [("f",
    { id := "f"
      name := "__onNode"
      nodes := [⟨"entry", .functionEntry, none, {}⟩, ⟨"echo", .output, none, {}⟩]
      edges := [.control "entry" "exec-out" "echo"] })]

theorem noticeFunction_overflows
    : let job : Job := ⟨noticeFunction, ⟨true⟩, {}⟩
      (∀ node ∈ noticeFunction.nodes, job.mainRoutine.kindOf node ≠ .callFunction)
        ∧ ((Run.dialog 1000 job.compile.code ⟨.manual, none, 64⟩).play ⟨[], none⟩).result
          = some (.error .stackOverflow) := by
  intro job
  refine ⟨by decide +kernel, ?_⟩
  exact Dialog.eq_of_isFailure (by decide +kernel)

end Job

end NodeScript.Compile
