import NodeScript.Proofs.Frames
import NodeScript.Proofs.RoundTrip
import NodeScript.Run.Executor

/-!
Programs of graphs as they run: which functions they have, which names these do not take, and that their
expressions change no variable.
-/

namespace NodeScript.Compile

open List Script

theorem sanitize_not_mem_reservedWords (raw : String) : sanitize raw ∉ reservedWords := by
  unfold sanitize
  generalize (Text.trim raw.toList).map sanitizeChar = name
  dsimp only
  split
  · decide
  · split
    · have hhead : ∀ word ∈ reservedWords, word.toList.head? ≠ some '_' := by decide
      intro hmem
      exact hhead _ hmem (by rw [String.toList_ofList]; rfl)
    · next hplain =>
      simp only [Bool.or_eq_true, not_or, contains_iff_mem] at hplain
      exact hplain.2

theorem claim_not_mem_reservedWords {base : String} (h : base ∉ reservedWords) (taken : List String)
    : claim taken base ∉ reservedWords := by
  unfold claim
  split
  · have hmark : ∀ word ∈ reservedWords, '_' ∉ word.toList := by decide
    intro hmem
    exact hmark _ hmem (by simp)
  · exact h

structure Signature.Apart (inUse : List String) (sig : Signature) : Prop where
  name : sig.name ∉ reservedWords
  params : ∀ param ∈ sig.params, param ∉ reservedWords
  takes : sig.name ∈ inUse
  takesParams : ∀ param ∈ sig.params, param ∈ inUse

theorem Signatures.apart_ofGraph (graph : Graph)
    : ∀ sig ∈ (Signatures.ofGraph graph).list, sig.Apart (Signatures.ofGraph graph).taken := by
  apply ofGraph_induction (motive := fun signatures : Signatures => ∀ sig ∈ signatures.list, sig.Apart signatures.taken)
  · simp
  · rintro signatures hsignatures ⟨key, function⟩ _ sig hmem
    simp only [add, mem_append, mem_singleton] at hmem
    obtain hmem | rfl := hmem
    · obtain ⟨hname, hparams, htaken, htakenParams⟩ := hsignatures sig hmem
      exact ⟨hname, hparams, mem_append_left _ htaken,
        fun param hparam => mem_append_left _ (htakenParams param hparam)⟩
    · have hclaim (taken : List String) (text : String) : claim taken (sanitize text) ∉ reservedWords :=
        claim_not_mem_reservedWords (sanitize_not_mem_reservedWords text) taken
      refine ⟨hclaim _ _, forall_mem_claimAll hclaim, ?_, ?_⟩
      · simp [add]
      · intro param hparam
        simp [add, hparam]

inductive IsAtomic : Expr → Prop where
  | number (value : Float) : IsAtomic (.number value)
  | str (value : String) : IsAtomic (.str value)
  | bool (value : Bool) : IsAtomic (.bool value)
  | null : IsAtomic .null
  | undefined : IsAtomic .undefined
  | identifier (name : String) : IsAtomic (.identifier name)

theorem isAtomic_of_atomTree?_eq_some {text : String} {tree : Expr} (h : atomTree? text = some tree)
    : IsAtomic tree := by
  unfold atomTree? at h
  split at h
  · cases h
  · split at h
    · rename_i lexeme _ _
      cases lexeme with
      | number value =>
        cases h
        exact .number value
      | str value =>
        cases h
        exact .str value
      | word text =>
        unfold Parse.atom? at h
        dsimp only at h
        split at h
        · cases h; exact .bool true
        · cases h; exact .bool false
        · cases h; exact .null
        · cases h; exact .undefined
        · split at h
          · cases h
          · cases h; exact .identifier _
      | punct text => cases h
    · cases h

theorem rawTree_eq_or_isAtomic (text : String) : rawTree text = .array [] ∨ IsAtomic (rawTree text) := by
  unfold rawTree
  split
  · exact .inl rfl
  · cases htree : atomTree? text with
    | none => exact .inr .undefined
    | some tree => exact .inr (isAtomic_of_atomTree?_eq_some htree)

theorem calm_rawTree {hooks : List String} (text : String) : Expr.Calm hooks (rawTree text) := by
  obtain htree | htree := rawTree_eq_or_isAtomic text
  · rw [htree]
    exact .array (by simp)
  · generalize rawTree text = tree at htree ⊢
    cases htree <;> constructor

theorem Code.calm_tree {hooks : List String} (code : Code) : Expr.Calm hooks code.tree := by
  induction code with
  | ident name => exact .identifier name
  | member record field => exact .member (.identifier record)
  | raw text => exact calm_rawTree text
  | quoted text => exact .str text
  | binary operator left right ihLeft ihRight => exact .binary ihLeft ihRight
  | random least greatest ihLeast ihGreatest =>
    have hfraction : Expr.Calm hooks (.call (.member (.identifier "Math") "random") []) :=
      .callMember rfl (by simp)
    have hspan : Expr.Calm hooks (.binary .add (.binary .subtract greatest.tree least.tree) (rawTree "1")) :=
      .binary (.binary ihGreatest ihLeast) (calm_rawTree "1")
    refine .binary (.callMember rfl ?_) ihLeast
    rw [forall_mem_singleton]
    exact .binary hfraction hspan
  | not operand ih => exact .unary ih
  | length array => exact .member (.identifier array)
  | element array index ih => exact .index (.identifier array) ih
  | undefined | circular | tooDeep => exact .undefined

theorem functions_append (body body' : List Stmt)
    : Program.functions ⟨body ++ body'⟩ = Program.functions ⟨body⟩ ++ Program.functions ⟨body'⟩ :=
  filterMap_append

theorem functions_treesOf (items : List Item) : Program.functions ⟨treesOf items⟩ = [] := by
  induction items with
  | nil => rfl
  | cons item items ih =>
    rw [treesOf, functions_append, ih, append_nil]
    cases item with
    | line line =>
      cases line with
      | assign fresh name value | ask fresh name message => cases fresh <;> rfl
      | call temporary function arguments => cases temporary <;> rfl
      | _ => rfl
    | _ => rfl

namespace Job

section Tokens

variable {job : Job} (h : ∀ outset ∈ job.outsets, outset.routine.wiring.data.length < maxExpressionDepth
    ∧ ∀ node ∈ outset.routine.wiring.nodes, HasTokens node ∧ '\n' ∉ (node.data.functionId.getD "").toList)
include h

theorem legible_of_hasTokens : ∀ outset ∈ job.outsets, outset.Legible := by
  intro outset houtset
  obtain ⟨hlength, hnodes⟩ := h outset houtset
  have htour := (follows_of_mem_outsets houtset).mem_nodes
  exact ⟨Routine.shortChains_of_length_lt hlength, Routine.legible_of_hasTokens
    (fun node hnode _ => (hnodes node hnode).1) fun node hnode => hnodes node (htour node hnode)⟩

theorem readable_of_hasTokens : ∀ outset ∈ job.outsets, outset.Readable :=
  readable_of_legible (legible_of_hasTokens h)

end Tokens

def function (job : Job) (sig : Signature) : Function :=
  ⟨sig.params, treesOf (job.compileFunction (.ofGraph job.graph) sig).1⟩

def functions (job : Job) : List (String × Function) :=
  (Signatures.ofGraph job.graph).list.map fun sig => (sig.name, job.function sig)

variable {job : Job} {main : List Item × List Diagnostic}

theorem body_program (hmain : job.compileMain? (.ofGraph job.graph) = some main) : job.program.body =
      job.functions.map (fun function => .function function.1 function.2.params function.2.body) ++ treesOf main.1 := by
  unfold program
  dsimp only
  rw [hmain]
  simp only [functions, map_map]
  rfl

theorem functions_program (hmain : job.compileMain? (.ofGraph job.graph) = some main)
    : job.program.functions = job.functions := by
  have hdeclared : ∀ functions : List (String × Function), Program.functions
      ⟨functions.map fun function => .function function.1 function.2.params function.2.body⟩ = functions := by
    intro functions
    induction functions with
    | nil => rfl
    | cons function functions ih => exact congrArg (function :: ·) ih
  rw [show job.program = ⟨job.program.body⟩ from rfl, body_program hmain, functions_append, hdeclared,
    functions_treesOf, append_nil]

theorem dialog_code [Generator] (h : ∀ outset ∈ job.outsets, outset.Readable) (bound : Nat) (options : Run.Options)
    : Run.dialog bound job.compile.code options =
      (Exec.run bound job.program (.start options.seed options.maxCalls)).bind fun result => .done result.1 := by
  unfold Run.dialog Exec.runSource
  rw [parse_of_readable h]

end Job

end NodeScript.Compile
