import Mathlib.Data.List.Induction
import NodeScript.Proofs.Declarations
import NodeScript.Proofs.Scoping

/-!
Variables, parameters, functions and temporary names share one space of names. Which of them can be the
same, and which never are.
-/

namespace NodeScript

open List

def Graph.allNodes (graph : Graph) : List Node :=
  graph.nodes ++ graph.functions.values.flatMap FunctionDef.nodes

namespace Compile

def variablesOf (node : Node) : List String :=
  defaultBindings.map (variableOf node)

theorem variablesOf_subset_bindingNames {graph : Graph} {node : Node} (hnode : node ∈ graph.allNodes)
    : variablesOf node ⊆ bindingNames graph := by
  intro name hname
  obtain ⟨default, hdefault, rfl⟩ := mem_map.mp hname
  exact variableOf_mem_bindingNames hnode hdefault

/-- The search from a number on, which goes on as long as names are taken, ends at a number. -/
inductive Searches (taken : List String) (candidate : Nat → String) : Nat → Nat → Prop where
  | stop {n : Nat} (hfree : candidate n ∉ taken) : Searches taken candidate n n
  | skip {n found : Nat} (htaken : candidate n ∈ taken)
    (hrest : Searches taken candidate (n + 1) found) : Searches taken candidate n found

namespace Searches

variable {taken : List String} {candidate : Nat → String} {n found : Nat}

theorem not_mem (h : Searches taken candidate n found) : candidate found ∉ taken := by
  induction h with
  | stop hfree => exact hfree
  | skip _ _ ih => exact ih

theorem le (h : Searches taken candidate n found) : n ≤ found := by
  induction h with
  | stop => exact Nat.le_refl _
  | skip _ _ ih => exact Nat.le_of_succ_le ih

end Searches

theorem searches_firstFree_of_not_mem {taken : List String} {candidate : Nat → String} {tries n : Nat}
    (h : candidate (firstFree taken candidate tries n) ∉ taken)
    : Searches taken candidate n (firstFree taken candidate tries n) := by
  induction tries generalizing n with
  | zero => exact .stop h
  | succ tries ih =>
    rw [firstFree] at h ⊢
    split
    · next htaken =>
      rw [if_pos htaken] at h
      exact .skip (contains_iff_mem.mp htaken) (ih h)
    · next hfree => exact .stop fun hmem => hfree (contains_iff_mem.mpr hmem)

theorem searches_firstFree (taken : List String) (base : String) (n : Nat)
    : Searches taken (fun k => base ++ "_" ++ Nat.repr k) n
        (firstFree taken (fun k => base ++ "_" ++ Nat.repr k) (taken.length + 1) n) := by
  refine searches_firstFree_of_not_mem
    (firstFree_not_mem (fun k => base ++ "_" ++ Nat.repr k) ?_ (Nat.lt_succ_self _) n)
  intro m k heq
  exact repr_inj ((String.append_right_inj _).mp heq)

/-- One temporary name after the other is looked for, from the number after that of the one before. -/
inductive Allocates (taken : List String) : Nat → List String → Nat → Prop where
  | nil (next : Nat) : Allocates taken next [] next
  | cons {next n last : Nat} {base : String} {names : List String} (hbase : base ∈ temporaryBases)
    (hsearch : Searches taken (fun k => base ++ "_" ++ Nat.repr k) next n)
    (hrest : Allocates taken (n + 1) names last) :
    Allocates taken next ((base ++ "_" ++ Nat.repr n) :: names) last

namespace Allocates

variable {taken names names' : List String} {next between last : Nat}

theorem append (h : Allocates taken next names between) (h' : Allocates taken between names' last)
    : Allocates taken next (names ++ names') last := by
  induction h with
  | nil => exact h'
  | cons hbase hsearch _ ih => exact .cons hbase hsearch (ih h')

theorem not_mem (h : Allocates taken next names last) : ∀ name ∈ names, name ∉ taken := by
  induction h with
  | nil => exact forall_mem_nil _
  | cons _ hsearch _ ih => exact forall_mem_cons.mpr ⟨hsearch.not_mem, ih⟩

theorem numbered (h : Allocates taken next names last)
    : ∀ name ∈ names, ∃ base ∈ temporaryBases, ∃ n, next ≤ n ∧ name = base ++ "_" ++ Nat.repr n := by
  induction h with
  | nil => exact forall_mem_nil _
  | @cons next n last base names hbase hsearch _ ih =>
    refine forall_mem_cons.mpr ⟨⟨base, hbase, n, hsearch.le, rfl⟩, ?_⟩
    intro name hname
    obtain ⟨base', hbase', k, hk, rfl⟩ := ih name hname
    exact ⟨base', hbase', k, Nat.le_trans hsearch.le (Nat.le_of_succ_le hk), rfl⟩

theorem nodup (h : Allocates taken next names last) : names.Nodup := by
  induction h with
  | nil => exact nodup_nil
  | @cons next n last base names hbase _ hrest ih =>
    refine nodup_cons.mpr ⟨?_, ih⟩
    intro hmem
    obtain ⟨base', hbase', k, hk, heq⟩ := hrest.numbered _ hmem
    have hnumber := numbered_inj hbase hbase' heq
    omega

end Allocates

section Emission

variable {r : Routine} {marks : Prop} {node : Node} {bindings bindings' : Bindings} {items : List Item}

theorem Bindings.allocates_take (bindings : Bindings) (r : Routine) {base : String} (hbase : base ∈ temporaryBases)
    : Allocates r.functions.taken bindings.nextTemporary [bindings.temporary r base]
        (bindings.take r base).nextTemporary :=
  .cons hbase (searches_firstFree _ base _) (.nil _)

theorem Passes.allocates (h : Passes r marks node bindings items bindings')
    : Allocates r.functions.taken bindings.nextTemporary (bindersOf items) bindings'.nextTemporary := by
  cases h with
  | ask | set | create =>
    rw [Bindings.nextTemporary_declare]
    simpa [bindersOf_append, bindersOf, Item.binders, Line.binds] using Allocates.nil _
  | pop =>
    simpa [bindersOf_append, bindersOf, Item.binders, Line.binds, Bindings.bind]
      using bindings.allocates_take r (show "__pop" ∈ temporaryBases by decide)
  | call =>
    rw [(Bindings.declared_bindResults _ _ _ _).2]
    simpa [bindersOf_append, bindersOf, Item.binders, Line.binds]
      using bindings.allocates_take r (show "__ret" ∈ temporaryBases by decide)
  | print | push | store | callUnknown | callNothing | other =>
    simpa [bindersOf_append, bindersOf, Item.binders, Line.binds] using Allocates.nil _

theorem Heads.nextTemporary {head : List Item → Item} (h : Heads r marks node bindings head bindings')
    : bindings'.nextTemporary = bindings.nextTemporary := by
  cases h with
  | forLoop => exact bindings.nextTemporary_declare _
  | whileLoop => rfl

theorem Emits.allocates {tour : Tour} (h : Emits r marks tour bindings items bindings')
    : Allocates r.functions.taken bindings.nextTemporary (bindersOf items) bindings'.nextTemporary := by
  induction h with
  | stop | cut => exact .nil _
  | pass h _ ih =>
    rw [bindersOf_append]
    exact h.allocates.append ih
  | last h =>
    rw [h.binders]
    exact .nil _
  | branch _ _ _ ihTrue ihFalse =>
    rw [bindersOf_append, bindersOf_enter, bindersOf, bindersOf, Item.binders, append_nil]
    exact ihTrue.append ihFalse
  | loop hhead _ _ ihBody ihRest =>
    rw [bindersOf_append, bindersOf_append, bindersOf_enter, bindersOf, bindersOf, hhead.binders, append_nil,
      nil_append]
    rw [← hhead.nextTemporary]
    exact ihBody.append ihRest

end Emission

namespace Job

/-- The temporary names in the statements of a routine are all different, and no variable, parameter or
function of the graph has one of them. The search for the next one always ends. -/
theorem temporaries_fresh (job : Job) {outset : Outset} (h : outset ∈ job.outsets)
    : let names := bindersOf outset.compiled.1
      let functions := Signatures.ofGraph job.graph
      (∃ last, Allocates functions.taken 0 names last) ∧ names.Nodup
        ∧ (∀ name ∈ names, ∀ node ∈ job.graph.allNodes, name ∉ variablesOf node)
        ∧ (∀ name ∈ names, ∀ signature ∈ functions.list, name ≠ signature.name ∧ name ∉ signature.params)
        ∧ ∀ base s, ∃ n, Searches functions.taken (fun k => base ++ "_" ++ Nat.repr k) s.nextTemporary n
            ∧ (Build.temporary outset.routine base).run s
                = (base ++ "_" ++ Nat.repr n, { s with nextTemporary := n + 1 }) := by
  intro names functions
  have hfunctions : outset.routine.functions = functions := (routine_of_mem_outsets h).2
  have hgrown := Signatures.grown_ofGraph job.graph
  obtain ⟨bindings, hemits⟩ := outset.routine.emits_compileFrom outset.entry outset.depth
  have hallocates : Allocates functions.taken 0 names bindings.nextTemporary := hfunctions ▸ hemits.allocates
  refine ⟨⟨_, hallocates⟩, hallocates.nodup, ?_, ?_, ?_⟩
  · intro name hname node hnode hvariable
    exact hallocates.not_mem name hname (hgrown.bindings (variablesOf_subset_bindingNames hnode hvariable))
  · intro name hname signature hsignature
    have hregistered := hgrown.registered signature hsignature
    refine ⟨?_, fun hparam => hallocates.not_mem name hname (hregistered.params hparam)⟩
    rintro rfl
    exact hallocates.not_mem _ hname hregistered.name
  · intro base s
    exact ⟨_, searches_firstFree functions.taken base s.nextTemporary, by rw [← hfunctions]; rfl⟩

def crowded : Graph where
  nodes :=
    [⟨"start", .start, none, {}⟩, ⟨"create", .arrayCreate, none, {}⟩, ⟨"pop", .arrayPop, none, {}⟩,
     ⟨"keep", .set, none, { variableName := some "__pop_0" }⟩,
     ⟨"call", .callFunction, none, { functionId := some "f" }⟩]
  edges :=
    [.control "start" "exec-out" "create", .control "create" "exec-out" "pop",
     .control "pop" "exec-out" "keep", .control "keep" "exec-out" "call"]
  functions := .ofList [("f", { id := "f", name := "__ret_2", returns := [⟨"r", "r", .any⟩] })]

theorem temporaries_fresh_crowded
    : let job : Job := ⟨crowded, .default, {}⟩
      let outset : Outset := ⟨job.mainRoutine, ⟨"start", .start, none, {}⟩, 0⟩
      outset ∈ job.outsets ∧ bindersOf outset.compiled.1 = ["__pop_1", "__ret_3"]
        ∧ ∀ name ∈ bindersOf outset.compiled.1, ∀ node ∈ crowded.allNodes, name ∉ variablesOf node := by
  intro job outset
  have h : outset ∈ job.outsets := mem_append_left _ (mem_singleton_self _)
  exact ⟨h, by decide +kernel, (temporaries_fresh job h).2.2.1⟩

end Job

theorem claim_cases (taken : List String) (base : String) : base ∉ taken ∧ claim taken base = base
        ∨ base ∈ taken ∧ ∃ n, 2 ≤ n ∧ claim taken base = base ++ "_" ++ Nat.repr n := by
  unfold claim
  split
  · next htaken => exact .inr ⟨contains_iff_mem.mp htaken, _, le_firstFree _ _ _ 2, rfl⟩
  · next hfree => exact .inl ⟨fun hmem => hfree (contains_iff_mem.mpr hmem), rfl⟩

theorem claimAll_concat (texts : List String) (text : String)
    : claimAll (texts ++ [text]) = claimAll texts ++ [claim (claimAll texts) (sanitize text)] := by
  simp [claimAll]

theorem numbered_of_mem_zip_claimAll {texts : List String} {text name : String}
    (h : (text, name) ∈ texts.zip (claimAll texts)) (hname : name ≠ sanitize text)
    : sanitize text ∈ claimAll texts ∧ ∃ n, 2 ≤ n ∧ name = sanitize text ++ "_" ++ Nat.repr n := by
  induction texts using reverseRecOn with
  | nil => exact (not_mem_nil h).elim
  | append_singleton texts last ih =>
    rw [claimAll_concat, zip_append (length_claimAll texts).symm, mem_append] at h
    rw [claimAll_concat, mem_append]
    obtain h | h := h
    · exact ⟨.inl (ih h).1, (ih h).2⟩
    · rw [zip_cons_cons, zip_nil_left, mem_singleton] at h
      cases h
      obtain ⟨-, hclaim⟩ | ⟨htaken, hnumbered⟩ := claim_cases (claimAll texts) (sanitize text)
      · exact absurd hclaim hname
      · exact ⟨.inl htaken, hnumbered⟩

theorem claimAll_of_nodup {texts : List String} (h : (texts.map sanitize).Nodup)
    : claimAll texts = texts.map sanitize := by
  induction texts using reverseRecOn with
  | nil => rfl
  | append_singleton texts last ih =>
    rw [map_append, nodup_append] at h
    obtain ⟨htexts, -, hlast⟩ := h
    have hfree : sanitize last ∉ claimAll texts := by
      rw [ih htexts]
      exact fun hmem => hlast _ hmem _ (mem_singleton_self _) rfl
    obtain ⟨-, hclaim⟩ | ⟨htaken, -⟩ := claim_cases (claimAll texts) (sanitize last)
    · rw [claimAll_concat, hclaim, ih htexts, map_append]
      rfl
    · exact absurd htaken hfree

def Signature.Renames (sig : Signature) (param : String) : Prop :=
  ∃ port, (port, param) ∈ sig.function.params.zip sig.params ∧ param ≠ sanitize port.name

namespace Signatures

structure Separate (graph : Graph) (signatures : Signatures) : Prop where
  grown : signatures.Grown graph
  unbound : ∀ sig ∈ signatures.list, sig.name ∉ bindingNames graph
  ordered : signatures.list.Pairwise fun earlier later =>
    later.name ≠ earlier.name ∧ later.name ∉ earlier.params
  params : ∀ sig ∈ signatures.list, sig.params = claimAll (sig.function.params.map Port.name)

theorem Separate.add {graph : Graph} {signatures : Signatures} (h : signatures.Separate graph) {key : String}
    {function : FunctionDef} (hentry : (key, function) ∈ graph.functions.entries)
    : (signatures.add key function).Separate graph where
  grown := h.grown.add hentry
  unbound := by
    refine forall_mem_append.mpr ⟨h.unbound, ?_⟩
    rw [forall_mem_singleton]
    exact fun hbound => claim_not_mem _ _ (h.grown.bindings hbound)
  ordered := by
    refine pairwise_append.mpr ⟨h.ordered, pairwise_singleton _ _, ?_⟩
    intro earlier hearlier later hlater
    rw [mem_singleton.mp hlater]
    have hregistered := h.grown.registered earlier hearlier
    exact ⟨fun heq => claim_not_mem _ _ (heq ▸ hregistered.name),
      fun hparam => claim_not_mem _ _ (hregistered.params hparam)⟩
  params := by
    refine forall_mem_append.mpr ⟨h.params, ?_⟩
    rw [forall_mem_singleton]

theorem separate_ofGraph (graph : Graph) : (ofGraph graph).Separate graph := by
  apply ofGraph_induction (motive := fun signatures : Signatures => signatures.Separate graph)
  · exact ⟨⟨List.Subset.refl _, forall_mem_nil _, forall_mem_nil _⟩, forall_mem_nil _, .nil, forall_mem_nil _⟩
  · exact fun _ hseparate _ hentry => hseparate.add hentry

variable {graph : Graph} {sig : Signature}

theorem renames_or_mem_bindingNames (h : sig ∈ (ofGraph graph).list) {param : String}
    (hparam : param ∈ sig.params) : sig.Renames param ∨ param ∈ bindingNames graph := by
  have hgrown := grown_ofGraph graph
  have hlength := ((distinct_ofGraph graph) sig h).length_params
  obtain ⟨i, hi, rfl⟩ := mem_iff_getElem.mp hparam
  have hport : i < sig.function.params.length := hlength ▸ hi
  have hzip : (sig.function.params[i], sig.params[i]) ∈ sig.function.params.zip sig.params := by
    rw [mem_iff_getElem]
    exact ⟨i, by rw [length_zip]; omega, getElem_zip⟩
  by_cases hname : sig.params[i] = sanitize sig.function.params[i].name
  · refine .inr (mem_bindingNames.mpr (.inr (.inr ?_)))
    exact ⟨_, hgrown.function sig h, _, getElem_mem hport, hname.symm⟩
  · exact .inl ⟨_, hzip, hname⟩

theorem numbered_of_renames (h : sig ∈ (ofGraph graph).list) {param : String} (hparam : sig.Renames param)
    : ∃ base ∈ sig.params, ∃ n, 2 ≤ n ∧ param = base ++ "_" ++ Nat.repr n := by
  obtain ⟨port, hzip, hname⟩ := hparam
  rw [(separate_ofGraph graph).params sig h] at hzip ⊢
  have htext : (port.name, param)
      ∈ (sig.function.params.map Port.name).zip (claimAll (sig.function.params.map Port.name)) := by
    rw [zip_map_left]
    exact mem_map_of_mem hzip
  obtain ⟨hbase, n, hn, heq⟩ := numbered_of_mem_zip_claimAll htext hname
  exact ⟨_, hbase, n, hn, heq⟩

theorem not_renames_of_nodup (h : sig ∈ (ofGraph graph).list)
    (hnodup : (sig.function.params.map fun port => sanitize port.name).Nodup) (param : String)
    : ¬ sig.Renames param := by
  rintro ⟨port, hzip, hname⟩
  have hparams : sig.params = sig.function.params.map fun port => sanitize port.name := by
    have hmap : (sig.function.params.map Port.name).map sanitize
        = sig.function.params.map fun port => sanitize port.name := by
      rw [map_map]
      rfl
    rw [(separate_ofGraph graph).params sig h, claimAll_of_nodup (hmap ▸ hnodup), hmap]
  have hpairs : sig.function.params.zip sig.params
      = sig.function.params.map fun port => (port, sanitize port.name) := by
    rw [hparams]
    nth_rewrite 1 [← map_id sig.function.params]
    exact zip_map'
  rw [hpairs] at hzip
  obtain ⟨port', -, heq⟩ := mem_map.mp hzip
  cases heq
  exact hname rfl

theorem sanitize_of_mem_variablesOf {node : Node} {base : String} {n : Nat}
    (h : base ++ "_" ++ Nat.repr n ∈ variablesOf node)
    : ∃ text, node.data.boundName? = some text ∧ sanitize text = base ++ "_" ++ Nat.repr n := by
  obtain ⟨default, hdefault, heq⟩ := mem_map.mp h
  unfold variableOf at heq
  cases hname : node.data.boundName? with
  | some text =>
    rw [hname] at heq
    exact ⟨text, rfl, heq⟩
  | none =>
    -- A numbered name ends in a digit, and no name that stands for a missing one does.
    have hplain : defaultBindings.all fun name => (sanitize name).toList.getLast?.all fun c => !c.isDigit := by decide
    have hdigit : ∃ c, (base ++ "_" ++ Nat.repr n).toList.getLast? = some c ∧ c.isDigit := by
      have hdigits : (Nat.toDigits 10 n) ≠ [] := Nat.toDigits_ne_nil
      refine ⟨(Nat.toDigits 10 n).getLast hdigits, ?_, ?_⟩
      · rw [String.toList_append, Nat.toList_repr, getLast?_append_of_ne_nil _ hdigits,
          getLast?_eq_some_getLast hdigits]
      · exact Nat.isDigit_of_mem_toDigits (by decide) (by decide) (getLast_mem hdigits)
    obtain ⟨c, hlast, hc⟩ := hdigit
    rw [hname, Option.getD_none] at heq
    rw [← heq] at hlast
    have hlast' := all_eq_true.mp hplain default hdefault
    rw [hlast, Option.all_some, hc] at hlast'
    cases hlast'

/-- Functions have names of their own, which no variable has. A function shares its name with a parameter only if
the parameter was renamed, and if it belongs to that function or to one after it. A renamed parameter has the name of
another parameter and a number, so that a node's variable is the same only if the node names it so; and none is
renamed if the parameters of a function have different names. -/
theorem functions_clash_renamed (graph : Graph)
    : let functions := (ofGraph graph).list
      (functions.map Signature.name).Nodup
        ∧ (∀ signature ∈ functions, ∀ node ∈ graph.allNodes, signature.name ∉ variablesOf node)
        ∧ (∀ signature ∈ functions, ∀ other ∈ functions, signature.name ∈ other.params → other.Renames signature.name)
        ∧ functions.Pairwise (fun earlier later => later.name ∉ earlier.params)
        ∧ (∀ signature ∈ functions, ∀ param, signature.Renames param
          → (∃ base ∈ signature.params, ∃ n, 2 ≤ n ∧ param = base ++ "_" ++ Nat.repr n)
            ∧ ∀ node, param ∈ variablesOf node → ∃ text, node.data.boundName? = some text ∧ sanitize text = param)
        ∧ ∀ signature ∈ functions, (signature.function.params.map fun port => sanitize port.name).Nodup
          → ∀ param, ¬ signature.Renames param := by
  intro functions
  have hseparate := separate_ofGraph graph
  refine ⟨?_, ?_, ?_, hseparate.ordered.imp And.right, ?_, fun signature h => not_renames_of_nodup h⟩
  · exact pairwise_map.mpr (hseparate.ordered.imp fun h => h.1.symm)
  · intro signature hsignature node hnode hvariable
    exact hseparate.unbound signature hsignature (variablesOf_subset_bindingNames hnode hvariable)
  · intro signature hsignature other hother hparam
    exact (renames_or_mem_bindingNames hother hparam).resolve_right (hseparate.unbound signature hsignature)
  · intro signature hsignature param hparam
    obtain ⟨base, hbase, n, hn, rfl⟩ := numbered_of_renames hsignature hparam
    exact ⟨⟨base, hbase, n, hn, rfl⟩, fun node => sanitize_of_mem_variablesOf⟩

def renamedParams : Graph where
  nodes := [⟨"start", .start, none, {}⟩]
  functions :=
    .ofList [("a", { id := "a", name := "y_2" }),
      ("b", { id := "b", name := "f"
              params := [⟨"p", "x", .any⟩, ⟨"q", "x", .any⟩, ⟨"r", "y", .any⟩, ⟨"s", "y", .any⟩]
              nodes := [⟨"set", .set, none, { variableName := some "x_2" }⟩] })]

theorem renamedParams_clash
    : let functions := (ofGraph renamedParams).list
      (∃ signature ∈ functions, ∃ other ∈ functions, signature.name ∈ other.params)
        ∧ ∃ signature ∈ functions, ∃ param, signature.Renames param
          ∧ ∃ node ∈ signature.function.nodes, param ∈ variablesOf node := by
  intro functions
  have hfirst : functions[0] ∈ functions := getElem_mem _
  have hsecond : functions[1] ∈ functions := getElem_mem _
  refine ⟨⟨_, hfirst, _, hsecond, by decide +kernel⟩, _, hsecond, "x_2", ⟨⟨"q", "x", .any⟩, ?_, by decide +kernel⟩, ?_⟩
  · decide +kernel
  · exact ⟨_, mem_singleton_self _, by decide +kernel⟩

end Signatures

end Compile

end NodeScript
