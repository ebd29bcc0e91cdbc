import Mathlib.Data.List.Perm.Subperm
import NodeScript.Proofs.Emission
import NodeScript.Proofs.Tables
import NodeScript.Proofs.Tours

/-!
Temporary names are new: no variable, parameter or function has them, and they are numbered upwards.
So where one stands in an expression, the expression was made from the result that it names.
-/

namespace NodeScript

open List

variable {graph : Graph} {name : String}

namespace Compile

theorem le_firstFree (taken : List String) (candidate : Nat → String) (tries n : Nat)
    : n ≤ firstFree taken candidate tries n := by
  induction tries generalizing n with
  | zero => exact Nat.le_refl n
  | succ tries ih =>
    rw [firstFree]
    split
    · exact Nat.le_of_succ_le (ih (n + 1))
    · exact Nat.le_refl n

theorem firstFree_or (taken : List String) (candidate : Nat → String) (tries n : Nat)
    : candidate (firstFree taken candidate tries n) ∉ taken ∨ ∀ k < tries, candidate (n + k) ∈ taken := by
  induction tries generalizing n with
  | zero => exact .inr fun k hk => absurd hk (Nat.not_lt_zero k)
  | succ tries ih =>
    rw [firstFree]
    split
    · next htaken =>
      refine (ih (n + 1)).imp_right ?_
      intro hall k hk
      cases k with
      | zero => exact contains_iff_mem.mp htaken
      | succ k =>
        rw [Nat.add_comm k, ← Nat.add_assoc]
        exact hall k (Nat.lt_of_succ_lt_succ hk)
    · next hfree => exact .inl fun hmem => hfree (contains_iff_mem.mpr hmem)

theorem firstFree_not_mem {taken : List String} (candidate : Nat → String)
    (hinjective : ∀ m n, candidate m = candidate n → m = n) {tries : Nat} (htries : taken.length < tries)
    (n : Nat) : candidate (firstFree taken candidate tries n) ∉ taken := by
  refine (firstFree_or taken candidate tries n).resolve_right ?_
  intro hall
  have hnodup : ((List.range tries).map fun k => candidate (n + k)).Nodup := by
    refine nodup_range.map ?_
    intro k k' heq
    exact Nat.add_left_cancel (hinjective _ _ heq)
  have hsubset : (List.range tries).map (fun k => candidate (n + k)) ⊆ taken := by
    intro name hname
    obtain ⟨k, hk, rfl⟩ := mem_map.mp hname
    exact hall k (mem_range.mp hk)
  have hlength := (subperm_of_subset hnodup hsubset).length_le
  rw [length_map, length_range] at hlength
  omega

theorem length_claimAll (texts : List String) : (claimAll texts).length = texts.length := by
  have hfold : ∀ names : List String,
      (texts.foldl (fun names text => names ++ [claim names (sanitize text)]) names).length
        = names.length + texts.length := by
    induction texts with
    | nil => simp
    | cons text texts ih =>
      intro names
      rw [foldl_cons, ih, length_append, length_singleton, length_cons]
      omega
  rw [claimAll, hfold, length_nil, Nat.zero_add]

structure Signature.Registered (taken : List String) (sig : Signature) : Prop where
  name : sig.name ∈ taken
  params : sig.params ⊆ taken
  returns : sig.returns.length = sig.function.returns.length

theorem Signature.Registered.mono {taken taken' : List String} (htaken : taken ⊆ taken')
    {sig : Signature} (h : sig.Registered taken) : sig.Registered taken' :=
  ⟨htaken h.name, fun _ hparam => htaken (h.params hparam), h.returns⟩

namespace Signatures

structure Grown (graph : Graph) (signatures : Signatures) : Prop where
  bindings : bindingNames graph ⊆ signatures.taken
  registered : ∀ sig ∈ signatures.list, sig.Registered signatures.taken
  function : ∀ sig ∈ signatures.list, sig.function ∈ graph.functions.values

theorem Grown.add {signatures : Signatures} (h : signatures.Grown graph) {key : String} {function : FunctionDef}
    (hentry : (key, function) ∈ graph.functions.entries)
    : (signatures.add key function).Grown graph := by
  obtain ⟨hbindings, hregistered, hfunction⟩ := h
  refine ⟨subset_append_of_subset_left _ hbindings, ?_, ?_⟩
  · intro sig hsig
    obtain hold | hnew := mem_append.mp hsig
    · exact (hregistered sig hold).mono (subset_append_left _ _)
    · rw [mem_singleton.mp hnew]
      refine ⟨by simp [Signatures.add], ?_, by simp [length_claimAll]⟩
      intro param hparam
      exact mem_append_right _ (mem_cons_of_mem _ hparam)
  · intro sig hsig
    obtain hold | hnew := mem_append.mp hsig
    · exact hfunction sig hold
    · rw [mem_singleton.mp hnew]
      exact mem_map_of_mem hentry

theorem grown_ofGraph (graph : Graph) : (ofGraph graph).Grown graph := by
  apply ofGraph_induction (motive := fun signatures : Signatures => signatures.Grown graph)
  · exact ⟨List.Subset.refl _, nofun, nofun⟩
  · exact fun _ hgrown _ hentry => hgrown.add hentry

end Signatures

theorem mem_bindingNames : name ∈ bindingNames graph ↔ name ∈ defaultBindings
          ∨ (∃ node ∈ graph.nodes ++ graph.functions.values.flatMap FunctionDef.nodes,
              ∃ text, node.data.boundName? = some text ∧ sanitize text = name)
          ∨ ∃ function ∈ graph.functions.values, ∃ port ∈ function.params, sanitize port.name = name := by
  unfold bindingNames
  rw [SortedTable.mem_keys_ofList, map_map]
  have hid : (Prod.fst ∘ fun name : String => (name, ())) = id := rfl
  rw [hid, map_id, mem_append, map_append, mem_append]
  refine or_congr_right (or_congr ?_ ?_)
  · simp only [mem_map, mem_filterMap]
    constructor
    · rintro ⟨text, ⟨node, hnode, htext⟩, rfl⟩
      exact ⟨node, hnode, text, htext, rfl⟩
    · rintro ⟨node, hnode, text, htext, rfl⟩
      exact ⟨text, ⟨node, hnode, htext⟩, rfl⟩
  · simp only [mem_map, mem_flatMap]
    constructor
    · rintro ⟨_, ⟨function, hfunction, port, hport, rfl⟩, rfl⟩
      exact ⟨function, hfunction, port, hport, rfl⟩
    · rintro ⟨function, hfunction, port, hport, rfl⟩
      exact ⟨_, ⟨function, hfunction, port, hport, rfl⟩, rfl⟩

theorem variableOf_mem_bindingNames {node : Node}
    (hnode : node ∈ graph.nodes ++ graph.functions.values.flatMap FunctionDef.nodes) {default : String}
    (hdefault : default ∈ defaultBindings) : variableOf node default ∈ bindingNames graph := by
  rw [mem_bindingNames]
  unfold variableOf
  cases hname : node.data.boundName? with
  | none =>
    have hdefaults : ∀ name ∈ defaultBindings, sanitize name = name := by decide
    rw [Option.getD_none, hdefaults default hdefault]
    exact .inl hdefault
  | some name => exact .inr (.inl ⟨node, hnode, name, hname, rfl⟩)

structure Routine.Reserves (r : Routine) : Prop where
  bound : ∀ node ∈ r.wiring.nodes, ∀ default ∈ defaultBindings, variableOf node default ∈ r.functions.taken
  functions : ∀ sig ∈ r.functions.list, sig.Registered r.functions.taken
  signature : ∀ sig ∈ r.signature, sig.Registered r.functions.taken

theorem Job.reserves_of_mem_outsets {job : Job} {outset : Outset} (h : outset ∈ job.outsets)
    : outset.routine.Reserves := by
  have hgrown := Signatures.grown_ofGraph job.graph
  obtain ⟨entry, rfl⟩ | ⟨sig, hsig, entry, rfl⟩ := of_mem_outsets h
  · refine ⟨?_, hgrown.registered, nofun⟩
    intro node hnode default hdefault
    refine hgrown.bindings (variableOf_mem_bindingNames (mem_append_left _ ?_) hdefault)
    simpa [mainRoutine, routine] using hnode
  · refine ⟨?_, hgrown.registered, ?_⟩
    · intro node hnode default hdefault
      refine hgrown.bindings (variableOf_mem_bindingNames (mem_append_right _ ?_) hdefault)
      refine mem_flatMap.mpr ⟨_, hgrown.function sig hsig, ?_⟩
      simpa [functionRoutine, routine] using hnode
    · rintro _ ⟨⟩
      exact hgrown.registered sig hsig

def temporaryBases : List String := ["__pop", "__ret"]

theorem repr_inj {m n : Nat} (h : Nat.repr m = Nat.repr n) : m = n := by
  have hvalue : ∀ k, Nat.ofDigitChars 10 (Nat.repr k).toList 0 = k := by
    intro k
    rw [Nat.toList_repr, Nat.ofDigitChars_toDigits (by decide) (by decide)]
  rw [← hvalue m, h, hvalue n]

theorem numbered_inj {base base' : String} (hbase : base ∈ temporaryBases) (hbase' : base' ∈ temporaryBases)
    {m n : Nat} (h : base ++ "_" ++ Nat.repr m = base' ++ "_" ++ Nat.repr n) : m = n := by
  have hlengths : ∀ b ∈ temporaryBases, (b ++ "_").toList.length = 6 := by decide
  have hlists : (base ++ "_").toList ++ (Nat.repr m).toList = (base' ++ "_").toList ++ (Nat.repr n).toList := by
    rw [← String.toList_append, ← String.toList_append, h]
  have hrepr := (append_inj hlists ((hlengths base hbase).trans (hlengths base' hbase').symm)).2
  exact repr_inj (String.toList_inj.mp hrepr)

theorem claim_not_mem (taken : List String) (base : String) : claim taken base ∉ taken := by
  unfold claim
  split
  · refine firstFree_not_mem (fun n => base ++ "_" ++ Nat.repr n) ?_ (Nat.lt_succ_self _) _
    intro m n heq
    exact repr_inj ((String.append_right_inj _).mp heq)
  · next hfree => exact fun hmem => hfree (contains_iff_mem.mpr hmem)

theorem nodup_claimAll (texts : List String) : (claimAll texts).Nodup := by
  unfold claimAll
  apply foldlRecOn texts (motive := List.Nodup)
  · exact nodup_nil
  · intro names hnames text _
    refine nodup_append.mpr ⟨hnames, nodup_singleton _, ?_⟩
    intro name hname other hother heq
    rw [mem_singleton.mp hother] at heq
    exact claim_not_mem names _ (heq ▸ hname)

structure Signature.Distinct (sig : Signature) : Prop where
  params : sig.params.Nodup
  length_params : sig.params.length = sig.function.params.length
  returns : sig.returns.Nodup
  length_returns : sig.returns.length = sig.function.returns.length

theorem Signatures.distinct_ofGraph (graph : Graph) : ∀ sig ∈ (Signatures.ofGraph graph).list, sig.Distinct := by
  apply ofGraph_induction (motive := fun signatures : Signatures => ∀ sig ∈ signatures.list, sig.Distinct)
  · simp
  · rintro signatures hsignatures ⟨key, function⟩ _ sig hmem
    simp only [add, mem_append, mem_singleton] at hmem
    obtain hmem | rfl := hmem
    · exact hsignatures sig hmem
    · exact ⟨nodup_claimAll _, by simp [length_claimAll], nodup_claimAll _, by simp [length_claimAll]⟩

theorem Signatures.name_inj (graph : Graph) {sig sig' : Signature}
    (h : sig ∈ (Signatures.ofGraph graph).list) (h' : sig' ∈ (Signatures.ofGraph graph).list)
    (hname : sig.name = sig'.name) : sig = sig' := by
  have hnames : ∀ s ∈ (Signatures.ofGraph graph).list, s.name ∈ (Signatures.ofGraph graph).taken
      ∧ ∀ s' ∈ (Signatures.ofGraph graph).list, s.name = s'.name → s = s' := by
    apply ofGraph_induction (motive := fun signatures : Signatures => ∀ s ∈ signatures.list, s.name ∈ signatures.taken ∧ ∀ s' ∈ signatures.list, s.name = s'.name → s = s')
    · simp
    · rintro signatures hsignatures ⟨key, function⟩ _
      have hnew : ∀ s ∈ signatures.list, s.name ≠ claim signatures.taken (sanitize function.name) :=
        fun s hs heq => claim_not_mem signatures.taken _ (heq ▸ (hsignatures s hs).1)
      simp only [add, mem_append, mem_cons, not_mem_nil, or_false]
      rintro s (hs | rfl)
      · refine ⟨.inl (hsignatures s hs).1, ?_⟩
        rintro s' (hs' | rfl) heq
        · exact (hsignatures s hs).2 s' hs' heq
        · exact absurd heq (hnew s hs)
      · refine ⟨.inr (.inl rfl), ?_⟩
        rintro s' (hs' | rfl) heq
        · exact absurd heq.symm (hnew s' hs')
        · rfl
  exact (hnames sig h).2 sig' h' hname

namespace Bindings

variable (bindings : Bindings) (r : Routine)

theorem le_number (base : String) : bindings.nextTemporary ≤ bindings.number r base :=
  le_firstFree _ _ _ _

theorem temporary_not_mem_taken {base : String} (hbase : base ∈ temporaryBases)
    : bindings.temporary r base ∉ r.functions.taken := by
  refine firstFree_not_mem (fun n => base ++ "_" ++ Nat.repr n) ?_ (Nat.lt_succ_self _) _
  intro m n heq
  exact numbered_inj hbase hbase heq

end Bindings

def Code.names : Code → List String
  | ident name | member name _ | length name => [name]
  | binary _ left right | random left right => left.names ++ right.names
  | not operand => operand.names
  | element array index => array :: index.names
  | raw _ | quoted _ | undefined | circular | tooDeep => []

namespace Routine

def resultSockets (r : Routine) (id : String) : List String :=
  match r.wiring.node? id with
  | none => []
  | some node =>
    match r.kindOf node with
    | .arrayPop => ["value"]
    | .callFunction =>
      (r.functions.get? (node.data.functionId.getD "")).elim [] fun sig =>
        sig.function.returns.map Port.id
    | _ => []

def IsResult (r : Routine) (out : Endpoint) : Prop :=
  out.socket ∈ r.resultSockets out.node

theorem IsResult.kind {r : Routine} {out : Endpoint} (h : r.IsResult out) {node : Node}
    (hnode : r.wiring.node? out.node = some node)
    : r.kindOf node = .arrayPop ∨ r.kindOf node = .callFunction := by
  unfold IsResult resultSockets at h
  rw [hnode] at h
  dsimp only at h
  split at h
  · next hkind => exact .inl hkind
  · next hkind => exact .inr hkind
  · exact (not_mem_nil h).elim

variable {r : Routine} {temps : List (Endpoint × Code)} {node : Node} {socket : String}
  {operand : String → Code}

theorem names_operand_subset {socket' : String} (hsocket : socket' ∈ operandSockets (r.kindOf node))
    : (operand socket').names ⊆ (r.nodeCode temps node socket operand).names := by
  unfold operandSockets at hsocket
  unfold nodeCode
  generalize r.kindOf node = kind at *
  cases hoperator : kind.operator? with
  | some operator =>
    rw [hoperator] at hsocket
    simp only [mem_cons, not_mem_nil, or_false] at hsocket
    obtain rfl | rfl := hsocket <;> simp [Code.names]
  | none =>
    rw [hoperator] at hsocket
    dsimp only at hsocket ⊢
    split at hsocket <;> simp at hsocket
    · obtain rfl | rfl := hsocket <;> simp [Code.names]
    · obtain rfl | rfl := hsocket <;> simp [Code.names]
    · subst hsocket
      simp [Code.names]
    · subst hsocket
      simp [Code.names]

theorem mem_names_nodeCode (hreserves : r.Reserves) (hnode : node ∈ r.wiring.nodes)
    (h : name ∈ (r.nodeCode temps node socket operand).names)
    : name ∈ r.functions.taken
        ∨ (∃ socket' ∈ operandSockets (r.kindOf node), name ∈ (operand socket').names)
        ∨ ∃ code, temps.lookup ⟨node.id, socket⟩ = some code ∧ name ∈ code.names := by
  have hvariable : ∀ default ∈ defaultBindings, name ∈ [variableOf node default] → name ∈ r.functions.taken := by
    intro default hdefault hname
    rw [mem_singleton.mp hname]
    exact hreserves.bound node hnode default hdefault
  have hresult : name ∈ ((temps.lookup ⟨node.id, socket⟩).getD .undefined).names
      → ∃ code, temps.lookup ⟨node.id, socket⟩ = some code ∧ name ∈ code.names := by
    cases temps.lookup ⟨node.id, socket⟩ with
    | none => exact nofun
    | some code => exact fun hname => ⟨code, rfl, hname⟩
  unfold nodeCode at h
  unfold operandSockets
  generalize r.kindOf node = kind at *
  cases hoperator : kind.operator? with
  | some operator =>
    rw [hoperator] at h
    exact .inr (.inl (by simpa [Code.names] using h))
  | none =>
    rw [hoperator] at h
    dsimp only at h ⊢
    split at h
    · exact .inl (hvariable _ (by decide) h)
    · exact .inr (.inl (by simpa [Code.names] using h))
    · exact .inr (.inl (by simpa [Code.names] using h))
    · exact .inr (.inl (by simpa [Code.names] using h))
    · exact .inl (hvariable _ (by decide) h)
    · exact .inl (hvariable _ (by decide) h)
    · exact .inl (hvariable _ (by decide) h)
    · exact .inl (hvariable _ (by decide) h)
    · obtain rfl | h := mem_cons.mp h
      · exact .inl (hvariable _ (by decide) (mem_singleton_self _))
      · exact .inr (.inl (by simpa using h))
    · exact .inr (.inr (hresult h))
    · exact .inr (.inr (hresult h))
    · cases hparam : r.signature.bind (·.paramName? socket) with
      | none =>
        rw [hparam] at h
        exact (not_mem_nil h).elim
      | some param =>
        rw [hparam] at h
        obtain ⟨sig, hsig, hparam⟩ := Option.bind_eq_some_iff.mp hparam
        rw [mem_singleton.mp h]
        exact .inl ((hreserves.signature sig hsig).params (mem_of_paramName?_eq_some hparam))
    · exact (not_mem_nil h).elim

end Routine

theorem names_typedOperand (kind : NodeKind) (node : Node) (socket : String)
    : (typedOperand kind node socket).names = [] := by
  unfold typedOperand
  dsimp only
  split <;> rfl

section Unfolds

variable {r : Routine} {temps : List (Endpoint × Code)} {marks : Prop} {source : Endpoint}
  {code : Code}

theorem Unfolds.result_of_mem_names (h : Unfolds r temps marks source code)
    (hreserves : r.Reserves) (hname : name ∈ code.names) (hfree : name ∉ r.functions.taken)
    : ∃ out, Relation.ReflTransGen r.IsSource out source
        ∧ ∃ result, temps.lookup out = some result ∧ name ∈ result.names := by
  induction h with
  | circular | tooDeep | missing => exact (not_mem_nil hname).elim
  | @node out node operand hnode _ htyped ih =>
    have hmem := Wiring.mem_of_node?_eq_some hnode
    obtain htaken | ⟨socket, hsocket, hname⟩ | hresult :=
      Routine.mem_names_nodeCode hreserves hmem hname
    · exact absurd htaken hfree
    · cases hsource : r.wiring.source? node.id socket with
      | none =>
        rw [htyped socket hsocket hsource, names_typedOperand] at hname
        exact (not_mem_nil hname).elim
      | some source =>
        obtain ⟨result, hpath, hresult⟩ := ih socket hsocket source hsource hname
        exact ⟨result, hpath.tail (Routine.mem_dependencies hnode hsocket hsource), hresult⟩
    · rw [Wiring.id_of_node?_eq_some hnode] at hresult
      exact ⟨out, .refl, hresult⟩

theorem Unfolds.names_result_subset (h : Unfolds r temps marks source code)
    (hmarks : ¬ marks) {out : Endpoint} (hpath : Relation.ReflTransGen r.IsSource out source)
    (houtput : r.IsResult out) {result : Code} (hresult : temps.lookup out = some result)
    : result.names ⊆ code.names := by
  induction h with
  | circular _ h | tooDeep _ h => exact absurd h hmarks
  | @missing source hnone =>
    obtain rfl | ⟨next, -, hnext⟩ := hpath.cases_tail
    · simp [Routine.IsResult, Routine.resultSockets, hnone] at houtput
    · simp [Routine.IsSource, Routine.dependencies, hnone] at hnext
  | @node source node operand hnode _ _ ih =>
    obtain rfl | ⟨next, hpath, hnext⟩ := hpath.cases_tail
    · have hid := Wiring.id_of_node?_eq_some hnode
      unfold Routine.nodeCode
      obtain hkind | hkind := houtput.kind hnode <;> simp [hkind, hid, hresult, NodeKind.operator?]
    · unfold Routine.IsSource Routine.dependencies at hnext
      rw [hnode] at hnext
      obtain ⟨socket, hsocket, hsource⟩ := mem_filterMap.mp hnext
      intro name hname
      exact Routine.names_operand_subset hsocket (ih socket hsocket next hsource hpath hname)

end Unfolds

end Compile

end NodeScript
