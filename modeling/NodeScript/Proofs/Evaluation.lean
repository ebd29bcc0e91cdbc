import NodeScript.Proofs.GraphRun
import NodeScript.Proofs.Programs
import NodeScript.Proofs.Progress

/-!
What generated expressions yield: the same as the graph, wherever the variables of the program have the
values that the store gives them.
-/

namespace NodeScript.Compile

open Script Dialog

/-- The computation yields the value and leaves the machine as it is, or it is given up if `p`. -/
def Computes {α : Type} (p : Prop) (x : Exec α) (m : Machine) (value : Except RuntimeError α) : Prop :=
  Matches p (¬ p) (fun result value => result = (value, m)) (x m) (.done value)

namespace Computes

variable {α β : Type} {p : Prop} {x : Exec α} {m : Machine} {value : Except RuntimeError α}

theorem exhausted (h : p) : Computes p (Exec.exhausted : Exec α) m value :=
  .left h _

theorem pure (a : α) : Computes p (Pure.pure a : Exec α) m (.ok a) :=
  .done rfl

theorem fail (e : RuntimeError) : Computes p (Exec.fail e : Exec α) m (.error e) :=
  .done rfl

theorem ofExcept (value : Except RuntimeError α) : Computes p (Exec.ofExcept value) m value := by
  cases value with
  | ok a => exact .pure a
  | error e => exact .fail e

theorem bind {f : α → Exec β} {g : α → Except RuntimeError β} (hx : Computes p x m value)
    (hf : ∀ a, Computes p (f a) m (g a)) : Computes p (x >>= f) m (value >>= g) := by
  refine Matches.bind hx (g := fun value => .done (value >>= g)) ?_
  rintro _ (e | a) rfl
  · exact .done rfl
  · exact hf a

theorem descend (hm : m.descent < maxDescent) (h : Computes p x m.deeper value)
    : Computes p (Exec.descend x) m value := by
  unfold Computes Exec.descend
  rw [if_neg (Nat.not_le.mpr hm)]
  refine Matches.bind h (g := .done) ?_
  rintro _ value rfl
  exact .done rfl

end Computes

def Mirrors (m : Machine) (store : Store) : Prop :=
  ∀ name, m.env.get? name = store.lookup name

theorem Mirrors.deeper {m : Machine} {store : Store} (h : Mirrors m store) : Mirrors m.deeper store :=
  h

variable {name : String}

theorem Store.word_eq_read (store : Store) (h : name ∉ reservedWords) : store.word name = store.read name := by
  unfold word read
  split
  · rfl
  · split
    · exact absurd (by decide) h
    · exact absurd (by decide) h
    · rfl

theorem isMath_identifier (h : name ∉ reservedWords) : Exec.isMath (.identifier name) = pure false := by
  unfold Exec.isMath
  split
  · next heq =>
    cases heq
    exact absurd (by decide) h
  · rfl

section Lookup

variable {p : Prop} {m : Machine} {store : Store} (hmirrors : Mirrors m store)

include hmirrors

theorem computes_lookup (name : String) : Computes p (Exec.lookup name) m (store.read name) := by
  unfold Computes Store.read
  cases hlookup : store.lookup name with
  | some value =>
    rw [Exec.lookup_of_some ((hmirrors name).trans hlookup)]
    exact .done rfl
  | none =>
    rw [Exec.lookup_of_none ((hmirrors name).trans hlookup)]
    exact .done rfl

theorem computes_identifier (name : String) : Computes p (Exec.identifier name) m (store.word name) := by
  unfold Computes Store.word
  cases hlookup : store.lookup name with
  | some value =>
    rw [Exec.identifier_of_some ((hmirrors name).trans hlookup)]
    exact .done rfl
  | none =>
    rw [Exec.identifier_of_none ((hmirrors name).trans hlookup)]
    by_cases hnan : name = "NaN"
    · subst hnan
      exact .done rfl
    · by_cases hinfinity : name = "Infinity"
      · subst hinfinity
        exact .done rfl
      · have hconstant : Exec.constant name = Exec.fail (.undefinedName name) := by
          simp [Exec.constant]
        rw [hconstant]
        simp only
        exact .done rfl

end Lookup

theorem of_no_steps {p : Prop} {steps : Nat} (h : ¬ p → steps + 1 ≤ 0) : p :=
  by_contra fun hp => absurd (h hp) (Nat.not_succ_le_zero steps)

theorem computes_eval {p : Prop} {m : Machine} {expr : Expr} {body : Nat → Exec Value}
    (heq : ∀ bound, Exec.eval (bound + 1) expr = Exec.descend (body bound)) {steps bound : Nat}
    (hdescent : m.descent < maxDescent) (hbound : ¬ p → steps + 1 ≤ bound) {value : Except RuntimeError Value}
    (h : ∀ bound, (¬ p → steps ≤ bound) → Computes p (body bound) m.deeper value)
    : Computes p (Exec.eval bound expr) m value := by
  cases bound with
  | zero =>
    rw [Exec.eval]
    exact .exhausted (of_no_steps hbound)
  | succ bound =>
    rw [heq]
    exact .descend hdescent (h bound fun hp => Nat.le_of_succ_le_succ (hbound hp))

/-- The expression yields the value wherever the variables are those of the store, with enough steps and few
enough expressions in progress. It may be given up if `p`. -/
def Code.Means (p : Prop) (store : Store) (code : Code) (value : Except RuntimeError Value) : Prop :=
  ∀ m bound, Mirrors m store → m.descent + code.height + 2 ≤ maxDescent → (¬ p → code.height + 2 ≤ bound)
    → Computes p (Exec.eval bound code.tree) m value

namespace Code

variable {p : Prop} {store : Store} {a b : Except RuntimeError Value} {left right : Code}

theorem means_leaf {code : Code} (hheight : code.height = 0) {body : Nat → Exec Value}
    (heq : ∀ bound, Exec.eval (bound + 1) code.tree = Exec.descend (body bound))
    (h : ∀ m bound, Mirrors m store → m.descent < maxDescent → (¬ p → 1 ≤ bound) → Computes p (body bound) m a)
    : code.Means p store a := by
  intro m bound hmirrors hdescent hbound
  rw [hheight] at hdescent hbound
  refine computes_eval heq (by omega) hbound fun bound hbound => h _ bound hmirrors ?_ hbound
  rw [Machine.descent_deeper]
  omega

theorem Means.operand {code : Code} (h : code.Means p store a) {m : Machine} (hmirrors : Mirrors m store) {height : Nat}
    (hheight : code.height + 1 ≤ height) (hdescent : m.descent + height + 2 ≤ maxDescent) {bound : Nat}
    (hbound : ¬ p → height + 1 ≤ bound) : Computes p (Exec.eval bound code.tree) m.deeper a := by
  refine h _ bound hmirrors.deeper ?_ fun hp => ?_
  · rw [Machine.descent_deeper]
    omega
  · have := hbound hp
    omega

theorem means_ident (h : name ∉ reservedWords) : (ident name).Means p store (store.read name) := by
  rw [← store.word_eq_read h]
  exact means_leaf rfl (fun _ => rfl) fun m _ hmirrors _ _ => computes_identifier hmirrors name

theorem means_quoted (text : String) : (quoted text).Means p store (.ok (.str text)) :=
  means_leaf rfl (fun _ => rfl) fun _ _ _ _ _ => .pure _

theorem means_raw {text : String} (h : IsAtom text) : (raw text).Means p store (store.typed text) := by
  obtain ⟨tree, htree⟩ := Option.isSome_iff_exists.mp h
  have hraw : (raw text).tree = tree := by
    have hne : text ≠ "[]" := by
      rintro rfl
      contradiction
    exact (if_neg hne).trans (by rw [htree]; rfl)
  unfold Store.typed
  rw [htree]
  cases isAtomic_of_atomTree?_eq_some htree with
  | number | str | bool | null | undefined => exact means_leaf rfl (fun _ => by rw [hraw]; rfl) fun _ _ _ _ _ => .pure _
  | identifier name =>
    exact means_leaf rfl (fun _ => by rw [hraw]; rfl) fun _ _ hmirrors _ _ => computes_identifier hmirrors name

theorem means_length (h : name ∉ reservedWords)
    : (length name).Means p store (do (← store.read name).readProperty "length") := by
  refine means_leaf rfl (fun _ => rfl) fun m bound hmirrors hdescent hbound => ?_
  dsimp only [tree]
  rw [isMath_identifier h, ← store.word_eq_read h]
  exact .bind (computes_eval (fun _ => rfl) hdescent hbound fun _ _ => computes_identifier hmirrors.deeper name)
    fun _ => .ofExcept _

theorem Means.binary {operator : String} {op : BinaryOp} (hop : binaryOp? operator = some op)
    (hleft : left.Means p store a) (hright : right.Means p store b)
    : (binary operator left right).Means p store (do return op.apply (← a) (← b)) := by
  intro m bound hmirrors hdescent hbound
  rw [height] at hdescent hbound
  have htree : (Code.binary operator left right).tree = .binary op left.tree right.tree := by
    rw [tree, hop]
    rfl
  rw [htree]
  refine computes_eval (fun _ => rfl) (by omega) hbound fun bound hbound => ?_
  have hleft := hleft.operand hmirrors (by omega) hdescent hbound
  have hright := hright.operand hmirrors (by omega) hdescent hbound
  exact .bind hleft fun _ => .bind hright fun _ => .pure _

theorem Means.not (h : left.Means p store a) : left.not.Means p store (do return UnaryOp.not.apply (← a)) := by
  intro m bound hmirrors hdescent hbound
  rw [height] at hdescent hbound
  refine computes_eval (fun _ => rfl) (by omega) hbound fun bound hbound => ?_
  exact .bind (h.operand hmirrors (by omega) hdescent hbound) fun _ => .pure _

theorem Means.element (hname : name ∉ reservedWords) (h : left.Means p store a)
    : (element name left).Means p store (do (← store.read name).readElement (← a)) := by
  intro m bound hmirrors hdescent hbound
  rw [height] at hdescent hbound
  refine computes_eval (fun _ => rfl) (by omega) hbound fun bound hbound => ?_
  have harray := (means_ident hname).operand hmirrors (by rw [height]; omega) hdescent hbound
  have hindex := h.operand hmirrors (by omega) hdescent hbound
  exact .bind harray fun _ => .bind hindex fun _ => .ofExcept _

end Code

section Values

variable {r : Routine} {p : Prop} {store : Store} {node : Node} {socket : String}
  {valueOf : Endpoint → Except RuntimeError Value} {code : Code}
  (hwired : ∀ source, r.wiring.source? node.id socket = some source → code.Means p store (valueOf source))

include hwired

theorem means_inputValue (htokens : HasTokens node) {fallback : String} (hfallback : IsAtom fallback)
    (htyped : r.wiring.source? node.id socket = none → code = .raw ((node.data.inline? socket).getD fallback))
    : code.Means p store (r.inputValue store valueOf node socket fallback) := by
  unfold Routine.inputValue
  split
  · next source hsource => exact hwired source hsource
  · next hnone =>
    have hatom : IsAtom ((node.data.inline? socket).getD fallback) := by
      cases htext : node.data.inline? socket with
      | none => exact hfallback
      | some text => exact htokens.plainText r socket hnone text htext
    rw [htyped hnone]
    exact Code.means_raw hatom

theorem means_textValue
    (htyped : r.wiring.source? node.id socket = none → code = .quoted ((node.data.inline? socket).getD ""))
    : code.Means p store (r.textValue valueOf node socket) := by
  unfold Routine.textValue
  split
  · next source hsource => exact hwired source hsource
  · next hnone =>
    rw [htyped hnone]
    exact Code.means_quoted _

end Values

namespace Unfolds

variable {r : Routine} {out : Endpoint} {code : Code}

theorem exists_ranked {temps : List (Endpoint × Code)} (h : Unfolds r temps False out code) : ∃ n, r.Ranked n out := by
  induction h with
  | circular _ h | tooDeep _ h => exact h.elim
  | @missing out h =>
    refine ⟨1, ?_⟩
    intro source hsource
    simp [Routine.dependencies, h] at hsource
  | @node out node operand h _ _ ih =>
    have hsources : ∀ source ∈ r.dependencies out, ∃ n, r.Ranked n source := by
      intro source hsource
      simp only [Routine.dependencies, h, List.mem_filterMap] at hsource
      obtain ⟨socket, hsocket, hsource⟩ := hsource
      exact ih socket hsocket source hsource
    obtain ⟨n, hn⟩ := Routine.exists_ranked_of_sources hsources
    exact ⟨n + 1, hn⟩

variable (hstructured : r.Structured) (htokens : ∀ node ∈ r.wiring.nodes, HasTokens node) {p : Prop}
  {store : Store}

include hstructured htokens

theorem means_nodeCode {node : Node} (hnode : node ∈ r.wiring.nodes) {operand : String → Code}
    {valueOf : Endpoint → Except RuntimeError Value} (hwired : ∀ socket ∈ operandSockets (r.kindOf node), ∀ source,
      r.wiring.source? node.id socket = some source → (operand socket).Means p store (valueOf source))
    (htyped : ∀ socket ∈ operandSockets (r.kindOf node), r.wiring.source? node.id socket = none
      → operand socket = typedOperand (r.kindOf node) node socket) (socket : String)
    : (r.nodeCode [] node socket operand).Means p store (r.nodeValue store valueOf node socket) := by
  have hkinds := hstructured node hnode
  have hvariable : ∀ default, variableOf node default ∉ reservedWords :=
    fun default => sanitize_not_mem_reservedWords _
  have hinput : ∀ socket ∈ operandSockets (r.kindOf node), ∀ fallback,
      typedOperand (r.kindOf node) node socket = .raw ((node.data.inline? socket).getD fallback)
        → IsAtom fallback → (operand socket).Means p store (r.inputValue store valueOf node socket fallback) :=
    fun socket hsocket fallback hraw hfallback => means_inputValue (hwired socket hsocket) (htokens node hnode)
      hfallback fun hnone => (htyped socket hsocket hnone).trans hraw
  unfold Routine.nodeCode Routine.nodeValue
  cases hkind : r.kindOf node with
  | add | subtract | multiply | divide | modulo | greater | less | equal | greaterEq | lessEq | notEqual =>
    rw [hkind] at hinput
    exact .binary rfl (hinput "a" (by decide) "0" rfl (by decide)) (hinput "b" (by decide) "0" rfl (by decide))
  | concat =>
    rw [hkind] at hwired htyped
    exact .binary rfl (means_textValue (hwired "a" (by decide)) (htyped "a" (by decide)))
      (means_textValue (hwired "b" (by decide)) (htyped "b" (by decide)))
  | not =>
    rw [hkind] at hinput
    exact .not (hinput "value" (by decide) "false" rfl (by decide))
  | get => exact Code.means_ident (hvariable _)
  | set | input =>
    by_cases hsocket : socket = "out-value"
    · subst hsocket
      exact Code.means_ident (hvariable _)
    · simpa [NodeKind.operator?, operation?, hsocket] using Code.means_raw (by decide)
  | arrayLength => exact Code.means_length (hvariable _)
  | arrayGet =>
    rw [hkind] at hinput
    exact .element (hvariable _) (hinput "index" (by decide) "0" rfl (by decide))
  | forLoop | random | arrayPop | functionEntry | functionReturn | callFunction => simp [hkind] at hkinds
  | _ => exact Code.means_raw (by decide)

theorem means (h : Unfolds r [] False out code) {room : Nat} (hranked : r.Ranked room out)
    : code.Means p store (r.valueOf store room out) := by
  induction h generalizing room with
  | circular _ h | tooDeep _ h => exact h.elim
  | missing h =>
    cases room with
    | zero => exact hranked.elim
    | succ room =>
      rw [Routine.valueOf, h]
      exact Code.means_raw (by decide)
  | @node out node operand h _ htyped ih =>
    cases room with
    | zero => exact hranked.elim
    | succ room =>
      rw [Routine.valueOf, h]
      refine means_nodeCode hstructured htokens (Wiring.mem_of_node?_eq_some h) ?_ htyped out.socket
      intro socket hsocket source hsource
      exact ih socket hsocket source hsource (hranked source (Routine.mem_dependencies h hsocket hsource))

end Unfolds

end NodeScript.Compile
