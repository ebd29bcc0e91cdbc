import Mathlib.Data.List.Chain
import Mathlib.Data.List.Nodup
import Mathlib.Logic.Relation
import NodeScript.Proofs.Trees
import NodeScript.Proofs.Unfolding

/-!
How deep expressions are: if no path along data edges passes more than a number of different
outputs, then expressions are at most three levels per output deep, remembered or not.
-/

namespace NodeScript.Compile

open List

inductive Shaped (operand : String → Code) : List String → Code → Prop where
  | binary (operator : String) (h : (binaryOp? operator).isSome) :
    Shaped operand ["a", "b"] (.binary operator (operand "a") (operand "b"))
  | random : Shaped operand ["min", "max"] (.random (operand "min") (operand "max"))
  | not : Shaped operand ["value"] (.not (operand "value"))
  | element (array : String) (h : IsName array) :
    Shaped operand ["index"] (.element array (operand "index"))
  | leaf (code : Code) (h : code.Within 0) : Shaped operand [] code

namespace Shaped

variable {operand : String → Code} {sockets : List String} {code : Code}

theorem height_le (h : Shaped operand sockets code) {height : Nat}
    (hoperand : ∀ socket ∈ sockets, (operand socket).height ≤ height) : code.height ≤ height + 3 := by
  cases h with
  | leaf code h => exact Nat.le_trans h.2 (Nat.zero_le _)
  | _ =>
    simp only [forall_mem_cons] at hoperand
    simp only [Code.height]
    omega

theorem fits (h : Shaped operand sockets code) (hoperand : ∀ socket ∈ sockets, (operand socket).Fits) : code.Fits := by
  cases h with
  | binary operator h => exact ⟨h, hoperand _ (by simp), hoperand _ (by simp)⟩
  | random => exact ⟨hoperand _ (by simp), hoperand _ (by simp)⟩
  | not => exact hoperand _ (by simp)
  | element array h => exact ⟨h, hoperand _ (by simp)⟩
  | leaf code h => exact h.1

end Shaped

theorem occurs_iff {part text : List Char} : occurs part text ↔ part <:+: text := by
  induction text with
  | nil => simp [occurs]
  | cons c rest ih => rw [occurs, Bool.or_eq_true, ih, isPrefixOf_iff_prefix, infix_cons_iff]

theorem Code.isProvisional_of_infix {code code' : Code} (h : code.text.toList <:+: code'.text.toList)
    (hcode : code.isProvisional) : code'.isProvisional := by
  simp only [Code.isProvisional, Bool.or_eq_true, occurs_iff] at hcode ⊢
  exact hcode.imp (·.trans h) (·.trans h)

namespace Code

def parts : Code → List Code
  | binary _ left right => [left, right]
  | random least greatest => [least, greatest]
  | not operand => [operand]
  | element _ index => [index]
  | ident _ | member _ _ | raw _ | quoted _ | length _ | undefined | circular | tooDeep => []

theorem infix_of_mem_parts {code part : Code} (h : part ∈ code.parts) : part.text.toList <:+: code.text.toList := by
  cases code with
  | binary operator left right =>
    change _ <:+: ("(" ++ left.text ++ " " ++ operator ++ " " ++ right.text ++ ")").toList
    obtain rfl | rfl : part = left ∨ part = right := by simpa [parts] using h
    · exact ⟨['('], (" " ++ operator ++ " " ++ right.text ++ ")").toList, by simp⟩
    · exact ⟨("(" ++ left.text ++ " " ++ operator ++ " ").toList, [')'], by simp⟩
  | random least greatest =>
    change _ <:+: ("(Math.floor(Math.random() * (" ++ greatest.text ++ " - " ++ least.text
      ++ " + 1)) + " ++ least.text ++ ")").toList
    obtain rfl | rfl : part = least ∨ part = greatest := by simpa [parts] using h
    · exact ⟨("(Math.floor(Math.random() * (" ++ greatest.text ++ " - " ++ part.text
        ++ " + 1)) + ").toList, [')'], by simp⟩
    · exact ⟨"(Math.floor(Math.random() * (".toList, (" - " ++ least.text ++ " + 1)) + "
        ++ least.text ++ ")").toList, by simp⟩
  | not operand =>
    obtain rfl : part = operand := by simpa [parts] using h
    change _ <:+: ("(!" ++ part.text ++ ")").toList
    exact ⟨['(', '!'], [')'], by simp⟩
  | element array index =>
    obtain rfl : part = index := by simpa [parts] using h
    change _ <:+: (array ++ "[" ++ part.text ++ "]").toList
    exact ⟨(array ++ "[").toList, [']'], by simp⟩
  | _ => simp [parts] at h

theorem isProvisional_of_mem_parts {code part : Code} (h : part ∈ code.parts)
    (hpart : part.isProvisional) : code.isProvisional :=
  isProvisional_of_infix (infix_of_mem_parts h) hpart

end Code

theorem Shaped.isProvisional {operand : String → Code} {sockets : List String} {code : Code}
    (h : Shaped operand sockets code) {socket : String} (hsocket : socket ∈ sockets)
    (hoperand : (operand socket).isProvisional) : code.isProvisional := by
  apply Code.isProvisional_of_mem_parts _ hoperand
  cases h with
  | leaf code h => simp at hsocket
  | _ =>
    simp only [mem_cons, not_mem_nil, or_false] at hsocket
    rcases hsocket with rfl | rfl <;> simp [Code.parts]

theorem height_typedOperand (kind : NodeKind) (node : Node) (socket : String)
    : (typedOperand kind node socket).height = 0 := by
  cases kind <;> rfl

theorem mem_of_paramName?_eq_some {sig : Signature} {port name : String}
    (h : sig.paramName? port = some name) : name ∈ sig.params := by
  unfold Signature.paramName? at h
  obtain ⟨⟨param, name⟩, hfind, rfl⟩ := Option.map_eq_some_iff.mp h
  exact (of_mem_zip (mem_of_find?_eq_some hfind)).2

variable {out : Endpoint} {n : Nat} {temps : List (Endpoint × Code)} {passed : List Endpoint}

theorem shaped_nodeCode {r : Routine} (hsig : ∀ sig ∈ r.signature, sig.Named)
    (htemps : ∀ entry ∈ temps, entry.2.Within 0) (node : Node) (socket : String) (operand : String → Code)
    : Shaped operand (operandSockets (r.kindOf node)) (r.nodeCode temps node socket operand) := by
  have hvariable : ∀ default, IsName (variableOf node default) := fun _ => isName_sanitize _
  have hident : ∀ {name}, IsName name → (Code.ident name).Within 0 := fun h => ⟨h, Nat.le_refl 0⟩
  have htemporary : ((temps.lookup ⟨node.id, socket⟩).getD .undefined).Within 0 := by
    cases hlookup : temps.lookup ⟨node.id, socket⟩ with
    | none => exact ⟨trivial, Nat.le_refl 0⟩
    | some code => exact htemps _ (mem_of_lookup_eq_some hlookup)
  have hparam : ((r.signature.bind (·.paramName? socket)).elim Code.undefined .ident).Within 0 := by
    cases hname : r.signature.bind (·.paramName? socket) with
    | none => exact ⟨trivial, Nat.le_refl 0⟩
    | some name =>
      obtain ⟨sig, hsome, hparam⟩ := Option.bind_eq_some_iff.mp hname
      exact hident ((hsig sig hsome).params name (mem_of_paramName?_eq_some hparam))
  unfold operandSockets Routine.nodeCode
  generalize r.kindOf node = kind
  split
  · next operator hoperator =>
    have : (binaryOp? operator).isSome := by
      cases kind <;> cases hoperator <;> rfl
    exact .binary operator this
  · next hoperator =>
    split
    · exact .binary "+" rfl
    · exact .random
    · exact .not
    · exact .element _ (hvariable _)
    · refine .leaf _ ?_
      split
      · exact hident (hvariable _)
      · contradiction
      · contradiction
      · contradiction
      · exact hident (hvariable _)
      · exact hident (hvariable _)
      · exact hident (hvariable _)
      · exact ⟨hvariable _, Nat.le_refl 0⟩
      · contradiction
      · exact htemporary
      · exact htemporary
      · exact hparam
      · exact ⟨.inr (by decide), Nat.le_refl 0⟩

namespace Routine

variable {r : Routine}

/-- The expression of the second output is made of that of the first one. -/
def IsSource (r : Routine) (source out : Endpoint) : Prop :=
  source ∈ r.dependencies out

def IsUsed (r : Routine) (out : Endpoint) : Prop :=
  ∃ node socket, r.wiring.source? node socket = some out

theorem isUsed_of_isSource {source : Endpoint} (h : r.IsSource source out) : r.IsUsed source := by
  unfold IsSource dependencies at h
  split at h
  · next node _ =>
    obtain ⟨socket, -, hsource⟩ := mem_filterMap.mp h
    exact ⟨node.id, socket, hsource⟩
  · exact (not_mem_nil h).elim

/-- No path along data edges passes too many different outputs. -/
def ShortChains (r : Routine) : Prop :=
  ∀ chain : List Endpoint, chain.IsChain (fun out source => r.IsSource source out)
    → chain.Nodup → chain.length ≤ maxExpressionDepth

/-- No path along data edges from the output on passes so many outputs, counted with repetitions. -/
def Ranked (r : Routine) : Nat → Endpoint → Prop
  | 0, _ => False
  | n + 1, out => ∀ source ∈ r.dependencies out, r.Ranked n source

theorem Ranked.succ (h : r.Ranked n out) : r.Ranked (n + 1) out := by
  induction n generalizing out with
  | zero => exact h.elim
  | succ n ih => exact fun source hsource => ih (h source hsource)

theorem Ranked.mono {n' : Nat} (h : r.Ranked n out) (hn : n ≤ n') : r.Ranked n' out := by
  induction hn with
  | refl => exact h
  | step _ ih => exact ih.succ

theorem exists_ranked_of_sources {sources : List Endpoint} (h : ∀ source ∈ sources, ∃ n, r.Ranked n source)
    : ∃ n, ∀ source ∈ sources, r.Ranked n source := by
  induction sources with
  | nil => exact ⟨0, by simp⟩
  | cons source sources ih =>
    obtain ⟨n, hn⟩ := h source (mem_cons_self ..)
    obtain ⟨n', hn'⟩ := ih fun source hsource => h source (mem_cons_of_mem _ hsource)
    refine ⟨max n n', forall_mem_cons.mpr ⟨hn.mono (Nat.le_max_left ..), ?_⟩⟩
    exact fun source hsource => (hn' source hsource).mono (Nat.le_max_right ..)

theorem Ranked.not_circular (h : r.Ranked n out) : ¬ Relation.TransGen r.IsSource out out := by
  induction n generalizing out with
  | zero => exact h.elim
  | succ n ih =>
    intro hcircle
    obtain ⟨source, hpath, hsource⟩ := Relation.TransGen.tail'_iff.mp hcircle
    exact ih (h source hsource) (.head' hsource hpath)

theorem Ranked.not_mem (h : r.Ranked n out) (hchain : (out :: passed).IsChain r.IsSource) : out ∉ passed := by
  intro hmem
  have hpairs := (hchain.imp fun _ _ => Relation.TransGen.single).pairwise
  exact h.not_circular (rel_of_pairwise_cons hpairs hmem)

theorem Ranked.rest (hshort : r.ShortChains) (h : r.Ranked n out) (hpassed : passed.Nodup)
    (hchain : (out :: passed).IsChain r.IsSource)
    : r.Ranked (maxExpressionDepth - passed.length) out := by
  induction n generalizing out passed with
  | zero => exact h.elim
  | succ n ih =>
    have hnodup : (out :: passed).Nodup := nodup_cons.mpr ⟨h.not_mem hchain, hpassed⟩
    have hlength := hshort (out :: passed).reverse (isChain_reverse.mpr hchain) (nodup_reverse.mpr hnodup)
    simp only [length_reverse, length_cons] at hlength
    obtain ⟨room, hroom⟩ : ∃ room, maxExpressionDepth - passed.length = room + 1 :=
      ⟨maxExpressionDepth - passed.length - 1, by omega⟩
    rw [hroom]
    intro source hsource
    have := ih (h source hsource) hnodup (isChain_cons_cons.mpr ⟨hsource, hchain⟩)
    rwa [length_cons, show maxExpressionDepth - (passed.length + 1) = room by omega] at this

end Routine

theorem Code.isProvisional_circular : Code.circular.isProvisional := by
  simp only [Code.isProvisional, Bool.or_eq_true, occurs_iff]
  exact .inl infix_rfl

theorem Code.isProvisional_tooDeep : Code.tooDeep.isProvisional := by
  simp only [Code.isProvisional, Bool.or_eq_true, occurs_iff]
  exact .inr infix_rfl

section Heights

variable {r : Routine} (hsig : ∀ sig ∈ r.signature, sig.Named)

include hsig

variable {code : Code}

theorem Unfolds.settled (htemps : ∀ entry ∈ temps, entry.2.Within 0) {marks : Prop}
    (h : Unfolds r temps marks out code) (hcode : code.isProvisional = false)
    : (∃ n, r.Ranked n out) ∧ ∀ n, r.Ranked n out → code.height ≤ 3 * n := by
  induction h with
  | circular => simp [Code.isProvisional_circular] at hcode
  | tooDeep => simp [Code.isProvisional_tooDeep] at hcode
  | missing h =>
    refine ⟨⟨1, ?_⟩, fun n _ => Nat.zero_le _⟩
    intro source hsource
    simp [Routine.dependencies, h] at hsource
  | @node out node operand h hwired htyped ih =>
    have hshaped := shaped_nodeCode hsig htemps node out.socket operand
    have hoperand : ∀ socket ∈ operandSockets (r.kindOf node), (operand socket).isProvisional = false := by
      intro socket hsocket
      by_contra hprovisional
      simp [hshaped.isProvisional hsocket (by simpa using hprovisional)] at hcode
    refine ⟨?_, ?_⟩
    · have hsources : ∀ source ∈ r.dependencies out, ∃ n, r.Ranked n source := by
        intro source hsource
        simp only [Routine.dependencies, h, mem_filterMap] at hsource
        obtain ⟨socket, hsocket, hsource⟩ := hsource
        exact (ih socket hsocket source hsource (hoperand socket hsocket)).1
      obtain ⟨n, hn⟩ := Routine.exists_ranked_of_sources hsources
      exact ⟨n + 1, hn⟩
    · intro n hn
      cases n with
      | zero => exact hn.elim
      | succ n =>
        apply hshaped.height_le
        intro socket hsocket
        cases hsource : r.wiring.source? node.id socket with
        | none => rw [htyped socket hsocket hsource, height_typedOperand]; exact Nat.zero_le _
        | some source =>
          exact (ih socket hsocket source hsource (hoperand socket hsocket)).2 n
            (hn source (Routine.mem_dependencies h hsocket hsource))

theorem Unfolds.height_le_room (hshort : r.ShortChains) (htemps : ∀ entry ∈ temps, entry.2.Within 0)
    {marks : Prop} (h : Unfolds r temps marks out code) (hcode : code.isProvisional = false)
    (hpassed : passed.Nodup) (hchain : (out :: passed).IsChain r.IsSource) {room : Nat}
    (hroom : room + passed.length = maxExpressionDepth) : code.height ≤ 3 * room := by
  obtain ⟨⟨n, hn⟩, hheight⟩ := h.settled hsig htemps hcode
  apply hheight
  have hrest := hn.rest hshort hpassed hchain
  rwa [← hroom, Nat.add_sub_cancel] at hrest

namespace Build

theorem Assembled.height_le (htemps : ∀ entry ∈ temps, entry.2.Within 0)
    {good : Endpoint → Code → Prop} {height : Nat} (hgood : ∀ source code, good source code → code.height ≤ height)
    (h : Assembled r temps good out code)
    : code.height ≤ height + 3 := by
  cases h with
  | missing => exact Nat.zero_le _
  | @node node operand h hsupplied =>
    apply (shaped_nodeCode hsig htemps node out.socket operand).height_le
    intro socket hsocket
    cases hsource : r.wiring.source? node.id socket with
    | none =>
      rw [(hsupplied socket hsocket).typed hsource, height_typedOperand]
      exact Nat.zero_le _
    | some source => exact hgood source _ ((hsupplied socket hsocket).wired source hsource)

theorem finds_resolve_height (hshort : r.ShortChains) {room : Nat} (hpassed : passed.Nodup)
    (hchain : (out :: passed).IsChain r.IsSource) (hroom : room + passed.length = maxExpressionDepth)
    : Finds r (resolve r room passed out) fun temps _ code =>
        (∀ entry ∈ temps, entry.2.Within 0) → code.height ≤ 3 * room := by
  induction room generalizing passed out with
  | zero =>
    refine finds_resolve_cases ?_ (fun _ _ _ _ _ => Nat.zero_le _)
      (fun _ _ _ _ _ => Nat.zero_le _) (fun _ heq => nomatch heq)
    intro temps marks code h hcode htemps
    exact h.height_le_room hsig hshort htemps hcode hpassed hchain hroom
  | succ room ih =>
    refine finds_resolve_cases ?_ (fun _ _ _ _ _ => Nat.zero_le _) (fun _ _ _ _ _ => Nat.zero_le _) ?_
    · intro temps marks code h hcode htemps
      exact h.height_le_room hsig hshort htemps hcode hpassed hchain hroom
    · rintro _ heq hnew
      cases heq
      have hnodup : (out :: passed).Nodup := nodup_cons.mpr ⟨hnew, hpassed⟩
      have hunfolds := finds_resolveOutput_unfolds out (finds_resolve r room (out :: passed))
      have hheight := finds_resolveOutput out fun source hsource =>
        ih hnodup (isChain_cons_cons.mpr ⟨hsource, hchain⟩) (by rw [length_cons]; omega)
      refine (hunfolds.and hheight).weaken ?_
      rintro temps marks code ⟨h, h'⟩
      refine ⟨h, fun htemps => ?_⟩
      exact h'.height_le hsig htemps fun _ _ h => h htemps

end Build

end Heights

end NodeScript.Compile
