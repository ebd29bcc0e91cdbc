import NodeScript.Proofs.ExpressionDepth

/-!
Expressions that are remembered against expressions that are not. An expression that is found again
counts for nothing against the number of outputs that a path may still pass, so it can be longer than
what would have been found there. It is not if every output leaves, wherever it is come to again,
room for what fitted before.
-/

namespace NodeScript.Compile

open List

variable {code : Code} {r : Routine} {visits' : List Visit}

namespace Code

def isCut : Code → Bool
  | tooDeep => true
  | binary _ left right | random left right => left.isCut || right.isCut
  | not operand | element _ operand => operand.isCut
  | ident _ | member _ _ | raw _ | quoted _ | length _ | undefined | circular => false

variable {code : Code}

theorem isCut_eq_any_parts (h : code ≠ tooDeep) : code.isCut = code.parts.any isCut := by
  cases code with
  | tooDeep => exact absurd rfl h
  | _ => simp [isCut, parts]

theorem isProvisional_of_isCut (h : code.isCut) : code.isProvisional := by
  induction code with
  | tooDeep => exact isProvisional_tooDeep
  | binary _ _ _ ih ih' | random _ _ ih ih' =>
    obtain h | h := Bool.or_eq_true_iff.mp h
    · exact isProvisional_of_mem_parts (by simp [parts]) (ih h)
    · exact isProvisional_of_mem_parts (by simp [parts]) (ih' h)
  | not operand ih | element array index ih => exact isProvisional_of_mem_parts (by simp [parts]) (ih h)
  | _ => simp [isCut] at h

theorem height_le_of_parts {height : Nat} (h : ∀ part ∈ code.parts, part.height ≤ height)
    : code.height ≤ height + 3 := by
  cases code with
  | binary | random | not | element =>
    simp only [parts, forall_mem_cons] at h
    simp only [Code.height]
    omega
  | _ => exact Nat.zero_le _

def isReference : Code → Bool
  | ident _ | member _ _ => true
  | _ => false

end Code

def References (temps : List (Endpoint × Code)) : Prop :=
  ∀ entry ∈ temps, entry.2.isReference

theorem References.getD {temps : List (Endpoint × Code)} (h : References temps) (out : Endpoint)
    : ((temps.lookup out).getD .undefined).parts = []
        ∧ (temps.lookup out).getD .undefined ≠ .tooDeep := by
  cases hlookup : temps.lookup out with
  | none => exact ⟨rfl, nofun⟩
  | some code =>
    have hcode := h _ (mem_of_lookup_eq_some hlookup)
    cases code with
    | ident | member => exact ⟨rfl, nofun⟩
    | _ => exact nomatch hcode

variable {out : Endpoint} {passed : List Endpoint} {s : State} {seen : List Visit} {x : Build Code}
  {socket : String}

namespace Routine

variable {r : Routine} {temps : List (Endpoint × Code)}

theorem parts_nodeCode (h : References temps) (node : Node) (socket : String) (operand : String → Code)
    : (r.nodeCode temps node socket operand).parts = (operandSockets (r.kindOf node)).map operand
        ∧ r.nodeCode temps node socket operand ≠ .tooDeep := by
  have hparam : ((r.signature.bind (·.paramName? socket)).elim Code.undefined .ident).parts = []
      ∧ (r.signature.bind (·.paramName? socket)).elim Code.undefined .ident ≠ .tooDeep := by
    cases r.signature.bind (·.paramName? socket) <;> exact ⟨rfl, nofun⟩
  unfold nodeCode operandSockets
  generalize r.kindOf node = kind
  split
  · exact ⟨rfl, nofun⟩
  · next hoperator =>
    split
    any_goals exact ⟨rfl, nofun⟩
    any_goals exact h.getD _
    · exact hparam
    · simp_all [Code.parts]

theorem mem_parts_nodeCode {node : Node} (hsocket : socket ∈ operandSockets (r.kindOf node)) (name : String)
    (operand : String → Code)
    : operand socket ∈ (r.nodeCode temps node name operand).parts := by
  unfold operandSockets at hsocket
  unfold nodeCode
  generalize r.kindOf node = kind at hsocket ⊢
  cases hoperator : kind.operator? with
  | some operator =>
    simp only [hoperator] at hsocket
    exact mem_map_of_mem hsocket
  | none =>
    simp only [hoperator] at hsocket ⊢
    split
    any_goals exact (not_mem_nil hsocket).elim
    any_goals exact mem_map_of_mem hsocket
    · simp_all

def assemble (r : Routine) (temps : List (Endpoint × Code)) (expression : Endpoint → Code) (out : Endpoint) : Code :=
  match r.wiring.node? out.node with
  | some node =>
    r.nodeCode temps node out.socket fun socket =>
      (r.wiring.source? node.id socket).elim (typedOperand (r.kindOf node) node socket) expression
  | none => .raw "0"

/-- The expression of an output, found without remembering any. `room` is how many more outputs the
path may pass, and `passed` are those it has. -/
def unfold (r : Routine) (temps : List (Endpoint × Code)) : (room : Nat) → List Endpoint → Endpoint → Code
  | 0, passed, out => if passed.contains out then .circular else .tooDeep
  | room + 1, passed, out =>
    if passed.contains out then
      .circular
    else
      r.assemble temps (r.unfold temps room (out :: passed)) out

variable {room : Nat}

theorem unfold_succ (h : out ∉ passed) : r.unfold temps (room + 1) passed out =
      r.assemble temps (r.unfold temps room (out :: passed)) out := by
  rw [unfold, if_neg (by simpa using h)]

theorem unfold_of_mem (h : out ∈ passed) : r.unfold temps room passed out = .circular := by
  cases room <;> rw [unfold, if_pos (by simpa using h)]

theorem assemble_congr {expression expression' : Endpoint → Code}
    (h : ∀ source ∈ r.dependencies out, expression source = expression' source)
    : r.assemble temps expression out = r.assemble temps expression' out := by
  unfold assemble
  split
  · next node hnode =>
    apply nodeCode_congr
    intro socket hsocket
    cases hsource : r.wiring.source? node.id socket with
    | none => rfl
    | some source => exact h source (mem_dependencies hnode hsocket hsource)
  · rfl

theorem any_assemble (htemps : References temps) {p : Code → Bool} (htext : ∀ text, p (.raw text) = false)
    (htyped : ∀ kind node socket, p (typedOperand kind node socket) = false)
    (hparts : ∀ node socket operand, p (r.nodeCode temps node socket operand)
      = (r.nodeCode temps node socket operand).parts.any p) (expression : Endpoint → Code) (out : Endpoint)
    : p (r.assemble temps expression out) =
      (r.dependencies out).any fun source => p (expression source) := by
  unfold assemble dependencies
  cases r.wiring.node? out.node with
  | none => exact htext "0"
  | some node =>
    dsimp only
    rw [hparts, (parts_nodeCode htemps node out.socket _).1, any_map, any_filterMap]
    congr 1
    funext socket
    dsimp only [Function.comp_apply]
    cases r.wiring.source? node.id socket with
    | none => exact htyped _ _ _
    | some source => rfl

theorem isCut_assemble (htemps : References temps) (expression : Endpoint → Code) (out : Endpoint)
    : (r.assemble temps expression out).isCut =
      (r.dependencies out).any fun source => (expression source).isCut :=
  any_assemble htemps (fun _ => rfl) (fun kind _ _ => by cases kind <;> rfl)
    (fun node socket _ => Code.isCut_eq_any_parts (parts_nodeCode htemps node socket _).2) expression out

theorem isProvisional_assemble {expression : Endpoint → Code} {source : Endpoint}
    (hsource : source ∈ r.dependencies out) (h : (expression source).isProvisional)
    : (r.assemble temps expression out).isProvisional := by
  unfold dependencies at hsource
  unfold assemble
  cases hnode : r.wiring.node? out.node with
  | none =>
    rw [hnode] at hsource
    exact (not_mem_nil hsource).elim
  | some node =>
    rw [hnode] at hsource
    obtain ⟨socket, hsocket, hsource⟩ := mem_filterMap.mp hsource
    refine Code.isProvisional_of_mem_parts (mem_parts_nodeCode hsocket out.socket _) ?_
    rw [hsource]
    exact h

theorem ranked_of_unfold (h : (r.unfold temps room passed out).isProvisional = false) : r.Ranked room out := by
  induction room generalizing passed out with
  | zero =>
    unfold unfold at h
    split at h
    · simp [Code.isProvisional_circular] at h
    · simp [Code.isProvisional_tooDeep] at h
  | succ room ih =>
    by_cases hmem : out ∈ passed
    · simp [unfold_of_mem hmem, Code.isProvisional_circular] at h
    · rw [unfold_succ hmem] at h
      intro source hsource
      apply ih
      by_contra hprovisional
      rw [isProvisional_assemble hsource (by simpa using hprovisional)] at h
      exact nomatch h

theorem unfold_of_ranked {n : Nat} (h : r.Ranked n out) (hroom : n ≤ room) (hchain : (out :: passed).IsChain r.IsSource)
    : r.unfold temps room passed out = r.unfold temps n [] out := by
  induction n generalizing out room passed with
  | zero => exact h.elim
  | succ n ih =>
    obtain ⟨room, rfl⟩ : ∃ r, room = r + 1 := ⟨room - 1, by omega⟩
    -- What is whole has no cycles, so that nothing on the path is come to again.
    rw [unfold_succ (h.not_mem hchain), unfold_succ not_mem_nil]
    apply assemble_congr
    intro source hsource
    have hlonger := ih (h source hsource) (Nat.le_of_succ_le_succ hroom) (isChain_cons_cons.mpr ⟨hsource, hchain⟩)
    have hshorter := ih (h source hsource) (Nat.le_refl n) (isChain_cons_cons.mpr ⟨hsource, isChain_singleton out⟩)
    rw [hlonger, hshorter]

theorem unfold_eq_unfold {room' : Nat} (h : r.Ranked room out) (h' : r.Ranked room' out)
    (hchain : (out :: passed).IsChain r.IsSource)
    : r.unfold temps room passed out = r.unfold temps room' [] out := by
  have hnil := isChain_singleton (R := r.IsSource) out
  obtain hle | hle := Nat.le_total room room'
  · rw [unfold_of_ranked h (Nat.le_refl room) hchain, unfold_of_ranked h hle hnil]
  · exact unfold_of_ranked h' hle hchain

def LongChain (r : Routine) (out : Endpoint) : Prop :=
  ∃ chain : List Endpoint, (out :: chain).IsChain (fun out source => r.IsSource source out)
      ∧ (out :: chain).Nodup ∧ maxExpressionDepth < (out :: chain).length

theorem isCut_unfold_iff (htemps : References temps)
    : (r.unfold temps room passed out).isCut ↔ ∃ chain : List Endpoint,
        (out :: chain).IsChain (fun out source => r.IsSource source out)
          ∧ (out :: chain).Nodup ∧ (∀ out' ∈ out :: chain, out' ∉ passed)
          ∧ room ≤ chain.length := by
  induction room generalizing passed out with
  | zero =>
    by_cases hmem : out ∈ passed
    · simp [unfold_of_mem hmem, Code.isCut, hmem]
    · have hcut : (r.unfold temps 0 passed out).isCut := by
        rw [unfold, if_neg (by simpa using hmem)]
        rfl
      refine iff_of_true hcut ⟨[], isChain_singleton _, nodup_singleton _, ?_, Nat.le_refl 0⟩
      rwa [forall_mem_singleton]
  | succ room ih =>
    by_cases hmem : out ∈ passed
    · simp [unfold_of_mem hmem, Code.isCut, hmem]
    · rw [unfold_succ hmem, isCut_assemble htemps, any_eq_true]
      constructor
      · rintro ⟨source, hsource, hcut⟩
        obtain ⟨chain, hchain, hnodup, hfresh, hlength⟩ := ih.mp hcut
        refine ⟨source :: chain, isChain_cons_cons.mpr ⟨hsource, hchain⟩, ?_, ?_, Nat.succ_le_succ hlength⟩
        · refine nodup_cons.mpr ⟨?_, hnodup⟩
          exact fun houtput => hfresh out houtput (mem_cons_self ..)
        · refine forall_mem_cons.mpr ⟨hmem, ?_⟩
          exact fun out' houtput' hpassed => hfresh out' houtput' (mem_cons_of_mem _ hpassed)
      · rintro ⟨chain, hchain, hnodup, hfresh, hlength⟩
        obtain _ | ⟨source, chain⟩ := chain
        · exact absurd hlength (Nat.not_succ_le_zero room)
        · obtain ⟨hsource, hchain⟩ := isChain_cons_cons.mp hchain
          obtain ⟨hnew, hnodup⟩ := nodup_cons.mp hnodup
          refine ⟨source, hsource, ih.mpr ⟨chain, hchain, hnodup, ?_, Nat.le_of_succ_le_succ hlength⟩⟩
          intro out' houtput' hpassed
          obtain rfl | hpassed := mem_cons.mp hpassed
          · exact hnew houtput'
          · exact hfresh out' (mem_cons_of_mem _ houtput') hpassed

theorem isCut_unfold_iff_longChain (htemps : References temps)
    : (r.unfold temps maxExpressionDepth [] out).isCut ↔ r.LongChain out := by
  rw [isCut_unfold_iff htemps]
  apply exists_congr
  intro chain
  have hfresh : ∀ out' ∈ out :: chain, out' ∉ ([] : List Endpoint) := fun _ _ => not_mem_nil
  rw [length_cons, Nat.lt_succ_iff]
  exact ⟨fun h => ⟨h.1, h.2.1, h.2.2.2⟩, fun h => ⟨h.1, h.2.1, hfresh, h.2.2⟩⟩

end Routine

/-- The expression follows data edges back from the output, on each path to at most so many outputs
before it ends in a marker. -/
inductive FoldsWithin (r : Routine) (temps : List (Endpoint × Code))
    : Nat → Endpoint → Code → Prop where
  | circular (n : Nat) (out : Endpoint) : FoldsWithin r temps n out .circular
  | tooDeep (n : Nat) (out : Endpoint) : FoldsWithin r temps n out .tooDeep
  | missing (n : Nat) {out : Endpoint} (h : r.wiring.node? out.node = none) :
    FoldsWithin r temps (n + 1) out (.raw "0")
  | node {n : Nat} {out : Endpoint} {node : Node} (operand : String → Code)
    (h : r.wiring.node? out.node = some node)
    (hsupplied : ∀ socket ∈ operandSockets (r.kindOf node), ∀ source,
      r.wiring.source? node.id socket = some source → FoldsWithin r temps n source (operand socket))
    (htyped : ∀ socket ∈ operandSockets (r.kindOf node), r.wiring.source? node.id socket = none
        → operand socket = typedOperand (r.kindOf node) node socket) :
    FoldsWithin r temps (n + 1) out (r.nodeCode temps node out.socket operand)

theorem foldsWithin_unfold (r : Routine) (temps : List (Endpoint × Code)) (room : Nat)
    (passed : List Endpoint) (out : Endpoint)
    : FoldsWithin r temps room out (r.unfold temps room passed out) := by
  induction room generalizing passed out with
  | zero =>
    unfold Routine.unfold
    split
    · exact .circular 0 out
    · exact .tooDeep 0 out
  | succ room ih =>
    by_cases hmem : out ∈ passed
    · rw [Routine.unfold_of_mem hmem]
      exact .circular _ out
    · rw [Routine.unfold_succ hmem, Routine.assemble]
      split
      · next node hnode =>
        refine .node _ hnode ?_ ?_
        · intro socket _ source hsource
          rw [hsource]
          exact ih (out :: passed) source
        · intro socket _ hnone
          rw [hnone]
          rfl
      · next hnone => exact .missing room hnone

theorem FoldsWithin.height_le {temps : List (Endpoint × Code)} (htemps : References temps) {n : Nat}
    (h : FoldsWithin r temps n out code) : code.height ≤ 3 * n := by
  induction h with
  | circular | tooDeep | missing => exact Nat.zero_le _
  | @node n out node operand h hsupplied htyped ih =>
    apply Code.height_le_of_parts
    rw [(Routine.parts_nodeCode htemps node out.socket operand).1, forall_mem_map]
    intro socket hsocket
    cases hsource : r.wiring.source? node.id socket with
    | none => rw [htyped socket hsocket hsource, height_typedOperand]; exact Nat.zero_le _
    | some source => exact ih socket hsocket source hsource

/-- An output that a path comes to, and how many outputs the path may still pass. -/
structure Visit where
  room : Nat
  output : Endpoint

instance Routine.decidableRanked (r : Routine) :
    (n : Nat) → (out : Endpoint) → Decidable (r.Ranked n out)
  | 0, _ => isFalse id
  | n + 1, out =>
    have := r.decidableRanked n
    inferInstanceAs (Decidable (∀ source ∈ r.dependencies out, r.Ranked n source))

/-- If there is room for the whole expression of an output at the first visit, there is at the second
one. -/
def Visit.Allows (r : Routine) (visit visit' : Visit) : Prop :=
  visit.output = visit'.output → r.Ranked visit.room visit.output → r.Ranked visit'.room visit'.output

instance (r : Routine) (visit visit' : Visit) : Decidable (visit.Allows r visit') :=
  inferInstanceAs (Decidable (visit.output = visit'.output → r.Ranked visit.room visit.output
    → r.Ranked visit'.room visit'.output))

namespace Routine

/-- The visits on all paths along data edges from the output on, in the order in which expressions
are put together. -/
def visits (r : Routine) : (room : Nat) → List Endpoint → Endpoint → List Visit
  | 0, _, out => [⟨0, out⟩]
  | room + 1, passed, out =>
    ⟨room + 1, out⟩ :: if passed.contains out then []
      else (r.dependencies out).flatMap (r.visits room (out :: passed))

/-- No output has less room than its whole expression takes, after it once had as much. -/
def Steady (r : Routine) (visits : List Visit) : Prop :=
  visits.Pairwise (Visit.Allows r)

instance (r : Routine) (visits : List Visit) : Decidable (r.Steady visits) :=
  inferInstanceAs (Decidable (visits.Pairwise (Visit.Allows r)))

variable {r : Routine}

theorem mem_visits (r : Routine) (room : Nat) (passed : List Endpoint) (out : Endpoint)
    : ⟨room, out⟩ ∈ r.visits room passed out := by
  cases room <;> exact mem_cons_self ..

theorem Steady.left {visits : List Visit} (h : r.Steady (visits ++ visits')) : r.Steady visits :=
  (pairwise_append.mp h).1

end Routine

def Diagnostic.isExpressionTooDeep : Diagnostic → Bool
  | .expressionTooDeep _ => true
  | _ => false

/-- What is known after some visits: expressions that are remembered are not cut, and as long as
there was room for them, they are those that would be found again. -/
structure Kept (r : Routine) (seen : List Visit) (s : State) : Prop where
  uncut : ∀ entry ∈ s.memo, entry.2.isCut = false
  whole : r.Steady seen → ∀ entry ∈ s.memo, ∃ room, ⟨room, entry.1⟩ ∈ seen
    ∧ r.Ranked room entry.1 ∧ entry.2 = r.unfold s.temporaries room [] entry.1
  references : References s.temporaries
  counted : s.diagnostics.countP Diagnostic.isExpressionTooDeep = s.depthReported.toNat

theorem Kept.append (h : Kept r seen s) (visits : List Visit) : Kept r (seen ++ visits) s where
  uncut := h.uncut
  whole hsteady entry hentry :=
    let ⟨room, hseen, hwhole⟩ := h.whole hsteady.left entry hentry
    ⟨room, mem_append_left _ hseen, hwhole⟩
  references := h.references
  counted := h.counted

theorem Kept.congr {s' : State} (h : Kept r seen s) (hmemo : s'.memo = s.memo) (htemps : s'.temporaries = s.temporaries)
    (hcounted : s'.diagnostics.countP Diagnostic.isExpressionTooDeep = s'.depthReported.toNat)
    : Kept r seen s' where
  uncut := hmemo ▸ h.uncut
  whole := hmemo ▸ htemps ▸ h.whole
  references := htemps ▸ h.references
  counted := hcounted

theorem Kept.eq_unfold (hs : Kept r seen s) {room : Nat} (hchain : (out :: passed).IsChain r.IsSource)
    (hcode : s.memo.lookup out = some code) (hsteady : r.Steady (seen ++ r.visits room passed out))
    : code = r.unfold s.temporaries room passed out := by
  obtain ⟨room', hseen, hranked, hwhole⟩ := hs.whole hsteady.left _ (mem_of_lookup_eq_some hcode)
  have hallows := (pairwise_append.mp hsteady).2.2 _ hseen _ (r.mem_visits room passed out)
  exact hwhole.trans (Routine.unfold_eq_unfold (hallows rfl hranked) hranked hchain).symm

namespace Build

variable {r : Routine}

def Reads (r : Routine) (x : Build Code) (visits : List Visit) (expected : List (Endpoint × Code) → Code) : Prop :=
  ∀ seen s, Kept r seen s → Kept r (seen ++ visits) (x.run s).2 ∧ (x.run s).2.temporaries = s.temporaries
    ∧ (x.run s).2.depthReported = (s.depthReported || (x.run s).1.isCut)
    ∧ (r.Steady (seen ++ visits) → (x.run s).1 = expected s.temporaries)

variable {visits : List Visit} {room : Nat}

namespace Reads

theorem pure (h : code.isCut = false) : Reads r (Pure.pure code) [] fun _ => code := by
  intro seen s hs
  refine ⟨hs.append [], rfl, ?_, fun _ => rfl⟩
  rw [run_pure, h, Bool.or_false]

variable {expected : List (Endpoint × Code) → Code}

theorem cons (hx : Reads r x visits expected) (visit : Visit) : Reads r x (visit :: visits) expected := by
  intro seen s hs
  rw [← singleton_append, ← append_assoc]
  exact hx (seen ++ [visit]) s (hs.append [visit])

theorem map (hx : Reads r x visits expected) {f : Code → Code} (hf : ∀ a, (f a).isCut = a.isCut)
    : Reads r (do let a ← x; return f a) visits fun temps => f (expected temps) := by
  intro seen s hs
  obtain ⟨hkept, htemps, hreported, hexpected⟩ := hx seen s hs
  rw [run_bind, run_pure]
  refine ⟨hkept, htemps, ?_, fun hsteady => congrArg f (hexpected hsteady)⟩
  rw [hreported, hf]

theorem pair {y : Build Code} {expected' : List (Endpoint × Code) → Code} (hx : Reads r x visits expected)
    (hy : Reads r y visits' expected') {f : Code → Code → Code} (hf : ∀ a b, (f a b).isCut = (a.isCut || b.isCut))
    : Reads r (do let a ← x; let b ← y; return f a b) (visits ++ visits')
        fun temps => f (expected temps) (expected' temps) := by
  intro seen s hs
  obtain ⟨hkept, htemps, hreported, hexpected⟩ := hx seen s hs
  obtain ⟨hkept', htemps', hreported', hexpected'⟩ := hy _ _ hkept
  rw [append_assoc] at hkept' hexpected'
  rw [run_bind, run_bind, run_pure]
  refine ⟨hkept', htemps'.trans htemps, ?_, ?_⟩
  · rw [hreported', hreported, hf, Bool.or_assoc]
  · intro hsteady
    have hleft : r.Steady (seen ++ visits) := by
      rw [← append_assoc] at hsteady
      exact hsteady.left
    rw [hexpected hleft, hexpected' hsteady, htemps]

end Reads

theorem reads_result (out : Endpoint)
    : Reads r (do return ((← get).temporaries.lookup out).getD .undefined) []
        fun temps => (temps.lookup out).getD .undefined := by
  intro seen s hs
  obtain ⟨hparts, hne⟩ := hs.references.getD out
  have hcut : ((s.temporaries.lookup out).getD .undefined).isCut = false := by
    rw [Code.isCut_eq_any_parts hne, hparts]
    rfl
  refine ⟨hs.append [], rfl, ?_, fun _ => rfl⟩
  rw [run_get, run_pure, hcut, Bool.or_false]

structure Composes {τ : Type} (R : Build Code → List τ → (List (Endpoint × Code) → Code) → Prop) : Prop where
  pure {code : Code} (h : code.isCut = false) : R (Pure.pure code) [] fun _ => code
  result (out : Endpoint) : R (do return ((← get).temporaries.lookup out).getD .undefined) []
      fun temps => (temps.lookup out).getD .undefined
  map {x : Build Code} {trace : List τ} {expected : List (Endpoint × Code) → Code} (hx : R x trace expected)
      {f : Code → Code} (hf : ∀ a, (f a).isCut = a.isCut)
    : R (do let a ← x; return f a) trace fun temps => f (expected temps)
  pair {x y : Build Code} {trace trace' : List τ} {expected expected' : List (Endpoint × Code) → Code}
      (hx : R x trace expected) (hy : R y trace' expected') {f : Code → Code → Code}
      (hf : ∀ a b, (f a b).isCut = (a.isCut || b.isCut))
    : R (do let a ← x; let b ← y; return f a b) (trace ++ trace')
      fun temps => f (expected temps) (expected' temps)

theorem composes_reads : Composes (Reads r) where
  pure := .pure
  result := reads_result
  map := .map
  pair := .pair

namespace Composes

variable {τ : Type} {R : Build Code → List τ → (List (Endpoint × Code) → Code) → Prop} (hR : Composes R)
  {resolve : Resolver} {trace : Endpoint → List τ} {expected : List (Endpoint × Code) → Endpoint → Code} {node : Node}

include hR

theorem operand (h : ∀ source, r.wiring.source? node.id socket = some source
      → R (resolve source) (trace source) fun temps => expected temps source) (fallback : String)
    : R (Build.operand r resolve node socket fallback)
        ((r.wiring.source? node.id socket).toList.flatMap trace) fun temps =>
          (r.wiring.source? node.id socket).elim
            (.raw ((node.data.inline? socket).getD fallback)) (expected temps) := by
  unfold Build.operand
  split
  · next source hsource =>
    rw [hsource, Option.toList_some, flatMap_singleton]
    exact h source hsource
  · next hnone =>
    rw [hnone]
    exact hR.pure rfl

theorem textOperand (h : ∀ source, r.wiring.source? node.id socket = some source
      → R (resolve source) (trace source) fun temps => expected temps source)
    : R (Build.textOperand r resolve node socket)
        ((r.wiring.source? node.id socket).toList.flatMap trace) fun temps =>
          (r.wiring.source? node.id socket).elim
            (.quoted ((node.data.inline? socket).getD "")) (expected temps) := by
  unfold Build.textOperand
  split
  · next source hsource =>
    rw [hsource, Option.toList_some, flatMap_singleton]
    exact h source hsource
  · next hnone =>
    rw [hnone]
    exact hR.pure rfl

theorem resolveNode (h : ∀ socket ∈ operandSockets (r.kindOf node), ∀ source,
      r.wiring.source? node.id socket = some source
        → R (resolve source) (trace source) fun temps => expected temps source) (socket : String)
    : R (Build.resolveNode r resolve node socket)
        (((operandSockets (r.kindOf node)).filterMap (r.wiring.source? node.id)).flatMap trace)
        fun temps => r.nodeCode temps node socket fun socket =>
          (r.wiring.source? node.id socket).elim (typedOperand (r.kindOf node) node socket)
            (expected temps) := by
  rw [filterMap_eq_flatMap_toList]
  unfold Build.resolveNode Routine.nodeCode operandSockets
  unfold operandSockets at h
  generalize r.kindOf node = kind at *
  dsimp only
  split
  · next operator hoperator =>
    simp only [hoperator, typedOperand_of_operator? hoperator] at h ⊢
    simp only [flatMap_cons, flatMap_nil, append_nil, flatMap_append]
    exact hR.pair (hR.operand (h _ (by simp)) _) (hR.operand (h _ (by simp)) _) fun _ _ => rfl
  · next hoperator =>
    simp only [hoperator] at h ⊢
    split
    any_goals exact hR.pure rfl
    any_goals exact hR.result _
    · simp only [flatMap_cons, flatMap_nil, append_nil, flatMap_append]
      exact hR.pair (hR.textOperand (h _ (by simp))) (hR.textOperand (h _ (by simp))) fun _ _ => rfl
    · simp only [flatMap_cons, flatMap_nil, append_nil, flatMap_append]
      exact hR.pair (hR.operand (h _ (by simp)) _) (hR.operand (h _ (by simp)) _) fun _ _ => rfl
    · simp only [flatMap_cons, flatMap_nil, append_nil]
      exact hR.map (hR.operand (h _ (by simp)) _) fun _ => rfl
    · simp only [flatMap_cons, flatMap_nil, append_nil]
      exact hR.map (hR.operand (h _ (by simp)) _) fun _ => rfl
    · refine hR.pure ?_
      cases r.signature.bind (·.paramName? socket) <;> rfl
    · have hzero : R (Pure.pure (.raw "0")) [] fun _ => .raw "0" := hR.pure rfl
      simp [*]

theorem resolveOutput (out : Endpoint) (h : ∀ source ∈ r.dependencies out,
      R (resolve source) (trace source) fun temps => expected temps source)
    : R (Build.resolveOutput r resolve out) ((r.dependencies out).flatMap trace)
        fun temps => r.assemble temps (expected temps) out := by
  unfold Build.resolveOutput Routine.assemble Routine.dependencies
  unfold Routine.dependencies at h
  cases hnode : r.wiring.node? out.node with
  | none => exact hR.pure rfl
  | some node =>
    apply hR.resolveNode
    intro socket hsocket source hsource
    apply h
    rw [hnode]
    exact mem_filterMap.mpr ⟨socket, hsocket, hsource⟩

end Composes

theorem kept_reportCycle (hs : Kept r seen s) (out : Endpoint)
    : Kept r seen ((reportCycle out).run s).2 ∧ ((reportCycle out).run s).2.temporaries = s.temporaries
        ∧ ((reportCycle out).run s).2.depthReported = s.depthReported := by
  unfold reportCycle
  rw [run_get]
  split
  · refine ⟨hs.congr rfl rfl ?_, rfl, rfl⟩
    exact (countP_append ..).trans hs.counted
  · exact ⟨hs, rfl, rfl⟩

theorem kept_reportDepth (hs : Kept r seen s) (node : String) : Kept r seen ((reportDepth node).run s).2
        ∧ ((reportDepth node).run s).2.temporaries = s.temporaries
        ∧ ((reportDepth node).run s).2.depthReported = true := by
  unfold reportDepth
  rw [run_get]
  split
  · next hnew =>
    refine ⟨hs.congr rfl rfl ?_, rfl, rfl⟩
    have hnone : s.diagnostics.countP Diagnostic.isExpressionTooDeep = 0 := by
      rw [hs.counted, show s.depthReported = false by simpa using hnew]
      rfl
    exact (countP_append ..).trans (congrArg (· + 1) hnone)
  · next hold => exact ⟨hs, rfl, show s.depthReported = true by simpa using hold⟩

theorem kept_remember (hs : Kept r seen s) (out : Endpoint) (code : Code)
    (h : r.Steady seen → code.isProvisional = false → ∃ room, ⟨room, out⟩ ∈ seen
      ∧ r.Ranked room out ∧ code = r.unfold s.temporaries room [] out)
    : Kept r seen ((remember out code).run s).2 ∧ ((remember out code).run s).2.temporaries = s.temporaries
        ∧ ((remember out code).run s).2.depthReported = s.depthReported := by
  unfold remember
  split
  · exact ⟨hs, rfl, rfl⟩
  · next hprovisional =>
    have hprovisional : code.isProvisional = false := by simpa using hprovisional
    refine ⟨⟨?_, ?_, hs.references, hs.counted⟩, rfl, rfl⟩
    · refine forall_mem_cons.mpr ⟨?_, hs.uncut⟩
      by_contra hcut
      rw [Code.isProvisional_of_isCut (by simpa using hcut)] at hprovisional
      exact nomatch hprovisional
    · exact fun hsteady => forall_mem_cons.mpr ⟨h hsteady hprovisional, hs.whole hsteady⟩

theorem Reads.remember (hchain : (out :: passed).IsChain r.IsSource) (hx : Reads r x (r.visits room passed out)
      fun temps => r.unfold temps room passed out)
    : Reads r (do let code ← x; remember out code; return code)
        (r.visits room passed out)
        fun temps => r.unfold temps room passed out := by
  intro seen s hs
  obtain ⟨hkept, htemps, hreported, hexpected⟩ := hx seen s hs
  obtain ⟨hkept', htemps', hreported'⟩ := kept_remember hkept out (x.run s).1 <| by
    intro hsteady hprovisional
    rw [hexpected hsteady] at hprovisional ⊢
    have hranked := Routine.ranked_of_unfold hprovisional
    refine ⟨room, mem_append_right _ (r.mem_visits room passed out), hranked, ?_⟩
    rw [htemps]
    exact Routine.unfold_eq_unfold hranked hranked hchain
  rw [run_bind, run_bind, run_pure]
  exact ⟨hkept', htemps'.trans htemps, hreported'.trans hreported, hexpected⟩

theorem reads_resolve_cases (hchain : (out :: passed).IsChain r.IsSource)
    (houtput : ∀ room', room = room' + 1 → out ∉ passed
      → Reads r (resolveOutput r (resolve r room' (out :: passed)) out)
          (r.visits room passed out)
          fun temps => r.unfold temps room passed out)
    : Reads r (resolve r room passed out) (r.visits room passed out)
        fun temps => r.unfold temps room passed out := by
  intro seen s hs
  unfold resolve
  rw [run_get]
  split
  · next code hcode =>
    -- No visit is made below an output that is remembered, so all of them count as made.
    refine ⟨hs.append _, rfl, ?_, hs.eq_unfold hchain hcode⟩
    rw [run_pure, hs.uncut _ (mem_of_lookup_eq_some hcode), Bool.or_false]
  · split
    · next hmem =>
      obtain ⟨hkept, htemps, hreported⟩ := kept_reportCycle hs out
      refine ⟨hkept.append _, htemps, hreported.trans (Bool.or_false _).symm, fun _ => ?_⟩
      exact (Routine.unfold_of_mem (by simpa using hmem)).symm
    · next hmem =>
      cases room with
      | zero =>
        obtain ⟨hkept, htemps, hreported⟩ := kept_reportDepth hs out.node
        refine ⟨hkept.append _, htemps, hreported.trans (Bool.or_true _).symm, fun _ => ?_⟩
        exact (if_neg hmem).symm
      | succ room => exact (houtput room rfl (by simpa using hmem)).remember hchain seen s hs

theorem reads_resolve (room : Nat) (hchain : (out :: passed).IsChain r.IsSource)
    : Reads r (resolve r room passed out) (r.visits room passed out)
        fun temps => r.unfold temps room passed out := by
  induction room generalizing passed out with
  | zero => exact reads_resolve_cases hchain fun _ heq => nomatch heq
  | succ room ih =>
    apply reads_resolve_cases hchain
    rintro _ heq hmem
    cases heq
    simp only [Routine.unfold_succ hmem]
    rw [Routine.visits, if_neg (by simpa using hmem)]
    apply Reads.cons
    apply composes_reads.resolveOutput
    intro source hsource
    exact ih (isChain_cons_cons.mpr ⟨hsource, hchain⟩)

theorem lookup_resolve (room : Nat) (passed : List Endpoint) (out : Endpoint) (s : State)
    : ((resolve r room passed out).run s).1.isProvisional = false
        → ((resolve r room passed out).run s).2.memo.lookup out
          = some ((resolve r room passed out).run s).1 := by
  unfold resolve
  rw [run_get]
  split
  · next code hcode => exact fun _ => hcode
  · split
    · intro h
      exact nomatch Code.isProvisional_circular.symm.trans h
    · cases room with
      | zero =>
        intro h
        exact nomatch Code.isProvisional_tooDeep.symm.trans h
      | succ room =>
        dsimp only
        rw [run_bind, run_bind, run_pure]
        intro h
        unfold remember
        rw [if_neg (by simpa using h)]
        exact lookup_cons_self

end Build

end NodeScript.Compile
