import NodeScript.Compile.Walk

/-!
Reasoning about the state of a compilation: computations that only add diagnostics to those that
there are.
-/

namespace NodeScript.Compile

def State.withDiagnostics (s : State) (diagnostics : List Diagnostic) : State :=
  { s with diagnostics }

namespace Build

variable {α β : Type}

theorem run_pure (a : α) (s : State) : (pure a : Build α).run s = (a, s) := rfl

theorem run_bind (x : Build α) (f : α → Build β) (s : State) : (x >>= f).run s = (f (x.run s).1).run (x.run s).2 := rfl

def Adds (p : Diagnostic → Prop) (x : Build α) : Prop :=
  ∀ s, ∃ added, (∀ d ∈ added, p d) ∧
    ∀ old, x.run (s.withDiagnostics old) = ((x.run s).1, (x.run s).2.withDiagnostics (old ++ added))

namespace Adds

variable {p : Diagnostic → Prop} {x : Build α}

theorem pure (a : α) : Adds p (Pure.pure a : Build α) := by
  intro s
  refine ⟨[], by simp, ?_⟩
  intro old
  rw [List.append_nil]
  rfl

theorem bind {f : α → Build β} (hx : Adds p x) (hf : ∀ a, Adds p (f a)) : Adds p (x >>= f) := by
  intro s
  obtain ⟨added, hadded, hrun⟩ := hx s
  obtain ⟨added', hadded', hrun'⟩ := hf (x.run s).1 (x.run s).2
  refine ⟨added ++ added', ?_, ?_⟩
  · intro d hd
    cases List.mem_append.mp hd with
    | inl hd => exact hadded d hd
    | inr hd => exact hadded' d hd
  · intro old
    rw [run_bind, hrun, run_bind, hrun', List.append_assoc]

theorem get {f : State → Build β} (hf : ∀ s old, f (s.withDiagnostics old) = f s)
    (h : ∀ s, Adds p (f s)) : Adds p (MonadState.get >>= f) := by
  intro s
  obtain ⟨added, hadded, hrun⟩ := h s s
  refine ⟨added, hadded, ?_⟩
  intro old
  show (f (s.withDiagnostics old)).run (s.withDiagnostics old) = _
  rw [hf]
  exact hrun old

theorem modify (f : State → State) (hf : ∀ s old, f (s.withDiagnostics old) = (f s).withDiagnostics old)
    : Adds p (modify f : Build Unit) := by
  intro s
  refine ⟨[], by simp, ?_⟩
  intro old
  rw [List.append_nil]
  exact congrArg (Prod.mk ()) (hf s old)

theorem report {d : Diagnostic} (h : p d) : Adds p (Build.report d) := by
  intro s
  refine ⟨[d], by simpa using h, ?_⟩
  intro old
  rfl

theorem mapM {γ : Type} {f : γ → Build α} (hf : ∀ c, Adds p (f c)) (l : List γ) : Adds p (l.mapM f) := by
  induction l with
  | nil =>
    rw [List.mapM_nil]
    apply Adds.pure
  | cons c l ih =>
    rw [List.mapM_cons]
    apply Adds.bind (hf c)
    intro a
    apply Adds.bind ih
    intro as
    apply Adds.pure

theorem forM {γ : Type} {f : γ → Build Unit} (hf : ∀ c, Adds p (f c)) (l : List γ) : Adds p (l.forM f) := by
  induction l with
  | nil => apply Adds.pure
  | cons c l ih => exact Adds.bind (hf c) fun _ => ih

end Adds

section Parts

variable {p : Diagnostic → Prop} (r : Routine)

theorem adds_reportCycle (hp : ∀ node socket, p (.circularDependency node socket))
    (out : Endpoint) : Adds p (reportCycle out) := by
  unfold reportCycle
  apply Adds.get
  · intros; rfl
  · intro s
    split
    · apply Adds.bind
      · apply Adds.modify
        intros; rfl
      · intro
        apply Adds.report
        apply hp
    · apply Adds.pure

theorem adds_reportDepth (hp : ∀ node, p (.expressionTooDeep node)) (node : String) : Adds p (reportDepth node) := by
  unfold reportDepth
  apply Adds.get
  · intros; rfl
  · intro s
    split
    · apply Adds.bind
      · apply Adds.modify
        intros; rfl
      · intro
        apply Adds.report
        apply hp
    · apply Adds.pure

theorem adds_remember (out : Endpoint) (code : Code) : Adds p (remember out code) := by
  unfold remember
  split
  · apply Adds.pure
  · apply Adds.modify
    intros; rfl

theorem adds_operand {resolve : Resolver} (h : ∀ out, Adds p (resolve out)) (node : Node)
    (socket fallback : String) : Adds p (operand r resolve node socket fallback) := by
  unfold operand
  split
  · apply h
  · apply Adds.pure

theorem adds_resolveNode {resolve : Resolver} (h : ∀ out, Adds p (resolve out)) (node : Node)
    (socket : String) : Adds p (resolveNode r resolve node socket) := by
  have hoperand := fun node socket fallback => adds_operand r h node socket fallback
  have htext (node : Node) (socket : String) : Adds p (textOperand r resolve node socket) := by
    unfold textOperand
    split
    · apply h
    · apply Adds.pure
  unfold resolveNode
  dsimp only
  split
  · exact .bind (hoperand _ _ _) fun _ => .bind (hoperand _ _ _) fun _ => .pure _
  · split
    · apply Adds.pure
    · exact .bind (htext _ _) fun _ => .bind (htext _ _) fun _ => .pure _
    · exact .bind (hoperand _ _ _) fun _ => .bind (hoperand _ _ _) fun _ => .pure _
    · exact .bind (hoperand _ _ _) fun _ => .pure _
    · apply Adds.pure
    · apply Adds.pure
    · apply Adds.pure
    · apply Adds.pure
    · exact .bind (hoperand _ _ _) fun _ => .pure _
    · exact .get (fun _ _ => rfl) fun _ => .pure _
    · exact .get (fun _ _ => rfl) fun _ => .pure _
    · apply Adds.pure
    · apply Adds.pure

structure Ordinary (functions : Signatures) (p : Diagnostic → Prop) : Prop where
  cycle : ∀ node socket, p (.circularDependency node socket)
  depth : ∀ node, p (.expressionTooDeep node)
  call : ∀ node id, functions.get? id = none → p (.unknownFunction node id)

variable (hp : Ordinary r.functions p)

include hp

theorem adds_resolve (room : Nat) (passed : List Endpoint) (out : Endpoint) : Adds p (resolve r room passed out) := by
  induction room generalizing passed out with
  | zero =>
    unfold resolve
    apply Adds.get
    · intros; rfl
    · intro s
      split
      · apply Adds.pure
      · split
        · exact .bind (adds_reportCycle hp.cycle _) fun _ => .pure _
        · exact .bind (adds_reportDepth hp.depth _) fun _ => .pure _
  | succ room ih =>
    unfold resolve
    apply Adds.get
    · intros; rfl
    · intro s
      split
      · apply Adds.pure
      · split
        · exact .bind (adds_reportCycle hp.cycle _) fun _ => .pure _
        · dsimp only
          apply Adds.bind
          · unfold resolveOutput
            split
            · exact adds_resolveNode r (fun out => ih _ out) _ _
            · apply Adds.pure
          · intro code
            exact .bind (adds_remember _ _) fun _ => .pure _

theorem adds_input (node : Node) (socket fallback : String) : Adds p (input r node socket fallback) := by
  unfold input
  apply adds_operand
  intro out
  apply adds_resolve r hp

theorem adds_inputs (node : Node) (ports : List Port) : Adds p (inputs r node ports) := by
  unfold inputs
  apply Adds.mapM
  intro port
  apply adds_input r hp

omit hp in
theorem adds_declare (name : String) : Adds p (declare name) := by
  unfold declare
  apply Adds.get
  · intros; rfl
  · intro s
    dsimp only
    split
    · exact .bind (.modify _ fun _ _ => rfl) fun _ => .pure _
    · apply Adds.pure

omit hp in
theorem adds_temporary (base : String) : Adds p (temporary r base) := by
  unfold temporary
  apply Adds.get
  · intros; rfl
  · intro s
    exact .bind (.modify _ fun _ _ => rfl) fun _ => .pure _

omit hp in
theorem adds_bindTemporary (out : Endpoint) (code : Code) : Adds p (bindTemporary out code) :=
  .modify _ fun _ _ => rfl

omit hp in
theorem adds_bindResults (node : Node) (result : String) (sig : Signature) : Adds p (bindResults node result sig) := by
  unfold bindResults
  split
  · apply Adds.pure
  · apply adds_bindTemporary
  · apply Adds.forM
    intro
    apply adds_bindTemporary

theorem adds_returnItems (node : Node) : Adds p (returnItems r node) := by
  unfold returnItems
  split
  · apply Adds.pure
  · exact .bind (adds_inputs r hp _ _) fun _ => .pure _

theorem adds_callItems (node : Node) : Adds p (callItems r node) := by
  unfold callItems
  dsimp only
  split
  · next hnone => exact .bind (.report (hp.call _ _ hnone)) fun _ => .pure _
  · apply Adds.bind
    · apply adds_inputs r hp
    · intro arguments
      split
      · apply Adds.pure
      · exact .bind (adds_temporary r _) fun _ => .bind (adds_bindResults _ _ _) fun _ => .pure _

theorem adds_message (node : Node) : Adds p (message r node) := by
  unfold message
  split
  · apply adds_input r hp
  · apply Adds.pure

theorem adds_passItems (node : Node) : Adds p (passItems r node) := by
  have hinput := fun node socket fallback => adds_input r hp node socket fallback
  unfold passItems
  dsimp only
  split
  · exact .bind (adds_message r hp _) fun _ => .bind (adds_declare _) fun _ => .pure _
  · exact .bind (hinput _ _ _) fun _ => .pure _
  · exact .bind (hinput _ _ _) fun _ => .bind (adds_declare _) fun _ => .pure _
  · exact .bind (adds_declare _) fun _ => .pure _
  · exact .bind (hinput _ _ _) fun _ => .pure _
  · exact .bind (adds_temporary r _) fun _ => .bind (adds_bindTemporary _ _) fun _ => .pure _
  · exact .bind (hinput _ _ _) fun _ => .bind (hinput _ _ _) fun _ => .pure _
  · apply adds_callItems r hp
  · apply Adds.pure

theorem adds_lastItems (node : Node) : Adds p (lastItems r node) := by
  unfold lastItems
  dsimp only
  split
  any_goals apply Adds.pure
  · apply adds_returnItems r hp

theorem adds_loopHead (node : Node) : Adds p (loopHead r node) := by
  have hinput := fun node socket fallback => adds_input r hp node socket fallback
  unfold loopHead
  dsimp only
  split
  · exact .bind (hinput _ _ _) fun _ => .bind (hinput _ _ _) fun _ => .bind (hinput _ _ _) fun _ =>
      .bind (adds_declare _) fun _ => .pure _
  · exact .bind (hinput _ _ _) fun _ => .pure _

theorem adds_walk (hcut : ∀ node, p (.nestingTooDeep node)) (tour : Tour) : Adds p (walk r tour) := by
  induction tour with
  | stop => exact .pure _
  | cut node => exact .bind (.report (hcut node.id)) fun _ => .pure _
  | pass node rest ih => exact .bind (adds_passItems r hp node) fun _ => .bind ih fun _ => .pure _
  | last node => exact adds_lastItems r hp node
  | branch node onTrue onFalse ihTrue ihFalse =>
    exact .bind (adds_input r hp _ _ _) fun _ => .bind ihTrue fun _ => .bind ihFalse fun _ => .pure _
  | loop node body rest ihBody ihRest =>
    exact .bind (adds_loopHead r hp node) fun _ => .bind ihBody fun _ => .bind ihRest fun _ => .pure _

theorem forall_mem_compileFrom (hcut : ∀ node, p (.nestingTooDeep node)) (hstart : ∀ d ∈ r.start.diagnostics, p d)
    (entry : Node) (depth : Nat) : ∀ d ∈ (r.compileFrom entry depth).2, p d := by
  obtain ⟨added, hadded, hrun⟩ := adds_walk r hp hcut (r.tourFrom entry depth) r.start
  have hdiagnostics : (r.compileFrom entry depth).2 = r.start.diagnostics ++ added :=
    congrArg (fun result => result.2.diagnostics) (hrun r.start.diagnostics)
  rw [hdiagnostics]
  exact List.forall_mem_append.mpr ⟨hstart, hadded⟩

end Parts

end Build

end NodeScript.Compile
