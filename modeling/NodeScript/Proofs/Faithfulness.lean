import NodeScript.Proofs.ControlPaths
import NodeScript.Proofs.Simulation

/-!
Programs do what their graphs do, as long as a loop writes to no variable that was new when it was entered.
-/

namespace NodeScript.Compile

open List

variable {items : List Item} {n : Nat} {node : Node}

open Script Dialog

def Ending.flow : Ending → Flow
  | finished => .normal
  | broke => .broke
  | continued => .continued

namespace Tour

def Prepared (r : Routine) : List String → Tour → Prop
  | _, stop | _, cut _ | _, last _ => True
  | written, pass node rest => rest.Prepared r ((r.writes? node).toList ++ written)
  | written, branch _ onTrue onFalse => onTrue.Prepared r written ∧ onFalse.Prepared r written
  | written, loop _ body rest =>
    (∀ node ∈ body.nodes, ∀ name ∈ r.writes? node, name ∈ written)
      ∧ body.Prepared r written ∧ rest.Prepared r written

def Settled (r : Routine) (store : Store) (tour : Tour) : Prop :=
  ∀ node ∈ tour.nodes, ∀ name ∈ r.writes? node, (store.lookup name).isSome

def steps (n : Nat) : Tour → Nat
  | stop | cut _ | last _ => lineRoom
  | pass _ rest => rest.steps n + 1
  | branch _ onTrue onFalse => max (onTrue.steps n) (onFalse.steps n) + 3
  | loop _ body rest => max (body.steps n + n + 3) (rest.steps n) + 1

theorem lineRoom_le_steps (n : Nat) (tour : Tour) : lineRoom ≤ tour.steps n := by
  induction tour with
  | stop | cut | last => exact Nat.le_refl _
  | pass node rest ih => exact Nat.le_succ_of_le ih
  | branch node onTrue onFalse ihTrue ihFalse | loop node body rest ihBody ihRest =>
    rw [steps]
    omega

end Tour

def Arrives (settled : Prop) (m : Machine) (flow : Flow) (m' : Machine) (ending : Ending) (store' : Store) : Prop :=
  flow = ending.flow ∧ (settled → Steady m m' store')

variable {tour : Tour} {declared written : List String} {cond : Code} {stmt : Stmt} {β : Type}
  {path : List Endpoint} {target socket : String} {entry : Node}

section Blocks

variable {p : Prop} {m : Machine} {store : Store} {bound : Nat}

theorem simulates_arrives {body : Nat → Exec Flow}
    (heq : ∀ bound, Exec.exec (bound + 1) stmt = Exec.descend (body bound)) {settled : Prop} {y : Run Ending}
    (hdescent : m.descent < maxDescent) {steps : Nat} (hbound : ¬ p → steps + 1 ≤ bound)
    (h : ∀ bound', bound = bound' + 1 → (¬ p → steps ≤ bound')
      → Simulates p (Arrives settled m.deeper) (body bound') m.deeper y store)
    : Simulates p (Arrives settled m) (Exec.exec bound stmt) m y store :=
  simulates_exec heq hdescent hbound h fun _ _ _ _ harrives =>
    ⟨harrives.1, fun hsettled => (harrives.2 hsettled).lift⟩

theorem simulates_execAll_nil {rel : Flow → Machine → β → Store → Prop} {b : β} (hbound : ¬ p → 1 ≤ bound)
    (h : rel .normal m b store) : Simulates p rel (Exec.execAll bound []) m (pure b) store := by
  cases bound with
  | zero =>
    unfold Exec.execAll
    exact .exhausted_left (of_no_steps hbound)
  | succ bound => exact .pure h

theorem simulates_execAll_cons {stmts : List Stmt} {γ : Type} {rel : Flow → Machine → β → Store → Prop}
    {rel' : Flow → Machine → γ → Store → Prop} {y : Run β} {g : β → Run γ} (hbound : ¬ p → 1 ≤ bound)
    (h : ∀ bound', bound = bound' + 1 → Simulates p rel (Exec.exec bound' stmt) m y store)
    (hnormal : ∀ flow m b store, rel flow m b store → flow = .normal)
    (hnext : ∀ bound' m b store, bound = bound' + 1 → rel .normal m b store
      → Simulates p rel' (Exec.execAll bound' stmts) m (g b) store)
    : Simulates p rel' (Exec.execAll bound (stmt :: stmts)) m (y >>= g) store := by
  cases bound with
  | zero =>
    unfold Exec.execAll
    exact .exhausted_left (of_no_steps hbound)
  | succ bound =>
    refine .bind (h bound rfl) fun flow m b store hrel => ?_
    obtain rfl := hnormal flow m b store hrel
    exact hnext bound m b store rfl hrel

theorem simulates_execAll_single {rel : Flow → Machine → β → Store → Prop} {y : Run β} (hbound : ¬ p → 2 ≤ bound)
    (h : ∀ bound', bound = bound' + 1 → Simulates p rel (Exec.exec bound' stmt) m y store)
    : Simulates p rel (Exec.execAll bound [stmt]) m y store := by
  cases bound with
  | zero =>
    unfold Exec.execAll
    exact .exhausted_left (of_no_steps hbound)
  | succ bound =>
    refine .bind_left (h bound rfl) fun flow m b store hrel => ?_
    cases flow with
    | normal => exact simulates_execAll_nil (fun hp => Nat.le_of_succ_le_succ (hbound hp)) hrel
    | broke | continued | returned => exact .pure hrel

end Blocks

section Tours

variable {r : Routine} (hroutine : r.Direct) {p : Prop}

include hroutine

variable {m : Machine} {store : Store}

theorem simulates_loop (hnode : node ∈ r.wiring.nodes)
    (hcond : Reading r [] False node "condition" "false" cond) {stmts : List Stmt} {body : Run Ending}
    {start : Machine} (hdescent : start.descent + maxHeight + 2 ≤ maxDescent) {steps : Nat} (hsteps : lineRoom ≤ steps)
    (hbody : ∀ m store bound, Steady start m store → (¬ p → steps ≤ bound) → (p → bound ≤ n)
      → Simulates p (Arrives True { m with env := m.env.push }) (Exec.execAll bound stmts) { m with env := m.env.push }
          body store) {rounds : Nat} (hrounds : rounds ≤ n) (hsteady : Steady start m store) {bound : Nat}
    (hbound : ¬ p → steps + rounds + 1 ≤ bound) (hbound' : p → bound ≤ rounds)
    : Simulates p (fun flow m' _ store' => flow = .normal ∧ Steady start m' store')
        (Exec.execLoop bound (some cond.tree) none stmts) m (Run.loop (r.holds node) body rounds) store := by
  unfold lineRoom at hsteps
  induction rounds generalizing m store bound with
  | zero =>
    by_cases hp : p
    · obtain rfl := Nat.le_zero.mp (hbound' hp)
      unfold Exec.execLoop
      exact .exhausted_left hp
    · exact .exhausted_right hp
  | succ rounds ih =>
    cases bound with
    | zero =>
      unfold Exec.execLoop
      exact .exhausted_left (of_no_steps hbound)
    | succ bound =>
      have hleft : ¬ p → steps + rounds + 1 ≤ bound := fun hp => Nat.le_of_succ_le_succ (hbound hp)
      have hright : p → bound ≤ rounds := fun hp => Nat.le_of_succ_le_succ (hbound' hp)
      have hholds : Simulates p (Still id m store) (Value.isTruthy <$> Exec.eval bound cond.tree) m
          (r.holds node) store := by
        refine .bind_still (hcond.simulates hroutine hnode hsteady.mirrors (hsteady.descent ▸ hdescent)
          (fun hp => ?_) (by decide)) fun _ => .pure ⟨rfl, rfl, rfl⟩
        have := hleft hp
        omega
      refine .bind_still hholds fun holds => ?_
      cases holds with
      | false => exact .pure ⟨rfl, hsteady⟩
      | true =>
        have hround : Simulates p (Arrives True m) (Exec.inScope (Exec.execAll bound stmts)) m body store := by
          refine .inScope (hbody m store bound hsteady (fun hp => ?_) (fun hp => ?_)) fun _ _ _ _ h =>
            ⟨h.1, fun _ => (h.2 trivial).pop⟩
          · have := hleft hp
            omega
          · have := hright hp
            omega
        refine .bind hround fun flow m' ending store' harrives => ?_
        obtain ⟨rfl, hsteady'⟩ := harrives
        have hnext := hsteady.trans (hsteady' trivial)
        have hagain : Simulates p (fun flow m' _ store' => flow = .normal ∧ Steady start m' store')
            (Exec.execOption bound none >>= fun _ => Exec.execLoop bound (some cond.tree) none stmts) m'
            (Run.loop (r.holds node) body rounds) store' := by
          cases bound with
          | zero =>
            unfold Exec.execOption
            exact Simulates.exhausted_left (of_no_steps hleft)
          | succ bound => exact ih (Nat.le_of_succ_le hrounds) hnext hleft hright
        cases ending with
        | broke => exact .pure ⟨rfl, hnext⟩
        | finished | continued => exact hagain

omit hroutine in
theorem Agrees.steady (h : Agrees declared m store) : Steady m m store :=
  ⟨h.mirrors, rfl, rfl, rfl⟩

structure Ready (r : Routine) (p : Prop) (n : Nat) (declared : List String) (tour : Tour) (m : Machine)
    (store : Store) (bound : Nat) : Prop where
  agrees : Agrees declared m store
  prepared : ∃ written, tour.Prepared r written ∧ ∀ name ∈ written, (store.lookup name).isSome
  descent : m.descent + tour.nesting + lineRoom ≤ maxDescent
  steps : ¬ p → tour.steps n ≤ bound
  rounds : p → bound ≤ n

def Tour.Simulated (r : Routine) (p : Prop) (n : Nat) (declared : List String) (tour : Tour)
    (items : List Item) : Prop :=
  ∀ m store bound, Ready r p n declared tour m store bound
    → Simulates p (Arrives (tour.Settled r store) m) (Exec.execAll bound (treesOf items)) m
        (tour.run r n) store

section Cases

variable {n : Nat} {bindings bindings' : Bindings} {node : Node} {items items' : List Item}

omit hroutine in
theorem simulated_stop : Tour.stop.Simulated r p n declared [] := by
  intro m store bound hready
  refine simulates_execAll_nil (fun hp => Nat.le_trans ?_ (hready.steps hp)) ⟨rfl, fun _ => hready.agrees.steady⟩
  exact Nat.le_add_left 1 (maxHeight + 11)

theorem simulated_pass {rest : Tour} (hnode : node ∈ r.wiring.nodes) (htemps : bindings.temporaries = [])
    (h : Passes r False node bindings items bindings') (hrest : rest.Simulated r p n bindings'.declared items')
    : (Tour.pass node rest).Simulated r p n bindings.declared (items ++ items') := by
  intro m store bound hready
  obtain ⟨hagrees, ⟨written, hprepared, hwritten⟩, hdescent, hsteps, hrounds⟩ := hready
  rw [Tour.steps] at hsteps
  rw [treesOf_append]
  obtain ⟨hitems, rfl, hwrites, hact⟩ | ⟨stmt, hitems, hstmt⟩ := h.simulates hroutine hnode htemps
  · have hrun : (Tour.pass node rest).run r n = rest.run r n := by
      rw [Tour.run, hact]
      rfl
    rw [Tour.Prepared, hwrites] at hprepared
    rw [hitems, hrun]
    refine (hrest m store bound ⟨hagrees, ⟨written, hprepared, hwritten⟩, hdescent, ?_, hrounds⟩).mono ?_
    · exact fun hp => Nat.le_of_succ_le (hsteps hp)
    · exact fun _ _ _ _ harrives => ⟨harrives.1, fun hsettled => harrives.2 fun node hnode =>
        hsettled node (mem_cons_of_mem _ hnode)⟩
  · have hroom := rest.lineRoom_le_steps n
    rw [Tour.nesting] at hdescent
    rw [hitems]
    refine simulates_execAll_cons (fun hp => Nat.le_trans (Nat.le_add_left 1 _) (hsteps hp))
      (fun bound' hbound' => hstmt hagrees (by omega) fun hp => ?_) (fun _ _ _ _ hdid => hdid.1) ?_
    · have := hsteps hp
      omega
    · rintro bound' m' _ store' rfl ⟨-, hacted⟩
      have hold : ∀ name ∈ (r.writes? node).toList ++ written, (store'.lookup name).isSome := by
        intro name hname
        obtain hname | hname := mem_append.mp hname
        · exact hacted.written name (Option.mem_toList.mp hname)
        · exact hacted.kept name (hwritten name hname)
      have hready' : Ready r p n bindings'.declared rest m' store' bound' := by
        refine ⟨hacted.agrees, ⟨_, hprepared, hold⟩, ?_, fun hp => ?_, fun hp => ?_⟩
        · rw [hacted.descent]
          exact hdescent
        · exact Nat.le_of_succ_le_succ (hsteps hp)
        · exact Nat.le_of_succ_le (hrounds hp)
      refine (hrest m' store' bound' hready').mono fun _ _ _ _ harrives => ⟨harrives.1, fun hsettled => ?_⟩
      have hsteady := hacted.steady (hsettled node mem_cons_self)
      refine hsteady.trans (harrives.2 fun node hnode name hname => ?_)
      exact hacted.kept name (hsettled node (mem_cons_of_mem _ hnode) name hname)

theorem simulated_last {temps : List (Endpoint × Code)} (h : Ends r False node temps items)
    : (Tour.last node).Simulated r p n declared items := by
  intro m store bound hready
  have henter : Build.enter r node = [] := if_neg (by simp [hroutine.silent])
  have hroom : ¬ p → 12 ≤ bound := fun hp => Nat.le_trans (Nat.le_add_left 12 maxHeight) (hready.steps hp)
  have hdescent : m.descent < maxDescent := by
    have := hready.descent
    unfold lineRoom at this
    omega
  -- Statements that only say how the path ends.
  have hline : ∀ {stmt ending}, (∀ bound, Exec.exec (bound + 1) stmt = Exec.descend (pure ending.flow))
      → Simulates p (Arrives ((Tour.last node).Settled r store) m) (Exec.execAll bound [stmt]) m (pure ending)
          store := by
    intro stmt ending heq
    refine simulates_execAll_single (fun hp => Nat.le_trans (by decide) (hroom hp)) fun bound' hbound' => ?_
    have hbound : ¬ p → 0 + 1 ≤ bound' := fun hp => by
      have := hroom hp
      omega
    exact simulates_arrives heq hdescent hbound fun _ _ _ => .pure ⟨rfl, fun _ => hready.agrees.deeper.steady⟩
  rw [Tour.run, Tour.ending]
  cases h with
  | stop hkind =>
    rw [henter, hkind]
    exact simulates_execAll_nil (fun hp => Nat.le_trans (by decide) (hroom hp)) ⟨rfl, fun _ => hready.agrees.steady⟩
  | breakLoop hkind | continueLoop hkind =>
    rw [henter, hkind]
    exact hline fun _ => rfl
  | returnFrom _ hsig =>
    rw [hroutine.main] at hsig
    cases hsig
  | other hkind =>
    split
    · next heq => simp [heq] at hkind
    · next heq => simp [heq] at hkind
    · exact simulates_execAll_nil (fun hp => Nat.le_trans (by decide) (hroom hp)) ⟨rfl, fun _ => hready.agrees.steady⟩

theorem simulated_branch {onTrue onFalse : Tour} (hnode : node ∈ r.wiring.nodes)
    (hcond : Reading r [] False node "condition" "false" cond)
    (htrue : onTrue.Simulated r p n declared items) (hfalse : onFalse.Simulated r p n declared items')
    : (Tour.branch node onTrue onFalse).Simulated r p n declared [.ifElse cond items items'] := by
  intro m store bound hready
  obtain ⟨hagrees, ⟨written, hprepared, hwritten⟩, hdescent, hsteps, hrounds⟩ := hready
  have hroom := onTrue.lineRoom_le_steps n
  rw [Tour.nesting] at hdescent
  rw [Tour.steps] at hsteps
  -- Both arms are run in a scope of their own, one statement deeper.
  have harm : ∀ {arm : Tour} {items : List Item}, arm.Simulated r p n declared items
      → arm.Prepared r written → arm.nesting ≤ max onTrue.nesting onFalse.nesting
      → arm.steps n ≤ max (onTrue.steps n) (onFalse.steps n) → arm.nodes ⊆ onTrue.nodes ++ onFalse.nodes
      → ∀ {inner}, bound = inner + 1 + 1
      → Simulates p (Arrives ((Tour.branch node onTrue onFalse).Settled r store) m.deeper)
          (Exec.inScope (Exec.execAll inner (treesOf items))) m.deeper (arm.run r n) store := by
    intro arm items harm hprepared hnesting hsteps' hsubset inner hinner
    have hready : Ready r p n declared arm { m.deeper with env := m.deeper.env.push } store inner := by
      refine ⟨hagrees.deeper.push, ⟨written, hprepared, hwritten⟩, ?_, fun hp => ?_, fun hp => ?_⟩
      · simp only [Machine.descent_deeper]
        omega
      · have := hsteps hp
        omega
      · have := hrounds hp
        omega
    refine .inScope (harm _ _ _ hready) fun _ _ _ _ harrives => ⟨harrives.1, fun hsettled => ?_⟩
    exact (harrives.2 fun node hnode => hsettled node (mem_cons_of_mem _ (hsubset hnode))).pop
  refine simulates_execAll_single (fun hp => ?_) fun bound' hbound' => ?_
  · have := hsteps hp
    omega
  · have hbound : ¬ p → lineRoom + 1 ≤ bound' := fun hp => by
      have := hsteps hp
      omega
    refine simulates_arrives (fun _ => rfl) (by omega) hbound fun inner hinner hbound => ?_
    · rw [Tour.run, Routine.holds, Run.bind_assoc]
      have hinput : Simulates p (Still id m.deeper store) (Exec.eval inner cond.tree) m.deeper
          (r.input node "condition" "false") store := by
        unfold lineRoom at hbound hdescent
        refine hcond.simulates hroutine hnode hagrees.deeper.mirrors
          (by simp only [Machine.descent_deeper]; omega) (fun hp => ?_) (by decide)
        have := hbound hp
        omega
      refine .bind_still hinput fun value => ?_
      change Simulates p _ (if value.isTruthy then _ else _) _ (if value.isTruthy then _ else _) store
      cases value.isTruthy with
      | true =>
        exact harm htrue hprepared.1 (Nat.le_max_left ..) (Nat.le_max_left ..) (subset_append_left ..) (by omega)
      | false =>
        exact harm hfalse hprepared.2 (Nat.le_max_right ..) (Nat.le_max_right ..) (subset_append_right ..) (by omega)

theorem simulated_loop {body rest : Tour} (hnode : node ∈ r.wiring.nodes)
    (hcond : Reading r [] False node "condition" "false" cond)
    (hbody : body.Simulated r p n declared items) (hrest : rest.Simulated r p n declared items')
    : (Tour.loop node body rest).Simulated r p n declared (.whileLoop cond items :: items') := by
  intro m store bound hready
  obtain ⟨hagrees, ⟨written, ⟨hwrites, hpreparedBody, hpreparedRest⟩, hwritten⟩, hdescent, hsteps, hrounds⟩ := hready
  have hroom := body.lineRoom_le_steps n
  rw [Tour.nesting] at hdescent
  rw [Tour.steps] at hsteps
  -- All variables of the body exist before the first round, so that each round leaves the names as they were.
  have hround : ∀ m' store' bound', Steady m.deeper m' store' → (¬ p → body.steps n ≤ bound') → (p → bound' ≤ n)
      → Simulates p (Arrives True { m' with env := m'.env.push }) (Exec.execAll bound' (treesOf items))
          { m' with env := m'.env.push } (body.run r n) store' := by
    intro m' store' bound' hsteady hsteps hrounds
    have hold : ∀ name ∈ written, (store'.lookup name).isSome := fun name hname =>
      (hsteady.isSome_lookup hagrees.deeper.mirrors name).trans (hwritten name hname)
    have hready : Ready r p n declared body { m' with env := m'.env.push } store' bound' := by
      refine ⟨(hsteady.agrees hagrees.deeper).push, ⟨written, hpreparedBody, hold⟩, ?_, hsteps, hrounds⟩
      have : m'.descent = m.descent + 1 := hsteady.descent
      dsimp only
      omega
    refine (hbody _ _ _ hready).mono fun _ _ _ _ harrives => ⟨harrives.1, fun _ => harrives.2 ?_⟩
    exact fun node hnode name hname => hold name (hwrites node hnode name hname)
  have hloop : ∀ bound', bound = bound' + 1 → Simulates p (fun flow m' _ store' => flow = .normal ∧ Steady m m' store')
          (Exec.exec bound' (.whileLoop cond.tree (treesOf items))) m
          (Run.loop (r.holds node) (body.run r n) n) store := by
    intro bound' hbound'
    have hbound : ¬ p → body.steps n + n + 1 + 1 ≤ bound' := fun hp => by
      have := hsteps hp
      omega
    refine simulates_exec (fun _ => rfl) (by omega) hbound (fun inner hinner hbound => ?_)
      fun flow m' _ store' (h : flow = .normal ∧ Steady m.deeper m' store') => ⟨h.1, h.2.lift⟩
    refine simulates_loop hroutine hnode hcond ?_ hroom hround (Nat.le_refl n) hagrees.deeper.steady hbound ?_
    · unfold lineRoom at hdescent
      simp only [Machine.descent_deeper]
      omega
    · intro hp
      have := hrounds hp
      omega
  refine simulates_execAll_cons (fun hp => ?_) hloop (fun _ _ _ _ h => h.1) ?_
  · have := hsteps hp
    omega
  · rintro bound' m' _ store' rfl ⟨-, hsteady⟩
    have hold : ∀ name, (store'.lookup name).isSome = (store.lookup name).isSome :=
      hsteady.isSome_lookup hagrees.mirrors
    have hready : Ready r p n declared rest m' store' bound' := by
      refine ⟨hsteady.agrees hagrees, ⟨written, hpreparedRest, ?_⟩, ?_, fun hp => ?_, fun hp => ?_⟩
      · exact fun name hname => (hold name).trans (hwritten name hname)
      · rw [hsteady.descent]
        omega
      · have := hsteps hp
        omega
      · exact Nat.le_of_succ_le (hrounds hp)
    refine (hrest m' store' bound' hready).mono fun _ _ _ _ harrives => ⟨harrives.1, fun hsettled => ?_⟩
    refine hsteady.trans (harrives.2 fun node hnode name hname => ?_)
    rw [hold]
    exact hsettled node (mem_cons_of_mem _ (mem_append_right _ hnode)) name hname

end Cases

omit hroutine in
theorem Tour.Simulated.mono {declared' : List String} (h : tour.Simulated r p n declared' items)
    (hsubset : declared ⊆ declared') : tour.Simulated r p n declared items :=
  fun m store bound hready => h m store bound { hready with agrees := hready.agrees.mono hsubset }

theorem Emits.simulated {bindings bindings' : Bindings} (h : Emits r False tour bindings items bindings')
    (hnodes : ∀ node ∈ tour.nodes, node ∈ r.wiring.nodes) (htemps : bindings.temporaries = [])
    : tour.Simulated r p n bindings.declared items := by
  have henter : ∀ node, Build.enter r node = [] := fun node => if_neg (by simp [hroutine.silent])
  induction h with
  | stop => exact simulated_stop
  | cut _ hmarks => exact hmarks.elim
  | pass h hrest ih =>
    obtain ⟨hnode, hrestNodes⟩ := forall_mem_cons.mp hnodes
    have hextends := h.extends hroutine hnode
    exact simulated_pass hroutine hnode htemps h (ih hrestNodes (hextends.temporaries.trans htemps))
  | last h => exact simulated_last hroutine h
  | @branch node onTrue onFalse bindings bindings' _ cond items items' hcond htrue hfalse ihTrue ihFalse =>
    obtain ⟨hnode, harms⟩ := forall_mem_cons.mp hnodes
    obtain ⟨hnodesTrue, hnodesFalse⟩ := forall_mem_append.mp harms
    have hextends := htrue.extends hroutine hnodesTrue
    have hfalse := ihFalse hnodesFalse (hextends.temporaries.trans htemps)
    rw [htemps] at hcond
    rw [henter]
    exact simulated_branch hroutine hnode hcond (ihTrue hnodesTrue htemps) (hfalse.mono hextends.declared)
  | @loop node body rest bindings _ bindings'' _ head items items' hhead hbody hrest ihBody ihRest =>
    obtain ⟨hnode, hparts⟩ := forall_mem_cons.mp hnodes
    obtain ⟨hnodesBody, hnodesRest⟩ := forall_mem_append.mp hparts
    obtain ⟨rfl, cond, rfl, hcond⟩ := hhead.eq_whileLoop hroutine hnode
    have hextends := hbody.extends hroutine hnodesBody
    have hrest := ihRest hnodesRest (hextends.temporaries.trans htemps)
    rw [htemps] at hcond
    rw [henter]
    exact simulated_loop hroutine hnode hcond (ihBody hnodesBody htemps) (hrest.mono hextends.declared)

end Tours

theorem Emits.uncut {r : Routine} {bindings bindings' : Bindings}
    (h : Emits r False tour bindings items bindings') : tour.Uncut := by
  induction h with
  | stop | last => trivial
  | cut _ hmarks => exact hmarks
  | pass _ _ ih => exact ih
  | branch _ _ _ ihTrue ihFalse => exact ⟨ihTrue, ihFalse⟩
  | loop _ _ _ ihBody ihRest => exact ⟨ihBody, ihRest⟩

namespace Routine

def WrittenOn (r : Routine) (path : List Endpoint) (name : String) : Prop :=
  ∃ out ∈ path, ∃ node ∈ r.wiring.node? out.node, name ∈ r.writes? node

/-- Whenever a path goes into the body of a loop and comes to a node that writes a variable, the variable is one of
the given ones or has been written before the loop. -/
def WritesFirst (r : Routine) (written : List String) (path : List Endpoint) (target : String) : Prop :=
  ∀ before loop inside, path = before ++ ⟨loop, "body"⟩ :: inside
    → ∀ node ∈ r.wiring.node? target, ∀ name ∈ r.writes? node,
      name ∈ written ∨ r.WrittenOn before name

instance (r : Routine) (path : List Endpoint) (name : String) : Decidable (r.WrittenOn path name) :=
  inferInstanceAs (Decidable (∃ out ∈ path, ∃ node ∈ r.wiring.node? out.node, name ∈ r.writes? node))

theorem writesFirst_iff {r : Routine} : r.WritesFirst written path target ↔
      ∀ before ∈ path.inits, (∃ out ∈ path[before.length]?, out.socket = "body")
        → ∀ node ∈ r.wiring.node? target, ∀ name ∈ r.writes? node,
          name ∈ written ∨ r.WrittenOn before name := by
  constructor
  · rintro h before hbefore ⟨out, houtput, hsocket⟩
    obtain ⟨rest, rfl⟩ := (mem_inits before path).mp hbefore
    rw [getElem?_append_right (Nat.le_refl _), Nat.sub_self] at houtput
    cases rest with
    | nil => cases houtput
    | cons first inside =>
      cases houtput
      refine h before out.node inside ?_
      rw [← hsocket]
  · rintro h before loop inside rfl
    exact h before ((mem_inits before _).mpr (prefix_append ..)) ⟨⟨loop, "body"⟩, by simp, rfl⟩

instance (r : Routine) (written : List String) (path : List Endpoint) (target : String)
    : Decidable (r.WritesFirst written path target) :=
  decidable_of_iff _ writesFirst_iff.symm

end Routine

theorem Tour.exists_path (h : node ∈ tour.nodes) : ∃ path, (path, Station.node node.id) ∈ tour.paths := by
  have hstation : Station.node node.id ∈ tour.stations := by
    induction tour with
    | stop | cut => simp [nodes] at h
    | last node => simp_all [nodes, stations]
    | pass node rest ih =>
      simp only [nodes, mem_cons, stations] at h ⊢
      grind
    | branch node onTrue onFalse ihTrue ihFalse | loop node body rest ihBody ihRest =>
      simp only [nodes, mem_cons, mem_append, stations] at h ⊢
      grind
  rw [← map_snd_paths, mem_map] at hstation
  obtain ⟨⟨path, station⟩, hpath, rfl⟩ := hstation
  exact ⟨path, hpath⟩

theorem Routine.writes?_eq_none {r : Routine} (h : Shape.ofKind (r.kindOf node) ≠ .pass) : r.writes? node = none := by
  unfold Routine.writes?
  split
  · next hkind => rw [hkind] at h; exact absurd rfl h
  · next hkind => rw [hkind] at h; exact absurd rfl h
  · next hkind => rw [hkind] at h; exact absurd rfl h
  · rfl

theorem Routine.WritesFirst.tail {r : Routine} (h : r.WritesFirst written (⟨node.id, socket⟩ :: path) target)
    (hnode : r.wiring.node? node.id = some node)
    : r.WritesFirst ((r.writes? node).toList ++ written) path target := by
  intro before loop inside hpath last hlast name hname
  obtain hwritten | ⟨out, houtput, earlier, hearlier, hname'⟩ :=
    h (⟨node.id, socket⟩ :: before) loop inside (congrArg _ hpath) last hlast name hname
  · exact .inl (mem_append_right _ hwritten)
  · obtain rfl | houtput := mem_cons.mp houtput
    · obtain rfl := Option.some.inj (hnode.symm.trans hearlier)
      exact .inl (mem_append_left _ (Option.mem_toList.mpr hname'))
    · exact .inr ⟨out, houtput, earlier, hearlier, hname'⟩

namespace Tour

variable {r : Routine}
  (h : ∀ path target, (path, Station.node target) ∈ tour.paths → r.WritesFirst written path target)
include h

theorem writesFirst_via {part : Tour} (hpart : paths.via node socket part.paths ⊆ tour.paths) (hnode : r.wiring.node? node.id = some node)
    (path : List Endpoint) (target : String) (hmem : (path, Station.node target) ∈ part.paths)
    : r.WritesFirst ((r.writes? node).toList ++ written) path target :=
  (h _ target (hpart (mem_map_of_mem hmem))).tail hnode

theorem writesFirst_via_of_meets {part : Tour} {passed : List String} {shape : Shape}
    (hpart : paths.via node socket part.paths ⊆ tour.paths) (hmeets : Meets r passed node shape)
    (hshape : shape ≠ .pass) (path : List Endpoint) (target : String) (hmem : (path, Station.node target) ∈ part.paths)
    : r.WritesFirst written path target := by
  have hfirst := writesFirst_via h hpart hmeets.found path target hmem
  rwa [Routine.writes?_eq_none (hmeets.shape ▸ hshape)] at hfirst

theorem prepared_of_paths {depth : Nat} {passed : List String} (hfollows : tour.Follows r depth passed)
    : tour.Prepared r written := by
  induction tour generalizing depth passed written with
  | stop | cut | last => trivial
  | pass node rest ih => exact ih (writesFirst_via h (subset_cons_self _ _) hfollows.1.found) hfollows.2
  | branch node onTrue onFalse ihTrue ihFalse =>
    obtain ⟨hmeets, -, htrue, hfalse⟩ := hfollows
    have hpathsTrue : paths.via node "true" onTrue.paths ⊆ (branch node onTrue onFalse).paths :=
      subset_cons_of_subset _ (subset_append_left ..)
    have hpathsFalse : paths.via node "false" onFalse.paths ⊆ (branch node onTrue onFalse).paths :=
      subset_cons_of_subset _ (subset_append_right ..)
    exact ⟨ihTrue (writesFirst_via_of_meets h hpathsTrue hmeets (by decide)) htrue,
      ihFalse (writesFirst_via_of_meets h hpathsFalse hmeets (by decide)) hfalse⟩
  | loop node body rest ihBody ihRest =>
    obtain ⟨hmeets, -, hbody, hrest⟩ := hfollows
    have hpathsBody : paths.via node "body" body.paths ⊆ (loop node body rest).paths :=
      subset_cons_of_subset _ (subset_append_left ..)
    have hpathsRest : paths.via node "done" rest.paths ⊆ (loop node body rest).paths :=
      subset_cons_of_subset _ (subset_append_right ..)
    refine ⟨?_, ihBody (writesFirst_via_of_meets h hpathsBody hmeets (by decide)) hbody,
      ihRest (writesFirst_via_of_meets h hpathsRest hmeets (by decide)) hrest⟩
    intro last hlast name hname
    obtain ⟨path, hpath⟩ := exists_path hlast
    have hfirst := h _ _ (hpathsBody (mem_map_of_mem hpath)) [] node.id path rfl last
      (hbody.node?_eq_some last hlast) name hname
    refine hfirst.resolve_right ?_
    rintro ⟨out, houtput, -⟩
    exact not_mem_nil houtput

end Tour

theorem Routine.writesFirst_of_tourFrom (r : Routine) {edges : List Edge}
    (hedges : ∀ id socket, r.wiring.next? id socket = controlTarget edges id socket)
    (h : ∀ found ∈ (r.tourFrom entry 0).paths, ∀ node ∈ r.wiring.nodes, found.2 = .node node.id
      → r.WritesFirst [] found.1 node.id) (hpath : path ∈ r.simplePaths edges maxNesting entry.id target)
    : r.WritesFirst [] path target := by
  intro before loop inside heq node hnode
  have hid := Wiring.id_of_node?_eq_some hnode
  have hfound := (mem_paths_tourFrom hedges (Option.isSome_of_mem hnode) entry 0 path).mpr hpath
  rw [← hid] at hfound hnode
  exact h _ hfound node (Wiring.mem_of_node?_eq_some hnode) rfl before loop inside heq node hnode

namespace Job

/-- The graphs that are run without a program: they have no functions, nodes of some kinds only, tokens typed into
them and not too long data chains, nothing is reported about them, and their loops write to no new variables. -/
structure Direct (job : Job) : Prop where
  functions : job.graph.functions.entries = []
  silent : job.options.instrument = false
  structured : job.mainRoutine.Structured
  tokens : ∀ node ∈ job.graph.nodes, HasTokens node
  chains : job.mainRoutine.ShortChains
  accepted : job.compile.diagnostics = []
  writesFirst : ∀ entry ∈ job.mainRoutine.entry? .start, ∀ target,
    ∀ path ∈ job.mainRoutine.simplePaths job.graph.edges maxNesting entry.id target,
      job.mainRoutine.WritesFirst [] path target

namespace Direct

variable {job : Job} (hjob : job.Direct)

include hjob

theorem routine : job.mainRoutine.Direct where
  structured := hjob.structured
  tokens := fun node hnode => hjob.tokens node (Wiring.ofEdges_nodes job.graph.nodes job.graph.edges ▸ hnode)
  chains := hjob.chains
  main := rfl
  silent := hjob.silent

theorem list_signatures : (Signatures.ofGraph job.graph).list = [] := by
  unfold Signatures.ofGraph Table.sorted
  rw [hjob.functions]
  rfl

theorem exists_entry : ∃ entry, job.mainRoutine.entry? .start = some entry
    ∧ (job.mainRoutine.compileFrom entry 0).2 = [] := by
  have haccepted := hjob.accepted
  unfold compile at haccepted
  dsimp only at haccepted
  cases hentry : job.mainRoutine.entry? .start with
  | none =>
    have hmain : job.compileMain? (.ofGraph job.graph) = none := by
      rw [compileMain?_eq, mainOutset?, hentry]
      rfl
    rw [hmain] at haccepted
    cases haccepted
  | some entry =>
    have hmain : job.compileMain? (.ofGraph job.graph) = some (job.mainRoutine.compileFrom entry 0) := by
      rw [compileMain?_eq, mainOutset?, hentry]
      rfl
    rw [hmain] at haccepted
    exact ⟨entry, rfl, (append_eq_nil_iff.mp haccepted).2⟩

theorem readable : ∀ outset ∈ job.outsets, outset.Readable := by
  apply readable_of_legible
  intro outset houtset
  unfold outsets at houtset
  rw [hjob.list_signatures, filterMap_nil, append_nil] at houtset
  obtain ⟨entry, -, rfl⟩ := Option.map_eq_some_iff.mp (Option.mem_toList.mp houtset)
  refine ⟨hjob.chains, fun node hnode => ?_⟩
  have hmem := (Routine.follows_tourFrom job.mainRoutine entry (Nat.zero_le _)).mem_nodes node hnode
  refine ⟨fun socket _ => (hjob.routine.tokens node hmem).plainText _ socket, ?_, fun hkind => ?_⟩
  · intro _ _ _ _ out _ node hnode _ socket _
    exact (hjob.routine.tokens node (Wiring.mem_of_node?_eq_some hnode)).plainText _ socket
  · have hkinds := hjob.structured node hmem
    simp [hkind] at hkinds

theorem prepared (hentry : job.mainRoutine.entry? .start = some entry)
    : (job.mainRoutine.tourFrom entry 0).Prepared job.mainRoutine [] := by
  refine Tour.prepared_of_paths ?_ (job.mainRoutine.follows_tourFrom entry (Nat.zero_le maxNesting))
  intro path target hpath before loop inside heq node hnode
  have hedges : ∀ id socket, job.mainRoutine.wiring.next? id socket = controlTarget job.graph.edges id socket :=
    Wiring.ofEdges_next? job.graph.nodes job.graph.edges
  have hsimple := (Routine.mem_paths_tourFrom hedges (Option.isSome_of_mem hnode) entry 0 path).mp hpath
  exact hjob.writesFirst entry hentry target path hsimple before loop inside heq node hnode

theorem perform_eq (hentry : job.mainRoutine.entry? .start = some entry)
    (huncut : (job.mainRoutine.tourFrom entry 0).Uncut) (n : Nat)
    : job.perform n = ((job.mainRoutine.tourFrom entry 0).run job.mainRoutine n []).bind fun result =>
        .done (result.bind fun ending => match ending.1 with
          | .finished => .ok ()
          | .broke => .error .illegalBreak
          | .continued => .error .illegalContinue) := by
  have hnodes : job.mainRoutine.wiring.nodes = job.graph.nodes := Wiring.ofEdges_nodes _ _
  have htour : job.mainRoutine.tourFrom entry 0 = job.mainRoutine.tour (job.graph.nodes.length + 1) 0 [] entry.id := by
    unfold Routine.tourFrom
    rw [hnodes]
  rw [htour] at huncut ⊢
  unfold perform
  rw [hentry]
  dsimp only
  rw [Routine.follow_eq_run hjob.structured n huncut]
  congr 1
  funext result
  cases result with
  | error e => rfl
  | ok result =>
    obtain ⟨ending, store⟩ := result
    cases ending <;> rfl

theorem run_program {main : List Item × List Diagnostic} (hmain : job.compileMain? (.ofGraph job.graph) = some main)
    (bound : Nat) (m : Machine)
    : Exec.run bound job.program m = (Exec.execAll bound (treesOf main.1) >>= fun flow => match flow with
        | .normal | .returned _ => (pure () : Exec Unit)
        | .broke => Exec.fail .illegalBreak
        | .continued => Exec.fail .illegalContinue) m := by
  have hfunctions : job.functions = [] := by
    unfold Job.functions
    rw [hjob.list_signatures]
    rfl
  unfold Exec.run
  rw [functions_program hmain, body_program hmain, hfunctions]
  rfl

theorem matches_perform [Generator] (options : Run.Options)
    : ∃ tour : Tour, ∀ {p : Prop} {bound n : Nat}, (¬ p → tour.steps n ≤ bound) → (p → bound ≤ n)
      → Matches p (¬ p) Eq (Run.dialog bound job.compile.code options) (job.perform n) := by
  obtain ⟨entry, hentry, hreported⟩ := hjob.exists_entry
  have hmain : job.compileMain? (.ofGraph job.graph) = some (job.mainRoutine.compileFrom entry 0) := by
    rw [compileMain?_eq, mainOutset?, hentry]
    rfl
  obtain ⟨bindings, hemits⟩ := job.mainRoutine.emits_compileFrom entry 0
  have hfollows := job.mainRoutine.follows_tourFrom entry (Nat.zero_le maxNesting)
  simp only [hreported, ne_eq, not_true_eq_false] at hemits
  refine ⟨job.mainRoutine.tourFrom entry 0, fun {p bound n} hsteps hrounds => ?_⟩
  have hready : Ready job.mainRoutine p n [] (job.mainRoutine.tourFrom entry 0)
      (.start options.seed options.maxCalls) [] bound := by
    refine ⟨⟨fun _ => rfl, by simp, by simp, rfl⟩, ⟨[], hjob.prepared hentry, by simp⟩, ?_, hsteps, hrounds⟩
    have := hfollows.nesting_le
    simp only [Machine.start, lineRoom, maxHeight, maxExpressionDepth, maxDescent, maxNesting] at this ⊢
    omega
  have hsimulates := hemits.simulated hjob.routine hfollows.mem_nodes rfl _ _ _ hready
  rw [dialog_code hjob.readable, hjob.run_program hmain, hjob.perform_eq hentry hemits.uncut]
  refine Eq.mpr (congrArg (Matches p (¬ p) Eq · _) (Dialog.bind_assoc _ _ _)) (Matches.bind hsimulates ?_)
  rintro _ _ (⟨rfl, -⟩ | ⟨e, m⟩)
  · rename_i ending _
    cases ending <;> exact .done rfl
  · exact .done rfl

end Direct

/-- A program does what its graph does. -/
theorem equivalent_perform [Generator] (job : Job) (hjob : job.Direct) (options : Run.Options)
    : Equivalent (fun bound => Run.dialog bound job.compile.code options) job.perform := by
  obtain ⟨tour, hmatches⟩ := hjob.matches_perform options
  refine equivalent_of_matches (fun bound => ⟨bound, ?_⟩) fun bound => ⟨tour.steps bound, ?_⟩
  · have hleft := hmatches (p := True) (fun h => absurd trivial h) fun _ => Nat.le_refl bound
    rwa [not_true_eq_false] at hleft
  · have hright := hmatches (p := False) (fun _ => Nat.le_refl (tour.steps bound)) False.elim
    rw [not_false_eq_true] at hright
    exact hright.symm.mono fun _ _ h => h.symm

def onceRound : Graph where
  nodes :=
    [⟨"start", .start, none, {}⟩, ⟨"ask", .input, none, { variableName := some "n" }⟩,
     ⟨"raise", .set, none, { variableName := some "flag", inlineValues := .ofList [("value", "true")] }⟩,
     ⟨"flag", .get, none, { variableName := some "flag" }⟩,
     ⟨"loop", .whileLoop, none, {}⟩,
     ⟨"show", .output, none, { inlineValues := .ofList [("value", "\"again\"")] }⟩,
     ⟨"lower", .set, none, { variableName := some "flag", inlineValues := .ofList [("value", "false")] }⟩,
     ⟨"if", .branch, none, {}⟩,
     ⟨"yes", .set, none, { variableName := some "late", inlineValues := .ofList [("value", "\"yes\"")] }⟩,
     ⟨"no", .set, none, { variableName := some "late", inlineValues := .ofList [("value", "\"no\"")] }⟩,
     ⟨"late", .get, none, { variableName := some "late" }⟩,
     ⟨"join", .output, none, {}⟩]
  edges :=
    [.control "start" "exec-out" "ask", .control "ask" "exec-out" "raise", .control "raise" "exec-out" "loop",
     .control "loop" "body" "show", .control "show" "exec-out" "lower", .control "loop" "done" "if",
     .control "if" "true" "yes", .control "if" "false" "no", .control "yes" "exec-out" "join",
     .control "no" "exec-out" "join", .data "flag" "value" "loop" "condition", .data "flag" "value" "if" "condition",
     .data "late" "value" "join" "value"]

theorem equivalent_perform_onceRound
    : let job : Job := ⟨onceRound, .default, {}⟩
      job.Direct ∧ EndsIn (fun bound => Run.dialog bound job.compile.code ⟨.manual, none, 64⟩) ⟨["3"], none⟩
        [.prompt "", .log "again", .log "no"] (.ok ()) := by
  intro job
  have hdirect : job.Direct := by
    refine ⟨rfl, rfl, by decide +kernel, by decide +kernel, Routine.shortChains_of_length_lt (by decide +kernel),
      by decide +kernel, ?_⟩
    have hpaths : ∀ entry ∈ job.mainRoutine.entry? .start, ∀ found ∈ (job.mainRoutine.tourFrom entry 0).paths,
        ∀ node ∈ job.mainRoutine.wiring.nodes, found.2 = .node node.id
          → job.mainRoutine.WritesFirst [] found.1 node.id := by decide +kernel
    exact fun entry hentry target path => job.mainRoutine.writesFirst_of_tourFrom
      (Wiring.ofEdges_next? job.graph.nodes job.graph.edges) (hpaths entry hentry)
  refine ⟨hdirect, ((equivalent_perform job hdirect ⟨.manual, none, 64⟩ ⟨["3"], none⟩).2 _ _).mpr ⟨3, ?_⟩⟩
  exact ⟨Request.eq_of_isEqv (by decide +kernel), Dialog.eq_of_isSuccess (by decide +kernel)⟩

end Job

end NodeScript.Compile
