import NodeScript.Proofs.Evaluation

/-!
Statements do what their nodes do. All variables of a graph are in one store, while those of its program are in
nested scopes; the two agree on what a name stands for, and a host sees the same of both.
-/

namespace NodeScript.Compile

open Script Dialog

inductive Outcome {α β : Type} (rel : α → Machine → β → Store → Prop)
    : Except RuntimeError α × Machine → Except RuntimeError (β × Store) → Prop where
  | ok {a : α} {m : Machine} {b : β} {store : Store} (h : rel a m b store) : Outcome rel (.ok a, m) (.ok (b, store))
  | error (e : RuntimeError) (m : Machine) : Outcome rel (.error e, m) (.error e)

/-- No host can tell the program from the graph. If `p`, the program may be given up, and otherwise the graph. -/
def Simulates {α β : Type} (p : Prop) (rel : α → Machine → β → Store → Prop) (x : Exec α) (m : Machine)
    (y : Run β) (store : Store) : Prop :=
  Matches p (¬ p) (Outcome rel) (x m) (y store)

def Still {α β : Type} (f : β → α) (m : Machine) (store : Store) (a : α) (m' : Machine) (b : β) (store' : Store)
    : Prop :=
  a = f b ∧ m' = m ∧ store' = store

theorem Still.lift {α β : Type} {f : β → α} {m m' : Machine} {store store' : Store} {a : α} {b : β}
    (h : Still f m.deeper store a m' b store')
    : Still f m store a { m' with descent := m'.descent - 1 } b store' := by
  obtain ⟨rfl, rfl, rfl⟩ := h
  exact ⟨rfl, rfl, rfl⟩

namespace Simulates

variable {α β γ δ : Type} {p : Prop} {m : Machine} {store : Store} {rel : α → Machine → β → Store → Prop}
  {rel' : α → Machine → β → Store → Prop} {relNext : γ → Machine → δ → Store → Prop}
  {relLeft : γ → Machine → β → Store → Prop} {value : β → α} {x : Exec α} {y : Run β} {f : α → Exec γ} {g : β → Run δ}

theorem exhausted_left (h : p) : Simulates p rel Exec.exhausted m y store :=
  .left h _

theorem exhausted_right (h : ¬ p) : Simulates p rel x m Run.exhausted store :=
  .right h _

theorem pure {a : α} {b : β} (h : rel a m b store) : Simulates p rel (Pure.pure a) m (Pure.pure b) store :=
  .done (.ok h)

theorem mono (h : Simulates p rel x m y store) (hrel : ∀ a m b store, rel a m b store → rel' a m b store)
    : Simulates p rel' x m y store := by
  refine Matches.mono h ?_
  rintro _ _ (h | ⟨e, m⟩)
  · exact .ok (hrel _ _ _ _ h)
  · exact .error e m

theorem bind (h : Simulates p rel x m y store)
    (hnext : ∀ a m b store, rel a m b store → Simulates p relNext (f a) m (g b) store)
    : Simulates p relNext (x >>= f) m (y >>= g) store := by
  refine Matches.bind h ?_
  rintro _ _ (h | ⟨e, m⟩)
  · exact hnext _ _ _ _ h
  · exact .done (.error e m)

theorem bind_left (h : Simulates p rel x m y store)
    (hnext : ∀ a m b store, rel a m b store → Simulates p relLeft (f a) m (Pure.pure b) store)
    : Simulates p relLeft (x >>= f) m y store := by
  refine Matches.bind_left h ?_
  rintro _ _ (h | ⟨e, m⟩)
  · exact hnext _ _ _ _ h
  · exact .done (.error e m)

theorem bind_still (h : Simulates p (Still value m store) x m y store)
    (hnext : ∀ b, Simulates p relNext (f (value b)) m (g b) store)
    : Simulates p relNext (x >>= f) m (y >>= g) store := by
  refine bind h ?_
  rintro _ _ b _ ⟨rfl, rfl, rfl⟩
  exact hnext b

theorem bind_left_still (h : Simulates p (Still value m store) x m y store)
    (hnext : ∀ b, Simulates p relLeft (f (value b)) m (Pure.pure b) store)
    : Simulates p relLeft (x >>= f) m y store := by
  refine bind_left h ?_
  rintro _ _ b _ ⟨rfl, rfl, rfl⟩
  exact hnext b

theorem ask (request : Request) : Simulates p (Still id m store) (Exec.ask request) m (Run.ask request) store := by
  refine Matches.ask fun reply => ?_
  cases reply with
  | answer text => exact .done (.ok ⟨rfl, rfl, rfl⟩)
  | disconnected => exact .done (.error _ m)

theorem find {f : Store → Except RuntimeError α} (h : Computes p x m (f store))
    : Simulates p (fun a m' b store' => f store = .ok a ∧ Still id m store a m' b store') x m (Run.find f) store := by
  unfold Computes at h
  unfold Simulates Run.find
  generalize x m = d at h ⊢
  generalize f store = value at h ⊢
  cases h with
  | left hp => exact .left hp _
  | done h =>
    subst h
    cases value with
    | ok a => exact .done (.ok ⟨rfl, rfl, rfl, rfl⟩)
    | error e => exact .done (.error e m)

theorem of_computes {b : β} (h : Computes p x m (.ok (value b)))
    : Simulates p (Still value m store) x m (Pure.pure b) store := by
  unfold Computes at h
  unfold Simulates
  generalize x m = d at h ⊢
  cases h with
  | left hp => exact .left hp _
  | done h => exact h ▸ .done (.ok ⟨rfl, rfl, rfl⟩)

theorem bind_find {find : Store → Except RuntimeError α} {g : α → Run δ} (h : Computes p x m (find store))
    (hnext : ∀ a, find store = .ok a → Simulates p relNext (f a) m (g a) store)
    : Simulates p relNext (x >>= f) m (Run.find find >>= g) store := by
  refine bind (.find h) ?_
  rintro a _ _ _ ⟨hfind, rfl, rfl, rfl⟩
  exact hnext a hfind

theorem closing {f : Machine → Machine} (h : Simulates p rel x m y store)
    (hrel : ∀ a m b store, rel a m b store → rel' a (f m) b store)
    : Simulates p rel' (Exec.closing x f) m y store := by
  refine Matches.bind_left h ?_
  rintro _ _ (h | ⟨e, m⟩)
  · exact .done (.ok (hrel _ _ _ _ h))
  · exact .done (.error e (f m))

theorem descend (hdescent : m.descent < maxDescent) (h : Simulates p rel x m.deeper y store)
    (hrel : ∀ a m b store, rel a m b store → rel' a { m with descent := m.descent - 1 } b store)
    : Simulates p rel' (Exec.descend x) m y store := by
  unfold Simulates Exec.descend
  rw [if_neg (Nat.not_le.mpr hdescent)]
  exact closing h hrel

theorem inScope (h : Simulates p rel x { m with env := m.env.push } y store)
    (hrel : ∀ a m b store, rel a m b store → rel' a { m with env := m.env.pop } b store)
    : Simulates p rel' (Exec.inScope x) m y store :=
  closing h hrel

end Simulates

theorem Run.bind_assoc {α β γ : Type} (x : Run α) (f : α → Run β) (g : β → Run γ)
    : (x >>= f) >>= g = x >>= fun a => f a >>= g := by
  funext store
  refine (Dialog.bind_assoc _ _ _).trans (congrArg (Dialog.bind (x store)) (funext fun result => ?_))
  cases result with
  | ok result => rfl
  | error e => rfl

structure Agrees (declared : List String) (m : Machine) (store : Store) : Prop where
  mirrors : Mirrors m store
  declares : ∀ name, (store.lookup name).isSome → name ∈ declared
  free : ∀ name, (store.lookup name).isSome → name ∉ reservedWords
  functions : m.functions = []

namespace Agrees

variable {declared declared' : List String} {m m' : Machine} {store store' : Store}

theorem mono (h : Agrees declared m store) (hsubset : declared ⊆ declared') : Agrees declared' m store where
  mirrors := h.mirrors
  declares := fun name hname => hsubset (h.declares name hname)
  free := h.free
  functions := h.functions

theorem deeper (h : Agrees declared m store) : Agrees declared m.deeper store where
  mirrors := h.mirrors
  declares := h.declares
  free := h.free
  functions := h.functions

theorem push (h : Agrees declared m store) : Agrees declared { m with env := m.env.push } store where
  mirrors := h.mirrors
  declares := h.declares
  free := h.free
  functions := h.functions

end Agrees

structure Steady (m m' : Machine) (store' : Store) : Prop where
  mirrors : Mirrors m' store'
  shape : m'.env.shape = m.env.shape
  functions : m'.functions = m.functions
  descent : m'.descent = m.descent

namespace Steady

variable {declared : List String} {m m' m'' : Machine} {store store' store'' : Store}

theorem trans (h : Steady m m' store') (h' : Steady m' m'' store'') : Steady m m'' store'' where
  mirrors := h'.mirrors
  shape := h'.shape.trans h.shape
  functions := h'.functions.trans h.functions
  descent := h'.descent.trans h.descent

theorem lift (h : Steady m.deeper m' store') : Steady m { m' with descent := m'.descent - 1 } store' where
  mirrors := h.mirrors
  shape := h.shape
  functions := h.functions
  descent := by rw [h.descent]; rfl

theorem pop (h : Steady { m with env := m.env.push } m' store') : Steady m { m' with env := m'.env.pop } store' := by
  obtain ⟨hshape, hget⟩ := Env.pop_of_shape h.shape
  exact ⟨fun name => (hget name).trans (h.mirrors name), hshape, h.functions, h.descent⟩

theorem isSome_lookup (h : Steady m m' store') (hmirrors : Mirrors m store) (name : String)
    : (store'.lookup name).isSome = (store.lookup name).isSome := by
  rw [← h.mirrors name, ← hmirrors name]
  rw [Env.isSome_get?_eq, Env.isSome_get?_eq, h.shape]

theorem agrees (h : Steady m m' store') (hagrees : Agrees declared m store) : Agrees declared m' store' where
  mirrors := h.mirrors
  declares := fun name hname => hagrees.declares name (h.isSome_lookup hagrees.mirrors name ▸ hname)
  free := fun name hname => hagrees.free name (h.isSome_lookup hagrees.mirrors name ▸ hname)
  functions := h.functions.trans hagrees.functions

end Steady

structure Acted (name? : Option String) (declared : List String) (m : Machine) (store : Store) (m' : Machine)
    (store' : Store) : Prop where
  agrees : Agrees declared m' store'
  kept : ∀ name, (store.lookup name).isSome → (store'.lookup name).isSome
  written : ∀ name ∈ name?, (store'.lookup name).isSome
  descent : m'.descent = m.descent
  steady : (∀ name ∈ name?, (store.lookup name).isSome) → Steady m m' store'

variable {name : String} {value : Code} {name? : Option String}

section Writing

variable {p : Prop} {declared : List String} {m : Machine} {store : Store} (hagrees : Agrees declared m store)

include hagrees

theorem Agrees.acted : Acted none declared m store m store where
  agrees := hagrees
  kept := fun _ h => h
  written := by simp
  descent := rfl
  steady := fun _ => ⟨hagrees.mirrors, rfl, rfl, rfl⟩

variable {declared' : List String}

theorem Agrees.write (hsubset : declared ⊆ declared') (hname : name ∈ declared') (hfree : name ∉ reservedWords)
    {value : Value} {env : Env} (henv : ∀ n, env.get? n = if n = name then some value else m.env.get? n)
    (hshape : (m.env.get? name).isSome → env.shape = m.env.shape)
    (hname? : name? = some name ∨ name? = none ∧ (store.lookup name).isSome)
    : Acted name? declared' m store { m with env } ((name, value) :: store) := by
  have hlookup : ∀ n, List.lookup n ((name, value) :: store) = if n = name then some value else store.lookup n := by
    intro n
    rw [List.lookup_cons]
    by_cases hn : n = name
    · simp [hn]
    · rw [beq_false_of_ne hn, if_neg hn]
  have hmirrors : Mirrors { m with env } ((name, value) :: store) := by
    intro n
    rw [hlookup, ← hagrees.mirrors n]
    exact henv n
  refine ⟨⟨hmirrors, ?_, ?_, hagrees.functions⟩, ?_, ?_, rfl, ?_⟩
  · intro n hn
    rw [hlookup] at hn
    split at hn
    · next heq => exact heq ▸ hname
    · exact hsubset (hagrees.declares n hn)
  · intro n hn
    rw [hlookup] at hn
    split at hn
    · next heq => exact heq ▸ hfree
    · exact hagrees.free n hn
  · intro n hn
    rw [hlookup]
    split
    · rfl
    · exact hn
  · intro n hn
    rw [hlookup]
    obtain rfl | ⟨rfl, -⟩ := hname?
    · cases hn
      rw [if_pos rfl]
      rfl
    · cases hn
  · intro hold
    have hbound : (m.env.get? name).isSome := by
      rw [hagrees.mirrors name]
      obtain rfl | ⟨-, h⟩ := hname?
      · exact hold name rfl
      · exact h
    exact ⟨hmirrors, hshape hbound, rfl, rfl⟩

theorem simulates_assign (hsubset : declared ⊆ declared') (hname : name ∈ declared') (hfree : name ∉ reservedWords)
    (value : Value) (hname? : name? = some name ∨ name? = none ∧ (store.lookup name).isSome)
    : Simulates p (fun _ m' _ store' => Acted name? declared' m store m' store') (Exec.assign name value) m
        (Run.write name value) store :=
  .done (.ok (hagrees.write hsubset hname hfree (Env.get?_assign m.env name value)
    (fun hbound => Env.shape_assign hbound value) hname?))

theorem simulates_declare (hsubset : declared ⊆ declared') (hname : name ∈ declared')
    (hfree : name ∉ reservedWords) (hfresh : name ∉ declared) (value : Value)
    : Simulates p (fun _ m' _ store' => Acted (some name) declared' m store m' store') (Exec.declare name value) m
        (Run.write name value) store := by
  have hnone : m.env.get? name = none := by
    rw [hagrees.mirrors name, ← Option.not_isSome_iff_eq_none]
    exact fun h => hfresh (hagrees.declares name h)
  obtain ⟨env, henv⟩ := Env.exists_declare hnone value
  have heq : Exec.declare name value m = .done (.ok (), { m with env }) := by
    have : Exec.declare name value m
      = (Exec.ofExcept (m.env.declare name value) >>= fun env => Exec.modify fun m => { m with env }) m := rfl
    rw [this, henv]
    rfl
  unfold Simulates
  rw [heq]
  refine .done (.ok (hagrees.write hsubset hname hfree (Env.get?_declare henv) ?_ (.inl rfl)))
  intro hbound
  rw [hnone] at hbound
  contradiction

end Writing

structure Routine.Direct (r : Routine) : Prop where
  structured : r.Structured
  tokens : ∀ node ∈ r.wiring.nodes, HasTokens node
  chains : r.ShortChains
  main : r.signature = none
  silent : r.instrument = false

def Routine.writes? (r : Routine) (node : Node) : Option String :=
  match r.kindOf node with
  | .input => some (variableOf node "_input")
  | .set => some (variableOf node "_var")
  | .arrayCreate => some (variableOf node "_arr")
  | _ => none

def lineRoom : Nat := maxHeight + 12

section Inputs

variable {r : Routine} (hroutine : r.Direct) {node : Node} (hnode : node ∈ r.wiring.nodes)
  {p : Prop} {store : Store} {m : Machine} {bound : Nat} {code : Code} (hmirrors : Mirrors m store)
  (hdescent : m.descent + maxHeight + 2 ≤ maxDescent) (hbound : ¬ p → maxHeight + 2 ≤ bound)

include hroutine in
theorem Resolved.means {source : Endpoint} (h : Resolved r [] False source code)
    : code.Means p store (r.valueOf store maxExpressionDepth source) ∧ code.height ≤ maxHeight := by
  obtain ⟨n, hn⟩ := h.unfolds.exists_ranked
  have hranked := hn.rest hroutine.chains List.nodup_nil (List.isChain_singleton source)
  refine ⟨h.unfolds.means hroutine.structured hroutine.tokens hranked, ?_⟩
  exact h.height (by simp [hroutine.main]) hroutine.chains (by simp)

include hmirrors hdescent hbound in
theorem Code.Means.computes {value : Except RuntimeError Value} (h : code.Means p store value)
    (hheight : code.height ≤ maxHeight) : Computes p (Exec.eval bound code.tree) m value :=
  h m bound hmirrors (by omega) fun hp => by have := hbound hp; omega

include hroutine hnode hmirrors hdescent hbound

theorem Reading.simulates {socket fallback : String} (h : Reading r [] False node socket fallback code)
    (hfallback : IsAtom fallback)
    : Simulates p (Still id m store) (Exec.eval bound code.tree) m (r.input node socket fallback) store := by
  have hwired : ∀ source, r.wiring.source? node.id socket = some source
      → code.Means p store (r.valueOf store maxExpressionDepth source) ∧ code.height ≤ maxHeight :=
    fun source hsource => (h.wired source hsource).means hroutine
  have hmeans := means_inputValue (fun source hsource => (hwired source hsource).1) (hroutine.tokens node hnode)
    hfallback h.typed
  have hheight : code.height ≤ maxHeight := by
    cases hsource : r.wiring.source? node.id socket with
    | none =>
      rw [h.typed hsource]
      exact Nat.zero_le _
    | some source => exact (hwired source hsource).2
  exact (Simulates.find (hmeans.computes hmirrors hdescent hbound hheight)).mono fun _ _ _ _ h => h.2

theorem Saying.simulates (h : Saying r [] False node code)
    : Simulates p (Still id m store) (Exec.eval bound code.tree) m (r.message node) store := by
  unfold Routine.message
  split
  · next source hsource =>
    have hreading : Reading r [] False node "prompt" "\"\"" code := .of_source hsource (h.wired source hsource)
    exact hreading.simulates hroutine hnode hmirrors hdescent hbound (by decide)
  · next hnone =>
    rw [h.typed hnone]
    exact .of_computes ((Code.means_quoted _).computes hmirrors hdescent hbound (Nat.zero_le _))

end Inputs

section Statements

variable {p : Prop} {m : Machine} {store : Store} {steps bound : Nat} {β : Type} {value : β → Value} {y : Run β}

theorem simulates_exec {stmt : Stmt} {body : Nat → Exec Flow}
    (heq : ∀ bound, Exec.exec (bound + 1) stmt = Exec.descend (body bound))
    {rel rel' : Flow → Machine → β → Store → Prop} (hdescent : m.descent < maxDescent)
    (hbound : ¬ p → steps + 1 ≤ bound)
    (h : ∀ bound', bound = bound' + 1 → (¬ p → steps ≤ bound') → Simulates p rel (body bound') m.deeper y store)
    (hrel : ∀ flow m b store, rel flow m b store → rel' flow { m with descent := m.descent - 1 } b store)
    : Simulates p rel' (Exec.exec bound stmt) m y store := by
  cases bound with
  | zero =>
    unfold Exec.exec
    exact .exhausted_left (of_no_steps hbound)
  | succ bound =>
    rw [heq]
    exact .descend hdescent (h bound rfl fun hp => Nat.le_of_succ_le_succ (hbound hp)) hrel

theorem Acted.lift {declared : List String} {m' : Machine} {store' : Store}
    (h : Acted name? declared m.deeper store m' store')
    : Acted name? declared m store { m' with descent := m'.descent - 1 } store' where
  agrees := ⟨h.agrees.mirrors, h.agrees.declares, h.agrees.free, h.agrees.functions⟩
  kept := h.kept
  written := h.written
  descent := by rw [h.descent]; rfl
  steady := fun hold => (h.steady hold).lift

theorem simulates_eval_await {expr : Expr} (hdescent : m.descent < maxDescent)
    (hbound : ¬ p → steps + 1 ≤ bound) (h : ∀ bound, (¬ p → steps ≤ bound)
      → Simulates p (Still value m.deeper store) (Exec.eval bound expr) m.deeper y store)
    : Simulates p (Still value m store) (Exec.eval bound (.await expr)) m y store := by
  cases bound with
  | zero =>
    unfold Exec.eval
    exact .exhausted_left (of_no_steps hbound)
  | succ bound =>
    have heq : Exec.eval (bound + 1) (.await expr) = Exec.descend (Exec.eval bound expr) := rfl
    rw [heq]
    exact .descend hdescent (h bound fun hp => Nat.le_of_succ_le_succ (hbound hp)) fun _ _ _ _ h => h.lift

theorem simulates_evalItems {arg : Expr} (hbound : ¬ p → steps + 2 ≤ bound)
    (harg : ∀ bound, (¬ p → steps + 1 ≤ bound) → Simulates p (Still value m store) (Exec.eval bound arg) m y store)
    : Simulates p (Still (fun b => [value b]) m store) (Exec.evalItems bound [arg]) m y store := by
  cases bound with
  | zero =>
    unfold Exec.evalItems
    exact .exhausted_left (of_no_steps hbound)
  | succ bound =>
    have heq : Exec.evalItems (bound + 1) [arg]
        = Exec.eval bound arg >>= fun value => Exec.evalItems bound [] >>= fun rest => pure (value :: rest) := rfl
    have hbound : ¬ p → steps + 1 ≤ bound := fun hp => Nat.le_of_succ_le_succ (hbound hp)
    rw [heq]
    refine .bind_left_still (harg bound hbound) fun b => ?_
    cases bound with
    | zero => exact Simulates.exhausted_left (of_no_steps hbound)
    | succ bound => exact .pure ⟨rfl, rfl, rfl⟩

theorem simulates_eval_call {callee arg : Expr} {γ : Type}
    {rel rel' : Value → Machine → γ → Store → Prop} {g : β → Run γ} (hdescent : m.descent < maxDescent)
    (hbound : ¬ p → steps + 3 ≤ bound) (harg : ∀ bound, (¬ p → steps + 1 ≤ bound)
      → Simulates p (Still value m.deeper store) (Exec.eval bound arg)
          m.deeper y store) (hcall : ∀ b bound, Simulates p rel (Exec.call (bound + 1) callee [value b]) m.deeper
      (g b) store) (hrel : ∀ a m b store, rel a m b store → rel' a { m with descent := m.descent - 1 } b store)
    : Simulates p rel' (Exec.eval bound (.call callee [arg])) m (y >>= g) store := by
  cases bound with
  | zero =>
    unfold Exec.eval
    exact .exhausted_left (of_no_steps hbound)
  | succ bound =>
    have heq : Exec.eval (bound + 1) (.call callee [arg])
        = Exec.descend (Exec.evalItems bound [arg] >>= Exec.call bound callee) := rfl
    have hbound : ¬ p → steps + 2 ≤ bound := fun hp => Nat.le_of_succ_le_succ (hbound hp)
    rw [heq]
    refine .descend hdescent (.bind_still (simulates_evalItems hbound harg) fun b => ?_) hrel
    cases bound with
    | zero =>
      unfold Exec.call
      exact .exhausted_left (of_no_steps hbound)
    | succ bound => exact hcall b bound

end Statements

theorem Store.isSome_lookup_of_read {store : Store} {value : Value} (h : store.read name = .ok value)
    : (store.lookup name).isSome := by
  unfold read at h
  split at h
  · next hlookup => rw [hlookup]; rfl
  · cases h

def Did (name? : Option String) (declared : List String) (m : Machine) (store : Store) (flow : Flow) (m' : Machine)
    (_ : Unit) (store' : Store) : Prop :=
  flow = .normal ∧ Acted name? declared m store m' store'

section Lines

variable {p : Prop} {m : Machine} {store : Store} {steps bound : Nat} {declared : List String}

theorem simulates_did {stmt : Stmt} {body : Nat → Exec Flow}
    (heq : ∀ bound, Exec.exec (bound + 1) stmt = Exec.descend (body bound)) {y : Run Unit}
    (hdescent : m.descent < maxDescent) (hbound : ¬ p → steps + 1 ≤ bound) (h : ∀ bound, (¬ p → steps ≤ bound)
      → Simulates p (Did name? declared m.deeper store) (body bound) m.deeper y store)
    : Simulates p (Did name? declared m store) (Exec.exec bound stmt) m y store :=
  simulates_exec heq hdescent hbound (fun bound _ => h bound) fun _ _ _ _ hdid => ⟨hdid.1, hdid.2.lift⟩

theorem simulates_bindTree {bindings : Bindings} (hagrees : Agrees bindings.declared m store)
    (hfree : name ∉ reservedWords) (hdescent : m.descent < maxDescent) (hbound : ¬ p → steps + 2 ≤ bound)
    {expr : Expr} {β : Type} {y : Run β} {value : β → Value} (hvalue : ∀ bound, (¬ p → steps ≤ bound)
      → Simulates p (Still value m.deeper store) (Exec.eval bound expr) m.deeper y store)
    : Simulates p (Did (some name) (bindings.declare name).declared m store)
        (Exec.exec bound (bindTree (bindings.isFresh name) name expr)) m (y >>= fun b => Run.write name (value b))
        store := by
  have hsubset := bindings.declared_subset_declare name
  have hname := bindings.mem_declared_declare name
  cases hfresh : bindings.isFresh name with
  | true =>
    have hnew : name ∉ bindings.declared := by simpa [Bindings.isFresh] using hfresh
    refine simulates_did (fun _ => rfl) hdescent hbound fun bound hbound => ?_
    have heval : Simulates p (Still value m.deeper store) (Exec.evalOption bound (some expr)) m.deeper y store := by
      cases bound with
      | zero =>
        unfold Exec.evalOption
        exact .exhausted_left (of_no_steps hbound)
      | succ bound => exact hvalue bound fun hp => Nat.le_of_succ_le_succ (hbound hp)
    exact .bind_still heval fun b => .bind_left
      (simulates_declare hagrees.deeper hsubset hname hfree hnew (value b)) fun _ _ _ _ h => .pure ⟨rfl, h⟩
  | false =>
    refine simulates_did (fun _ => rfl) hdescent hbound fun bound hbound => ?_
    refine .bind_still (hvalue bound fun hp => Nat.le_of_succ_le (hbound hp)) fun b => ?_
    change Simulates p _ (Exec.assign name (value b) >>= fun _ => pure Flow.normal) _ _ store
    exact .bind_left (simulates_assign hagrees.deeper hsubset hname hfree (value b) (.inl rfl))
      fun _ _ _ _ h => .pure ⟨rfl, h⟩

theorem call_reserved (hagrees : Agrees declared m store) (hname : name ∈ reservedWords) (bound : Nat)
    (args : List Value)
    : m.env.get? name = none ∧ Exec.call (bound + 1) (.identifier name) args m = Exec.builtinCall name args m := by
  have hnone : m.env.get? name = none := by
    rw [hagrees.mirrors name, ← Option.not_isSome_iff_eq_none]
    exact fun h => hagrees.free name h hname
  refine ⟨hnone, Exec.call_of_none ?_ bound args⟩
  unfold Machine.function?
  rw [hagrees.functions]
  rfl

theorem simulates_prompt (hagrees : Agrees declared m store) (message : Value) (bound : Nat)
    : Simulates p (Still Value.str m store) (Exec.call (bound + 1) (.identifier "prompt") [message]) m
        (Run.ask (.prompt message.text)) store := by
  obtain ⟨hnone, hcall⟩ := call_reserved hagrees (show "prompt" ∈ reservedWords by decide) bound [message]
  have heq : Exec.builtinCall "prompt" [message] m
      = (Exec.ask (.prompt message.text) >>= fun text => pure (.str text)) m := by
    change (if (m.env.get? "prompt").isSome then _ else _ : Exec Value) m = _
    rw [hnone]
    rfl
  unfold Simulates
  rw [hcall, heq]
  exact Simulates.bind_left_still (.ask _) fun text => .pure ⟨rfl, rfl, rfl⟩

theorem computes_parseFloat (hagrees : Agrees declared m store) (text : String) (bound : Nat)
    : Computes p (Exec.call (bound + 1) (.identifier "parseFloat") [.str text]) m
        (.ok (.number (Builtin.parseFloat text))) := by
  obtain ⟨hnone, hcall⟩ := call_reserved hagrees (show "parseFloat" ∈ reservedWords by decide) bound [.str text]
  have heq : Exec.builtinCall "parseFloat" [.str text] m
      = (pure (.number (Builtin.parseFloat text)) : Exec Value) m := by
    change (if (m.env.get? "parseFloat").isSome then _ else _ : Exec Value) m = _
    rw [hnone]
    rfl
  unfold Computes
  rw [hcall, heq]
  exact Computes.pure _

end Lines

section Nodes

variable {r : Routine} (hroutine : r.Direct) {node : Node} (hnode : node ∈ r.wiring.nodes)
  {p : Prop} {bindings : Bindings} {m : Machine} {store : Store} (hagrees : Agrees bindings.declared m store)
  (hdescent : m.descent + lineRoom ≤ maxDescent) {bound : Nat} (hbound : ¬ p → lineRoom ≤ bound)

include hroutine hnode hagrees hdescent hbound

theorem simulates_set (hkind : r.kindOf node = .set) (hvalue : Reading r [] False node "value" "0" value)
    : Simulates p (Did (some (variableOf node "_var")) (bindings.declare (variableOf node "_var")).declared m store)
        (Exec.exec bound (bindTree (bindings.isFresh (variableOf node "_var")) (variableOf node "_var") value.tree)) m
        (r.act node) store := by
  have hact : r.act node = r.input node "value" "0" >>= Run.write (variableOf node "_var") := by
    unfold Routine.act
    rw [hkind]
  rw [hact]
  unfold lineRoom at hdescent hbound
  refine simulates_bindTree hagrees (sanitize_not_mem_reservedWords _) (by omega) hbound fun bound hbound => ?_
  refine hvalue.simulates hroutine hnode hagrees.mirrors.deeper (by rw [Machine.descent_deeper]; omega) (fun hp => ?_)
    (by decide)
  have := hbound hp
  omega

omit hroutine hnode in
theorem simulates_create (hkind : r.kindOf node = .arrayCreate)
    : Simulates p (Did (some (variableOf node "_arr")) (bindings.declare (variableOf node "_arr")).declared m store)
        (Exec.exec bound (bindTree (bindings.isFresh (variableOf node "_arr")) (variableOf node "_arr") (.array []))) m
        (r.act node) store := by
  have hact : r.act node = (pure () >>= fun _ => Run.write (variableOf node "_arr") (.array [])) := by
    unfold Routine.act
    rw [hkind]
    rfl
  rw [hact]
  unfold lineRoom at hdescent hbound
  refine simulates_bindTree hagrees (sanitize_not_mem_reservedWords _) (by omega) hbound fun bound hbound => ?_
  have hdescent : m.deeper.descent < maxDescent := by
    rw [Machine.descent_deeper]
    omega
  refine .of_computes (computes_eval (fun _ => rfl) hdescent hbound fun bound hbound => ?_)
  cases bound with
  | zero => exact Computes.exhausted (of_no_steps hbound)
  | succ bound => exact .pure _

theorem simulates_ask (hkind : r.kindOf node = .input) {message : Code} (hmessage : Saying r [] False node message)
    : Simulates p (Did (some (variableOf node "_input")) (bindings.declare (variableOf node "_input")).declared m store)
        (Exec.exec bound (bindTree (bindings.isFresh (variableOf node "_input")) (variableOf node "_input")
          (.call (.identifier "parseFloat") [.await (.call (.identifier "prompt") [message.tree])]))) m
        (r.act node) store := by
  have hact : r.act node = ((r.message node >>= fun message => Run.ask (.prompt message.text)) >>= pure)
      >>= fun answer => Run.write (variableOf node "_input") (.number (Builtin.parseFloat answer)) := by
    unfold Routine.act
    rw [hkind, Run.bind_assoc, Run.bind_assoc]
    rfl
  rw [hact]
  unfold lineRoom at hdescent hbound
  refine simulates_bindTree hagrees (sanitize_not_mem_reservedWords _) (by omega) hbound fun bound hbound => ?_
  refine simulates_eval_call (by simp only [Machine.descent_deeper]; omega) hbound (fun bound hbound => ?_)
    (fun answer bound => .of_computes (computes_parseFloat hagrees.deeper.deeper answer bound))
    fun _ _ _ _ h => h.lift
  refine simulates_eval_await (by simp only [Machine.descent_deeper]; omega) hbound fun bound hbound => ?_
  refine simulates_eval_call (by simp only [Machine.descent_deeper]; omega) hbound (fun bound hbound => ?_)
    (fun message bound => simulates_prompt hagrees.deeper.deeper.deeper.deeper message bound) fun _ _ _ _ h => h.lift
  refine hmessage.simulates hroutine hnode hagrees.mirrors.deeper.deeper.deeper.deeper
    (by simp only [Machine.descent_deeper]; omega) fun hp => ?_
  have := hbound hp
  omega

theorem simulates_callWith {callee : Expr} (hvalue : Reading r [] False node "value" "0" value)
    {g : Value → Run Unit} (hcall : ∀ a bound, Simulates p
      (fun _ m' _ store' => Acted none bindings.declared m.deeper.deeper store m' store')
      (Exec.call (bound + 1) callee [a]) m.deeper.deeper (g a) store)
    : Simulates p (Did none bindings.declared m store) (Exec.exec bound (.expr (.call callee [value.tree]))) m
        (r.input node "value" "0" >>= g) store := by
  unfold lineRoom at hdescent hbound
  refine simulates_did (fun _ => rfl) (by omega) hbound fun bound hbound => ?_
  have heval : Simulates p (fun _ m' _ store' => Acted none bindings.declared m.deeper store m' store')
      (Exec.eval bound (.call callee [value.tree])) m.deeper
      (r.input node "value" "0" >>= g) store := by
    refine simulates_eval_call (by rw [Machine.descent_deeper]; omega) hbound (fun bound hbound => ?_) hcall
      fun _ _ _ _ h => h.lift
    refine hvalue.simulates hroutine hnode hagrees.mirrors.deeper.deeper
      (by simp only [Machine.descent_deeper]; omega) (fun hp => ?_) (by decide)
    have := hbound hp
    omega
  exact .bind_left heval fun _ _ _ _ h => .pure ⟨rfl, h⟩

theorem simulates_print (hkind : r.kindOf node = .output) (hvalue : Reading r [] False node "value" "0" value)
    : Simulates p (Did none bindings.declared m store)
        (Exec.exec bound (.expr (.call (.member (.identifier "console") "log") [value.tree]))) m
        (r.act node) store := by
  have hact : r.act node = r.input node "value" "0"
      >>= fun value => Run.ask (.log value.text) >>= fun _ => pure () := by
    unfold Routine.act
    rw [hkind]
  rw [hact]
  refine simulates_callWith hroutine hnode hagrees hdescent hbound hvalue fun a bound => ?_
  have htext : " ".intercalate ([a].map Value.text) = a.text := by simp
  change Simulates p _ (Exec.ask (.log (" ".intercalate ([a].map Value.text))) >>= fun _ => pure Value.undefined) _
    _ store
  rw [htext]
  exact .bind_still (.ask _) fun _ => .pure hagrees.deeper.deeper.acted

theorem simulates_push (hkind : r.kindOf node = .arrayPush) (hvalue : Reading r [] False node "value" "0" value)
    : Simulates p (Did none bindings.declared m store)
        (Exec.exec bound (.expr (.call (.member (.identifier (variableOf node "_arr")) "push") [value.tree]))) m
        (r.act node) store := by
  generalize harray : variableOf node "_arr" = name
  have hfree : name ∉ reservedWords := harray ▸ sanitize_not_mem_reservedWords _
  have hact : r.act node = r.input node "value" "0" >>= fun value => Run.find (Store.read · name)
      >>= fun array => Run.find (fun _ => Value.Method.push.call name array [value])
      >>= fun result => Run.write name result.1 := by
    unfold Routine.act
    rw [hkind, harray]
  rw [hact]
  refine simulates_callWith hroutine hnode hagrees hdescent hbound hvalue fun a bound => ?_
  have hcall : Exec.call (bound + 1) (.member (.identifier name) "push") [a] = Exec.methodCall name .push [a] := by
    unfold Exec.call
    split
    · contradiction
    · next heq => simp at heq
    · next heq =>
      cases heq
      rw [isMath_identifier hfree]
      rfl
    · next h => exact absurd rfl (h _ _)
  rw [hcall]
  refine .bind_find (computes_lookup hagrees.deeper.deeper.mirrors name) fun array harray => ?_
  have hold := Store.isSome_lookup_of_read harray
  refine .bind_find (.ofExcept _) fun result _ => ?_
  exact .bind_left (simulates_assign hagrees.deeper.deeper (List.Subset.refl _) (hagrees.declares name hold) hfree _
    (.inr ⟨rfl, hold⟩)) fun _ _ _ _ h => .pure h

theorem simulates_store (hkind : r.kindOf node = .arraySet) {index : Code}
    (hindex : Reading r [] False node "index" "0" index) (hvalue : Reading r [] False node "value" "0" value)
    : Simulates p (Did none bindings.declared m store)
        (Exec.exec bound (.assign (.element (variableOf node "_arr") index.tree) .assign value.tree)) m
        (r.act node) store := by
  generalize harray : variableOf node "_arr" = name
  have hfree : name ∉ reservedWords := harray ▸ sanitize_not_mem_reservedWords _
  have hact : r.act node = r.input node "value" "0" >>= fun value => r.input node "index" "0"
      >>= fun index => Run.find (Store.read · name)
      >>= fun array => Run.find (fun _ => array.updateElement index name fun _ => value)
      >>= fun updated => Run.write name updated := by
    unfold Routine.act
    rw [hkind, harray]
  rw [hact]
  unfold lineRoom at hdescent hbound
  refine simulates_did (fun _ => rfl) (by omega) hbound fun bound hbound => ?_
  have hinput : ∀ {socket code}, Reading r [] False node socket "0" code
      → Simulates p (Still id m.deeper store) (Exec.eval bound code.tree) m.deeper (r.input node socket "0")
          store := by
    intro socket code hcode
    refine hcode.simulates hroutine hnode hagrees.mirrors.deeper (by simp only [Machine.descent_deeper]; omega)
      (fun hp => ?_) (by decide)
    have := hbound hp
    omega
  refine .bind_still (hinput hvalue) fun a => .bind_still (hinput hindex) fun i => ?_
  have hstore : Simulates p (fun _ m' _ store' => Acted none bindings.declared m.deeper store m' store')
      (Exec.store (.element name index.tree) i .assign a) m.deeper
      (Run.find (Store.read · name) >>= fun array => Run.find (fun _ => array.updateElement i name fun _ => a)
        >>= fun updated => Run.write name updated) store := by
    refine .bind_find (computes_lookup hagrees.deeper.mirrors name) fun array harray => ?_
    have hold := Store.isSome_lookup_of_read harray
    refine .bind_find (.ofExcept _) fun updated _ => ?_
    exact simulates_assign hagrees.deeper (List.Subset.refl _) (hagrees.declares name hold) hfree updated
      (.inr ⟨rfl, hold⟩)
  exact hstore.bind_left fun _ _ _ _ h => .pure ⟨rfl, h⟩

end Nodes

structure Bindings.Extends (bindings bindings' : Bindings) : Prop where
  temporaries : bindings'.temporaries = bindings.temporaries
  declared : bindings.declared ⊆ bindings'.declared

namespace Bindings

theorem Extends.refl (bindings : Bindings) : bindings.Extends bindings :=
  ⟨rfl, List.Subset.refl _⟩

theorem Extends.trans {bindings bindings' bindings'' : Bindings} (h : bindings.Extends bindings')
    (h' : bindings'.Extends bindings'') : bindings.Extends bindings'' :=
  ⟨h'.temporaries.trans h.temporaries, List.Subset.trans h.declared h'.declared⟩

end Bindings

section Walks

variable {r : Routine} (hroutine : r.Direct) {bindings bindings' : Bindings} {node : Node}
  {items : List Item}

include hroutine

theorem Passes.extends (hnode : node ∈ r.wiring.nodes) (h : Passes r False node bindings items bindings')
    : bindings.Extends bindings' := by
  have hkinds := hroutine.structured node hnode
  cases h with
  | ask | set | create => exact ⟨bindings.temporaries_declare _, bindings.declared_subset_declare _⟩
  | print | push | store | other => exact .refl bindings
  | pop hkind | callUnknown hkind | callNothing hkind | call hkind => simp [hkind] at hkinds

theorem Heads.eq_whileLoop {head : List Item → Item} (hnode : node ∈ r.wiring.nodes)
    (h : Heads r False node bindings head bindings')
    : bindings' = bindings ∧ ∃ cond, head = Item.whileLoop cond
        ∧ Reading r bindings.temporaries False node "condition" "false" cond := by
  cases h with
  | forLoop hkind =>
    have hkinds := hroutine.structured node hnode
    simp [hkind] at hkinds
  | @whileLoop cond _ hcond =>
    refine ⟨rfl, cond, ?_, hcond⟩
    simp [Build.enter, hroutine.silent]

theorem Emits.extends {tour : Tour} (hnodes : ∀ node ∈ tour.nodes, node ∈ r.wiring.nodes)
    (h : Emits r False tour bindings items bindings') : bindings.Extends bindings' := by
  induction h with
  | stop | last => exact .refl _
  | cut _ hmarks => exact hmarks.elim
  | pass h _ ih =>
    obtain ⟨hnode, hrest⟩ := List.forall_mem_cons.mp hnodes
    exact (h.extends hroutine hnode).trans (ih hrest)
  | branch _ _ _ ihTrue ihFalse =>
    obtain ⟨-, harms⟩ := List.forall_mem_cons.mp hnodes
    obtain ⟨htrue, hfalse⟩ := List.forall_mem_append.mp harms
    exact (ihTrue htrue).trans (ihFalse hfalse)
  | loop hhead _ _ ihBody ihRest =>
    obtain ⟨hnode, hparts⟩ := List.forall_mem_cons.mp hnodes
    obtain ⟨hbody, hrest⟩ := List.forall_mem_append.mp hparts
    obtain ⟨rfl, -⟩ := hhead.eq_whileLoop hroutine hnode
    exact (ihBody hbody).trans (ihRest hrest)

theorem Passes.simulates (hnode : node ∈ r.wiring.nodes) (htemps : bindings.temporaries = [])
    (h : Passes r False node bindings items bindings')
    : (treesOf items = [] ∧ bindings' = bindings ∧ r.writes? node = none ∧ r.act node = pure ())
        ∨ ∃ stmt, treesOf items = [stmt] ∧ ∀ {p m store bound}, Agrees bindings.declared m store
          → m.descent + lineRoom ≤ maxDescent → (¬ p → lineRoom ≤ bound)
          → Simulates p (Did (r.writes? node) bindings'.declared m store) (Exec.exec bound stmt) m
              (r.act node) store := by
  have hkinds := hroutine.structured node hnode
  have henter : Build.enter r node = [] := if_neg (by simp [hroutine.silent])
  have hnotify : ∀ name, Build.notify r name = [] := fun name => if_neg (by simp [hroutine.silent])
  unfold Routine.writes?
  cases h with
  | ask hkind hmessage =>
    rw [htemps] at hmessage
    rw [henter, hnotify, hkind]
    exact .inr ⟨_, rfl, fun hagrees hdescent hbound =>
      simulates_ask hroutine hnode hagrees hdescent hbound hkind hmessage⟩
  | print hkind hvalue =>
    rw [htemps] at hvalue
    rw [henter, hkind]
    exact .inr ⟨_, rfl, fun hagrees hdescent hbound =>
      simulates_print hroutine hnode hagrees hdescent hbound hkind hvalue⟩
  | set hkind hvalue =>
    rw [htemps] at hvalue
    rw [henter, hnotify, hkind]
    exact .inr ⟨_, rfl, fun hagrees hdescent hbound =>
      simulates_set hroutine hnode hagrees hdescent hbound hkind hvalue⟩
  | create hkind =>
    rw [henter, hnotify, hkind]
    exact .inr ⟨_, rfl, fun hagrees hdescent hbound => simulates_create hagrees hdescent hbound hkind⟩
  | push hkind hvalue =>
    rw [htemps] at hvalue
    rw [henter, hnotify, hkind]
    exact .inr ⟨_, rfl, fun hagrees hdescent hbound =>
      simulates_push hroutine hnode hagrees hdescent hbound hkind hvalue⟩
  | store hkind hindex hvalue =>
    rw [htemps] at hindex hvalue
    rw [henter, hnotify, hkind]
    exact .inr ⟨_, rfl, fun hagrees hdescent hbound =>
      simulates_store hroutine hnode hagrees hdescent hbound hkind hindex hvalue⟩
  | pop hkind | callUnknown hkind | callNothing hkind | call hkind => simp [hkind] at hkinds
  | other hkind =>
    refine .inl ⟨rfl, rfl, ?_, ?_⟩
    · split <;> simp_all [passKinds]
    · unfold Routine.act
      split <;> simp_all [passKinds]

end Walks

end NodeScript.Compile
