import Mathlib.Data.List.Perm.Subperm
import NodeScript.Proofs.Memo

/-!
Remembering expressions makes no difference: as long as paths along data edges are short, the same
expressions are found, and the same is reported, if every expression is put together again whenever
it is asked for.
-/

namespace NodeScript.Compile

open List

variable {out : Endpoint} {passed : List Endpoint} {room : Nat}

namespace Routine

variable {r : Routine}

def ShortPaths (r : Routine) : Prop :=
  ∀ path : List Endpoint, (∀ out ∈ path, r.IsUsed out)
    → path.IsChain (fun out source => r.IsSource source out)
    → path.Nodup → path.length ≤ maxExpressionDepth

theorem shortPaths_of_length_le (h : r.wiring.data.length ≤ maxExpressionDepth) : r.ShortPaths := by
  intro path hused _ hnodup
  have hsubset : path ⊆ r.wiring.data.map Prod.snd := by
    intro out houtput
    obtain ⟨node, socket, hsource⟩ := hused out houtput
    exact mem_map_of_mem (mem_of_lookup_eq_some hsource)
  have hlength := (subperm_of_subset hnodup hsubset).length_le
  rw [length_map] at hlength
  exact Nat.le_trans hlength h

structure Comes (r : Routine) (room : Nat) (passed : List Endpoint) (out : Endpoint) : Prop where
  used : ∀ out' ∈ out :: passed, r.IsUsed out'
  chain : (out :: passed).IsChain r.IsSource
  nodup : passed.Nodup
  room : room + passed.length = maxExpressionDepth

namespace Comes

variable {room : Nat} {passed : List Endpoint} {out : Endpoint}

theorem start (h : r.IsUsed out) : r.Comes maxExpressionDepth [] out where
  used := forall_mem_singleton.mpr h
  chain := isChain_singleton out
  nodup := nodup_nil
  room := rfl

theorem step (h : r.Comes (room + 1) passed out) (hnew : out ∉ passed) {source : Endpoint}
    (hsource : r.IsSource source out) : r.Comes room (out :: passed) source where
  used := forall_mem_cons.mpr ⟨isUsed_of_isSource hsource, h.used⟩
  chain := isChain_cons_cons.mpr ⟨hsource, h.chain⟩
  nodup := nodup_cons.mpr ⟨hnew, h.nodup⟩
  room := by
    rw [length_cons, ← h.room]
    omega

variable (hshort : r.ShortPaths)

include hshort

theorem room_pos (h : r.Comes room passed out) (hnew : out ∉ passed) : 0 < room := by
  have hlength := hshort (out :: passed).reverse (fun out' houtput' => h.used out' (mem_reverse.mp houtput'))
    (isChain_reverse.mpr h.chain)
    (nodup_reverse.mpr (nodup_cons.mpr ⟨hnew, h.nodup⟩))
  have hroom := h.room
  rw [length_reverse, length_cons] at hlength
  omega

theorem ranked (h : r.Comes room passed out) {n : Nat} (hranked : r.Ranked n out) : r.Ranked room out := by
  induction n generalizing room passed out with
  | zero => exact hranked.elim
  | succ n ih =>
    have hnew := hranked.not_mem h.chain
    obtain ⟨room, rfl⟩ := Nat.exists_eq_succ_of_ne_zero (h.room_pos hshort hnew).ne'
    intro source hsource
    exact ih (h.step hnew hsource) (hranked source hsource)

end Comes

def cycles (r : Routine) : (room : Nat) → List Endpoint → Endpoint → List Endpoint
  | 0, passed, out => if passed.contains out then [out] else []
  | room + 1, passed, out =>
    if passed.contains out then [out]
    else (r.dependencies out).flatMap (r.cycles room (out :: passed))

theorem cycles_of_mem (h : out ∈ passed) : r.cycles room passed out = [out] := by
  cases room <;> rw [cycles, if_pos (by simpa using h)]

theorem cycles_succ (h : out ∉ passed) : r.cycles (room + 1) passed out =
      (r.dependencies out).flatMap (r.cycles room (out :: passed)) := by
  rw [cycles, if_neg (by simpa using h)]

theorem cycles_of_ranked (h : r.Ranked room out) (hchain : (out :: passed).IsChain r.IsSource)
    : r.cycles room passed out = [] := by
  induction room generalizing passed out with
  | zero => exact h.elim
  | succ room ih =>
    rw [cycles_succ (h.not_mem hchain), flatMap_eq_nil_iff]
    intro source hsource
    exact ih (h source hsource) (isChain_cons_cons.mpr ⟨hsource, hchain⟩)

end Routine

namespace State

def forget (s : State) : State :=
  { s with memo := [] }

def withCycle (s : State) (out : Endpoint) : State :=
  if s.reportedCycles.contains out then s
  else
    { s with
      reportedCycles := out :: s.reportedCycles
      diagnostics := s.diagnostics ++ [.circularDependency out.node out.socket] }

def withCycles (s : State) (outputs : List Endpoint) : State :=
  outputs.foldl withCycle s

theorem forget_withCycle (s : State) (out : Endpoint) : (s.withCycle out).forget = s.forget.withCycle out := by
  show _ = if s.reportedCycles.contains out then s.forget else _
  unfold withCycle
  cases s.reportedCycles.contains out <;> rfl

@[simp]
theorem memo_withCycle (s : State) (out : Endpoint) : (s.withCycle out).memo = s.memo := by
  unfold withCycle
  split <;> rfl

@[simp]
theorem temporaries_withCycle (s : State) (out : Endpoint) : (s.withCycle out).temporaries = s.temporaries := by
  unfold withCycle
  split <;> rfl

@[simp]
theorem temporaries_withCycles (s : State) (outputs : List Endpoint)
    : (s.withCycles outputs).temporaries = s.temporaries := by
  unfold withCycles
  induction outputs generalizing s with
  | nil => rfl
  | cons out outputs ih => rw [foldl_cons, ih, temporaries_withCycle]

end State

variable {s s' : State}

namespace Build

variable {r : Routine}

theorem run_reportCycle (out : Endpoint) (s : State) : (reportCycle out).run s = ((), s.withCycle out) := by
  unfold reportCycle State.withCycle
  rw [run_get]
  cases s.reportedCycles.contains out <;> rfl

def Reckons (known : State → Prop) (x : Build Code) (expected : List (Endpoint × Code) → Code)
    (cycles : List Endpoint) : Prop :=
  ∀ s, known s → known (x.run s).2 ∧ (x.run s).1 = expected s.temporaries
    ∧ (x.run s).2.forget = s.forget.withCycles cycles

namespace Reckons

variable {known : State → Prop} {x y : Build Code} {expected expected' : List (Endpoint × Code) → Code}
  {cycles cycles' : List Endpoint}

theorem pure (code : Code) : Reckons known (Pure.pure code) (fun _ => code) [] :=
  fun _ hs => ⟨hs, rfl, rfl⟩

theorem temporaries_eq (hx : Reckons known x expected cycles) (hs : known s)
    : (x.run s).2.temporaries = s.temporaries := by
  have := congrArg State.temporaries (hx s hs).2.2
  rwa [State.temporaries_withCycles] at this

theorem map (hx : Reckons known x expected cycles) (f : Code → Code)
    : Reckons known (do let a ← x; return f a) (fun temps => f (expected temps)) cycles := by
  intro s hs
  obtain ⟨hknown, hexpected, hforget⟩ := hx s hs
  rw [run_bind, run_pure]
  exact ⟨hknown, congrArg f hexpected, hforget⟩

theorem pair (hx : Reckons known x expected cycles) (hy : Reckons known y expected' cycles') (f : Code → Code → Code)
    : Reckons known (do let a ← x; let b ← y; return f a b)
        (fun temps => f (expected temps) (expected' temps)) (cycles ++ cycles') := by
  intro s hs
  obtain ⟨hknown, hexpected, hforget⟩ := hx s hs
  obtain ⟨hknown', hexpected', hforget'⟩ := hy _ hknown
  rw [hx.temporaries_eq hs] at hexpected'
  rw [run_bind, run_bind, run_pure]
  refine ⟨hknown', ?_, ?_⟩
  · rw [hexpected, hexpected']
  · rw [hforget', hforget]
    exact foldl_append.symm

theorem circular (hknown : ∀ s out, known s → known (s.withCycle out)) (out : Endpoint)
    : Reckons known (do reportCycle out; return .circular) (fun _ => .circular) [out] := by
  intro s hs
  rw [run_bind, run_reportCycle, run_pure]
  exact ⟨hknown s out hs, rfl, s.forget_withCycle out⟩

theorem composes : Composes fun x (cycles : List Endpoint) expected => Reckons known x expected cycles where
  pure _ := .pure _
  result _ := fun _ hs => ⟨hs, rfl, rfl⟩
  map hx _ _ := hx.map _
  pair hx hy _ _ := hx.pair hy _

end Reckons

def recompute (r : Routine) (room : Nat) (passed : List Endpoint) (out : Endpoint) : Build Code := do
  if passed.contains out then
    reportCycle out
    return .circular
  else
    match room with
    | 0 =>
      reportDepth out.node
      return .tooDeep
    | room + 1 => resolveOutput r (recompute r room (out :: passed)) out

variable {room : Nat} {passed : List Endpoint} {out : Endpoint}

theorem recompute_of_mem (h : out ∈ passed) : recompute r room passed out = do reportCycle out; return .circular := by
  rw [recompute.eq_def, if_pos (by simpa using h)]

theorem reckons_recompute (hshort : r.ShortPaths) (h : r.Comes room passed out)
    : Reckons (fun s => s.memo = []) (recompute r room passed out)
        (fun temps => r.unfold temps room passed out)
        (r.cycles room passed out) := by
  induction room generalizing passed out with
  | zero =>
    by_cases hmem : out ∈ passed
    · simp only [recompute_of_mem hmem, Routine.unfold_of_mem hmem, Routine.cycles_of_mem hmem]
      exact .circular (fun s out hs => (s.memo_withCycle out).trans hs) out
    · exact absurd (h.room_pos hshort hmem) (Nat.lt_irrefl 0)
  | succ room ih =>
    by_cases hmem : out ∈ passed
    · simp only [recompute_of_mem hmem, Routine.unfold_of_mem hmem, Routine.cycles_of_mem hmem]
      exact .circular (fun s out hs => (s.memo_withCycle out).trans hs) out
    · rw [recompute, if_neg (by simpa using hmem)]
      simp only [Routine.unfold_succ hmem, Routine.cycles_succ hmem]
      exact Reckons.composes.resolveOutput out fun source hsource => ih (h.step hmem hsource)

end Build

def Remembers (r : Routine) (s : State) : Prop :=
  ∀ entry ∈ s.memo, ∃ n, r.Ranked n entry.1 ∧ entry.2 = r.unfold s.temporaries n [] entry.1

theorem Remembers.withCycle {r : Routine} (h : Remembers r s) (out : Endpoint) : Remembers r (s.withCycle out) := by
  unfold Remembers
  rw [s.memo_withCycle, s.temporaries_withCycle]
  exact h

namespace Build

variable {r : Routine} {room : Nat} {passed : List Endpoint} {out : Endpoint}

theorem Reckons.remember {x : Build Code} {cycles : List Endpoint} (hchain : (out :: passed).IsChain r.IsSource)
    (hx : Reckons (Remembers r) x (fun temps => r.unfold temps room passed out) cycles)
    : Reckons (Remembers r) (do let code ← x; remember out code; return code)
        (fun temps => r.unfold temps room passed out) cycles := by
  intro s hs
  obtain ⟨hknown, hexpected, hforget⟩ := hx s hs
  have htemps := hx.temporaries_eq hs
  rw [run_bind, run_bind, run_pure]
  dsimp only
  unfold Build.remember
  split
  · exact ⟨hknown, hexpected, hforget⟩
  · next hprovisional =>
    refine ⟨forall_mem_cons.mpr ⟨?_, hknown⟩, hexpected, hforget⟩
    rw [hexpected] at hprovisional ⊢
    have hranked := Routine.ranked_of_unfold (by simpa using hprovisional)
    refine ⟨room, hranked, ?_⟩
    show _ = r.unfold (x.run s).2.temporaries room [] out
    rw [htemps]
    exact Routine.unfold_eq_unfold hranked hranked hchain

theorem reckons_lookup (hshort : r.ShortPaths) (h : r.Comes room passed out)
    (hs : Remembers r s) {code : Code} (hcode : s.memo.lookup out = some code)
    : code = r.unfold s.temporaries room passed out ∧ r.cycles room passed out = [] := by
  obtain ⟨n, hranked, hwhole⟩ := hs _ (mem_of_lookup_eq_some hcode)
  have hroom := h.ranked hshort hranked
  refine ⟨?_, Routine.cycles_of_ranked hroom h.chain⟩
  exact hwhole.trans (Routine.unfold_eq_unfold hroom hranked h.chain).symm

theorem reckons_resolve_cases (hshort : r.ShortPaths) (h : r.Comes room passed out)
    (houtput : ∀ room', room = room' + 1 → out ∉ passed → Reckons (Remembers r)
          (resolveOutput r (resolve r room' (out :: passed)) out)
          (fun temps => r.unfold temps room passed out)
          (r.cycles room passed out))
    : Reckons (Remembers r) (resolve r room passed out)
        (fun temps => r.unfold temps room passed out)
        (r.cycles room passed out) := by
  intro s hs
  unfold resolve
  rw [run_get]
  split
  · next code hcode =>
    obtain ⟨hfound, hcycles⟩ := reckons_lookup hshort h hs hcode
    rw [hcycles]
    exact ⟨hs, hfound, rfl⟩
  · split
    · next hmem =>
      have hmem : out ∈ passed := by simpa using hmem
      simp only [Routine.unfold_of_mem hmem, Routine.cycles_of_mem hmem]
      exact Reckons.circular (fun _ out hs => hs.withCycle out) out s hs
    · next hmem =>
      have hmem : out ∉ passed := by simpa using hmem
      obtain ⟨room, rfl⟩ := Nat.exists_eq_succ_of_ne_zero (h.room_pos hshort hmem).ne'
      exact (houtput room rfl hmem).remember h.chain s hs

theorem reckons_resolve (hshort : r.ShortPaths) (h : r.Comes room passed out)
    : Reckons (Remembers r) (resolve r room passed out)
        (fun temps => r.unfold temps room passed out)
        (r.cycles room passed out) := by
  induction room generalizing passed out with
  | zero => exact reckons_resolve_cases hshort h fun _ heq => nomatch heq
  | succ room ih =>
    apply reckons_resolve_cases hshort h
    rintro _ heq hmem
    cases heq
    simp only [Routine.unfold_succ hmem, Routine.cycles_succ hmem]
    exact Reckons.composes.resolveOutput out fun source hsource => ih (h.step hmem hsource)

end Build

inductive Operation where
  | input (node : Node) (socket fallback : String)
  | bind (out : Endpoint) (code : Code)

namespace Build

def perform (r : Routine) (resolve : Resolver) : Operation → Build (Option Code)
  | .input node socket fallback => return some (← operand r resolve node socket fallback)
  | .bind out code => do
    bindTemporary out code
    return none

def transcript (r : Routine) (resolve : Resolver) : List Operation → State → List (Option Code × List Diagnostic)
  | [], _ => []
  | operation :: operations, s =>
    let result := (perform r resolve operation).run s
    (result.1, result.2.diagnostics) :: transcript r resolve operations result.2

structure Erased (r : Routine) (s s' : State) : Prop where
  forget : s.forget = s'.forget
  remembers : Remembers r s
  memo : s'.memo = []

variable {r : Routine}

theorem Erased.temporaries (h : Erased r s s') : s.temporaries = s'.temporaries := by
  show s.forget.temporaries = s'.forget.temporaries
  rw [h.forget]

theorem Erased.diagnostics (h : Erased r s s') : s.diagnostics = s'.diagnostics := by
  show s.forget.diagnostics = s'.forget.diagnostics
  rw [h.forget]

theorem erased_operand (hshort : r.ShortPaths) (h : Erased r s s') (node : Node) (socket fallback : String)
    : ((input r node socket fallback).run s).1
          = ((operand r (recompute r maxExpressionDepth []) node socket fallback).run s').1
        ∧ Erased r ((input r node socket fallback).run s).2
            ((operand r (recompute r maxExpressionDepth []) node socket fallback).run s').2 := by
  have hresolve : ∀ source, r.wiring.source? node.id socket = some source
      → Reckons (Remembers r) (resolve r maxExpressionDepth [] source)
        (fun temps => r.unfold temps maxExpressionDepth [] source)
        (r.cycles maxExpressionDepth [] source) :=
    fun _ hsource => reckons_resolve hshort (.start ⟨_, _, hsource⟩)
  have hrecompute : ∀ source, r.wiring.source? node.id socket = some source
      → Reckons (fun s => s.memo = []) (recompute r maxExpressionDepth [] source)
        (fun temps => r.unfold temps maxExpressionDepth [] source)
        (r.cycles maxExpressionDepth [] source) :=
    fun _ hsource => reckons_recompute hshort (.start ⟨_, _, hsource⟩)
  obtain ⟨hknown, hfound, hforget⟩ := Reckons.composes.operand hresolve fallback s h.remembers
  obtain ⟨hknown', hfound', hforget'⟩ := Reckons.composes.operand hrecompute fallback s' h.memo
  refine ⟨?_, ?_, hknown, hknown'⟩
  · unfold input
    rw [hfound, hfound', h.temporaries]
  · unfold input
    rw [hforget, hforget', h.forget]

theorem erased_perform (hshort : r.ShortPaths) (h : Erased r s s') (operation : Operation)
    : ((perform r (resolve r maxExpressionDepth []) operation).run s).1
          = ((perform r (recompute r maxExpressionDepth []) operation).run s').1
        ∧ Erased r ((perform r (resolve r maxExpressionDepth []) operation).run s).2
            ((perform r (recompute r maxExpressionDepth []) operation).run s').2 := by
  cases operation with
  | input node socket fallback =>
    obtain ⟨hfound, herased⟩ := erased_operand hshort h node socket fallback
    exact ⟨congrArg some hfound, herased⟩
  | bind out code =>
    exact ⟨rfl, congrArg (fun s : State => { s with temporaries := (out, code) :: s.temporaries }) h.forget,
      fun _ hentry => (not_mem_nil hentry).elim, rfl⟩

theorem transcript_of_erased (hshort : r.ShortPaths) (operations : List Operation) (h : Erased r s s')
    : transcript r (resolve r maxExpressionDepth []) operations s =
      transcript r (recompute r maxExpressionDepth []) operations s' := by
  induction operations generalizing s s' with
  | nil => rfl
  | cons operation operations ih =>
    obtain ⟨hfound, herased⟩ := erased_perform hshort h operation
    rw [transcript, transcript, hfound, herased.diagnostics, ih herased]

end Build

/-- If paths along data edges are short, it makes no difference to any sequence of operations whether
expressions are remembered: the same ones are found, and the same is reported. -/
theorem Routine.transcript_recompute (routine : Routine) (hshort : routine.ShortPaths) (operations : List Operation)
    : Build.transcript routine (Build.resolve routine maxExpressionDepth []) operations routine.start =
      Build.transcript routine (Build.recompute routine maxExpressionDepth []) operations routine.start :=
  Build.transcript_of_erased hshort operations ⟨rfl, fun _ hentry => (not_mem_nil hentry).elim, rfl⟩

def Routine.twoSums : Routine where
  wiring :=
    .ofEdges [⟨"a", .add, none, {}⟩, ⟨"b", .add, none, {}⟩, ⟨"pop", .arrayPop, none, {}⟩, ⟨"show", .output, none, {}⟩]
      [.data "b" "result" "a" "a", .data "pop" "value" "a" "b", .data "a" "result" "b" "a",
       .data "a" "result" "show" "value"]
  functions := .ofGraph {}
  aliases := {}
  signature := none
  instrument := false

theorem Routine.transcript_recompute_twoSums
    : let operations : List Operation :=
        [.input ⟨"show", .output, none, {}⟩ "value" "0", .bind ⟨"pop", "value"⟩ (.ident "x"),
         .input ⟨"show", .output, none, {}⟩ "value" "0"]
      twoSums.ShortPaths
        ∧ Build.transcript twoSums (Build.resolve twoSums maxExpressionDepth []) operations twoSums.start
            = Build.transcript twoSums (Build.recompute twoSums maxExpressionDepth []) operations twoSums.start
        ∧ (Build.transcript twoSums (Build.resolve twoSums maxExpressionDepth []) operations
            twoSums.start).map (fun entry => (entry.1.map Code.text, entry.2))
          = [(some "((undefined /* circular */ + 0) + undefined)", [.circularDependency "a" "result"]),
             (none, [.circularDependency "a" "result"]),
             (some "((undefined /* circular */ + 0) + x)", [.circularDependency "a" "result"])] := by
  intro operations
  have hshort : twoSums.ShortPaths := shortPaths_of_length_le (by decide)
  exact ⟨hshort, twoSums.transcript_recompute hshort operations, by decide +kernel⟩

end NodeScript.Compile
