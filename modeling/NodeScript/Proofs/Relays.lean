import NodeScript.Proofs.Outcomes

/-!
Functions that hand parameters through to what they return, and calls of them. The two sides of a call are compiled
apart from each other: the function names its parameters and the fields of its result, and the caller names the result
and looks the fields up.
-/

namespace NodeScript.Script

open List

theorem Scope.exists_ofParams_zip {params : List String} {scope : Scope} (h : (scope.keys ++ params).Nodup)
    {args : List Value} (hlength : args.length = params.length)
    : ∃ own, scope.ofParams params args = .ok own ∧ own.entries = scope.entries ++ params.zip args := by
  induction params generalizing scope args with
  | nil => exact ⟨scope, rfl, by simp⟩
  | cons param params ih =>
    cases args with
    | nil => cases hlength
    | cons arg args =>
      have hfree : param ∉ scope.keys := fun hmem =>
        (nodup_append.mp h).2.2 param hmem param mem_cons_self rfl
      have hdeclare : scope.declare param arg = .ok (scope.insert param arg) := by
        unfold Scope.declare
        rw [Table.contains_eq, if_neg (by simpa using hfree)]
      have hnext : ((scope.insert param arg).keys ++ params).Nodup := by
        rwa [Table.keys_insert, if_neg hfree, append_assoc]
      have hentries : (scope.insert param arg).entries = scope.entries ++ [(param, arg)] :=
        Table.insertEntry_of_notMem hfree
      obtain ⟨own, hown, hzip⟩ := ih hnext (Nat.succ.inj hlength)
      refine ⟨own, ?_, ?_⟩
      · rw [ofParams, head?_cons, Option.getD_some, hdeclare]
        exact hown
      · rw [hzip, hentries, append_assoc]
        rfl

theorem lookup_zip_getD {κ α : Type} [BEq κ] [LawfulBEq κ] {keys : List κ} {values : List α} (hkeys : keys.Nodup)
    (hlength : values.length = keys.length) {i : Nat} (hi : i < keys.length) (key : κ) (value : α)
    : (keys.zip values).lookup (keys.getD i key) = some (values.getD i value) := by
  rw [Table.lookup_eq_some_iff_mem (by rwa [map_fst_zip hlength.ge])]
  refine mem_iff_getElem.mpr ⟨i, by simp [hlength, hi], ?_⟩
  simp [hi, hlength]

namespace Exec

theorem length_evalItems (bound : Nat) (items : List Expr) (m : Machine)
    : (evalItems bound items m).Results (fun _ => True) fun result =>
        ∀ values, result.1 = .ok values → values.length = items.length := by
  induction items generalizing bound m with
  | nil =>
    cases bound with
    | zero => exact .exhausted
    | succ bound =>
      refine .done ?_
      rintro _ ⟨⟩
      rfl
  | cons item items ih =>
    cases bound with
    | zero => exact .exhausted
    | succ bound =>
      have hany : ∀ d : Dialog (Except RuntimeError Value × Machine), d.Results (fun _ => True) fun _ => True := by
        intro d
        induction d with
        | done => exact .done trivial
        | exhausted => exact .exhausted
        | ask _ _ ih => exact .ask fun reply _ => ih reply
      refine (hany (eval bound item m)).bind ?_
      rintro ⟨e | value, m'⟩ -
      · exact .done nofun
      · refine (ih bound m').bind ?_
        rintro ⟨e | values, m''⟩ hlength
        · exact .done nofun
        · refine .done ?_
          rintro _ ⟨⟩
          exact congrArg (· + 1) (hlength values rfl)

end Exec

end NodeScript.Script

namespace NodeScript.Compile

open List

variable {j : Nat} {m m' : Machine} {r : Routine}

open Script Exec Build

theorem settles_arguments {codes : List Code} {values : List Value}
    (h : Settles (evalItems · (codes.map Code.tree)) m values m')
    : m' = { m with random := m'.random } ∧ values.length = codes.length := by
  have hcalm : ∀ item ∈ codes.map Code.tree, Expr.Calm [] item := by
    intro item hitem
    obtain ⟨code, -, rfl⟩ := mem_map.mp hitem
    exact code.calm_tree
  obtain ⟨least, hsettles⟩ := h
  replace hsettles := hsettles least (Nat.le_refl _)
  have hunwound := hsettles.of_results ((unwound_eval least).2.1 _ _)
  obtain ⟨henv, hfunctions⟩ := hsettles.of_results ((keeps_eval least).2.1 _ hcalm m nofun)
  have hlength := hsettles.of_results (length_evalItems least _ m) values rfl
  refine ⟨?_, by rwa [length_map] at hlength⟩
  have hcalls := hunwound.calls
  have hmaxCalls := hunwound.maxCalls
  have hdescent := hunwound.descent
  cases m
  cases m'
  simp_all

/-- Control goes straight from the entry of the routine to a return, and each port of the return gets its value from the
port of the entry that `wire` gives it. No two ports on one side have the same id. -/
structure Routine.Relays (r : Routine) (function : FunctionDef)
    (wire : Fin function.returns.length → Fin function.params.length) (entry ret : Node) : Prop where
  params : (function.params.map Port.id).Nodup
  returns : (function.returns.map Port.id).Nodup
  first : r.entry? .functionEntry = some entry
  start : r.wiring.node? entry.id = some entry
  control : r.wiring.next? entry.id "exec-out" = some ret.id
  found : r.wiring.node? ret.id = some ret
  kind : r.kindOf ret = .functionReturn
  data : ∀ j, r.wiring.source? ret.id (function.returns.get j).id
    = some ⟨entry.id, (function.params.get (wire j)).id⟩

def relay {α : Type} {n k : Nat} (wire : Fin n → Fin k) (default : α) (items : List α) : List α :=
  List.ofFn fun j => items.getD (wire j) default

theorem Signature.paramName?_get {sig : Signature} (hdistinct : sig.Distinct)
    (hids : (sig.function.params.map Port.id).Nodup) (i : Fin sig.function.params.length)
    : sig.paramName? (sig.function.params.get i).id = some (sig.params.getD i "") := by
  obtain ⟨-, hlength, -⟩ := hdistinct
  obtain ⟨i, hi⟩ := i
  unfold paramName?
  generalize sig.function.params = ports at *
  generalize sig.params = names at *
  induction ports generalizing names i with
  | nil => exact nomatch hi
  | cons port ports ih =>
    cases names with
    | nil => exact nomatch hlength
    | cons name names =>
      obtain ⟨hport, hports⟩ := nodup_cons.mp hids
      cases i with
      | zero => simp
      | succ i =>
        have hi' : i < ports.length := Nat.lt_of_succ_lt_succ hi
        have hne : port.id ≠ ports[i].id := fun heq => hport (heq ▸ mem_map_of_mem (getElem_mem hi'))
        have hrest := ih i hports hi' names (Nat.succ.inj hlength)
        simpa [hne] using hrest

theorem Passes.of_other {marks : Prop} {node : Node} {bindings bindings' : Bindings} {items : List Item}
    (h : Passes r marks node bindings items bindings') (hkind : r.kindOf node ∉ passKinds)
    : items = [] ∧ bindings' = bindings := by
  cases h with
  | other => exact ⟨rfl, rfl⟩
  | ask h | print h | set h | create h | push h | pop h | store h | callUnknown h | callNothing h | call h =>
    rw [h] at hkind
    exact absurd (by decide) hkind

section Relays

variable {sig : Signature} {wire : Fin sig.function.returns.length → Fin sig.function.params.length}
  {entry ret : Node}

theorem Routine.Relays.kindOf_entry (h : r.Relays sig.function wire entry ret) : r.kindOf entry = .functionEntry := by
  simpa using find?_some h.first

theorem Routine.Relays.values_eq (hrelays : r.Relays sig.function wire entry ret)
    (hdistinct : sig.Distinct) (hsig : r.signature = some sig)
    {temps : List (Endpoint × Code)} {marks : Prop} {values : List Code}
    (h : Readings r temps marks ret sig.function.returns values)
    : values = (relay wire "" sig.params).map .ident := by
  have hkind := hrelays.kindOf_entry
  have hcode : ∀ socket, r.nodeCode temps entry socket (fun _ => .undefined)
      = (sig.paramName? socket).elim .undefined .ident := by
    intro socket
    unfold Routine.nodeCode
    rw [hkind, hsig]
    rfl
  obtain ⟨hlength, hvalues⟩ := forall₂_iff_get.mp h
  refine ext_get (by simp [relay, hlength]) fun i hi _ => ?_
  have hj : i < sig.function.returns.length := hlength ▸ hi
  have hdirect := ((hvalues i hj hi).wired _ (hrelays.data ⟨i, hj⟩)).direct entry hrelays.start
    (by rw [hkind]; rfl) fun _ => .undefined
  rw [hdirect, hcode, Signature.paramName?_get hdistinct hrelays.params]
  simp [relay]

theorem Job.body_of_relays {job : Job} (h : sig ∈ (Signatures.ofGraph job.graph).list)
    (hrelays : (job.functionRoutine sig).Relays sig.function wire entry ret)
    : (job.function sig).body = treesOf (enter (job.functionRoutine sig) ret
          ++ [.line (returnLine sig ((relay wire "" sig.params).map .ident))]) := by
  have hdistinct := Signatures.distinct_ofGraph job.graph sig h
  generalize hroutine : job.functionRoutine sig = r at hrelays
  have hsig : r.signature = some sig := by
    rw [← hroutine]
    rfl
  have hkind := hrelays.kindOf_entry
  have hne : ret.id ≠ entry.id := by
    intro heq
    have hsame := hrelays.found
    rw [heq, hrelays.start] at hsame
    cases hsame
    cases hkind.symm.trans hrelays.kind
  -- The tour comes to the return at once.
  have htour : r.tourFrom entry 1 = .pass entry (.last ret) := by
    have hlength : 1 ≤ r.wiring.nodes.length :=
      length_pos_of_mem (Wiring.mem_of_node?_eq_some hrelays.start)
    obtain ⟨n, hn⟩ := Nat.exists_eq_add_of_le' hlength
    have hret : r.tour (n + 1) 1 [entry.id] ret.id = .last ret := by
      simp [Routine.tour, hne, hrelays.found, hrelays.kind, Shape.ofKind]
    rw [Routine.tourFrom, hn, Routine.tour]
    simp [hrelays.start, hkind, Shape.ofKind, Routine.after, hrelays.control, hret]
  have houtset : job.functionOutset? sig = some ⟨r, entry, 1⟩ := by
    unfold functionOutset?
    rw [hroutine]
    exact Option.map_eq_some_iff.mpr ⟨entry, hrelays.first, rfl⟩
  have hcompiled : (job.compileFunction (.ofGraph job.graph) sig).1 = (r.compileFrom entry 1).1 := by
    rw [compileFunction_eq, houtset]
    rfl
  obtain ⟨_, hemits⟩ := r.emits_compileFrom entry 1
  unfold Job.function
  rw [hcompiled]
  rw [htour] at hemits
  generalize (r.compileFrom entry 1).1 = items at hemits
  cases hemits with
  | pass hpass hlast =>
    obtain ⟨rfl, rfl⟩ := hpass.of_other (by rw [hkind]; decide)
    cases hlast with
    | last h =>
      cases h with
      | returnFrom _ hown hvalues =>
        cases hown.symm.trans hsig
        rw [hrelays.values_eq hdistinct hsig hvalues]
        rfl
      | stop h | breakLoop h | continueLoop h => cases h.symm.trans hrelays.kind
      | other _ hnone => cases (hnone hrelays.kind).symm.trans hsig

end Relays

namespace Signature

variable {sig : Signature} {names : List String} {values : List Value} {m m' : Machine}

def packed (sig : Signature) : List Value → Value
  | [] => .undefined
  | [value] => value
  | values => .object (sig.returns.zip values)

def resultCode (sig : Signature) (result : String) (j : Nat) : Code :=
  match sig.function.returns with
  | [_] => .ident result
  | _ => .member result (sig.returns.getD j "")

theorem settles_returnLine (h : List.Forall₂ (fun name value => m.env.get? name = some value) names values)
    (hm : m.descent + 3 ≤ maxDescent)
    : Settles (execAll · (treesOf [.line (returnLine sig (names.map .ident))])) m
        (.returned (sig.packed values)) m := by
  have hinner : m.deeper.descent < maxDescent := Nat.lt_of_succ_lt hm
  match names, values, h with
  | [], [], .nil => exact settles_execAll_return (settles_return_none (Nat.lt_of_succ_lt hinner))
  | [name], [value], .cons hname .nil =>
    refine settles_execAll_return (settles_return (Nat.lt_of_succ_lt hinner) ?_)
    exact settles_identifier (m := m.deeper) hinner hname
  | name :: name' :: names, value :: value' :: values, h =>
    have hfields : ∀ (fields names : List String) (values : List Value),
        List.Forall₂ (fun name value => m.env.get? name = some value) names values
          → List.Forall₂ (fun (field : String × Expr) (result : String × Value) =>
              field.1 = result.1 ∧ Settles (eval · field.2) m.deeper.deeper result.2 m.deeper.deeper)
            ((fields.zip (names.map Code.ident)).map fun field => (field.1, field.2.tree)) (fields.zip values) := by
      intro fields
      induction fields with
      | nil => exact fun _ _ _ => .nil
      | cons field fields ih =>
        rintro _ _ (_ | ⟨hname, hnames⟩)
        · exact .nil
        · exact .cons ⟨rfl, settles_identifier (m := m.deeper.deeper) hm hname⟩ (ih _ _ hnames)
    have hobject := settles_evalFields (hfields sig.returns _ _ h)
    refine settles_execAll_return (settles_return (Nat.lt_of_succ_lt hinner) ?_)
    exact .eval (fun _ => rfl) hinner (.bind hobject (.pure _ m.deeper.deeper))

theorem settles_resultCode (hdistinct : sig.Distinct)
    (hlength : values.length = sig.function.returns.length) {result : String}
    (hresult : m.env.get? result = some (sig.packed values)) (hm : m.descent + 2 ≤ maxDescent)
    (hj : j < sig.function.returns.length)
    : Settles (eval · (sig.resultCode result j).tree) m (values.getD j .undefined) m := by
  have hreturns := hdistinct.length_returns
  unfold resultCode
  generalize sig.function.returns = ports at *
  match ports, values, hlength with
  | [], _, _ => exact nomatch hj
  | [port], [value], _ =>
    cases Nat.lt_one_iff.mp hj
    exact settles_identifier (Nat.lt_of_succ_lt hm) hresult
  | port :: port' :: ports, value :: value' :: values, hlength =>
    refine settles_member hm hresult ?_
    have hlookup := lookup_zip_getD hdistinct.returns (hlength.trans hreturns.symm) (hreturns ▸ hj) "" .undefined
    show Except.ok ((Value.field? _ _).getD .undefined) = _
    unfold Value.field?
    rw [hlookup]
    rfl

end Signature

theorem temporaries_foldl_bind (ports : List Port) (fields : List String) (bindings : Bindings) (node : Node)
    (result : String)
    : ((ports.zip fields).foldl (fun bindings (port, field) => bindings.bind ⟨node.id, port.id⟩ (.member result field))
        bindings).temporaries
      = ((ports.map fun port => (⟨node.id, port.id⟩ : Endpoint)).zip (fields.map (.member result))).reverse
        ++ bindings.temporaries := by
  induction ports generalizing fields bindings with
  | nil => rfl
  | cons port ports ih =>
    cases fields with
    | nil => rfl
    | cons field fields =>
      rw [zip_cons_cons, foldl_cons, ih]
      simp [Bindings.bind]

theorem lookup_bindResults {sig : Signature} (hdistinct : sig.Distinct)
    (hids : (sig.function.returns.map Port.id).Nodup) (bindings : Bindings) (node : Node) (result : String)
    (hj : j < sig.function.returns.length)
    : (bindings.bindResults node result sig).temporaries.lookup ⟨node.id, sig.function.returns[j].id⟩
        = some (sig.resultCode result j) := by
  have hlength := hdistinct.length_returns
  unfold Bindings.bindResults Signature.resultCode
  generalize sig.function.returns = ports at *
  match ports with
  | [] => exact nomatch hj
  | [port] =>
    cases Nat.lt_one_iff.mp hj
    simp [Bindings.bind]
  | port :: port' :: ports =>
    dsimp only
    generalize port :: port' :: ports = ports at *
    rw [temporaries_foldl_bind, lookup_append]
    have hkeys : (ports.map fun port => (⟨node.id, port.id⟩ : Endpoint)).Nodup := by
      refine List.Nodup.of_map Endpoint.socket ?_
      rwa [map_map]
    have hzip : (sig.returns.map (Code.member result)).length
        = (ports.map fun port => (⟨node.id, port.id⟩ : Endpoint)).length := by
      simp [hlength]
    have hfind := lookup_zip_getD hkeys hzip (by simpa using hj) ⟨"", ""⟩ (.member result "")
    have hkey : (ports.map fun port => (⟨node.id, port.id⟩ : Endpoint)).getD j ⟨"", ""⟩ = ⟨node.id, ports[j].id⟩ := by
      simp [hj]
    have hcode : (sig.returns.map (Code.member result)).getD j (.member result "")
        = .member result (sig.returns.getD j "") := by
      simp
    rw [hkey, hcode, Table.lookup_eq_of_perm (by rwa [map_fst_zip hzip.ge]) (reverse_perm _).symm] at hfind
    rw [hfind]
    rfl

theorem settles_enter {node : Node} {rest : List Stmt} {flow : Flow}
    (hnotice : r.instrument = true → m.env.get? "__onNode" = none ∧ m.function? "__onNode" = none)
    (hm : m.descent + 4 ≤ maxDescent) (hrest : Settles (execAll · rest) m flow m')
    : Settles (execAll · (treesOf (enter r node) ++ rest)) m flow m' := by
  unfold enter
  split
  · next hinstrument =>
    obtain ⟨henv, hfunction⟩ := hnotice hinstrument
    exact settles_execAll_cons (settles_notice hm henv hfunction) hrest
  · exact hrest

section Following

variable {r : Routine} {marks : Prop} {node : Node} {bindings bindings' : Bindings}
  {temps : List (Endpoint × Code)} {items : List Item} {codes : List Code}

def Fills (r : Routine) (temps : List (Endpoint × Code)) (marks : Prop) : List (Option Endpoint) → List Code → Prop :=
  List.Forall₂ fun slot code => ∀ source ∈ slot, Resolved r temps marks source code

theorem Fills.exists_code {slots : List (Option Endpoint)} (h : Fills r temps marks slots codes) {k : Nat}
    {source : Endpoint} (hslot : slots[k]? = some (some source))
    : ∃ code, codes[k]? = some code ∧ Resolved r temps marks source code := by
  obtain ⟨hlength, h⟩ := List.forall₂_iff_get.mp h
  obtain ⟨hk, hslot⟩ := List.getElem?_eq_some_iff.mp hslot
  exact ⟨codes[k], List.getElem?_eq_getElem (hlength ▸ hk), h k hk (hlength ▸ hk) source hslot⟩

theorem Readings.fills {ports : List Port} (h : Readings r temps marks node ports codes)
    : Fills r temps marks ((ports.map Port.id).map (r.wiring.source? node.id)) codes := by
  induction h with
  | nil => exact .nil
  | cons hcode _ ih => exact .cons (fun source hsource => hcode.wired source hsource) ih

theorem Passes.fills (h : Passes r marks node bindings items bindings') (hshape : Shape.ofKind (r.kindOf node) = .pass)
    : Fills r bindings.temporaries marks (r.slots node) (codesOf items) := by
  unfold Routine.slots Routine.statementSockets
  cases h with
  | ask hkind hmessage =>
    simp only [hkind, codesOf_append, codesOf_enter, codesOf_notify, codesOf_line_cons]
    exact .cons (fun source hsource => hmessage.wired source hsource) .nil
  | print hkind hvalue | set hkind hvalue | push hkind hvalue =>
    simp only [hkind, codesOf_append, codesOf_enter, codesOf_notify, codesOf_line_cons]
    exact .cons (fun source hsource => hvalue.wired source hsource) .nil
  | create hkind =>
    simp only [hkind, codesOf_append, codesOf_enter, codesOf_notify, codesOf_line_cons]
    exact .cons nofun .nil
  | pop hkind =>
    simp only [hkind, codesOf_append, codesOf_enter, codesOf_notify, codesOf_line_cons]
    exact .nil
  | store hkind hindex hvalue =>
    simp only [hkind, codesOf_append, codesOf_enter, codesOf_notify, codesOf_line_cons]
    exact .cons (fun source hsource => hindex.wired source hsource)
      (.cons (fun source hsource => hvalue.wired source hsource) .nil)
  | callUnknown hkind hfunction =>
    simp only [hkind, hfunction, codesOf_append, codesOf_enter, codesOf_line_cons]
    exact .nil
  | callNothing hkind hfunction harguments | call hkind hfunction harguments =>
    simp only [hkind, hfunction, codesOf_append, codesOf_enter, codesOf_line_cons]
    simpa [Line.codes] using harguments.fills
  | other hkind =>
    generalize r.kindOf node = kind at hkind hshape
    cases kind <;> first | exact .nil | exact absurd (by decide) hkind | cases hshape

theorem Ends.fills (h : Ends r marks node temps items) (hreturns : r.NamesReturns)
    (hshape : Shape.ofKind (r.kindOf node) = .last)
    : Fills r temps marks (r.slots node) (codesOf items) := by
  unfold Routine.slots Routine.statementSockets
  cases h with
  | stop hkind | breakLoop hkind | continueLoop hkind =>
    simp only [hkind, codesOf_append, codesOf_enter, codesOf_line_cons]
    exact .nil
  | returnFrom hkind hsig hvalues =>
    have hlength := (hreturns _ hsig).trans hvalues.length_eq
    simp only [hkind, hsig, codesOf_append, codesOf_enter, codesOf_line_cons]
    simpa [codes_returnLine hlength] using hvalues.fills
  | other hkind hsig =>
    by_cases hreturn : r.kindOf node = .functionReturn
    · simp only [hreturn, hsig hreturn]
      exact .nil
    · generalize r.kindOf node = kind at *
      cases kind <;> first | exact .nil | exact absurd rfl hreturn | cases hshape

theorem Heads.fills {head : List Item → Item} (h : Heads r marks node bindings head bindings')
    (hshape : Shape.ofKind (r.kindOf node) = .loop) (body : List Item)
    : ∃ codes more, (head body).codes = codes ++ more
        ∧ Fills r bindings.temporaries marks (r.slots node) codes := by
  unfold Routine.slots Routine.statementSockets
  cases h with
  | @forLoop start limit step hkind hstart hlimit hstep =>
    refine ⟨[start, limit, step], _, rfl, ?_⟩
    simp only [hkind]
    exact .cons (fun source hsource => hstart.wired source hsource)
      (.cons (fun source hsource => hlimit.wired source hsource)
        (.cons (fun source hsource => hstep.wired source hsource) .nil))
  | @whileLoop cond hkind hcond =>
    refine ⟨[cond], _, rfl, ?_⟩
    simp only [Shape.eq_loop_of_ofKind hshape hkind]
    exact .cons (fun source hsource => hcond.wired source hsource) .nil

theorem Emits.fills {tour : Tour} (h : Emits r marks tour bindings items bindings') {depth : Nat}
    {passed : List String} (hfollows : tour.Follows r depth passed)
    (hreturns : r.NamesReturns) (hfirst : node ∈ tour.nodes.head?)
    : ∃ codes more, codesOf items = codes ++ more
        ∧ Fills r bindings.temporaries marks (r.slots node) codes := by
  cases h with
  | stop | cut => exact nomatch hfirst
  | pass h _ =>
    cases hfirst
    exact ⟨_, _, codesOf_append _ _, h.fills hfollows.1.shape⟩
  | last h =>
    cases hfirst
    exact ⟨_, [], (append_nil _).symm, h.fills hreturns hfollows.shape⟩
  | @branch _ _ _ _ _ _ cond _ _ hcond _ _ =>
    cases hfirst
    refine ⟨[cond], _, by rw [codesOf_append, codesOf_enter, codesOf, Item.codes]; rfl, ?_⟩
    unfold Routine.slots Routine.statementSockets
    simp only [Shape.eq_branch_of_ofKind hfollows.1.shape]
    exact .cons (fun source hsource => hcond.wired source hsource) .nil
  | @loop _ _ _ _ _ _ _ _ body rest hhead _ _ =>
    cases hfirst
    obtain ⟨codes, more, hcodes, hfills⟩ := hhead.fills hfollows.1.shape body
    refine ⟨codes, more ++ codesOf rest, ?_, hfills⟩
    simp [codesOf, hcodes]

end Following

namespace Build

variable {r : Routine} {node : Node} {sig : Signature}

theorem length_inputs (r : Routine) (node : Node) (ports : List Port) (s : State)
    : ((inputs r node ports).run s).1.length = ports.length := by
  unfold inputs
  induction ports generalizing s with
  | nil => rfl
  | cons port ports ih =>
    rw [mapM_cons, run_bind, run_bind, run_pure]
    exact congrArg (· + 1) (ih _)

theorem run_bindResults (hdistinct : sig.Distinct) (hreturns : sig.function.returns ≠ []) (node : Node)
    (result : String) (s : State)
    : ((bindResults node result sig).run s).2 =
      { s with temporaries := (s.bindings.bindResults node result sig).temporaries, memo := [] } := by
  have hforM : ∀ (fields : List (Port × String)) (s : State), s.memo = []
      → ((fields.forM fun (port, field) => bindTemporary ⟨node.id, port.id⟩ (.member result field)).run s).2
        = { s with
            temporaries := (fields.foldl (fun bindings (port, field) =>
              bindings.bind ⟨node.id, port.id⟩ (.member result field)) s.bindings).temporaries } := by
    intro fields
    induction fields with
    | nil => exact fun _ _ => rfl
    | cons field fields ih => exact fun s hs => (ih _ rfl).trans (by rw [hs]; rfl)
  have hlength := hdistinct.length_returns
  unfold bindResults Bindings.bindResults
  generalize sig.function.returns = ports at *
  generalize sig.returns = fields at *
  match ports, fields with
  | [], _ => exact absurd rfl hreturns
  | [port], _ => rfl
  | port :: port' :: ports, field :: fields => exact hforM ((port' :: ports).zip fields) _ rfl

def callResult (r : Routine) (node : Node) (sig : Signature) (s : State) : String :=
  ((inputs r node sig.function.params).run s).2.bindings.temporary r "__ret"

section Compiled

variable (hfunction : r.functions.get? (node.data.functionId.getD "") = some sig)

include hfunction

theorem run_callItems_nil (hreturns : sig.function.returns = []) (s : State) : ((callItems r node).run s).1
        =
      enter r node
        ++ [.line (.call none sig.name ((inputs r node sig.function.params).run s).1)] := by
  unfold callItems
  simp only [hfunction, run_bind]
  rw [hreturns]
  rfl

theorem run_callItems (hdistinct : sig.Distinct) (hreturns : sig.function.returns ≠ []) (s : State)
    : ((callItems r node).run s).1
          = enter r node ++ [.line (.call (some (callResult r node sig s)) sig.name
            ((inputs r node sig.function.params).run s).1)]
        ∧ ((callItems r node).run s).2.memo = []
        ∧ ∃ bindings : Bindings, ((callItems r node).run s).2.temporaries
          = (bindings.bindResults node (callResult r node sig s) sig).temporaries := by
  unfold callItems
  simp only [hfunction, run_bind]
  rw [if_neg (by simpa using hreturns), run_bind, run_bind, run_pure, run_bindResults hdistinct hreturns]
  exact ⟨rfl, rfl, _, rfl⟩

end Compiled

theorem fills_walk {tour : Tour} {depth : Nat} {passed : List String} (hfollows : tour.Follows r depth passed)
    (hreturns : r.NamesReturns) (hfirst : node ∈ tour.nodes.head?) {s : State} (hmemo : s.memo = [])
    : ∃ codes more, codesOf ((walk r tour).run s).1 = codes ++ more
        ∧ Fills r s.temporaries True (r.slots node) codes := by
  -- A report more makes no difference, but then the flags for reports are right.
  have hordinary : Ordinary r.functions fun _ => True :=
    ⟨fun _ _ => trivial, fun _ => trivial, fun _ _ _ => trivial⟩
  obtain ⟨added, -, hadds⟩ := adds_walk r hordinary (fun _ => trivial) tour s
  have hitems : ((walk r tour).run (s.withDiagnostics [.missingEntry])).1 = ((walk r tour).run s).1 := by
    rw [hadds]
  have hmarked : (s.withDiagnostics [.missingEntry]).Marked := cons_ne_nil _ _
  have hsound : Sound r (s.withDiagnostics [.missingEntry]) := by
    refine ⟨?_, fun _ => hmarked, fun _ => hmarked⟩
    show ∀ entry ∈ s.memo, _
    rw [hmemo]
    exact nofun
  have hemits := (performs_walk tour _ hsound).2.2 True fun _ => trivial
  rw [← hitems]
  exact hemits.fills hfollows hreturns hfirst

end Build

namespace Job

def hooks (job : Job) : List String :=
  if job.options.instrument then ["__onNode"] else []

variable {job : Job} {sig : Signature} {entry ret : Node}
  {wire : Fin sig.function.returns.length → Fin sig.function.params.length}

section Run

variable (hnotice : job.options.instrument = true → "__onNode" ∉ (Signatures.ofGraph job.graph).taken)
  {spills scope fresh : List String} {m m' : Machine} (hfit : Fit job.functions job.hooks spills scope fresh m)

include hnotice

theorem hooks_free : ∀ hook ∈ job.hooks, hook ∈ noticeNames ∧ hook ∉ (Signatures.ofGraph job.graph).taken := by
  unfold hooks
  split
  · next h => exact forall_mem_singleton.mpr ⟨by decide, hnotice h⟩
  · exact nofun

include hfit

theorem free_notice (h : job.options.instrument = true)
    : m.env.get? "__onNode" = none ∧ m.function? "__onNode" = none := by
  have hhook : "__onNode" ∈ job.hooks := by simp [hooks, h]
  exact ⟨hfit.hooks _ hhook, function?_eq_none hfit.functions (hnotice h)⟩

variable (hsig : sig ∈ (Signatures.ofGraph job.graph).list)
  (hrelays : (job.functionRoutine sig).Relays sig.function wire entry ret) {values : List Value}

include hsig hrelays

theorem settles_relay (hlength : values.length = sig.function.params.length) (hcalls : m.calls < m.maxCalls)
    (hdescent : m.descent + 4 ≤ maxDescent)
    : Settles (call · (.identifier sig.name) values) m (sig.packed (relay wire .undefined values)) m := by
  have hdistinct := Signatures.distinct_ofGraph job.graph sig hsig
  have hparams := (Signatures.apart_ofGraph job.graph sig hsig).takesParams
  have hlength' : values.length = sig.params.length := hlength.trans hdistinct.length_params.symm
  obtain ⟨own, hown, hentries⟩ := Scope.exists_ofParams_zip
    (show ((∅ : Scope).keys ++ sig.params).Nodup from hdistinct.params) hlength'
  change own.entries = sig.params.zip values at hentries
  have hinside : Fit job.functions job.hooks spills sig.params [] (m.inFunction own) :=
    hfit.inFunction hdistinct.params hown
      (fun hook hhook hparam => (hooks_free hnotice hook hhook).2 (hparams hook hparam)) nofun
  have hnames : List.Forall₂ (fun name value => (m.inFunction own).env.get? name = some value)
      (relay wire "" sig.params) (relay wire .undefined values) := by
    refine forall₂_iff_get.mpr ⟨by simp [relay], fun i hi _ => ?_⟩
    rw [relay, length_ofFn] at hi
    have hplace := Nat.lt_of_lt_of_eq (wire ⟨i, hi⟩).isLt hdistinct.length_params.symm
    have hlookup := lookup_zip_getD hdistinct.params hlength' hplace "" .undefined
    have hlocal : (m.inFunction own).env.get? (sig.params.getD (wire ⟨i, hi⟩) "")
        = some (values.getD (wire ⟨i, hi⟩) .undefined) := by
      rw [Env.get?_eq, Machine.inFunction, findSome?_cons, Table.get?, hentries, hlookup, Option.some_or]
    simpa [relay] using hlocal
  have hbody : Settles (execAll · (job.function sig).body) (m.inFunction own)
      (.returned (sig.packed (relay wire .undefined values))) (m.inFunction own) := by
    rw [body_of_relays hsig hrelays, treesOf_append]
    exact settles_enter (free_notice hnotice hinside) hdescent
      (Signature.settles_returnLine hnames (Nat.le_of_succ_le hdescent))
  exact settles_call (function?_name hfit.functions hfit.defined hsig) hcalls hown hbody

theorem settles_awaitRelay {arguments : List Code} (hlength : arguments.length = sig.function.params.length)
    (hvalues : Settles (evalItems · (arguments.map Code.tree)) m.deeper.deeper.deeper values m')
    (hcalls : m.calls < m.maxCalls) (hdescent : m.descent + 7 ≤ maxDescent)
    : Settles (eval · (.await (.call (.identifier sig.name) (arguments.map Code.tree)))) m.deeper
        (sig.packed (relay wire .undefined values)) { m with random := m'.random }.deeper := by
  obtain ⟨hm', hvaluesLength⟩ := settles_arguments hvalues
  have hinside : Fit job.functions job.hooks spills scope fresh { m with random := m'.random }.deeper.deeper.deeper :=
    ⟨hfit.functions, hfit.defined, hfit.ready, hfit.program, hfit.hooks⟩
  have hcall := settles_relay hnotice hinside hsig hrelays (hvaluesLength.trans hlength) hcalls
    (show m.descent + 3 + 4 ≤ maxDescent from hdescent)
  rw [hm'] at hvalues
  exact settles_await (show m.descent + 1 + 2 ≤ maxDescent by omega) hvalues hcall

end Run

/-- A tour of the routine comes to a node that calls the function, and goes on with the rest. -/
structure Calls (job : Job) (outset : Outset) (node : Node) (rest : Tour) (sig : Signature) : Prop where
  mem : outset ∈ job.outsets
  tour : ∃ steps depth passed, depth ≤ maxNesting ∧ outset.routine.tour steps depth passed node.id = .pass node rest
  kind : outset.routine.kindOf node = .callFunction
  callee : outset.routine.functions.get? (node.data.functionId.getD "") = some sig

namespace Calls

variable {outset : Outset} {node : Node} {rest : Tour} (h : job.Calls outset node rest sig)

include h

theorem mem_list : sig ∈ (Signatures.ofGraph job.graph).list := by
  have hcallee := h.callee
  rw [(routine_of_mem_outsets h.mem).2] at hcallee
  exact Signatures.mem_of_get?_eq_some hcallee

theorem distinct : sig.Distinct :=
  Signatures.distinct_ofGraph job.graph sig h.mem_list

theorem passItems_eq : passItems outset.routine node = callItems outset.routine node := by
  unfold passItems
  rw [h.kind]

theorem treesOf_walk (s : State) : treesOf ((walk outset.routine (.pass node rest)).run s).1 =
      treesOf ((callItems outset.routine node).run s).1
        ++ treesOf ((walk outset.routine rest).run ((callItems outset.routine node).run s).2).1 := by
  rw [← treesOf_append, ← h.passItems_eq]
  rfl

theorem getElem?_codesOf (hids : (sig.function.returns.map Port.id).Nodup) (s : State) {next : Node}
    (hnext : next ∈ rest.nodes.head?) {k : Nat} (hj : j < sig.function.returns.length)
    (hslot : (outset.routine.slots next)[k]? = some (some ⟨node.id, sig.function.returns[j].id⟩))
    : (codesOf ((walk outset.routine rest).run ((callItems outset.routine node).run s).2).1)[k]?
        = some (sig.resultCode (callResult outset.routine node sig s) j) := by
  obtain ⟨steps, depth, passed, hdepth, htour⟩ := h.tour
  have hfollows : (Tour.pass node rest).Follows outset.routine depth [] := by
    rw [← htour]
    exact outset.routine.follows_tour hdepth (nil_subset passed)
  have hreturns : sig.function.returns ≠ [] := ne_nil_of_length_pos (Nat.zero_lt_of_lt hj)
  obtain ⟨-, hmemo, bindings, htemps⟩ := run_callItems h.callee h.distinct hreturns s
  obtain ⟨codes, more, hcodes, hfills⟩ := fills_walk hfollows.2 (length_returns_of_mem_outsets h.mem) hnext hmemo
  obtain ⟨code, hcode, hresolved⟩ := hfills.exists_code hslot
  rw [hcodes, List.getElem?_append_left (List.getElem?_eq_some_iff.mp hcode).1, hcode,
    hresolved.direct node hfollows.1.found (by rw [h.kind]; rfl) fun _ => .undefined]
  unfold Routine.nodeCode
  rw [h.kind, htemps]
  exact congrArg (some <| Option.getD · Code.undefined) (lookup_bindResults h.distinct hids bindings node _ hj)

theorem settles_pass [Generator] (hnotice : job.options.instrument = true → "__onNode" ∉ (Signatures.ofGraph job.graph).taken)
    (hrelays : (job.functionRoutine sig).Relays sig.function wire entry ret) (s : State) {seed : Option Nat}
    {maxCalls : Nat}
    (hreaches : job.program.Reaches seed maxCalls (treesOf ((walk outset.routine (.pass node rest)).run s).1) m)
    (hcalls : m.calls < m.maxCalls) (hdescent : m.descent + 7 ≤ maxDescent) {values : List Value}
    (hvalues : Settles (evalItems · (((inputs outset.routine node sig.function.params).run s).1.map Code.tree))
      m.deeper.deeper.deeper values m')
    : ∃ env : Env, Settles (execAll · (treesOf ((callItems outset.routine node).run s).1)) m .normal
            { m with random := m'.random, env := env }
          ∧ (∀ name ≠ callResult outset.routine node sig s, env.get? name = m.env.get? name)
          ∧ (sig.function.returns ≠ [] → env.get? (callResult outset.routine node sig s)
            = some (sig.packed (relay wire .undefined values))) := by
  obtain ⟨hinstrument, hfunctions⟩ := routine_of_mem_outsets h.mem
  have hsome : treesOf ((walk outset.routine (.pass node rest)).run s).1 ≠ [] := by
    rw [h.treesOf_walk]
    by_cases hreturns : sig.function.returns = []
    · simp [run_callItems_nil h.callee hreturns, treesOf, Item.trees, Line.tree?]
    · simp [run_callItems h.callee h.distinct hreturns, treesOf, Item.trees, Line.tree?]
  obtain ⟨scope, items, hitems, -, hfit⟩ := held_of_reaches (hooks_free hnotice) hsome hreaches
  have hawait := settles_awaitRelay hnotice hfit h.mem_list hrelays (length_inputs outset.routine node _ s) hvalues
    hcalls hdescent
  have hstatement {stmt : Stmt} {m' : Machine} (h : Settles (exec · stmt) m .normal m')
      : Settles (execAll · (treesOf (enter outset.routine node) ++ [stmt])) m .normal m' :=
    settles_enter (hinstrument ▸ free_notice hnotice hfit) (by omega) (settles_execAll_cons h (settles_execAll_nil m'))
  by_cases hreturns : sig.function.returns = []
  · refine ⟨m.env, ?_, fun _ _ => rfl, fun hne => absurd hreturns hne⟩
    rw [run_callItems_nil h.callee hreturns, treesOf_append]
    exact hstatement (settles_expr (by omega) hawait)
  · obtain ⟨hcompiled, -, -⟩ := run_callItems h.callee h.distinct hreturns s
    have hfresh : callResult outset.routine node sig s ∈ declaresOf items := by
      apply mem_declaresOf_of_mem_treesOf
      rw [← hitems, h.treesOf_walk, hcompiled, treesOf_append]
      exact mem_append_left _ (mem_append_right _ (mem_singleton_self _))
    have hspills : callResult outset.routine node sig s ∉ job.spillsAll := fun hspilled =>
      Bindings.temporary_not_mem_taken _ outset.routine (by decide) (hfunctions ▸ spillsAll_subset hspilled)
    obtain ⟨env, henv⟩ := hfit.exists_declare hfresh hspills (sig.packed (relay wire .undefined values))
    refine ⟨env, ?_, fun name hname => ?_, fun _ => ?_⟩
    · rw [hcompiled, treesOf_append]
      exact hstatement (settles_declare (by omega) hawait henv)
    · rw [Env.get?_declare henv, if_neg hname]
    · rw [Env.get?_declare henv, if_pos rfl]

end Calls

/-- A call of a function that hands its parameters through yields, at each port, the value of the argument to which the
port is wired: the statement after the call reads that value. All else is as before, but for the numbers that the
arguments draw at random. -/
theorem reads_relayed [Generator] (job : Job) (hlegible : ∀ outset ∈ job.outsets, outset.routine.Legible outset.tour)
    (hnotice : job.options.instrument = true → "__onNode" ∉ (Signatures.ofGraph job.graph).taken)
    {signature : Signature} {wire : Fin signature.function.returns.length → Fin signature.function.params.length}
    {entry ret : Node} (hrelays : (job.functionRoutine signature).Relays signature.function wire entry ret)
    {outset : Outset} {node : Node} {rest : Tour} (hcall : job.Calls outset node rest signature) (s : State)
    {program : Program} (hparse : Program.parse job.compile.code = .ok program) {seed : Option Nat} {maxCalls : Nat}
    {m : Machine}
    (hreaches : program.Reaches seed maxCalls (treesOf ((walk outset.routine (.pass node rest)).run s).1) m)
    (hcalls : m.calls < m.maxCalls) (hdescent : m.descent + 7 ≤ maxDescent) {values : List Value} {m' : Machine}
    (hvalues : Settles (evalItems · (((inputs outset.routine node signature.function.params).run s).1.map Code.tree))
      m.deeper.deeper.deeper values m')
    : ∃ (result : String) (env : Env), Settles (execAll · (treesOf ((passItems outset.routine node).run s).1)) m .normal
            { m with random := m'.random, env := env }
          ∧ (∀ name ≠ result, env.get? name = m.env.get? name)
          ∧ ∀ next ∈ rest.nodes.head?, ∀ (k : Nat) (j : Fin signature.function.returns.length),
            (outset.routine.slots next)[k]? = some (some ⟨node.id, (signature.function.returns.get j).id⟩)
              → ∃ (code : Code) (value : Value),
                (codesOf ((walk outset.routine rest).run ((passItems outset.routine node).run s).2).1)[k]? = some code
                  ∧ values[(wire j).val]? = some value
                  ∧ ∀ m'' : Machine, m''.env.get? result = env.get? result → m''.descent + 2 ≤ maxDescent
                    → Settles (eval · code.tree) m'' value m'' := by
  obtain rfl := eq_program_of_parse hlegible hparse
  obtain ⟨env, hrun, hothers, hresult⟩ := hcall.settles_pass hnotice hrelays s hreaches hcalls hdescent hvalues
  rw [hcall.passItems_eq]
  refine ⟨callResult outset.routine node signature s, env, hrun, hothers, fun next hnext k j hslot => ?_⟩
  have hvalue : (wire j).val < values.length := by
    rw [(settles_arguments hvalues).2, length_inputs]
    exact (wire j).isLt
  refine ⟨_, values[(wire j).val], hcall.getElem?_codesOf hrelays.returns s hnext j.isLt hslot,
    getElem?_eq_getElem hvalue, fun m'' hsame hroom => ?_⟩
  have hreturns : signature.function.returns ≠ [] := ne_nil_of_length_pos (Nat.zero_lt_of_lt j.isLt)
  have hport := Signature.settles_resultCode hcall.distinct (by simp [relay]) (hsame.trans (hresult hreturns)) hroom
    j.isLt
  simpa [relay, hvalue] using hport

def crossed : Graph where
  nodes :=
    [⟨"start", .start, none, {}⟩,
     ⟨"call", .callFunction, none, { functionId := some "f", inlineValues := .ofList [("a", "true"), ("b", "false")] }⟩,
     ⟨"show", .output, none, {}⟩]
  edges := [.control "start" "exec-out" "call", .control "call" "exec-out" "show", .data "call" "v" "show" "value"]
  functions := .ofList [("f",
    { id := "f"
      name := "await"
      params := [⟨"a", "x", .any⟩, ⟨"b", "x", .any⟩]
      returns := [⟨"u", "", .any⟩, ⟨"v", "", .any⟩]
      nodes := [⟨"entry", .functionEntry, none, {}⟩, ⟨"return", .functionReturn, none, {}⟩]
      edges :=
        [.control "entry" "exec-out" "return", .data "entry" "b" "return" "u", .data "entry" "a" "return" "v"] })]

theorem reads_relayed_crossed
    : let job : Job := ⟨crossed, ⟨true⟩, {}⟩
      let signature := (Signatures.ofGraph crossed).list.get ⟨0, by decide +kernel⟩
      let routine := job.mainRoutine
      let node : Node := ⟨"call", .callFunction, none,
        { functionId := some "f", inlineValues := .ofList [("a", "true"), ("b", "false")] }⟩
      let rest : Tour := .pass ⟨"show", .output, none, {}⟩ .stop
      job.Calls ⟨routine, ⟨"start", .start, none, {}⟩, 0⟩ node rest signature
        ∧ ∃ m, job.program.Reaches none 64 (treesOf ((walk routine (.pass node rest)).run routine.start).1) m
          ∧ ∃ (result : String) (env : Env) (code : Code),
            Settles (execAll · (treesOf ((passItems routine node).run routine.start).1)) m .normal { m with env }
              ∧ (codesOf ((walk routine rest).run ((passItems routine node).run routine.start).2).1)[0]? = some code
              ∧ ∀ m'' : Machine, m''.env.get? result = env.get? result → m''.descent + 2 ≤ maxDescent
                → Settles (eval · code.tree) m'' (.bool true) m'' := by
  intro job signature routine node rest
  have hreadable : ∀ outset ∈ job.outsets, outset.Readable := readable_of_hasTokens (by decide +kernel)
  have hlegible : ∀ outset ∈ job.outsets, outset.routine.Legible outset.tour := fun outset houtset =>
    (legible_of_hasTokens (by decide +kernel) outset houtset).statements
  have hcall : job.Calls ⟨routine, ⟨"start", .start, none, {}⟩, 0⟩ node rest signature := by
    refine ⟨?_, ⟨2, 0, [], by decide, rfl⟩, rfl, rfl⟩
    exact mem_cons_self
  have hrelays : (job.functionRoutine signature).Relays signature.function (fun j : Fin 2 => (1 - j : Fin 2))
      ⟨"entry", .functionEntry, none, {}⟩ ⟨"return", .functionReturn, none, {}⟩ := by
    refine ⟨by decide +kernel, by decide +kernel, rfl, rfl, rfl, rfl, rfl, ?_⟩
    intro j
    match j with
    | ⟨0, _⟩ => rfl
    | ⟨1, _⟩ => rfl
  let start := (Machine.start none 64).defineAll job.program.functions
  let m := start.define signature.name (job.function signature)
  have hreaches : job.program.Reaches none 64 (treesOf ((walk routine (.pass node rest)).run routine.start).1) m := by
    have hbody : job.program.body = .function signature.name signature.params (job.function signature).body
        :: treesOf ((walk routine (.pass node rest)).run routine.start).1 := rfl
    have hdefine : Gives (exec · (.function signature.name signature.params (job.function signature).body)) start
        .normal m := ⟨1, [], .done _⟩
    unfold Program.Reaches
    rw [hbody]
    exact ⟨_, .next .start rfl (.rest hdefine)⟩
  have hvalues : Settles
      (evalItems · (((inputs routine node signature.function.params).run routine.start).1.map Code.tree))
      m.deeper.deeper.deeper [.bool true, .bool false] m.deeper.deeper.deeper := by
    have htrees : ((inputs routine node signature.function.params).run routine.start).1.map Code.tree
        = [rawTree "true", rawTree "false"] := rfl
    have hvalue (b : Bool) : Settles (eval · (.bool b)) m.deeper.deeper.deeper (.bool b) m.deeper.deeper.deeper :=
      .eval (fun _ => rfl) (show 3 < maxDescent by decide) (.pure _ m.deeper.deeper.deeper.deeper)
    rw [htrees]
    exact settles_evalItems (.cons (hvalue true) (.cons (hvalue false) .nil))
  obtain ⟨result, env, hrun, -, hreads⟩ := reads_relayed job hlegible (fun _ => by decide +kernel) hrelays hcall
    routine.start (parse_of_readable hreadable) hreaches (show 0 < 64 by decide) (show 0 + 7 ≤ maxDescent by decide)
    hvalues
  obtain ⟨code, value, hcode, hvalue, hsettles⟩ := hreads ⟨"show", .output, none, {}⟩ rfl 0 (1 : Fin 2) rfl
  cases hvalue
  exact ⟨hcall, m, hreaches, result, env, code, hrun, hcode, hsettles⟩

def shadowedNotice : Graph where
  nodes :=
    [⟨"start", .start, none, {}⟩,
     ⟨"call", .callFunction, none, { functionId := some "f", inlineValues := .ofList [("p", "7")] }⟩,
     ⟨"show", .output, none, {}⟩]
  edges := [.control "start" "exec-out" "call", .control "call" "exec-out" "show", .data "call" "r" "show" "value"]
  functions := .ofList [("f",
    { id := "f"
      name := "f"
      params := [⟨"p", "__onNode", .number⟩]
      returns := [⟨"r", "r", .number⟩]
      nodes := [⟨"entry", .functionEntry, none, {}⟩, ⟨"return", .functionReturn, none, {}⟩]
      edges := [.control "entry" "exec-out" "return", .data "entry" "p" "return" "r"] })]

theorem shadowedNotice_fails
    : let job : Job := ⟨shadowedNotice, ⟨true⟩, {}⟩
      let signature := (Signatures.ofGraph shadowedNotice).list.get ⟨0, by decide +kernel⟩
      (job.functionRoutine signature).Relays signature.function (fun j : Fin 1 => j)
          ⟨"entry", .functionEntry, none, {}⟩ ⟨"return", .functionReturn, none, {}⟩
        ∧ "__onNode" ∈ (Signatures.ofGraph shadowedNotice).taken
        ∧ ((Run.dialog 1000 job.compile.code ⟨.manual, none, 64⟩).play ⟨[], none⟩).result
          = some (.error (.notAFunction "__onNode")) := by
  intro job signature
  refine ⟨⟨by decide +kernel, by decide +kernel, rfl, rfl, rfl, rfl, rfl, ?_⟩, by decide +kernel,
    Dialog.eq_of_isFailure (by decide +kernel)⟩
  intro j
  match j with
  | ⟨0, _⟩ => rfl

end Job

end NodeScript.Compile
