import Mathlib.Data.List.Find
import Mathlib.Data.List.Nodup
import NodeScript.Proofs.Agreement
import NodeScript.Proofs.Tables
import NodeScript.Socket.Connection

/-!
Suggestions for loose edges. The socket that is suggested is the first one that the check of connections accepts. A
call is suggested for every function with such a socket, and it can be made where the function is filed under the name
that the suggestion has for it.
-/

namespace NodeScript

open List

/-- The socket at which a loose edge starts, as the check of connections finds it. -/
def Shape.origin? (shape : Shape) : Role → String → Option Socket
  | .source => shape.output?
  | .target => shape.input?

/-- The check of a loose edge whose other end is put on a socket. -/
def attach (role : Role) (origin : Shape) (start : String) (shape : Shape) (id : String)
    : Except ConnectionError (EdgeKind × Option DataType) :=
  match role with
  | .source => checkConnection origin start shape id
  | .target => checkConnection shape id origin start

def FunctionDef.HasDistinctPorts (function : FunctionDef) : Prop :=
  ∀ ports ∈ [function.params, function.returns], ("exec-in" :: "exec-out" :: ports.map Port.id).Nodup

theorem FunctionDef.HasDistinctPorts.nodup {function : FunctionDef} (h : function.HasDistinctPorts) {ports : List Port}
    (hports : ports ∈ [function.params, function.returns]) {socket : Socket}
    (hsocket : socket = Shape.enter ∨ socket = Shape.leave)
    : ((socket :: ports.map Port.socket).map Socket.id).Nodup := by
  have hnodup := h ports hports
  have hids : (ports.map Port.socket).map Socket.id = ports.map Port.id := map_map
  rw [map_cons, hids]
  obtain rfl | rfl := hsocket
  · exact hnodup.sublist ((sublist_cons_self ..).cons_cons _)
  · exact hnodup.of_cons

theorem nodup_candidates (kind : NodeKind) {function : Option FunctionDef}
    (h : ∀ f ∈ function, f.HasDistinctPorts) (role : Role)
    : (((Shape.of kind function).candidates role).map Socket.id).Nodup := by
  have hfixed : (((kind.shape?.getD .empty).candidates role).map Socket.id).Nodup := by
    cases kind with
    | unknown => cases role <;> exact nodup_nil
    | _ => cases role <;> decide
  cases function with
  | none => exact hfixed
  | some function =>
    have hports := h function rfl
    have hparams : function.params ∈ [function.params, function.returns] := mem_cons_self ..
    have hreturns : function.returns ∈ [function.params, function.returns] := mem_cons_of_mem _ (mem_cons_self ..)
    cases kind with
    | callFunction =>
      cases role with
      | source => exact hports.nodup hparams (.inl rfl)
      | target => exact hports.nodup hreturns (.inr rfl)
    | functionEntry =>
      cases role with
      | source => exact nodup_nil
      | target => exact hports.nodup hparams (.inr rfl)
    | functionReturn =>
      cases role with
      | source => exact hports.nodup hreturns (.inl rfl)
      | target => exact nodup_nil
    | _ => exact hfixed

theorem SocketKind.compatible_comm (a b : SocketKind) : a.compatible b = b.compatible a := by
  cases a with
  | control => cases b <;> rfl
  | data a =>
    cases b with
    | control => rfl
    | data b => cases a <;> cases b <;> rfl

theorem isOk_checkConnection {source target : Shape} {id id' : String} {start stop : Socket}
    (hstart : source.output? id = some start) (hstop : target.input? id' = some stop)
    : (checkConnection source id target id').isOk = start.kind.compatible stop.kind := by
  unfold checkConnection
  rw [hstart, hstop]
  dsimp only
  cases start.kind with
  | control => cases stop.kind <;> rfl
  | data a =>
    cases stop.kind with
    | control => rfl
    | data b =>
      dsimp only [SocketKind.compatible]
      cases a.compatible b <;> rfl

theorem find?_socket {sockets : List Socket} (h : (sockets.map Socket.id).Nodup) {socket : Socket}
    (hsocket : socket ∈ sockets) : (sockets.find? fun other => other.id = socket.id) = some socket := by
  obtain ⟨found, hfound⟩ : ∃ found, (sockets.find? fun other => other.id = socket.id) = some found :=
    Option.isSome_iff_exists.mp (find?_isSome.mpr ⟨socket, hsocket, by simp⟩)
  have hid : found.id = socket.id := by simpa using find?_some hfound
  rw [hfound, inj_on_of_nodup_map h (mem_of_find?_eq_some hfound) hsocket hid]

theorem isOk_attach {role : Role} {origin shape : Shape} {start socket : Socket}
    (hstart : origin.origin? role start.id = some start) (hnodup : ((shape.candidates role).map Socket.id).Nodup)
    (hsocket : socket ∈ shape.candidates role)
    : (attach role origin start.id shape socket.id).isOk = start.kind.compatible socket.kind := by
  have hfound := find?_socket hnodup hsocket
  cases role with
  | source => exact isOk_checkConnection hstart hfound
  | target => exact (isOk_checkConnection hfound hstart).trans (SocketKind.compatible_comm ..)

/-- The suggestion is the first socket with which the check accepts the edge, if it accepts it with any. -/
theorem suggestSocket_attach (kind : NodeKind) {function : Option FunctionDef}
    (hfunction : ∀ f ∈ function, f.HasDistinctPorts) (role : Role) {origin : Shape} {start : Socket}
    (hstart : origin.origin? role start.id = some start)
    : let shape := Shape.of kind function
      suggestSocket kind role start.kind function
          = ((shape.candidates role).map Socket.id).find? (fun id => (attach role origin start.id shape id).isOk)
        ∧ (suggestSocket kind role start.kind function = none
          ↔ ∀ id ∈ (shape.candidates role).map Socket.id, ∃ e, attach role origin start.id shape id = .error e) := by
  intro shape
  have hnodup := nodup_candidates kind hfunction role
  have hfirst : suggestSocket kind role start.kind function
      = ((shape.candidates role).map Socket.id).find? (fun id => (attach role origin start.id shape id).isOk) := by
    unfold suggestSocket
    rw [find?_map]
    congr 1
    apply find?_congr
    intro socket hsocket
    exact (isOk_attach hstart hnodup hsocket).symm
  refine ⟨hfirst, ?_⟩
  rw [hfirst, find?_eq_none]
  refine forall₂_congr fun id _ => ?_
  cases attach role origin start.id shape id <;> simp [Except.isOk, Except.toBool]

theorem suggestSocket_attach_call
    : let function : FunctionDef := { id := "f", name := "f", params := [⟨"n", "n", .number⟩], returns := [⟨"r", "r", .string⟩] }
      let shape := Shape.of .callFunction (some function)
      suggestSocket .callFunction .target (.data .any) (some function) = some "r"
        ∧ ((shape.candidates .target).map Socket.id).find?
            (fun id => (attach .target (.of .output none) "value" shape id).isOk) = some "r" := by
  intro function shape
  have hports : ∀ f ∈ some function, f.HasDistinctPorts := by
    rintro _ ⟨⟩
    unfold FunctionDef.HasDistinctPorts
    decide
  let start : Socket := ⟨"value", .data .any⟩
  have hstart : (Shape.of .output none).origin? .target start.id = some start := by decide
  have hsuggest : suggestSocket .callFunction .target (.data .any) (some function) = some "r" := by decide
  have hfirst := (suggestSocket_attach .callFunction hports .target hstart).1
  exact ⟨hsuggest, hfirst.symm.trans hsuggest⟩

theorem Compile.Job.get?_of_unknownFunction {job : Job} {node id : String}
    (h : .unknownFunction node id ∈ job.compile.diagnostics) : job.graph.functions.get? id = none := by
  let p : Diagnostic → Prop := fun d => ∀ node id, d = .unknownFunction node id → job.graph.functions.get? id = none
  have hordinary : Build.Ordinary (.ofGraph job.graph) p := by
    refine ⟨by rintro _ _ _ _ ⟨⟩, by rintro _ _ _ ⟨⟩, ?_⟩
    rintro _ _ hnone _ _ ⟨⟩
    rw [← Signatures.map_function_get?_ofGraph, hnone]
    rfl
  have hstart (nodes : List Node) (edges : List Edge) (sig : Option Signature)
      : ∀ d ∈ (job.routine (.ofGraph job.graph) nodes edges sig).start.diagnostics, p d := by
    intro d hd
    obtain ⟨_, _, rfl, -⟩ := (Wiring.mem_duplicates_iff _ _ _).mp hd
    rintro _ _ ⟨⟩
  have hroutine (nodes : List Node) (edges : List Edge) (sig : Option Signature) :=
    Build.forall_mem_compileFrom _ hordinary (by rintro _ _ _ ⟨⟩) (hstart nodes edges sig)
  suffices hall : ∀ d ∈ job.compile.diagnostics, p d from hall _ h _ _ rfl
  unfold compile
  dsimp only
  cases hmain : job.compileMain? (.ofGraph job.graph) with
  | none =>
    refine forall_mem_singleton.mpr ?_
    rintro _ _ ⟨⟩
  | some main =>
    refine forall_mem_append.mpr ⟨?_, ?_⟩
    · rw [flatMap_map, forall_mem_flatMap]
      intro sig _
      dsimp only [compileFunction]
      split
      · exact hroutine _ _ _ _ 1
      · refine forall_mem_append.mpr ⟨hstart _ _ _, forall_mem_singleton.mpr ?_⟩
        rintro _ _ ⟨⟩
    · obtain ⟨entry, -, rfl⟩ := Option.map_eq_some_iff.mp hmain
      exact hroutine _ _ _ entry 0

namespace FunctionDef

def suggestCall (function : FunctionDef) (role : Role) (origin : SocketKind) : Option Suggestion :=
  (suggestSocket .callFunction role origin (some function)).map fun socket =>
    ⟨.callFunction, some function.id, socket⟩

/-- A node that names the function by its own name belongs to it, wherever the node stands, and where the functions are
those of a graph, its calls are calls of the function. -/
structure Callable (function : FunctionDef) (functions : Table FunctionDef) : Prop where
  belongs : ∀ node : Node, node.data.functionId = some function.id
    → ∀ owner, node.function? functions owner = some function
  compiled : ∀ graph : Graph, graph.functions = functions
    → ((Compile.Signatures.ofGraph graph).get? function.id).map Compile.Signature.function = some function
  reported : ∀ job : Compile.Job, job.graph.functions = functions
    → ∀ node, .unknownFunction node function.id ∉ job.compile.diagnostics

theorem callable_iff {functions : Table FunctionDef} {function : FunctionDef}
    : function.Callable functions ↔ (function.id, function) ∈ functions.entries := by
  rw [← functions.get?_eq_some_iff_mem]
  constructor
  · intro h
    rw [← h.compiled ⟨[], [], functions⟩ rfl, Compile.Signatures.map_function_get?_ofGraph]
  · intro hget
    refine ⟨?_, ?_, ?_⟩
    · intro node hnode owner
      rw [Node.function?, hnode, Option.bind_some, hget]
    · rintro graph rfl
      rw [Compile.Signatures.map_function_get?_ofGraph, hget]
    · rintro job rfl node hmem
      cases hget.symm.trans (Compile.Job.get?_of_unknownFunction hmem)

end FunctionDef

/-- The calls that are suggested are those of the functions with a socket for the edge, one for each function in the
table. Such a call can be made if and only if the function is filed under its own name. -/
theorem suggestNodes_calls (functions : Table FunctionDef) (role : Role) (origin : SocketKind)
    : ((suggestNodes role origin functions).filter (·.kind = .callFunction)).Perm
          (functions.entries.filterMap fun entry => entry.2.suggestCall role origin)
        ∧ ∀ entry ∈ functions.entries, ∀ suggestion ∈ entry.2.suggestCall role origin,
            suggestion.functionId = some entry.2.id
              ∧ (entry.2.Callable functions ↔ (entry.2.id, entry.2) ∈ functions.entries) := by
  constructor
  · unfold suggestNodes
    dsimp only
    rw [filter_append, filter_eq_nil_iff.mpr ?_, filter_eq_self.mpr ?_, nil_append]
    · have hperm := (mergeSort_perm functions.values fun a b => a.id ≤ b.id).filterMap (FunctionDef.suggestCall · role origin)
      rwa [Table.values, filterMap_map] at hperm
    · intro suggestion hmem
      obtain ⟨function, -, hcall⟩ := mem_filterMap.mp hmem
      obtain ⟨socket, -, rfl⟩ := Option.map_eq_some_iff.mp hcall
      rfl
    · intro suggestion hmem
      obtain ⟨kind, hkind, hnode⟩ := mem_filterMap.mp hmem
      obtain ⟨socket, -, rfl⟩ := Option.map_eq_some_iff.mp hnode
      have hmenu : ∀ kind ∈ NodeKind.menu, kind ≠ .callFunction := by decide
      simpa using hmenu kind hkind
  · intro entry _ suggestion hsuggestion
    obtain ⟨socket, -, rfl⟩ := Option.map_eq_some_iff.mp hsuggestion
    exact ⟨rfl, FunctionDef.callable_iff⟩

theorem suggestNodes_calls_filed
    : let f : FunctionDef := { id := "f", name := "f", params := [⟨"n", "n", .number⟩] }
      let g : FunctionDef := { id := "g", name := "g", params := [⟨"m", "m", .number⟩] }
      let functions : Table FunctionDef := ⟨[("k", g), ("f", f)], by decide⟩
      ((suggestNodes .source (.data .number) functions).filter (·.kind = .callFunction)).Perm
          [⟨.callFunction, some "g", "m"⟩, ⟨.callFunction, some "f", "n"⟩]
        ∧ f.Callable functions ∧ ¬ g.Callable functions := by
  intro f g functions
  obtain ⟨hperm, hcalls⟩ := suggestNodes_calls functions .source (.data .number)
  have hf : ("f", f) ∈ functions.entries := mem_cons_of_mem _ (mem_singleton_self _)
  have hg : ("k", g) ∈ functions.entries := mem_cons_self ..
  refine ⟨hperm, (hcalls _ hf _ rfl).2.mpr hf, ?_⟩
  rw [(hcalls _ hg _ rfl).2]
  simp [functions, g, f]

theorem suggestNodes_misfiled
    : let function : FunctionDef := { id := "x", name := "x" }
      let functions : Table FunctionDef := ⟨[("k", function)], by decide⟩
      let call : Node := ⟨"c", .callFunction, none, { functionId := some "x" }⟩
      let graph : Graph := ⟨[⟨"s", .start, none, {}⟩, call], [.control "s" "exec-out" "c"], functions⟩
      ⟨.callFunction, some "x", "exec-in"⟩ ∈ suggestNodes .source .control functions
        ∧ call.function? functions none = none
        ∧ (Compile.Signatures.ofGraph graph).get? "x" = none
        ∧ .unknownFunction "c" "x" ∈ (⟨graph, .default, {}⟩ : Compile.Job).compile.diagnostics :=
  ⟨by decide +kernel, rfl, rfl, by decide +kernel⟩

end NodeScript
