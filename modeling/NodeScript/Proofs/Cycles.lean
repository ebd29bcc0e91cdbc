import Mathlib.Data.List.Count
import NodeScript.Proofs.ExpressionLimit
import NodeScript.Proofs.Recomputation

/-!
Cycles along data edges, over whole routines: they are reported if and only if a statement reads
something that depends on itself, and then a marker stands in its place.
-/

namespace NodeScript.Compile

open List

variable {r : Routine}

open Build

variable {out : Endpoint} {code : Code} {passed : List Endpoint}

namespace Code

def isLooped : Code → Bool
  | circular => true
  | binary _ left right | random left right => left.isLooped || right.isLooped
  | not operand | element _ operand => operand.isLooped
  | ident _ | member _ _ | raw _ | quoted _ | length _ | undefined | tooDeep => false

theorem isLooped_eq_any_parts (h : code ≠ circular) : code.isLooped = code.parts.any isLooped := by
  cases code with
  | circular => exact absurd rfl h
  | _ => simp [isLooped, parts]

theorem infix_of_isLooped (h : code.isLooped) : circularMarker.toList <:+: code.text.toList := by
  induction code with
  | circular => exact infix_rfl
  | binary _ _ _ ih ih' | random _ _ ih ih' =>
    obtain h | h := Bool.or_eq_true_iff.mp h
    · exact (ih h).trans (infix_of_mem_parts (by simp [parts]))
    · exact (ih' h).trans (infix_of_mem_parts (by simp [parts]))
  | not operand ih | element array index ih => exact (ih h).trans (infix_of_mem_parts (by simp [parts]))
  | _ => simp [isLooped] at h

end Code

namespace Routine

variable {r : Routine}

def OnCycle (r : Routine) (out : Endpoint) : Prop :=
  Relation.TransGen r.IsSource out out

def MeetsCycle (r : Routine) (out : Endpoint) : Prop :=
  ∃ source, Relation.ReflTransGen r.IsSource source out ∧ r.OnCycle source

theorem Ranked.not_meetsCycle {n : Nat} (h : r.Ranked n out) : ¬ r.MeetsCycle out := by
  rintro ⟨source, hpath, hcycle⟩
  induction hpath generalizing n with
  | refl => exact h.not_circular hcycle
  | tail hpath hsource ih =>
    cases n with
    | zero => exact h
    | succ n => exact ih (h _ hsource)

theorem onCycle_of_mem (hchain : (out :: passed).IsChain r.IsSource) (h : out ∈ passed) : r.OnCycle out :=
  rel_of_pairwise_cons (hchain.imp fun _ _ => Relation.TransGen.single).pairwise h

theorem mem_cycles {room : Nat} {source : Endpoint} (hchain : (out :: passed).IsChain r.IsSource)
    (h : source ∈ r.cycles room passed out)
    : Relation.ReflTransGen r.IsSource source out ∧ r.OnCycle source := by
  induction room generalizing passed out with
  | zero =>
    rw [cycles] at h
    split at h
    · next hmem =>
      obtain rfl := mem_singleton.mp h
      exact ⟨.refl, onCycle_of_mem hchain (by simpa using hmem)⟩
    · exact (not_mem_nil h).elim
  | succ room ih =>
    rw [cycles] at h
    split at h
    · next hmem =>
      obtain rfl := mem_singleton.mp h
      exact ⟨.refl, onCycle_of_mem hchain (by simpa using hmem)⟩
    · obtain ⟨next, hnext, h⟩ := mem_flatMap.mp h
      obtain ⟨hpath, hcycle⟩ := ih (isChain_cons_cons.mpr ⟨hnext, hchain⟩) h
      exact ⟨hpath.tail hnext, hcycle⟩

theorem ranked_of_cycles_eq_nil (hshort : r.ShortPaths) {room : Nat}
    (hcomes : r.Comes room passed out) (h : r.cycles room passed out = [])
    : r.Ranked room out := by
  have hnew : out ∉ passed := by
    intro hmem
    rw [cycles_of_mem hmem] at h
    exact cons_ne_nil _ _ h
  induction room generalizing passed out with
  | zero => exact absurd (hcomes.room_pos hshort hnew) (Nat.lt_irrefl 0)
  | succ room ih =>
    rw [cycles_succ hnew, flatMap_eq_nil_iff] at h
    intro source hsource
    refine ih (hcomes.step hnew hsource) (h source hsource) fun hmem => ?_
    have hnone := h source hsource
    rw [cycles_of_mem hmem] at hnone
    exact cons_ne_nil _ _ hnone

theorem cycles_ne_nil_iff (hshort : r.ShortPaths) (hused : r.IsUsed out)
    : r.cycles maxExpressionDepth [] out ≠ [] ↔ r.MeetsCycle out := by
  constructor
  · intro h
    obtain ⟨source, hsource⟩ := exists_mem_of_ne_nil _ h
    exact ⟨source, mem_cycles (isChain_singleton out) hsource⟩
  · intro hmeets hnil
    exact (ranked_of_cycles_eq_nil hshort (.start hused) hnil).not_meetsCycle hmeets

variable {temps : List (Endpoint × Code)}

theorem nodeCode_ne_circular (h : References temps) (node : Node) (socket : String)
    (operand : String → Code) : r.nodeCode temps node socket operand ≠ .circular := by
  have hresult : ∀ out, (temps.lookup out).getD .undefined ≠ .circular := by
    intro out heq
    cases hlookup : temps.lookup out with
    | none => exact nomatch hlookup ▸ heq
    | some code =>
      have hcode := h _ (mem_of_lookup_eq_some hlookup)
      rw [hlookup, Option.getD_some] at heq
      rw [heq] at hcode
      exact nomatch hcode
  have hparam : (r.signature.bind (·.paramName? socket)).elim Code.undefined .ident ≠ .circular := by
    cases r.signature.bind (·.paramName? socket) <;> exact nofun
  unfold nodeCode
  split
  · exact nofun
  · split
    · exact nofun
    · exact nofun
    · exact nofun
    · exact nofun
    · exact nofun
    · exact nofun
    · exact nofun
    · exact nofun
    · exact nofun
    · exact hresult _
    · exact hresult _
    · exact hparam
    · exact nofun

theorem isLooped_assemble (htemps : References temps) (expression : Endpoint → Code) (out : Endpoint)
    : (r.assemble temps expression out).isLooped =
      (r.dependencies out).any fun source => (expression source).isLooped :=
  any_assemble htemps (fun _ => rfl) (fun kind _ _ => by cases kind <;> rfl)
    (fun node socket _ => Code.isLooped_eq_any_parts (nodeCode_ne_circular htemps node socket _)) expression out

theorem isLooped_unfold (htemps : References temps) (room : Nat) (passed : List Endpoint) (out : Endpoint)
    : (r.unfold temps room passed out).isLooped ↔ r.cycles room passed out ≠ [] := by
  induction room generalizing passed out with
  | zero =>
    unfold unfold cycles
    split <;> simp [Code.isLooped]
  | succ room ih =>
    by_cases hmem : out ∈ passed
    · simp [unfold_of_mem hmem, cycles_of_mem hmem, Code.isLooped]
    · rw [unfold_succ hmem, cycles_succ hmem, isLooped_assemble htemps, any_eq_true]
      simp only [ih, ne_eq, flatMap_eq_nil_iff, not_forall, exists_prop]

def cyclesOf (r : Routine) (slots : List (Option Endpoint)) : List Endpoint :=
  slots.flatMap fun slot => slot.elim [] (r.cycles maxExpressionDepth [])

end Routine

def Diagnostic.isCircular : Diagnostic → Bool
  | .circularDependency _ _ => true
  | _ => false

def Endpoint.circular (out : Endpoint) : Diagnostic :=
  .circularDependency out.node out.socket

theorem Endpoint.circular_injective : Function.Injective circular := by
  rintro ⟨node, socket⟩ ⟨node', socket'⟩ h
  cases h
  rfl

structure State.Listed (s : State) : Prop where
  nodup : s.reportedCycles.Nodup
  diagnostics : s.diagnostics.filter Diagnostic.isCircular = s.reportedCycles.reverse.map Endpoint.circular

namespace State

variable {s : State}

theorem Listed.withCycle (h : s.Listed) (out : Endpoint) : (s.withCycle out).Listed := by
  unfold State.withCycle
  split
  · exact h
  · next hnew =>
    refine ⟨nodup_cons.mpr ⟨by simpa using hnew, h.nodup⟩, ?_⟩
    show (s.diagnostics ++ [out.circular]).filter _ = _
    rw [filter_append, h.diagnostics, reverse_cons, map_append]
    rfl

theorem Listed.withCycles (h : s.Listed) (outputs : List Endpoint) : (s.withCycles outputs).Listed := by
  unfold State.withCycles
  induction outputs generalizing s with
  | nil => exact h
  | cons out outputs ih => exact ih (h.withCycle out)

theorem mem_reportedCycles_withCycle {out' : Endpoint}
    : out' ∈ (s.withCycle out).reportedCycles ↔ out' ∈ s.reportedCycles ∨ out' = out := by
  unfold withCycle
  split
  · next hold =>
    have hold : out ∈ s.reportedCycles := by simpa using hold
    exact ⟨.inl, fun h => h.elim id fun heq => heq ▸ hold⟩
  · exact mem_cons.trans or_comm

theorem mem_reportedCycles_withCycles {outputs : List Endpoint}
    : out ∈ (s.withCycles outputs).reportedCycles ↔ out ∈ s.reportedCycles ∨ out ∈ outputs := by
  unfold withCycles
  induction outputs generalizing s with
  | nil => simp
  | cons first outputs ih =>
    rw [foldl_cons, ih, mem_reportedCycles_withCycle, mem_cons, or_assoc]

end State

structure Detected (r : Routine) (slots : List (Option Endpoint)) (codes : List Code) (s : State)
    : Prop where
  remembers : Remembers r s
  references : References s.temporaries
  listed : s.Listed
  reported : ∀ out, out ∈ s.reportedCycles ↔ out ∈ r.cyclesOf slots
  looped : codes.any Code.isLooped ↔ r.cyclesOf slots ≠ []

namespace Detected

variable {r : Routine} {slots : List (Option Endpoint)} {codes : List Code} {s : State}

theorem text (h : Detected r slots codes s) (hcode : code.isText)
    : Detected r (slots ++ [none]) (codes ++ [code]) s := by
  have hcycles : r.cyclesOf (slots ++ [none]) = r.cyclesOf slots := by
    simp [Routine.cyclesOf]
  have hlooped : code.isLooped = false := by
    cases code with
    | raw | quoted => rfl
    | _ => exact nomatch hcode
  refine ⟨h.remembers, h.references, h.listed, ?_, ?_⟩
  · rw [hcycles]
    exact h.reported
  · rw [hcycles, any_append, any_cons, any_nil, hlooped, Bool.or_false, Bool.or_false]
    exact h.looped

theorem resolve (hshort : r.ShortPaths) (h : Detected r slots codes s) {source : Endpoint} (hused : r.IsUsed source)
    : Detected r (slots ++ [some source])
        (codes ++ [((Build.resolve r maxExpressionDepth [] source).run s).1])
        ((Build.resolve r maxExpressionDepth [] source).run s).2 := by
  have hreckons := reckons_resolve hshort (.start hused)
  obtain ⟨hremembers, hfound, hforget⟩ := hreckons s h.remembers
  generalize (Build.resolve r maxExpressionDepth [] source).run s = result at *
  have hcycles : r.cyclesOf (slots ++ [some source])
      = r.cyclesOf slots ++ r.cycles maxExpressionDepth [] source := by
    simp [Routine.cyclesOf]
  have hforgotten : s.forget.Listed := ⟨h.listed.nodup, h.listed.diagnostics⟩
  have hlisted : result.2.forget.Listed := by
    rw [hforget]
    exact hforgotten.withCycles _
  have hreported : result.2.reportedCycles = (s.forget.withCycles
      (r.cycles maxExpressionDepth [] source)).reportedCycles := by
    rw [← hforget]
    rfl
  have htemps : result.2.temporaries = s.temporaries := by
    show result.2.forget.temporaries = _
    rw [hforget, State.temporaries_withCycles]
    rfl
  refine ⟨hremembers, htemps ▸ h.references, ⟨hlisted.nodup, hlisted.diagnostics⟩, ?_, ?_⟩
  · intro out
    rw [hreported, State.mem_reportedCycles_withCycles, hcycles, mem_append, ← h.reported]
    rfl
  · rw [hcycles, any_append, any_cons, any_nil, Bool.or_false, Bool.or_eq_true, h.looped,
      hfound, Routine.isLooped_unfold h.references, ne_eq, ne_eq, ne_eq, append_eq_nil_iff,
      not_and_or]

theorem report (h : Detected r slots codes s) {diagnostic : Diagnostic} (hdiagnostic : diagnostic.isOfStatement)
    : Detected r slots codes { s with diagnostics := s.diagnostics ++ [diagnostic] } := by
  have hother : diagnostic.isCircular = false := by
    cases diagnostic with
    | unknownFunction | nestingTooDeep => rfl
    | _ => exact nomatch hdiagnostic
  refine ⟨h.remembers, h.references, ⟨h.listed.nodup, ?_⟩, h.reported, h.looped⟩
  rw [filter_append, filter_singleton, hother, h.listed.diagnostics]
  exact append_nil _

end Detected

theorem tracks_detected (hshort : r.ShortPaths) : Tracks r (Detected r) where
  text h := h.text
  source h := h.resolve hshort
  report h := h.report
  names h _ _ := ⟨h.remembers, h.references, ⟨h.listed.nodup, h.listed.diagnostics⟩, h.reported, h.looped⟩
  bind h _ _ hcode :=
    { remembers := fun _ hentry => (not_mem_nil hentry).elim
      references := forall_mem_cons.mpr ⟨hcode, h.references⟩
      listed := ⟨h.listed.nodup, h.listed.diagnostics⟩
      reported := h.reported
      looped := h.looped }

theorem Routine.detected_start {nodes : List Node} {edges : List Edge} (h : r.wiring = .ofEdges nodes edges)
    : Detected r [] [] r.start where
  remembers := fun _ hentry => (not_mem_nil hentry).elim
  references := fun _ hentry => (not_mem_nil hentry).elim
  listed := by
    refine ⟨nodup_nil, filter_eq_nil_iff.mpr fun d hd => ?_⟩
    rw [start, h] at hd
    obtain ⟨node, socket, rfl, -⟩ := (Wiring.mem_duplicates_iff _ _ _).mp hd
    exact Bool.false_ne_true
  reported _ := Iff.rfl
  looped := by simp [cyclesOf]

theorem Job.detected_compiled {job : Job} {outset : Outset} (h : outset ∈ job.outsets)
    (hshort : outset.routine.ShortPaths)
    : ∃ s : State, s.diagnostics = outset.compiled.2
        ∧ Detected outset.routine outset.slots (codesOf outset.compiled.1) s := by
  obtain ⟨nodes, edges, hwiring⟩ := wiring_of_mem_outsets h
  obtain ⟨_, rfl, hdetected⟩ := continues_walk (tracks_detected hshort) (length_returns_of_mem_outsets h)
    (follows_of_mem_outsets h) [] [] _ (Routine.detected_start hwiring)
  exact ⟨_, rfl, hdetected⟩

theorem State.Listed.count {s : State} (h : s.Listed) (out : Endpoint)
    : s.diagnostics.count out.circular = s.reportedCycles.count out := by
  have hfilter : (s.diagnostics.filter Diagnostic.isCircular).count out.circular
      = s.diagnostics.count out.circular :=
    count_filter rfl
  rw [← hfilter, h.diagnostics, count_map_of_injective _ _ Endpoint.circular_injective, count_reverse]

theorem Detected.mem_diagnostics_iff {slots : List (Option Endpoint)} {codes : List Code} {s : State}
    (h : Detected r slots codes s) (out : Endpoint)
    : out.circular ∈ s.diagnostics ↔ out ∈ r.cyclesOf slots := by
  rw [← count_pos_iff, h.listed.count, count_pos_iff, h.reported]

theorem Routine.cyclesOf_ne_nil_iff (hshort : r.ShortPaths) {slots : List (Option Endpoint)}
    (hused : ∀ out, some out ∈ slots → r.IsUsed out)
    : r.cyclesOf slots ≠ [] ↔ ∃ out, some out ∈ slots ∧ r.MeetsCycle out := by
  rw [ne_eq, cyclesOf, flatMap_eq_nil_iff, not_forall₂]
  constructor
  · rintro ⟨slot, hslot, hcycles⟩
    cases slot with
    | none => exact absurd rfl hcycles
    | some out => exact ⟨out, hslot, (cycles_ne_nil_iff hshort (hused out hslot)).mp hcycles⟩
  · rintro ⟨out, hslot, hmeets⟩
    exact ⟨some out, hslot, (cycles_ne_nil_iff hshort (hused out hslot)).mpr hmeets⟩

theorem Outset.isUsed_of_mem_slots {outset : Outset} (h : some out ∈ outset.slots) : outset.routine.IsUsed out := by
  obtain ⟨node, -, hslot⟩ := mem_flatMap.mp h
  exact Routine.isUsed_of_mem_slots hslot

/-- If paths along data edges are short, cycles are found exactly: something is reported if and only if
a statement reads what depends on itself, every output that is reported lies on a cycle and is reported
once, and a marker stands in the lines if and only if something is reported. -/
theorem Job.cycles_exact (job : Job) {outset : Outset} (houtset : outset ∈ job.outsets)
    (hshort : outset.routine.ShortPaths)
    : ((∃ output : Endpoint, output.circular ∈ outset.compiled.2)
          ↔ ∃ output, some output ∈ outset.slots ∧ outset.routine.MeetsCycle output)
        ∧ (∀ output : Endpoint, output.circular ∈ outset.compiled.2
            → outset.routine.OnCycle output ∧ outset.compiled.2.count output.circular = 1)
        ∧ ((codesOf outset.compiled.1).any Code.isLooped ↔ ∃ output : Endpoint, output.circular ∈ outset.compiled.2)
        ∧ ((codesOf outset.compiled.1).any Code.isLooped → ∀ depth,
            ∃ line ∈ linesOf depth outset.compiled.1, circularMarker.toList <:+: line.toList) := by
  obtain ⟨s, hs, hdetected⟩ := detected_compiled houtset hshort
  have hreported : (∃ output : Endpoint, output.circular ∈ outset.compiled.2)
      ↔ outset.routine.cyclesOf outset.slots ≠ [] := by
    rw [← hs, exists_congr hdetected.mem_diagnostics_iff]
    exact ⟨fun ⟨_, houtput⟩ => ne_nil_of_mem houtput, exists_mem_of_ne_nil _⟩
  refine ⟨?_, ?_, hdetected.looped.trans hreported.symm, ?_⟩
  · exact hreported.trans (Routine.cyclesOf_ne_nil_iff hshort fun _ => Outset.isUsed_of_mem_slots)
  · intro output houtput
    rw [← hs, hdetected.mem_diagnostics_iff] at houtput
    obtain ⟨slot, -, hcycles⟩ := mem_flatMap.mp houtput
    refine ⟨?_, ?_⟩
    · cases slot with
      | none => exact (not_mem_nil hcycles).elim
      | some source => exact (Routine.mem_cycles (isChain_singleton source) hcycles).2
    · rw [← hs, hdetected.listed.count]
      exact count_eq_one_of_mem hdetected.listed.nodup ((hdetected.reported output).mpr houtput)
  · intro hlooped depth
    obtain ⟨code, hcode, hlooped⟩ := any_eq_true.mp hlooped
    obtain ⟨line, hline, hinfix⟩ := exists_mem_linesOf depth hcode
    exact ⟨line, hline, (Code.infix_of_isLooped hlooped).trans hinfix⟩

def Job.loop : Job where
  graph :=
    { nodes :=
        [⟨"start", .start, none, {}⟩, ⟨"a", .add, none, {}⟩, ⟨"b", .add, none, {}⟩,
         ⟨"first", .output, none, {}⟩, ⟨"second", .output, none, {}⟩]
      edges :=
        [.control "start" "exec-out" "first", .control "first" "exec-out" "second",
         .data "a" "result" "b" "a", .data "b" "result" "a" "b", .data "a" "result" "first" "value",
         .data "b" "result" "second" "value"] }
  options := .default
  aliases := {}

theorem Job.cycles_exact_loop : ∃ outset ∈ loop.outsets, outset.routine.ShortPaths
        ∧ outset.compiled.2 = [.circularDependency "a" "result", .circularDependency "b" "result"]
        ∧ outset.routine.OnCycle ⟨"a", "result"⟩ ∧ outset.routine.OnCycle ⟨"b", "result"⟩
        ∧ (∃ output, some output ∈ outset.slots ∧ outset.routine.MeetsCycle output)
        ∧ ∃ line ∈ linesOf 0 outset.compiled.1, circularMarker.toList <:+: line.toList := by
  obtain ⟨outset, houtset, hlength, hreported⟩ : ∃ outset ∈ loop.outsets,
      outset.routine.wiring.data.length ≤ maxExpressionDepth
        ∧ outset.compiled.2 = [.circularDependency "a" "result", .circularDependency "b" "result"] := by
    decide +kernel
  have hshort := Routine.shortPaths_of_length_le hlength
  obtain ⟨hmeets, hcycle, hmarker, hlines⟩ := cycles_exact loop houtset hshort
  have hfirst : (⟨"a", "result"⟩ : Endpoint).circular ∈ outset.compiled.2 := by simp [hreported, Endpoint.circular]
  have hsecond : (⟨"b", "result"⟩ : Endpoint).circular ∈ outset.compiled.2 := by simp [hreported, Endpoint.circular]
  exact ⟨outset, houtset, hshort, hreported, (hcycle _ hfirst).1, (hcycle _ hsecond).1, hmeets.mp ⟨_, hfirst⟩,
    hlines (hmarker.mpr ⟨_, hfirst⟩) 0⟩

end NodeScript.Compile
