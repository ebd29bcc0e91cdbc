import NodeScript.Proofs.Ladder
import NodeScript.Proofs.Programs
import NodeScript.Proofs.Slots
import NodeScript.Proofs.Temporaries

/-!
The limit on the depth of expressions, over whole routines: for what the statements of a tour read,
expressions are written down that keep to the limit.
-/

namespace NodeScript.Compile

open List Build

/-- The expression keeps to the limit: it is made of no more outputs on any path than are allowed,
and it is cut if and only if there are more. -/
structure Limited (r : Routine) (slot : Option Endpoint) (code : Code) : Prop where
  folds : ∀ out ∈ slot, ∃ temps, References temps
    ∧ FoldsWithin r temps maxExpressionDepth out code
    ∧ code = r.unfold temps maxExpressionDepth [] out
  text : slot = none → code.parts = []
  cut : code.isCut ↔ ∃ out ∈ slot, r.LongChain out

theorem Limited.of_none (r : Routine) {code : Code} (h : code.parts = [])
    (hcut : code.isCut = false) : Limited r none code where
  folds := nofun
  text _ := h
  cut := by simp [hcut]

theorem Limited.of_unfold (r : Routine) {temps : List (Endpoint × Code)} (htemps : References temps) (out : Endpoint)
    : Limited r (some out) (r.unfold temps maxExpressionDepth [] out) where
  folds := by
    rintro _ ⟨⟩
    exact ⟨temps, htemps, foldsWithin_unfold .., rfl⟩
  text := nofun
  cut := by simp [Routine.isCut_unfold_iff_longChain htemps]

theorem Limited.height_le {r : Routine} {slot : Option Endpoint} {code : Code}
    (h : Limited r slot code) : code.height ≤ maxHeight := by
  cases slot with
  | none =>
    have hparts : ∀ part ∈ code.parts, part.height ≤ 0 := by
      rw [h.text rfl]
      exact nofun
    exact Nat.le_trans (Code.height_le_of_parts hparts) (by decide)
  | some out =>
    obtain ⟨temps, htemps, hfolds, -⟩ := h.folds out rfl
    exact hfolds.height_le htemps

def Routine.visitsOf (r : Routine) (slots : List (Option Endpoint)) : List Visit :=
  slots.flatMap fun slot => slot.elim [] (r.visits maxExpressionDepth [])

theorem Routine.visitsOf_append (r : Routine) (slots slots' : List (Option Endpoint))
    : r.visitsOf (slots ++ slots') = r.visitsOf slots ++ r.visitsOf slots' :=
  flatMap_append

structure Progress (r : Routine) (slots : List (Option Endpoint)) (codes : List Code) (s : State)
    : Prop where
  kept : Kept r (r.visitsOf slots) s
  reported : s.depthReported = codes.any Code.isCut
  limited : r.Steady (r.visitsOf slots) → List.Forall₂ (Limited r) slots codes

namespace Progress

variable {r : Routine} {slots : List (Option Endpoint)} {codes : List Code} {s s' : State}

theorem congr (h : Progress r slots codes s) (hmemo : s'.memo = s.memo)
    (htemps : s'.temporaries = s.temporaries) (hreported : s'.depthReported = s.depthReported)
    (hcount : s'.diagnostics.countP Diagnostic.isExpressionTooDeep
      = s.diagnostics.countP Diagnostic.isExpressionTooDeep)
    : Progress r slots codes s' where
  kept := h.kept.congr hmemo htemps (by rw [hcount, hreported, h.kept.counted])
  reported := hreported.trans h.reported
  limited := h.limited

theorem text (h : Progress r slots codes s) {code : Code} (hparts : code.parts = [])
    (hcut : code.isCut = false) : Progress r (slots ++ [none]) (codes ++ [code]) s where
  kept := by
    rw [r.visitsOf_append]
    exact h.kept.append _
  reported := by simp [h.reported, hcut]
  limited hsteady := by
    rw [r.visitsOf_append] at hsteady
    exact rel_append (h.limited hsteady.left) (.cons (.of_none r hparts hcut) .nil)

end Progress

theorem Code.isCut_of_isText {code : Code} (h : code.isText) : code.parts = [] ∧ code.isCut = false := by
  cases code with
  | raw | quoted => exact ⟨rfl, rfl⟩
  | _ => exact nomatch h

namespace Build

variable {r : Routine}

theorem progress_resolve {slots : List (Option Endpoint)} {codes : List Code} {s : State}
    (hs : Progress r slots codes s) (source : Endpoint)
    : Progress r (slots ++ [some source]) (codes ++ [((resolve r maxExpressionDepth [] source).run s).1])
        ((resolve r maxExpressionDepth [] source).run s).2 := by
  obtain ⟨hkept, htemps, hreported, hexpected⟩ :=
    reads_resolve maxExpressionDepth (isChain_singleton source) _ s hs.kept
  have hvisits : r.visitsOf (slots ++ [some source])
      = r.visitsOf slots ++ r.visits maxExpressionDepth [] source := by
    simp [Routine.visitsOf]
  rw [← hvisits] at hkept hexpected
  refine ⟨hkept, ?_, ?_⟩
  · rw [hreported, hs.reported, any_append, any_cons, any_nil, Bool.or_false]
  · intro hsteady
    rw [hexpected hsteady]
    rw [hvisits] at hsteady
    have hsource := Limited.of_unfold r hs.kept.references source
    exact rel_append (hs.limited hsteady.left) (.cons hsource .nil)

theorem progress_report {slots : List (Option Endpoint)} {codes : List Code} {s : State}
    {diagnostic : Diagnostic} (hs : Progress r slots codes s) (h : diagnostic.isOfStatement)
    : Progress r slots codes { s with diagnostics := s.diagnostics ++ [diagnostic] } := by
  have hother : diagnostic.isExpressionTooDeep = false := by
    cases diagnostic with
    | unknownFunction | nestingTooDeep => rfl
    | _ => exact nomatch h
  refine hs.congr rfl rfl rfl ?_
  rw [countP_append, countP_singleton, hother]
  rfl

theorem tracks_progress (r : Routine) : Tracks r (Progress r) where
  text hs hcode := hs.text (Code.isCut_of_isText hcode).1 (Code.isCut_of_isText hcode).2
  source hs _ := progress_resolve hs _
  report := progress_report
  names hs _ _ := hs.congr rfl rfl rfl rfl
  bind hs _ _ hcode :=
    { kept :=
        { uncut := fun _ hentry => (not_mem_nil hentry).elim
          whole := fun _ _ hentry => (not_mem_nil hentry).elim
          references := forall_mem_cons.mpr ⟨hcode, hs.kept.references⟩
          counted := hs.kept.counted }
      reported := hs.reported
      limited := hs.limited }

end Build

namespace Outset

variable (outset : Outset)

def slots : List (Option Endpoint) :=
  outset.tour.nodes.flatMap outset.routine.slots

def Steady : Prop :=
  outset.routine.Steady (outset.routine.visitsOf outset.slots)

instance : Decidable outset.Steady :=
  inferInstanceAs (Decidable (outset.routine.Steady (outset.routine.visitsOf outset.slots)))

end Outset

theorem Routine.progress_start {r : Routine} {nodes : List Node} {edges : List Edge}
    (h : r.wiring = .ofEdges nodes edges) : Progress r [] [] r.start where
  kept :=
    { uncut := fun _ hentry => (not_mem_nil hentry).elim
      whole := fun _ _ hentry => (not_mem_nil hentry).elim
      references := fun _ hentry => (not_mem_nil hentry).elim
      counted := by
        refine countP_eq_zero.mpr fun d hd => ?_
        rw [start, h] at hd
        obtain ⟨node, socket, rfl, -⟩ := (Wiring.mem_duplicates_iff _ _ _).mp hd
        exact nofun }
  reported := rfl
  limited _ := .nil

mutual

theorem Item.Fits.and {p q : Code → Prop} : {item : Item} → {room : Nat} → item.Fits p room
    → (∀ code ∈ item.codes, q code) → item.Fits (fun code => p code ∧ q code) room
  | .line _, _, h, hq => by
    rw [Item.codes] at hq
    unfold Item.Fits at h ⊢
    exact ⟨fun code hcode => ⟨h.codes code hcode, hq code hcode⟩, h.names, h.comment⟩
  | .ifElse _ _ _, _ + 1, h, hq => by
    rw [Item.codes, forall_mem_cons, forall_mem_append] at hq
    exact ⟨⟨h.1, hq.1⟩, FitsAll.and h.2.1 hq.2.1, FitsAll.and h.2.2 hq.2.2⟩
  | .whileLoop _ _, _ + 1, h, hq => by
    rw [Item.codes, forall_mem_cons] at hq
    exact ⟨⟨h.1, hq.1⟩, FitsAll.and h.2 hq.2⟩
  | .forLoop _ _ _ _ _, _ + 1, h, hq => by
    simp only [Item.codes, forall_mem_cons] at hq
    obtain ⟨hname, hstart, hlimit, hstep, hbody⟩ := h
    exact ⟨hname, ⟨hstart, hq.1⟩, ⟨hlimit, hq.2.1⟩, ⟨hstep, hq.2.2.1⟩, FitsAll.and hbody hq.2.2.2⟩

theorem FitsAll.and {p q : Code → Prop} : {items : List Item} → {room : Nat} → FitsAll p room items
    → (∀ code ∈ codesOf items, q code) → FitsAll (fun code => p code ∧ q code) room items
  | [], _, _, _ => trivial
  | item :: items, _, h, hq => by
    rw [codesOf, forall_mem_append] at hq
    exact ⟨Item.Fits.and h.1 hq.1, FitsAll.and h.2 hq.2⟩

end

namespace Job

open List

variable {job : Job} {outset : Outset}

theorem wiring_of_mem_outsets (h : outset ∈ job.outsets)
    : ∃ nodes edges, outset.routine.wiring = .ofEdges nodes edges := by
  obtain ⟨entry, rfl⟩ | ⟨sig, -, entry, rfl⟩ := of_mem_outsets h
  all_goals exact ⟨_, _, rfl⟩

theorem length_returns_of_mem_outsets (h : outset ∈ job.outsets) : outset.routine.NamesReturns :=
  fun sig hsig => ((Signatures.grown_ofGraph job.graph).registered sig
    (signature_of_mem_outsets h sig hsig)).returns

theorem progress_compiled (h : outset ∈ job.outsets) : ∃ s : State, s.diagnostics = outset.compiled.2
        ∧ Progress outset.routine outset.slots (codesOf outset.compiled.1) s := by
  obtain ⟨nodes, edges, hwiring⟩ := wiring_of_mem_outsets h
  obtain ⟨_, rfl, hprogress⟩ := continues_walk (tracks_progress _) (length_returns_of_mem_outsets h)
    (follows_of_mem_outsets h) [] [] _ (Routine.progress_start hwiring)
  exact ⟨_, rfl, hprogress⟩

theorem countP_isExpressionTooDeep (h : outset ∈ job.outsets) : outset.compiled.2.countP Diagnostic.isExpressionTooDeep
        =
      ((codesOf outset.compiled.1).any Code.isCut).toNat := by
  obtain ⟨s, hs, hprogress⟩ := progress_compiled h
  rw [← hs, hprogress.kept.counted, hprogress.reported]

theorem limited_compiled (h : outset ∈ job.outsets) (hsteady : outset.Steady)
    : List.Forall₂ (Limited outset.routine) outset.slots (codesOf outset.compiled.1) := by
  obtain ⟨_, -, hprogress⟩ := progress_compiled h
  exact hprogress.limited hsteady

end Job

theorem any_isCut_iff_of_forall₂ {r : Routine} {slots : List (Option Endpoint)} {codes : List Code}
    (h : List.Forall₂ (Limited r) slots codes)
    : codes.any Code.isCut ↔ ∃ out, some out ∈ slots ∧ r.LongChain out := by
  induction h with
  | nil => simp
  | @cons slot code slots codes hcode _ ih =>
    rw [any_cons, Bool.or_eq_true, hcode.cut, ih]
    constructor
    · rintro (⟨out, hslot, hlong⟩ | ⟨out, hslot, hlong⟩)
      · exact ⟨out, mem_cons.mpr (.inl hslot.symm), hlong⟩
      · exact ⟨out, mem_cons_of_mem _ hslot, hlong⟩
    · rintro ⟨out, hslot, hlong⟩
      obtain hslot | hslot := mem_cons.mp hslot
      · exact .inl ⟨out, hslot.symm, hlong⟩
      · exact .inr ⟨out, hslot, hlong⟩

theorem height_le_of_forall₂ {r : Routine} {slots : List (Option Endpoint)} {codes : List Code}
    (h : List.Forall₂ (Limited r) slots codes) : ∀ code ∈ codes, code.height ≤ maxHeight := by
  induction h with
  | nil => exact nofun
  | cons hcode _ ih => exact forall_mem_cons.mpr ⟨hcode.height_le, ih⟩

theorem Job.fits_of_legible {job : Job} {outset : Outset} (h : outset ∈ job.outsets)
    (hlegible : outset.routine.Legible outset.tour)
    : FitsAll Code.Fits (maxNesting + 1) outset.compiled.1 := by
  have hnamed := Signatures.named_ofGraph job.graph
  have hadmits : outset.routine.Admits Code.Fits :=
    { signature := fun sig hsig =>
        hnamed sig (signature_of_mem_outsets h sig hsig)
      functions := (routine_of_mem_outsets h).2 ▸ hnamed
      flat := fun _ hcode => hcode.1
      resolved := fun _ _ hfits => hfits }
  exact Outset.fits_of_admits hadmits hlegible (follows_of_mem_outsets h)

namespace Ladder

open List

variable {height : Nat} {shortcut : Bool}

def outset (height : Nat) (shortcut : Bool) : Outset :=
  ⟨routine height shortcut, node height 0, 0⟩

theorem mem_outsets (height : Nat) (shortcut : Bool) : outset height shortcut ∈ (job height shortcut).outsets := by
  rw [outsets_job]
  exact mem_singleton_self _

theorem slots_outset : (outset height shortcut).slots = [some (rung (height + 1))] := by
  have hslots : (routine height shortcut).slots (node height (height + 2)) = [some (rung (height + 1))] := by
    simp only [Routine.slots, Routine.statementSockets, kindOf_output, map_cons, map_nil, source?_value]
  unfold Outset.slots Outset.tour
  dsimp only [outset]
  rw [tourFrom_start]
  simp only [Tour.nodes, flatMap_cons, flatMap_nil, hslots, append_nil]
  rfl

theorem steady_outset (h : maxExpressionDepth ≤ height) : (outset height false).Steady := by
  unfold Outset.Steady
  rw [slots_outset, Routine.visitsOf, flatMap_singleton, Option.elim_some]
  apply pairwise_of_forall_mem_list
  intro visit hvisit visit' _ _ hranked
  exact absurd hranked (not_ranked_of_mem_visits (Nat.lt_succ_of_le h) (Nat.le_refl height) hvisit)

-- A shortcut does no harm where there is room for everything.
example : (outset 3 true).Steady := by decide

theorem legible_outset : (routine height shortcut).Legible (outset height shortcut).tour := by
  have hnodes : ∀ node ∈ (routine height shortcut).wiring.nodes,
      HasTokens node ∧ '\n' ∉ (node.data.functionId.getD "").toList := by
    intro node hnode
    rw [wiring_eq, Wiring.ofEdges_nodes] at hnode
    obtain ⟨n, -, rfl⟩ := mem_map.mp hnode
    exact ⟨nofun, show '\n' ∉ "".toList by decide⟩
  have hfollows := (routine height shortcut).follows_tourFrom (node height 0) (Nat.zero_le _)
  exact Routine.legible_of_hasTokens (fun node hnode _ => (hnodes node hnode).1)
    fun node hnode => hnodes node (hfollows.mem_nodes node hnode)

theorem codesOf_outset : codesOf (outset height shortcut).compiled.1 =
      [((resolve (routine height shortcut) maxExpressionDepth [] (rung (height + 1))).run
        (routine height shortcut).start).1] := by
  have hstart : passItems (routine height shortcut) (node height 0) = pure [] := rfl
  have houtput : passItems (routine height shortcut) (node height (height + 2)) = do
        let value ← resolve (routine height shortcut) maxExpressionDepth [] (rung (height + 1))
        return enter (routine height shortcut) (node height (height + 2)) ++ [.line (.print value)] := by
    unfold passItems input operand
    rw [kindOf_output, source?_value]
  unfold Outset.compiled Routine.compileFrom
  dsimp only [outset]
  rw [tourFrom_start, walk, hstart, walk, houtput, walk]
  simp only [pure_bind, bind_assoc, run_bind, run_pure, nil_append, append_nil,
    codesOf_append, codesOf_enter, codesOf_line_cons, codesOf_nil, Line.codes]

end Ladder

/-- Too much depth is reported at most once for a routine, and only if an expression is cut. If no output
has less room than its whole expression takes, after it once had as much, the limit holds: no
expression is made of more outputs on a path than are allowed, and those that would be are cut. Texts
typed into inputs apart, the program can then be read. -/
theorem Job.limited_of_steady (job : Job) : (∀ outset ∈ job.outsets,
        outset.compiled.2.countP Diagnostic.isExpressionTooDeep = ((codesOf outset.compiled.1).any Code.isCut).toNat
          ∧ (outset.Steady → List.Forall₂ (Limited outset.routine) outset.slots (codesOf outset.compiled.1)
                ∧ (outset.compiled.2.countP Diagnostic.isExpressionTooDeep = 1
                    ↔ ∃ output, some output ∈ outset.slots ∧ outset.routine.LongChain output)))
        ∧ ((∀ outset ∈ job.outsets, outset.Steady ∧ outset.routine.Legible outset.tour)
            → Script.Program.parse job.compile.code = .ok job.program) := by
  refine ⟨?_, ?_⟩
  · intro outset houtset
    have hcount := countP_isExpressionTooDeep houtset
    refine ⟨hcount, fun hsteady => ?_⟩
    have hlimited := limited_compiled houtset hsteady
    refine ⟨hlimited, ?_⟩
    rw [hcount, Bool.toNat_eq_one, any_isCut_iff_of_forall₂ hlimited]
  · intro h
    apply parse_of_readable
    intro outset houtset
    obtain ⟨hsteady, hlegible⟩ := h outset houtset
    exact (fits_of_legible houtset hlegible).and (height_le_of_forall₂ (limited_compiled houtset hsteady))

theorem Job.limited_of_steady_ladder
    : (∀ outset ∈ (Ladder.job 128 false).outsets, outset.Steady ∧ outset.routine.Legible outset.tour)
        ∧ (Ladder.outset 128 false).compiled.2.countP Diagnostic.isExpressionTooDeep = 1
        ∧ Script.Program.parse (Ladder.job 128 false).compile.code = .ok (Ladder.job 128 false).program := by
  have hladder : ∀ outset ∈ (Ladder.job 128 false).outsets, outset.Steady ∧ outset.routine.Legible outset.tour := by
    rw [Ladder.outsets_job, forall_mem_singleton]
    exact ⟨Ladder.steady_outset (Nat.le_refl 128), Ladder.legible_outset⟩
  have houtset := Ladder.mem_outsets 128 false
  obtain ⟨hlimited, hparse⟩ := limited_of_steady (Ladder.job 128 false)
  refine ⟨hladder, ?_, hparse hladder⟩
  obtain ⟨-, hcount⟩ := (hlimited _ houtset).2 (hladder _ houtset).1
  refine hcount.mpr ⟨rung 129, ?_, Ladder.longChain (Nat.le_refl 128)⟩
  rw [Ladder.slots_outset]
  exact mem_singleton_self _

theorem Ladder.countP_shortcut : some (rung (maxExpressionDepth + 1)) ∈ (outset maxExpressionDepth true).slots
        ∧ (routine maxExpressionDepth true).LongChain (rung (maxExpressionDepth + 1))
        ∧ (outset maxExpressionDepth true).compiled.2.countP Diagnostic.isExpressionTooDeep = 0 := by
  refine ⟨?_, longChain (Nat.le_refl _), ?_⟩
  · rw [slots_outset]
    exact mem_singleton_self _
  · rw [Job.countP_isExpressionTooDeep (mem_outsets _ _), codesOf_outset, any_cons,
      isCut_shortcut (show 2 ≤ maxExpressionDepth by decide) rfl]
    rfl

end NodeScript.Compile
