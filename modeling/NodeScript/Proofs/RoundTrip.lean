import Mathlib.Data.List.Perm.Subperm
import NodeScript.Proofs.Emission
import NodeScript.Proofs.Rendering
import NodeScript.Proofs.Tours

/-!
Programs say what their graphs mean: the text of a program is read as the very trees that the walk
stands for, whatever the names in the graph are.
-/

namespace NodeScript.Compile

open List

variable {bindings' : Bindings} {node : Node} {p : Code → Prop} {room : Nat} {r : Routine} {socket : String}
  {temps : List (Endpoint × Code)}

open Build Script

/-- Text that is typed into the input, if it is read, is one token. -/
def Routine.PlainText (r : Routine) (node : Node) (socket : String) : Prop :=
  r.wiring.source? node.id socket = none → ∀ text, node.data.inline? socket = some text → IsAtom text

/-- The text that goes into the expression of an output is made of tokens; that of concatenations is
taken as it is. -/
def Routine.PlainSources (r : Routine) (source : Endpoint) : Prop :=
  ∀ out, Relation.ReflTransGen r.IsSource out source
    → ∀ node, r.wiring.node? out.node = some node → r.kindOf node ≠ .concat
      → ∀ socket ∈ operandSockets (r.kindOf node), r.PlainText node socket

/-- What the statement of a node reads can be read back, and so can the comment that stands for it
if it calls no function. -/
structure Routine.LegibleNode (r : Routine) (node : Node) : Prop where
  typed : ∀ socket ∈ r.statementSockets node, r.PlainText node socket
  wired : ∀ socket ∈ r.statementSockets node, ∀ source,
    r.wiring.source? node.id socket = some source → r.PlainSources source
  call : r.kindOf node = .callFunction → r.functions.get? (node.data.functionId.getD "") = none
      → '\n' ∉ (node.data.functionId.getD "").toList

def Routine.Legible (r : Routine) (tour : Tour) : Prop :=
  ∀ node ∈ tour.nodes, r.LegibleNode node

theorem Routine.IsSource.mem_data {source out : Endpoint} (h : r.IsSource source out)
    : source ∈ r.wiring.data.map Prod.snd := by
  unfold Routine.IsSource Routine.dependencies at h
  split at h
  · obtain ⟨socket, -, hsource⟩ := mem_filterMap.mp h
    exact mem_map_of_mem (mem_of_lookup_eq_some hsource)
  · exact (not_mem_nil h).elim

theorem Routine.shortChains_of_length_lt (h : r.wiring.data.length < maxExpressionDepth) : r.ShortChains := by
  intro chain hchain hnodup
  cases chain with
  | nil => exact Nat.zero_le _
  | cons out chain =>
    -- Every output of a chain but the first is where some data edge starts.
    have hsubset : chain ⊆ r.wiring.data.map Prod.snd := by
      clear hnodup
      induction chain generalizing out with
      | nil => exact nil_subset _
      | cons source chain ih =>
        rw [isChain_cons_cons] at hchain
        exact cons_subset.mpr ⟨hchain.1.mem_data, ih source hchain.2⟩
    have hlength := (subperm_of_subset (nodup_cons.mp hnodup).2 hsubset).length_le
    rw [length_map] at hlength
    rw [length_cons]
    omega

def HasTokens (node : Node) : Prop :=
  ∀ entry ∈ node.data.inlineValues.entries, IsAtom entry.2

instance (node : Node) : Decidable (HasTokens node) :=
  inferInstanceAs (Decidable (∀ entry ∈ node.data.inlineValues.entries, IsAtom entry.2))

theorem HasTokens.plainText (h : HasTokens node) (r : Routine) (socket : String) : r.PlainText node socket := by
  intro _ text htext
  exact h (socket, text) (mem_of_lookup_eq_some (Option.filter_eq_some_iff.mp htext).1)

theorem Routine.legible_of_hasTokens {tour : Tour}
    (hnodes : ∀ node ∈ r.wiring.nodes, r.kindOf node ≠ .concat → HasTokens node)
    (htour : ∀ node ∈ tour.nodes, HasTokens node ∧ '\n' ∉ (node.data.functionId.getD "").toList)
    : r.Legible tour := by
  intro node hnode
  obtain ⟨htokens, hcall⟩ := htour node hnode
  refine ⟨fun socket _ => htokens.plainText r socket, ?_, fun _ _ => hcall⟩
  intro _ _ source _ out _ node hnode hkind socket _
  exact (hnodes node (Wiring.mem_of_node?_eq_some hnode) hkind).plainText r socket

theorem fits_raw {text : Option String} {fallback : String} (htext : ∀ t, text = some t → IsAtom t)
    (hfallback : (Code.raw fallback).Fits) : (Code.raw (text.getD fallback)).Fits := by
  cases text with
  | none => exact hfallback
  | some t => exact .inr (htext t rfl)

theorem fits_typedOperand {kind : NodeKind}
    (h : kind ≠ .concat → ∀ text, node.data.inline? socket = some text → IsAtom text)
    : (typedOperand kind node socket).Fits := by
  have hatom : ∀ fallback ∈ ["0", "100", "false"], (Code.raw fallback).Fits := by
    have : ∀ fallback ∈ ["0", "100", "false"], IsAtom fallback := by decide
    exact fun fallback hfallback => .inr (this fallback hfallback)
  by_cases hkind : kind = .concat
  · subst hkind
    trivial
  · specialize h hkind
    unfold typedOperand
    dsimp only
    split
    · trivial
    · apply fits_raw h
      split
      all_goals exact hatom _ (by simp)
    · exact fits_raw h (hatom _ (by simp))
    · exact fits_raw h (hatom _ (by simp))

structure Routine.Orderly (r : Routine) : Prop where
  signature : ∀ sig ∈ r.signature, sig.Named
  functions : ∀ sig ∈ r.functions.list, sig.Named
  chains : r.ShortChains

def Plain (temps : List (Endpoint × Code)) : Prop :=
  ∀ entry ∈ temps, entry.2.Within 0

def maxHeight : Nat := 3 * maxExpressionDepth

structure Routine.Admits (r : Routine) (p : Code → Prop) : Prop where
  signature : ∀ sig ∈ r.signature, sig.Named
  functions : ∀ sig ∈ r.functions.list, sig.Named
  flat : ∀ code : Code, code.Within 0 → p code
  resolved : ∀ {temps marks source code}, Plain temps
    → Resolved r temps marks source code → code.Fits → p code

structure Routine.Serves (r : Routine) (p : Code → Prop) (node : Node) : Prop where
  typed : ∀ socket ∈ r.statementSockets node, r.wiring.source? node.id socket = none
    → ∀ fallback, (Code.raw fallback).Fits → p (.raw ((node.data.inline? socket).getD fallback))
  wired : ∀ socket ∈ r.statementSockets node, ∀ source, r.wiring.source? node.id socket = some source
      → ∀ {temps marks code}, Plain temps → Resolved r temps marks source code → p code
  call : r.kindOf node = .callFunction → r.functions.get? (node.data.functionId.getD "") = none
      → '\n' ∉ (node.data.functionId.getD "").toList

theorem Routine.Orderly.admits (h : r.Orderly) : r.Admits (Code.Within maxHeight) where
  signature := h.signature
  functions := h.functions
  flat _ hcode := ⟨hcode.1, Nat.le_trans hcode.2 (Nat.zero_le _)⟩
  resolved hplain hresolved hfits := ⟨hfits, hresolved.height h.signature h.chains hplain⟩

variable {code : Code} {items : List Item} {bindings : Bindings} {outset : Outset}

section Fits

variable {r : Routine} {p : Code → Prop} (hroutine : r.Admits p)

include hroutine

theorem Unfolds.fits {marks : Prop} (htemps : Plain temps) {out : Endpoint}
    (h : Unfolds r temps marks out code) (hplain : r.PlainSources out) : code.Fits := by
  induction h with
  | circular => trivial
  | tooDeep => trivial
  | missing => exact .inr (by decide)
  | @node out node operand h hwired htyped ih =>
    apply (shaped_nodeCode hroutine.signature htemps node out.socket operand).fits
    intro socket hsocket
    cases hsource : r.wiring.source? node.id socket with
    | none =>
      rw [htyped socket hsocket hsource]
      apply fits_typedOperand
      intro hkind
      exact hplain out .refl node h hkind socket hsocket hsource
    | some source =>
      apply ih socket hsocket source hsource
      intro out' hpath
      exact hplain out' (hpath.tail (Routine.mem_dependencies h hsocket hsource))

theorem Routine.LegibleNode.serves (h : r.LegibleNode node) : r.Serves p node where
  typed socket hsocket hnone _ hfallback :=
    hroutine.flat _ ⟨fits_raw (h.typed socket hsocket hnone) hfallback, Nat.le_refl 0⟩
  wired socket hsocket source hsource _ _ _ hplain hresolved :=
    hroutine.resolved hplain hresolved
      (Unfolds.fits hroutine hplain hresolved.unfolds (h.wired socket hsocket source hsource))
  call := h.call

end Fits

section Serves

variable {r : Routine} {p : Code → Prop} {temps : List (Endpoint × Code)} {marks : Prop}
  (htemps : Plain temps) {node : Node} (hnode : r.Serves p node)

theorem Supplied.admitted {typed : Code} (h : Supplied r (Resolved r temps marks) node socket typed code)
    (htyped : r.wiring.source? node.id socket = none → p typed)
    (hwired : ∀ source, r.wiring.source? node.id socket = some source
      → Resolved r temps marks source code → p code) : p code := by
  cases hsource : r.wiring.source? node.id socket with
  | none =>
    rw [h.typed hsource]
    exact htyped hsource
  | some source => exact hwired source hsource (h.wired source hsource)

include htemps hnode

theorem Reading.admitted {fallback : String} (h : Reading r temps marks node socket fallback code)
    (hsocket : socket ∈ r.statementSockets node) (hfallback : (Code.raw fallback).Fits) : p code :=
  Supplied.admitted h (fun hnone => hnode.typed socket hsocket hnone fallback hfallback)
    fun source hsource => hnode.wired socket hsocket source hsource htemps

theorem Readings.admitted {ports : List Port} {codes : List Code} (h : Readings r temps marks node ports codes)
    (hsockets : r.statementSockets node = ports.map Port.id)
    : ∀ code ∈ codes, p code := by
  have hports : ∀ port ∈ ports, port.id ∈ r.statementSockets node := fun port hport =>
    hsockets ▸ mem_map_of_mem hport
  clear hsockets
  have hfallback : ∀ dataType : DataType, (Code.raw dataType.fallback).Fits := by
    intro dataType
    cases dataType with
    | array => exact .inl rfl
    | _ => exact .inr (by decide)
  induction h with
  | nil => simp
  | @cons port code ports codes hcode _ ih =>
    rw [forall_mem_cons] at hports ⊢
    exact ⟨Reading.admitted htemps hnode hcode hports.1 (hfallback _), ih hports.2⟩

end Serves

theorem FitsAll.append {items' : List Item} (h : FitsAll p room items) (h' : FitsAll p room items')
    : FitsAll p room (items ++ items') := by
  rw [fitsAll_iff] at *
  exact forall_mem_append.mpr ⟨h, h'⟩

theorem FitsAll.single {item : Item} (h : item.Fits p room) : FitsAll p room [item] :=
  ⟨h, trivial⟩

theorem FitsAll.line {line : Line} (h : line.Fits p) : FitsAll p room [.line line] := by
  apply FitsAll.single
  cases room <;> exact h

section Items

variable {r : Routine} {p : Code → Prop} {room : Nat} {node : Node}

theorem fitsAll_enter : FitsAll p room (enter r node) := by
  unfold enter
  split
  · exact .line ⟨by simp [Line.codes], by simp [Line.names], by simp⟩
  · trivial

theorem fitsAll_notify {name : String} (h : IsName name) : FitsAll p room (notify r name) := by
  unfold notify
  split
  · exact .line ⟨by simp [Line.codes], by simpa [Line.names] using h, by simp⟩
  · trivial

theorem fitsAll_written {line : Line} {name : String} (h : line.Fits p) (hname : IsName name)
    : FitsAll p room (enter r node ++ [.line line] ++ notify r name) :=
  (fitsAll_enter.append (.line h)).append (fitsAll_notify hname)

end Items

theorem Plain.bind (h : Plain temps) (out : Endpoint) (hcode : code.Within 0) : Plain ((out, code) :: temps) :=
  forall_mem_cons.mpr ⟨hcode, h⟩

theorem Plain.bindResults (h : Plain bindings.temporaries) (node : Node) {result : String}
    (hresult : IsName result) {sig : Signature} (hnamed : sig.Named)
    : Plain (bindings.bindResults node result sig).temporaries := by
  have hfold : ∀ fields : List (Port × String), (∀ field ∈ fields, IsName field.2)
      → ∀ bindings : Bindings, Plain bindings.temporaries → Plain (fields.foldl
          (fun bindings field => bindings.bind ⟨node.id, field.1.id⟩ (.member result field.2))
          bindings).temporaries := by
    intro fields hfields
    induction fields with
    | nil => exact fun _ h => h
    | cons field fields ih =>
      rw [forall_mem_cons] at hfields
      intro bindings h
      exact ih hfields.2 _ (h.bind _ ⟨⟨hresult, hfields.1⟩, Nat.le_refl 0⟩)
  unfold Bindings.bindResults
  generalize sig.function.returns = ports
  obtain _ | ⟨port, _ | ⟨port', ports⟩⟩ := ports
  · exact h
  · exact h.bind _ ⟨hresult, Nat.le_refl 0⟩
  · exact hfold _ (fun field hfield => hnamed.returns _ (of_mem_zip hfield).2) bindings h

section Steps

variable {r : Routine} {p : Code → Prop} {marks : Prop} (hroutine : r.Admits p) {room : Nat}

include hroutine

variable {node : Node}

theorem Passes.fits (h : Passes r marks node bindings items bindings') (hnode : r.Serves p node)
    (hplain : Plain bindings.temporaries) : FitsAll p room items ∧ Plain bindings'.temporaries := by
  have hvariable : ∀ default, IsName (variableOf node default) := fun _ => isName_sanitize _
  have hread : ∀ {socket code}, Reading r bindings.temporaries marks node socket "0" code
      → socket ∈ r.statementSockets node → p code :=
    fun hcode hsocket => Reading.admitted hplain hnode hcode hsocket (.inr (by decide))
  cases h with
  | @ask message hkind hmessage =>
    have hcode : p message := by
      apply Supplied.admitted hmessage fun _ => hroutine.flat _ ⟨trivial, Nat.le_refl 0⟩
      intro source hsource
      exact hnode.wired "prompt" (by simp [Routine.statementSockets, hkind, hsource]) source hsource hplain
    rw [Bindings.temporaries_declare]
    exact ⟨fitsAll_written ⟨by simpa [Line.codes] using hcode, by simpa [Line.names] using hvariable _,
      by simp⟩ (hvariable _), hplain⟩
  | print hkind hvalue =>
    have hcode := hread hvalue (by simp [Routine.statementSockets, hkind])
    exact ⟨fitsAll_enter.append (.line ⟨by simpa [Line.codes] using hcode, by simp [Line.names], by simp⟩),
      hplain⟩
  | set hkind hvalue =>
    have hcode := hread hvalue (by simp [Routine.statementSockets, hkind])
    rw [Bindings.temporaries_declare]
    exact ⟨fitsAll_written ⟨by simpa [Line.codes] using hcode, by simpa [Line.names] using hvariable _,
      by simp⟩ (hvariable _), hplain⟩
  | create hkind =>
    have hcode : p (.raw "[]") := hroutine.flat _ ⟨.inl rfl, Nat.le_refl 0⟩
    rw [Bindings.temporaries_declare]
    exact ⟨fitsAll_written ⟨by simpa [Line.codes] using hcode, by simpa [Line.names] using hvariable _,
      by simp⟩ (hvariable _), hplain⟩
  | push hkind hvalue =>
    have hcode := hread hvalue (by simp [Routine.statementSockets, hkind])
    exact ⟨fitsAll_written ⟨by simpa [Line.codes] using hcode, by simpa [Line.names] using hvariable _,
      by simp⟩ (hvariable _), hplain⟩
  | pop hkind =>
    have htemporary : IsName (bindings.temporary r "__pop") :=
      isName_numbered ⟨by decide, by decide⟩ _
    exact ⟨fitsAll_written ⟨by simp [Line.codes], by simp [Line.names, htemporary, hvariable], by simp⟩
      (hvariable _), hplain.bind _ ⟨htemporary, Nat.le_refl 0⟩⟩
  | store hkind hindex hvalue =>
    have hcode := hread hindex (by simp [Routine.statementSockets, hkind])
    have hcode' := hread hvalue (by simp [Routine.statementSockets, hkind])
    exact ⟨fitsAll_written ⟨by simp [Line.codes, hcode, hcode'],
      by simpa [Line.names] using hvariable _, by simp⟩ (hvariable _), hplain⟩
  | callUnknown hkind hfunction _ =>
    refine ⟨fitsAll_enter.append (.line ⟨by simp [Line.codes], by simp [Line.names], ?_⟩), hplain⟩
    intro id heq
    cases heq
    exact hnode.call hkind hfunction
  | callNothing hkind hfunction harguments _ =>
    have hname := (hroutine.functions _ (Signatures.mem_of_get?_eq_some hfunction)).name
    have hcodes := Readings.admitted hplain hnode harguments (by simp [Routine.statementSockets, hkind, hfunction])
    exact ⟨fitsAll_enter.append (.line ⟨hcodes, by simpa [Line.names] using hname, by simp⟩), hplain⟩
  | call hkind hfunction harguments _ =>
    have hnamed := hroutine.functions _ (Signatures.mem_of_get?_eq_some hfunction)
    have htemporary : IsName (bindings.temporary r "__ret") :=
      isName_numbered ⟨by decide, by decide⟩ _
    have hcodes := Readings.admitted hplain hnode harguments (by simp [Routine.statementSockets, hkind, hfunction])
    exact ⟨fitsAll_enter.append (.line ⟨hcodes, by simp [Line.names, hnamed.name, htemporary], by simp⟩),
      Plain.bindResults (show Plain (bindings.take r "__ret").temporaries from hplain) node htemporary hnamed⟩
  | other => exact ⟨trivial, hplain⟩

theorem Ends.fits (h : Ends r marks node temps items) (hnode : r.Serves p node)
    (hplain : Plain temps) : FitsAll p room items := by
  cases h with
  | stop => exact fitsAll_enter
  | breakLoop | continueLoop =>
    exact fitsAll_enter.append (.line ⟨by simp [Line.codes], by simp [Line.names], by simp⟩)
  | @returnFrom sig values hkind hsig hvalues =>
    have hnamed := hroutine.signature sig hsig
    have hcodes := Readings.admitted hplain hnode hvalues (by simp [Routine.statementSockets, hkind, hsig])
    refine fitsAll_enter.append (.line ?_)
    obtain _ | ⟨value, _ | ⟨value', values⟩⟩ := values
    · exact ⟨by simp [returnLine, Line.codes], by simp [returnLine, Line.names], by simp [returnLine]⟩
    · exact ⟨hcodes, by simp [returnLine, Line.names], by simp [returnLine]⟩
    · refine ⟨?_, ?_, by simp [returnLine]⟩
      · intro code hcode
        obtain ⟨field, hfield, rfl⟩ := mem_map.mp hcode
        exact hcodes _ (of_mem_zip hfield).2
      · intro name hname
        obtain ⟨field, hfield, rfl⟩ := mem_map.mp hname
        exact hnamed.returns _ (of_mem_zip hfield).1
  | other => trivial

omit hroutine in
theorem Heads.fits {head : List Item → Item} (h : Heads r marks node bindings head bindings')
    (hnode : r.Serves p node) (hshape : Shape.ofKind (r.kindOf node) = .loop) (hplain : Plain bindings.temporaries)
    : Plain bindings'.temporaries ∧ ∀ items, FitsAll p room items → (head items).Fits p (room + 1) := by
  have hread : ∀ {socket fallback code}, Reading r bindings.temporaries marks node socket fallback code
      → socket ∈ r.statementSockets node → IsAtom fallback → p code :=
    fun hcode hsocket hfallback => Reading.admitted hplain hnode hcode hsocket (.inr hfallback)
  cases h with
  | forLoop hkind hstart hlimit hstep =>
    have hname : IsName (variableOf node "i") := isName_sanitize _
    rw [Bindings.temporaries_declare]
    refine ⟨hplain, fun items hitems => ⟨hname, ?_, ?_, ?_, ?_⟩⟩
    · exact hread hstart (by simp [Routine.statementSockets, hkind]) (by decide)
    · exact hread hlimit (by simp [Routine.statementSockets, hkind]) (by decide)
    · exact hread hstep (by simp [Routine.statementSockets, hkind]) (by decide)
    · exact (fitsAll_enter.append (fitsAll_notify hname)).append hitems
  | whileLoop hkind hcond =>
    have hsocket : "condition" ∈ r.statementSockets node := by
      simp [Routine.statementSockets, Shape.eq_loop_of_ofKind hshape hkind]
    exact ⟨hplain, fun items hitems => ⟨hread hcond hsocket (by decide), fitsAll_enter.append hitems⟩⟩

theorem Emits.fits {tour : Tour} (h : Emits r marks tour bindings items bindings')
    (hserves : ∀ node ∈ tour.nodes, r.Serves p node) (hplain : Plain bindings.temporaries) {depth : Nat}
    {passed : List String} (hfollows : tour.Follows r depth passed) (hroom : tour.nesting ≤ room)
    : FitsAll p room items ∧ Plain bindings'.temporaries := by
  induction h generalizing room depth passed with
  | stop => exact ⟨trivial, hplain⟩
  | cut =>
    exact ⟨.line ⟨by simp [Line.codes], by simp [Line.names], nofun⟩, hplain⟩
  | pass h _ ih =>
    obtain ⟨hnode, hrest⟩ := forall_mem_cons.mp hserves
    obtain ⟨hfits, hplain⟩ := h.fits hroutine hnode hplain
    obtain ⟨hfits', hplain⟩ := ih hrest hplain hfollows.2 hroom
    exact ⟨hfits.append hfits', hplain⟩
  | last h => exact ⟨h.fits hroutine (hserves _ (mem_singleton_self _)) hplain, hplain⟩
  | @branch node _ _ _ _ _ _ _ _ hcond _ _ ihTrue ihFalse =>
    obtain ⟨hnode, hrest⟩ := forall_mem_cons.mp hserves
    obtain ⟨hmeets, -, hfollows, hfollows'⟩ := hfollows
    have hkind := Shape.eq_branch_of_ofKind hmeets.shape
    obtain ⟨htrue, hfalse⟩ := forall_mem_append.mp hrest
    simp only [Tour.nesting] at hroom
    obtain ⟨room, rfl⟩ : ∃ r, room = r + 1 := ⟨room - 1, by omega⟩
    have hcode := Reading.admitted hplain hnode hcond
      (by simp [Routine.statementSockets, hkind]) (.inr (by decide))
    obtain ⟨hfits, hplain⟩ := ihTrue htrue hplain hfollows (show _ ≤ room by omega)
    obtain ⟨hfits', hplain⟩ := ihFalse hfalse hplain hfollows' (show _ ≤ room by omega)
    exact ⟨fitsAll_enter.append (.single ⟨hcode, hfits, hfits'⟩), hplain⟩
  | loop hhead _ _ ihBody ihRest =>
    obtain ⟨hnode, hrest⟩ := forall_mem_cons.mp hserves
    obtain ⟨hbody, hrest⟩ := forall_mem_append.mp hrest
    obtain ⟨hmeets, -, hfollows, hfollows'⟩ := hfollows
    simp only [Tour.nesting] at hroom
    obtain ⟨room, rfl⟩ : ∃ r, room = r + 1 := ⟨room - 1, by omega⟩
    obtain ⟨hplain, hitem⟩ := hhead.fits hnode hmeets.shape hplain
    obtain ⟨hfits, hplain⟩ := ihBody hbody hplain hfollows (show _ ≤ room by omega)
    obtain ⟨hfits', hplain⟩ := ihRest hrest hplain hfollows' (show _ ≤ room + 1 by omega)
    exact ⟨(fitsAll_enter.append (.single (hitem _ hfits))).append hfits', hplain⟩

end Steps

structure Outset.Legible (outset : Outset) : Prop where
  chains : outset.routine.ShortChains
  statements : outset.routine.Legible outset.tour

theorem Outset.fits_of_serves (h : outset.routine.Admits p)
    (hserves : ∀ node ∈ outset.tour.nodes, outset.routine.Serves p node)
    (hfollows : outset.tour.Follows outset.routine outset.depth []) : FitsAll p (maxNesting + 1) outset.compiled.1 := by
  obtain ⟨bindings, hemits⟩ := outset.routine.emits_compileFrom outset.entry outset.depth
  have hplain : Plain outset.routine.start.bindings.temporaries :=
    fun _ hentry => (not_mem_nil hentry).elim
  have hnesting : outset.tour.nesting ≤ maxNesting + 1 := Nat.le_trans hfollows.nesting_le (Nat.sub_le ..)
  exact (hemits.fits h hserves hplain hfollows hnesting).1

theorem Outset.fits_of_admits (h : outset.routine.Admits p) (hlegible : outset.routine.Legible outset.tour)
    (hfollows : outset.tour.Follows outset.routine outset.depth []) : FitsAll p (maxNesting + 1) outset.compiled.1 :=
  fits_of_serves h (fun node hnode => (hlegible node hnode).serves h) hfollows

theorem Outset.Legible.fits (h : outset.Legible) (hsig : ∀ sig ∈ outset.routine.signature, sig.Named)
    (hfunctions : ∀ sig ∈ outset.routine.functions.list, sig.Named) (hdepth : outset.depth ≤ maxNesting)
    : FitsAll (Code.Within maxHeight) (maxNesting + 1) outset.compiled.1 := by
  have horderly : outset.routine.Orderly := ⟨hsig, hfunctions, h.chains⟩
  exact fits_of_admits horderly.admits h.statements (outset.routine.follows_tourFrom outset.entry hdepth)

/-- All statements can be read back: what was typed into them are single tokens, and not too many
expressions stand inside each other. -/
def Outset.Readable (outset : Outset) : Prop :=
  FitsAll (Code.Within maxHeight) (maxNesting + 1) outset.compiled.1

namespace Job

variable {job : Job}

theorem readable_of_legible (h : ∀ outset ∈ job.outsets, outset.Legible) : ∀ outset ∈ job.outsets, outset.Readable := by
  intro outset houtset
  have hlegible := h outset houtset
  have hnamed := Signatures.named_ofGraph job.graph
  obtain ⟨entry, rfl⟩ | ⟨sig, hsig, entry, rfl⟩ := of_mem_outsets houtset
  · exact hlegible.fits (by rintro _ ⟨⟩) hnamed (Nat.zero_le _)
  · have hown : ∀ own ∈ (job.functionRoutine sig).signature, own.Named := by
      rintro _ ⟨⟩
      exact hnamed sig hsig
    exact hlegible.fits hown hnamed (show 1 ≤ maxNesting by decide)

theorem isBlock_code {height : Nat} (h : ∀ outset ∈ job.outsets, FitsAll (Code.Within height) room outset.compiled.1)
    : IsBlock [job.compile.code] (room + height + 6) job.program.body := by
  have hfunctions : ∀ function ∈ (Signatures.ofGraph job.graph).list.map fun sig =>
      (sig, (job.compileFunction (.ofGraph job.graph) sig).1),
      function.1.Named ∧ FitsAll (Code.Within height) room function.2 := by
    intro function hfunction
    obtain ⟨sig, hsig, rfl⟩ := mem_map.mp hfunction
    refine ⟨Signatures.named_ofGraph job.graph sig hsig, ?_⟩
    dsimp only
    rw [compileFunction_eq]
    cases houtset : job.functionOutset? sig with
    | none => trivial
    | some outset =>
      exact h outset (mem_append_right _ (mem_filterMap.mpr ⟨sig, hsig, houtset⟩))
  unfold compile program
  dsimp only
  cases hmain : job.compileMain? (.ofGraph job.graph) with
  | none =>
    have hblock : IsBlock [indented 0 "// Error: No start node found"] 0 [] :=
      isBlock_comment 0 rfl (by decide)
    exact hblock.mono (Nat.zero_le _)
  | some main =>
    rw [compileMain?_eq] at hmain
    obtain ⟨outset, houtset, rfl⟩ := Option.map_eq_some_iff.mp hmain
    have hblock := isBlock_programText hfunctions (h outset (mem_append_left _ (Option.mem_toList.mpr houtset)))
    simp only [map_map, Function.comp_def] at hblock ⊢
    exact hblock

theorem parse_of_readable (h : ∀ outset ∈ job.outsets, outset.Readable)
    : Program.parse job.compile.code = .ok job.program :=
  Program.parse_of_isBlock (isBlock_code h) (by decide)

/-- The text of a program is read as the trees that its graph stands for, if no path along data edges
is too long and text that is typed into inputs is made of single tokens. -/
theorem parse_compile (job : Job) (h : ∀ outset ∈ job.outsets, outset.Legible)
    : Program.parse job.compile.code = .ok job.program :=
  parse_of_readable (readable_of_legible h)

def oddities : Graph where
  nodes :=
    [⟨"start", .start, none, {}⟩, ⟨"a \"b\"", .set, none, { variableName := some "class" }⟩,
     ⟨"loop", .whileLoop, none, {}⟩,
     ⟨"if", .branch, none, { inlineValues := .ofList [("condition", "true")] }⟩,
     ⟨"out", .output, none, {}⟩,
     ⟨"call", .callFunction, none, { functionId := some "*/" }⟩,
     ⟨"sum", .add, none, { inlineValues := .ofList [("a", "\"// \"")] }⟩,
     ⟨"text", .concat, none, { inlineValues := .ofList [("b", "two\n\"lines\"")] }⟩]
  edges :=
    [.control "start" "exec-out" "a \"b\"", .control "a \"b\"" "exec-out" "loop",
     .control "loop" "body" "if", .control "if" "true" "out", .control "if" "false" "call",
     .data "sum" "result" "a \"b\"" "value", .data "sum" "result" "sum" "b",
     .data "sum" "result" "loop" "condition", .data "text" "result" "out" "value",
     .data "sum" "result" "text" "a"]

theorem parse_compile_oddities
    : let job : Job := ⟨oddities, ⟨true⟩, {}⟩
      (∀ outset ∈ job.outsets, outset.Legible) ∧ Program.parse job.compile.code = .ok job.program := by
  intro job
  have h : ∀ outset ∈ job.outsets, outset.Legible := by
    have houtsets : job.outsets = [⟨job.mainRoutine, ⟨"start", .start, none, {}⟩, 0⟩] := rfl
    rw [houtsets, forall_mem_singleton]
    exact ⟨Routine.shortChains_of_length_lt (by decide), Routine.legible_of_hasTokens (by decide) (by decide)⟩
  exact ⟨h, parse_compile job h⟩

end Job

end NodeScript.Compile
