import NodeScript.Proofs.Notices

/-!
Instrumented code line by line: notices are added to the code that there would be without them, and each
statement of a node comes right after the notice that the node is entered.
-/

namespace NodeScript.Compile

variable {bindings bindings' : Bindings}

open Build

/-- The second list is the first one without some of the elements that have `p`. -/
inductive Drops {α : Type} (p : α → Prop) : List α → List α → Prop where
  | nil : Drops p [] []
  | keep (a : α) {l l' : List α} (h : Drops p l l') : Drops p (a :: l) (a :: l')
  | drop {a : α} (ha : p a) {l l' : List α} (h : Drops p l l') : Drops p (a :: l) l'

/-- Where a line stands, and the node whose statement it opens, if it opens one. -/
structure Spot where
  depth : Nat
  opens : Option Node

namespace Routine

variable (r : Routine)

def noticeSpots (depth : Nat) : List Spot :=
  if r.instrument then [⟨depth, none⟩] else []

def passSpots (depth : Nat) (node : Node) : List Spot :=
  match r.kindOf node with
  | .input | .set | .arrayCreate | .arrayPush | .arrayPop | .arraySet =>
    r.noticeSpots depth ++ [⟨depth, some node⟩] ++ r.noticeSpots depth
  | .output | .callFunction => r.noticeSpots depth ++ [⟨depth, some node⟩]
  | _ => []

def lastSpots (depth : Nat) (node : Node) : List Spot :=
  match r.kindOf node with
  | .stop => r.noticeSpots depth
  | .breakLoop | .continueLoop => r.noticeSpots depth ++ [⟨depth, some node⟩]
  | .functionReturn =>
    -- Outside of a function a return has no statement.
    if r.signature.isSome then r.noticeSpots depth ++ [⟨depth, some node⟩] else []
  | _ => []

end Routine

def Tour.spots (r : Routine) : Nat → Tour → List Spot
  | _, stop => []
  | depth, cut _ => [⟨depth, none⟩]
  | depth, pass node rest => r.passSpots depth node ++ rest.spots r depth
  | depth, last node => r.lastSpots depth node
  | depth, branch node onTrue onFalse =>
    r.noticeSpots depth ++ [⟨depth, some node⟩] ++ onTrue.spots r (depth + 1)
      ++ [⟨depth, none⟩] ++ onFalse.spots r (depth + 1) ++ [⟨depth, none⟩]
  | depth, loop node body rest =>
    r.noticeSpots depth ++ [⟨depth, some node⟩] ++ r.noticeSpots (depth + 1)
      ++ (if r.kindOf node = .forLoop then r.noticeSpots (depth + 1) else [])
      ++ body.spots r (depth + 1) ++ [⟨depth, none⟩] ++ rest.spots r depth

def enterText (node : Node) : String :=
  "await __onNode(" ++ quote node.id ++ ");"

def notifyText (name : String) : String :=
  "__onVar(" ++ quote name ++ ", " ++ name ++ ");"

def Routine.IsNotice (r : Routine) (text : String) : Prop :=
  ∃ node ∈ r.wiring.nodes,
    text = enterText node ∨ ∃ default ∈ defaultBindings, text = notifyText (variableOf node default)

def IsEnd (text : String) : Prop :=
  text ∈ ["\x7d", "\x7d else \x7b", "// Error: control flow nested too deeply"]

inductive Lined (r : Routine) : List Spot → List String → List String → Prop where
  | nil : Lined r [] [] []
  | notice {spots : List Spot} {full plain : List String} (depth : Nat) {text : String}
    (htext : r.IsNotice text) (h : Lined r spots full plain) :
    Lined r (⟨depth, none⟩ :: spots) (indented depth text :: full) plain
  | ending {spots : List Spot} {full plain : List String} (depth : Nat) {text : String}
    (htext : IsEnd text) (h : Lined r spots full plain) :
    Lined r (⟨depth, none⟩ :: spots) (indented depth text :: full) (indented depth text :: plain)
  | opening {spots : List Spot} {full plain : List String} (depth : Nat) {node : Node}
    (hnode : node ∈ r.wiring.nodes) (text : String) (h : Lined r spots full plain) :
    Lined r (⟨depth, none⟩ :: ⟨depth, some node⟩ :: spots)
      (indented depth (enterText node) :: indented depth text :: full) (indented depth text :: plain)

namespace Lined

variable {r : Routine} {spots spots' : List Spot} {full full' plain plain' : List String}

theorem append (h : Lined r spots full plain) (h' : Lined r spots' full' plain')
    : Lined r (spots ++ spots') (full ++ full') (plain ++ plain') := by
  induction h with
  | nil => exact h'
  | notice depth htext _ ih => exact .notice depth htext ih
  | ending depth htext _ ih => exact .ending depth htext ih
  | opening depth hnode text _ ih => exact .opening depth hnode text ih

theorem drops (h : Lined r spots full plain)
    : Drops (fun line => ∃ depth text, r.IsNotice text ∧ line = indented depth text) full plain := by
  induction h with
  | nil => exact .nil
  | notice depth htext _ ih => exact .drop ⟨depth, _, htext, rfl⟩ ih
  | ending depth htext _ ih => exact .keep _ ih
  | opening depth hnode text _ ih =>
    exact .drop ⟨depth, _, ⟨_, hnode, .inl rfl⟩, rfl⟩ (.keep _ ih)

theorem length_eq (h : Lined r spots full plain) : spots.length = full.length := by
  induction h with
  | nil => rfl
  | notice _ _ _ ih | ending _ _ _ ih | opening _ _ _ _ ih => simp [ih]

theorem of_opens (h : Lined r spots full plain) {i depth : Nat} {node : Node}
    (hspot : spots[i]? = some ⟨depth, some node⟩)
    : ∃ j text, i = j + 1 ∧ full[j]? = some (indented depth (enterText node))
        ∧ full[i]? = some (indented depth text) := by
  induction h generalizing i with
  | nil => simp at hspot
  | notice _ _ _ ih | ending _ _ _ ih =>
    cases i with
    | zero => simp at hspot
    | succ i =>
      obtain ⟨j, text, rfl, hj, hi⟩ := ih hspot
      exact ⟨j + 1, text, rfl, hj, hi⟩
  | opening _ _ text _ ih =>
    match i, hspot with
    | 1, hspot =>
      simp only [List.getElem?_cons_succ, List.getElem?_cons_zero, Option.some.injEq, Spot.mk.injEq] at hspot
      obtain ⟨rfl, rfl⟩ := hspot
      exact ⟨0, text, rfl, rfl, rfl⟩
    | i + 2, hspot =>
      obtain ⟨j, text, rfl, hj, hi⟩ := ih hspot
      exact ⟨j + 2, text, rfl, hj, hi⟩

theorem of_opens_none (h : Lined r spots full plain) {i depth : Nat} (hspot : spots[i]? = some ⟨depth, none⟩)
    : ∃ text, full[i]? = some (indented depth text) ∧ (r.IsNotice text ∨ IsEnd text) := by
  induction h generalizing i with
  | nil => simp at hspot
  | notice _ htext _ ih =>
    cases i with
    | zero =>
      cases hspot
      exact ⟨_, rfl, .inl htext⟩
    | succ i => exact ih hspot
  | ending _ htext _ ih =>
    cases i with
    | zero =>
      cases hspot
      exact ⟨_, rfl, .inr htext⟩
    | succ i => exact ih hspot
  | opening _ hnode _ _ ih =>
    match i, hspot with
    | 0, hspot =>
      cases hspot
      exact ⟨_, rfl, .inl ⟨_, hnode, .inl rfl⟩⟩
    | i + 2, hspot => exact ih hspot

end Lined

theorem linesOf_append (depth : Nat) (items items' : List Item)
    : linesOf depth (items ++ items') = linesOf depth items ++ linesOf depth items' := by
  induction items with
  | nil => rfl
  | cons item items ih => rw [List.cons_append, linesOf, ih, linesOf, List.append_assoc]

variable {marks : Prop} {items : List Item}

section Node

variable {r : Routine} (hinstrument : r.instrument = true) (depth : Nat) {node : Node}
  (hnode : node ∈ r.wiring.nodes)

include hinstrument hnode

theorem lined_enter : Lined r (r.noticeSpots depth) (linesOf depth (enter r node)) [] := by
  unfold Routine.noticeSpots enter
  rw [hinstrument]
  exact .notice depth ⟨node, hnode, .inl rfl⟩ .nil

theorem lined_notify {default : String} (hdefault : default ∈ defaultBindings)
    : Lined r (r.noticeSpots depth) (linesOf depth (notify r (variableOf node default))) [] := by
  unfold Routine.noticeSpots notify
  rw [hinstrument]
  exact .notice depth ⟨node, hnode, .inr ⟨default, hdefault, rfl⟩⟩ .nil

theorem lined_opening (text : String) : Lined r (r.noticeSpots depth ++ [⟨depth, some node⟩])
        (linesOf depth (enter r node) ++ [indented depth text]) [indented depth text] := by
  unfold Routine.noticeSpots enter
  rw [hinstrument]
  exact .opening depth hnode text .nil

theorem lined_line {line : Line} (hline : line.isNotice = false)
    : Lined r (r.noticeSpots depth ++ [⟨depth, some node⟩])
        (linesOf depth (enter r node ++ [.line line]))
        (linesOf depth (silenceAll (enter r node ++ [.line line]))) := by
  have hlines : linesOf depth [.line line] = [indented depth line.text] := rfl
  have hsilence : silenceAll [.line line] = [.line line] := by simp [silenceAll, Item.silence, hline]
  rw [linesOf_append, silenceAll_append, silenceAll_enter, hsilence, List.nil_append, hlines]
  exact lined_opening hinstrument depth hnode line.text

theorem lined_written {line : Line} (hline : line.isNotice = false) {default : String}
    (hdefault : default ∈ defaultBindings)
    : let items := enter r node ++ [.line line] ++ notify r (variableOf node default)
      Lined r (r.noticeSpots depth ++ [⟨depth, some node⟩] ++ r.noticeSpots depth)
        (linesOf depth items) (linesOf depth (silenceAll items)) := by
  intro items
  have hsilence : silenceAll items = silenceAll (enter r node ++ [.line line]) := by
    rw [silenceAll_append, silenceAll_notify, List.append_nil]
  have hlined := (lined_line hinstrument depth hnode hline).append (lined_notify hinstrument depth hnode hdefault)
  rw [hsilence, linesOf_append]
  rwa [List.append_nil] at hlined

theorem Passes.lined (h : Passes r marks node bindings items bindings')
    : Lined r (r.passSpots depth node) (linesOf depth items) (linesOf depth (silenceAll items)) := by
  unfold Routine.passSpots
  cases h with
  | ask hkind | set hkind | create hkind | push hkind | pop hkind | store hkind =>
    rw [hkind]
    exact lined_written hinstrument depth hnode rfl (by decide)
  | print hkind | callUnknown hkind | callNothing hkind | call hkind =>
    rw [hkind]
    exact lined_line hinstrument depth hnode rfl
  | other hkind =>
    split
    all_goals first | exact .nil | simp_all [passKinds]

theorem Ends.lined {temps : List (Endpoint × Code)} (h : Ends r marks node temps items)
    : Lined r (r.lastSpots depth node) (linesOf depth items) (linesOf depth (silenceAll items)) := by
  unfold Routine.lastSpots
  cases h with
  | stop hkind =>
    rw [hkind, silenceAll_enter]
    exact lined_enter hinstrument depth hnode
  | breakLoop hkind | continueLoop hkind =>
    rw [hkind]
    exact lined_line hinstrument depth hnode rfl
  | @returnFrom sig values hkind hsig =>
    rw [hkind, hsig]
    have hline : (returnLine sig values).isNotice = false := by
      unfold returnLine
      split <;> rfl
    exact lined_line hinstrument depth hnode hline
  | other hkind hsig =>
    split
    case h_4 hreturn =>
      rw [hsig hreturn]
      exact .nil
    all_goals first | exact .nil | simp_all

omit hinstrument hnode in
theorem lined_end {text : String} (htext : IsEnd text)
    : Lined r [⟨depth, none⟩] [indented depth text] [indented depth text] :=
  .ending depth htext .nil

theorem Heads.lined {head : List Item → Item} (h : Heads r marks node bindings head bindings') {spots : List Spot}
    (hbody : Lined r spots (linesOf (depth + 1) items) (linesOf (depth + 1) (silenceAll items)))
    : Lined r (r.noticeSpots depth ++ [⟨depth, some node⟩] ++ r.noticeSpots (depth + 1)
          ++ (if r.kindOf node = .forLoop then r.noticeSpots (depth + 1) else [])
          ++ spots ++ [⟨depth, none⟩])
        (linesOf depth (enter r node ++ [head items]))
        (linesOf depth (silenceAll (enter r node ++ [head items]))) := by
  have henter := lined_enter hinstrument (depth + 1) hnode
  have hnotify := lined_notify hinstrument (depth + 1) hnode (show "i" ∈ defaultBindings by decide)
  have hend : Lined r _ _ _ := lined_end depth (show IsEnd "\x7d" by simp [IsEnd])
  have hopening := fun text => (lined_opening hinstrument depth hnode text).append henter
  cases h with
  | forLoop hkind =>
    rw [if_pos hkind]
    have hlined := fun text => (((hopening text).append hnotify).append hbody).append hend
    simpa [linesOf_append, linesOf, Item.lines, silenceAll, Item.silence] using hlined _
  | whileLoop hkind =>
    rw [if_neg hkind, List.append_nil]
    have hlined := fun text => ((hopening text).append hbody).append hend
    simpa [linesOf_append, linesOf, Item.lines, silenceAll, Item.silence] using hlined _

end Node

theorem Emits.lined {r : Routine} (hinstrument : r.instrument = true) {tour : Tour}
    (h : Emits r marks tour bindings items bindings') {limit : Nat} {passed : List String}
    (hfollows : tour.Follows r limit passed) (depth : Nat)
    : Lined r (tour.spots r depth) (linesOf depth items) (linesOf depth (silenceAll items)) := by
  induction h generalizing limit passed depth with
  | stop => exact .nil
  | cut => exact lined_end depth (show IsEnd "// Error: control flow nested too deeply" by simp [IsEnd])
  | pass h _ ih =>
    obtain ⟨hmeets, hrest⟩ := hfollows
    rw [linesOf_append, silenceAll_append, linesOf_append]
    exact (h.lined hinstrument depth (Wiring.mem_of_node?_eq_some hmeets.found)).append (ih hrest depth)
  | last h => exact h.lined hinstrument depth (Wiring.mem_of_node?_eq_some hfollows.found)
  | @branch node _ _ _ _ _ _ _ _ _ _ _ ihTrue ihFalse =>
    obtain ⟨hmeets, -, htrue, hfalse⟩ := hfollows
    have hopening := lined_opening hinstrument depth (Wiring.mem_of_node?_eq_some hmeets.found)
    have helse : Lined r _ _ _ := lined_end depth (show IsEnd "\x7d else \x7b" by simp [IsEnd])
    have hend : Lined r _ _ _ := lined_end depth (show IsEnd "\x7d" by simp [IsEnd])
    have hlined := fun text => ((((hopening text).append (ihTrue htrue (depth + 1))).append helse).append
      (ihFalse hfalse (depth + 1))).append hend
    simpa [Tour.spots, linesOf_append, linesOf, Item.lines, silenceAll, Item.silence] using hlined _
  | loop hhead _ _ ihBody ihRest =>
    obtain ⟨hmeets, -, hbody, hrest⟩ := hfollows
    rw [linesOf_append, silenceAll_append, linesOf_append depth (silenceAll _)]
    exact (hhead.lined hinstrument depth (Wiring.mem_of_node?_eq_some hmeets.found)
      (ihBody hbody (depth + 1))).append (ihRest hrest depth)

namespace Outset

def lines (outset : Outset) : List String :=
  linesOf outset.depth outset.compiled.1

def spots (outset : Outset) : List Spot :=
  outset.tour.spots outset.routine outset.depth

/-- The first is compiled to what the second is compiled to, with notices in between. Every line of it
that opens the statement of a node comes right after the notice that the node is entered, at the same
indentation; every other line is a notice, or has to do with the end of a block. -/
structure Instruments (outset plain : Outset) : Prop where
  diagnostics : outset.compiled.2 = plain.compiled.2
  lines : Drops (fun line => ∃ depth text, outset.routine.IsNotice text ∧ line = indented depth text)
    outset.lines plain.lines
  length : outset.spots.length = outset.lines.length
  opening : ∀ (i depth : Nat) (node : Node), outset.spots[i]? = some ⟨depth, some node⟩
    → ∃ j text, i = j + 1 ∧ outset.lines[j]? = some (indented depth (enterText node))
      ∧ outset.lines[i]? = some (indented depth text)
  other : ∀ i depth : Nat, outset.spots[i]? = some ⟨depth, none⟩
    → ∃ text, outset.lines[i]? = some (indented depth text) ∧ (outset.routine.IsNotice text ∨ IsEnd text)

end Outset

namespace Job

/-- Instrumentation adds notices and nothing else. -/
theorem compile_instrumented (job : Job)
    : let full : Job := { job with options := ⟨true⟩ }
      let plain : Job := { job with options := ⟨false⟩ }
      full.compile.diagnostics = plain.compile.diagnostics
        ∧ List.Forall₂ Outset.Instruments full.outsets plain.outsets := by
  intro full plain
  refine ⟨(full.diagnostics_compile_silent).symm, ?_⟩
  have houtsets : plain.outsets = full.outsets.map Outset.silent := full.outsets_silent
  rw [houtsets, List.forall₂_map_right_iff, List.forall₂_same]
  intro outset houtset
  obtain ⟨bindings, hemits⟩ := outset.routine.emits_compileFrom outset.entry outset.depth
  have hlined := hemits.lined (routine_of_mem_outsets houtset).1 (follows_of_mem_outsets houtset) outset.depth
  have hcompiled := outset.compiled_silent
  refine ⟨by rw [hcompiled], ?_, hlined.length_eq, fun _ _ _ => hlined.of_opens, fun _ _ => hlined.of_opens_none⟩
  unfold Outset.lines
  rw [hcompiled]
  exact hlined.drops

end Job

end NodeScript.Compile
