import NodeScript.Proofs.Emission
import NodeScript.Proofs.Memo
import NodeScript.Proofs.Tours

/-!
What the statements of a tour read, in the order in which they read it, against the expressions that
are written down for it. Whatever is known of the two and of the state, and lasts through the steps of
a walk, lasts through the walk.
-/

namespace NodeScript.Compile

open List Build

/-- What the expressions in the statement of a node stand for: outputs, or else texts. -/
def Routine.slots (r : Routine) (node : Node) : List (Option Endpoint) :=
  match r.kindOf node with
  | .input => [r.wiring.source? node.id "prompt"]
  | .arrayCreate => [none]
  | _ => (r.statementSockets node).map (r.wiring.source? node.id)

/-- The function that the routine belongs to, if any, has a name for each of its results. -/
def Routine.NamesReturns (r : Routine) : Prop :=
  ∀ sig ∈ r.signature, sig.returns.length = sig.function.returns.length

variable {node : Node} {code : Code}

theorem Routine.isUsed_of_mem_slots {r : Routine} {out : Endpoint} (h : some out ∈ r.slots node) : r.IsUsed out := by
  unfold slots at h
  split at h
  · exact ⟨_, _, (mem_singleton.mp h).symm⟩
  · exact nomatch mem_singleton.mp h
  · obtain ⟨socket, -, hsource⟩ := mem_map.mp h
    exact ⟨_, _, hsource⟩

mutual

def Item.codes : Item → List Code
  | .line line => line.codes
  | .ifElse cond thenItems elseItems => cond :: (codesOf thenItems ++ codesOf elseItems)
  | .whileLoop cond body => cond :: codesOf body
  | .forLoop _ start limit step body => start :: limit :: step :: codesOf body

def codesOf : List Item → List Code
  | [] => []
  | item :: rest => item.codes ++ codesOf rest

end

@[simp]
theorem codesOf_append (items items' : List Item) : codesOf (items ++ items') = codesOf items ++ codesOf items' := by
  induction items with
  | nil => rfl
  | cons item items ih => rw [cons_append, codesOf, codesOf, ih, append_assoc]

@[simp]
theorem codesOf_nil : codesOf [] = [] := by
  rw [codesOf]

@[simp]
theorem codesOf_line_cons (line : Line) (items : List Item)
    : codesOf (.line line :: items) = line.codes ++ codesOf items := by
  rw [codesOf, Item.codes]

@[simp]
theorem codesOf_enter (r : Routine) (node : Node) : codesOf (enter r node) = [] := by
  unfold enter
  split
  · simp [Line.codes]
  · simp

@[simp]
theorem codesOf_notify (r : Routine) (name : String) : codesOf (notify r name) = [] := by
  unfold notify
  split
  · simp [Line.codes]
  · simp

theorem infix_intercalate (separator : String) {texts : List String} {text : String} (h : text ∈ texts)
    : text.toList <:+: (separator.intercalate texts).toList := by
  induction texts with
  | nil => exact (not_mem_nil h).elim
  | cons first texts ih =>
    cases texts with
    | nil =>
      obtain rfl := mem_singleton.mp h
      simp
    | cons second texts =>
      have hsplit : (separator.intercalate (first :: second :: texts)).toList
          = first.toList ++ (separator.toList ++ (separator.intercalate (second :: texts)).toList) := by
        simp
      rw [hsplit]
      obtain rfl | h := mem_cons.mp h
      · exact (prefix_append ..).isInfix
      · exact (ih h).trans ((suffix_append ..).trans (suffix_append ..)).isInfix

theorem infix_between (before text after : String) : text.toList <:+: (before ++ text ++ after).toList :=
  ⟨before.toList, after.toList, by simp⟩

theorem Line.infix_text {line : Line} (h : code ∈ line.codes) : code.text.toList <:+: line.text.toList := by
  cases line with
  | assign fresh name value =>
    obtain rfl := mem_singleton.mp h
    unfold Line.text
    exact infix_between (declaration fresh ++ name ++ " = ") _ ";"
  | ask fresh name message =>
    obtain rfl := mem_singleton.mp h
    unfold Line.text
    exact infix_between (declaration fresh ++ name ++ " = parseFloat(await prompt(") _ "));"
  | print value =>
    obtain rfl := mem_singleton.mp h
    unfold Line.text
    exact infix_between "console.log(" _ ");"
  | push array value =>
    obtain rfl := mem_singleton.mp h
    unfold Line.text
    exact infix_between (array ++ ".push(") _ ");"
  | store array index value =>
    obtain rfl | h := mem_cons.mp h
    · unfold Line.text
      exact ⟨(array ++ "[").toList, ("] = " ++ value.text ++ ";").toList, by simp⟩
    · obtain rfl := mem_singleton.mp h
      unfold Line.text
      exact infix_between (array ++ "[" ++ index.text ++ "] = ") _ ";"
  | returnValue value =>
    obtain rfl := mem_singleton.mp h
    unfold Line.text
    exact infix_between "return " _ ";"
  | returnRecord fields =>
    obtain ⟨⟨name, value⟩, hfield, rfl⟩ := mem_map.mp h
    have hname : value.text.toList <:+: (name ++ ": " ++ value.text).toList :=
      ⟨(name ++ ": ").toList, [], by simp⟩
    have hfields := hname.trans (infix_intercalate ", "
      (mem_map_of_mem (f := fun field => field.1 ++ ": " ++ field.2.text) hfield))
    unfold Line.text
    exact hfields.trans (infix_between "return \x7b " _ " \x7d;")
  | call temporary function arguments =>
    have harguments := infix_intercalate ", " (mem_map_of_mem (f := Code.text) (show code ∈ arguments from h))
    unfold Line.text
    exact harguments.trans (infix_between _ _ ");")
  | _ => exact (not_mem_nil h).elim

theorem infix_indented {part : List Char} {text : String} (h : part <:+: text.toList) (depth : Nat)
    : part <:+: (indented depth text).toList := by
  refine h.trans ⟨("".pushn ' ' (2 * depth)).toList, [], ?_⟩
  simp [indented]

mutual

theorem Item.exists_mem_lines {code : Code} : {item : Item} → (depth : Nat) → code ∈ item.codes
    → ∃ line ∈ item.lines depth, code.text.toList <:+: line.toList
  | .line line, depth, h => by
    rw [Item.codes] at h
    rw [Item.lines]
    exact ⟨_, mem_singleton_self _, infix_indented (Line.infix_text h) depth⟩
  | .ifElse cond thenItems elseItems, depth, h => by
    rw [Item.codes] at h
    rw [Item.lines]
    obtain rfl | h := mem_cons.mp h
    · exact ⟨_, by simp, infix_indented (infix_between "if (" _ ") \x7b") depth⟩
    · obtain h | h := mem_append.mp h
      · obtain ⟨line, hline, hinfix⟩ := exists_mem_linesOf (depth + 1) h
        exact ⟨line, by simp [hline], hinfix⟩
      · obtain ⟨line, hline, hinfix⟩ := exists_mem_linesOf (depth + 1) h
        exact ⟨line, by simp [hline], hinfix⟩
  | .whileLoop cond body, depth, h => by
    rw [Item.codes] at h
    rw [Item.lines]
    obtain rfl | h := mem_cons.mp h
    · exact ⟨_, by simp, infix_indented (infix_between "while (" _ ") \x7b") depth⟩
    · obtain ⟨line, hline, hinfix⟩ := exists_mem_linesOf (depth + 1) h
      exact ⟨line, by simp [hline], hinfix⟩
  | .forLoop name start limit step body, depth, h => by
    rw [Item.codes] at h
    rw [Item.lines]
    simp only [mem_cons] at h
    obtain rfl | rfl | rfl | h := h
    · refine ⟨_, mem_append_left _ (mem_append_left _ (mem_singleton_self _)),
        infix_indented ⟨("for (let " ++ name ++ " = ").toList, ("; " ++ name ++ " < "
        ++ limit.text ++ "; " ++ name ++ " += " ++ step.text ++ ") \x7b").toList, ?_⟩ depth⟩
      simp
    · refine ⟨_, mem_append_left _ (mem_append_left _ (mem_singleton_self _)),
        infix_indented ⟨("for (let " ++ name ++ " = " ++ start.text ++ "; " ++ name
        ++ " < ").toList, ("; " ++ name ++ " += " ++ step.text ++ ") \x7b").toList, ?_⟩ depth⟩
      simp
    · exact ⟨_, by simp, infix_indented (infix_between ("for (let " ++ name ++ " = " ++ start.text ++ "; "
        ++ name ++ " < " ++ limit.text ++ "; " ++ name ++ " += ") _ ") \x7b") depth⟩
    · obtain ⟨line, hline, hinfix⟩ := exists_mem_linesOf (depth + 1) h
      exact ⟨line, by simp [hline], hinfix⟩

theorem exists_mem_linesOf {code : Code} : {items : List Item} → (depth : Nat) → code ∈ codesOf items
    → ∃ line ∈ linesOf depth items, code.text.toList <:+: line.toList
  | [], _, h => by simp at h
  | item :: items, depth, h => by
    rw [codesOf] at h
    rw [linesOf]
    obtain h | h := mem_append.mp h
    · obtain ⟨line, hline, hinfix⟩ := Item.exists_mem_lines depth h
      exact ⟨line, mem_append_left _ hline, hinfix⟩
    · obtain ⟨line, hline, hinfix⟩ := exists_mem_linesOf depth h
      exact ⟨line, mem_append_right _ hline, hinfix⟩

end

def Code.isText : Code → Bool
  | raw _ | quoted _ => true
  | _ => false

def Diagnostic.isOfStatement : Diagnostic → Bool
  | unknownFunction _ _ | nestingTooDeep _ => true
  | _ => false

/-- What is known of slots that have been read, of the expressions that were found for them, and of the
state, lasts through the steps of a walk. -/
structure Tracks (r : Routine) (known : List (Option Endpoint) → List Code → State → Prop)
    : Prop where
  text : ∀ {slots codes s code}, known slots codes s → code.isText → known (slots ++ [none]) (codes ++ [code]) s
  source : ∀ {slots codes s source}, known slots codes s → r.IsUsed source → known (slots ++ [some source])
        (codes ++ [((resolve r maxExpressionDepth [] source).run s).1])
        ((resolve r maxExpressionDepth [] source).run s).2
  report : ∀ {slots codes s diagnostic}, known slots codes s → diagnostic.isOfStatement
    → known slots codes { s with diagnostics := s.diagnostics ++ [diagnostic] }
  names : ∀ {slots codes s}, known slots codes s → ∀ declared nextTemporary,
    known slots codes { s with declared, nextTemporary }
  bind : ∀ {slots codes s}, known slots codes s → ∀ out {code : Code}, code.isReference
    → known slots codes { s with temporaries := (out, code) :: s.temporaries, memo := [] }

def Continues {α : Type} (known : List (Option Endpoint) → List Code → State → Prop) (x : Build α)
    (slots : List (Option Endpoint)) (gives : α → List Code → Prop) : Prop :=
  ∀ done found s, known done found s → ∃ codes, gives (x.run s).1 codes
    ∧ known (done ++ slots) (found ++ codes) (x.run s).2

variable {slots : List (Option Endpoint)}

namespace Continues

variable {α β : Type} {known : List (Option Endpoint) → List Code → State → Prop}

theorem pure {a : α} {gives : α → List Code → Prop} (h : gives a [])
    : Continues known (Pure.pure a : Build α) [] gives := by
  intro done found s hs
  refine ⟨[], h, ?_⟩
  rwa [append_nil, append_nil]

theorem bind {x : Build α} {gives : α → List Code → Prop} {f : α → Build β} {slots' : List (Option Endpoint)}
    {gives' : β → List Code → Prop} (hx : Continues known x slots gives)
    (hf : ∀ a, Continues known (f a) slots' fun b codes' => ∀ codes, gives a codes → gives' b (codes ++ codes'))
    : Continues known (x >>= f) (slots ++ slots') gives' := by
  intro done found s hs
  obtain ⟨codes, hgives, hs'⟩ := hx done found s hs
  obtain ⟨codes', hgives', hs''⟩ := hf (x.run s).1 _ _ _ hs'
  rw [run_bind]
  refine ⟨codes ++ codes', hgives' codes hgives, ?_⟩
  rwa [← append_assoc, ← append_assoc]

theorem last {x : Build α} {gives : α → List Code → Prop} {f : α → Build β} {gives' : β → List Code → Prop}
    (hx : Continues known x slots gives)
    (hf : ∀ a, Continues known (f a) [] fun b codes' => ∀ codes, gives a codes → gives' b (codes ++ codes'))
    : Continues known (x >>= f) slots gives' := by
  rw [← append_nil slots]
  exact .bind hx hf

theorem text {r : Routine} (hknown : Tracks r known) {a : α} {gives : α → List Code → Prop}
    (hcode : code.isText) (h : gives a [code])
    : Continues known (Pure.pure a : Build α) [none] gives :=
  fun _ _ _ hs => ⟨[code], h, hknown.text hs hcode⟩

theorem quiet {x : Build α} (h : ∀ done found s, known done found s → known done found (x.run s).2)
    : Continues known x [] fun _ codes => codes = [] := by
  intro done found s hs
  refine ⟨[], rfl, ?_⟩
  rw [append_nil, append_nil]
  exact h done found s hs

theorem after {x : Build α} {f : α → Build β} {gives : β → List Code → Prop}
    (hx : Continues known x [] fun _ codes => codes = []) (hf : ∀ a, Continues known (f a) slots gives)
    : Continues known (x >>= f) slots gives := by
  intro done found s hs
  obtain ⟨_, rfl, hs'⟩ := hx done found s hs
  rw [append_nil, append_nil] at hs'
  exact hf (x.run s).1 done found _ hs'

end Continues

namespace Build

variable {r : Routine} {known : List (Option Endpoint) → List Code → State → Prop}
  (hknown : Tracks r known)

include hknown

theorem continues_input (node : Node) (socket fallback : String)
    : Continues known (input r node socket fallback) [r.wiring.source? node.id socket]
        fun code codes => codes = [code] := by
  unfold input operand
  split
  · next source hsource =>
    rw [hsource]
    exact fun _ _ _ hs => ⟨[_], rfl, hknown.source hs ⟨_, _, hsource⟩⟩
  · next hnone =>
    rw [hnone]
    exact .text hknown rfl rfl

theorem continues_inputs (node : Node) (ports : List Port) : Continues known (inputs r node ports)
        (ports.map fun port => r.wiring.source? node.id port.id)
        fun values codes => codes = values ∧ ports.length = values.length := by
  unfold inputs
  induction ports with
  | nil =>
    rw [mapM_nil]
    exact .pure ⟨rfl, rfl⟩
  | cons port ports ih =>
    rw [mapM_cons, map_cons, ← singleton_append]
    refine .bind (continues_input hknown node port.id _) fun value => .last ih fun values => .pure ?_
    rintro _ ⟨rfl, hlength⟩ _ rfl
    rw [append_nil]
    exact ⟨rfl, congrArg Nat.succ hlength⟩

theorem continues_message (node : Node)
    : Continues known (message r node) [r.wiring.source? node.id "prompt"]
        fun code codes => codes = [code] := by
  unfold message
  split
  · exact continues_input hknown node "prompt" _
  · next hnone =>
    rw [hnone]
    exact .text hknown rfl rfl

theorem continues_report {diagnostic : Diagnostic} (h : diagnostic.isOfStatement)
    : Continues known (report diagnostic) [] fun _ codes => codes = [] :=
  .quiet fun _ _ _ hs => hknown.report hs h

theorem continues_declare (name : String) : Continues known (declare name) [] fun _ codes => codes = [] := by
  refine .quiet fun _ _ s hs => ?_
  unfold declare
  rw [run_get]
  dsimp only
  split
  · exact hknown.names hs (name :: s.declared) s.nextTemporary
  · exact hs

theorem continues_temporary (base : String) : Continues known (temporary r base) [] fun _ codes => codes = [] :=
  .quiet fun _ _ s hs => hknown.names hs s.declared _

theorem continues_bindTemporary (out : Endpoint) (h : code.isReference)
    : Continues known (bindTemporary out code) [] fun _ codes => codes = [] :=
  .quiet fun _ _ _ hs => hknown.bind hs out h

theorem continues_bindResults (node : Node) (result : String) (sig : Signature)
    : Continues known (bindResults node result sig) [] fun _ codes => codes = [] := by
  have hforM : ∀ fields : List (Port × String), Continues known
      (fields.forM fun field => bindTemporary ⟨node.id, field.1.id⟩ (.member result field.2)) []
      fun _ codes => codes = [] := by
    intro fields
    induction fields with
    | nil => exact .pure rfl
    | cons field fields ih => exact .after (continues_bindTemporary hknown _ rfl) fun _ => ih
  unfold bindResults
  generalize sig.function.returns = ports
  obtain _ | ⟨port, _ | ⟨port', ports⟩⟩ := ports
  · exact .pure rfl
  · exact continues_bindTemporary hknown _ rfl
  · exact hforM _

theorem continues_callItems (hkind : r.kindOf node = .callFunction)
    : Continues known (callItems r node) (r.slots node) fun items codes => codes = codesOf items := by
  unfold callItems Routine.slots Routine.statementSockets
  rw [hkind]
  dsimp only
  split
  · next hfunction =>
    rw [hfunction]
    refine .after (continues_report hknown rfl) fun _ => .pure ?_
    simp [Line.codes]
  · next sig hfunction =>
    rw [hfunction, Option.elim_some, map_map]
    refine .last (continues_inputs hknown node _) fun arguments => ?_
    split
    · refine .pure ?_
      rintro _ ⟨rfl, -⟩
      simp [Line.codes]
    · refine .after (continues_temporary hknown "__ret") fun result =>
        .after (continues_bindResults hknown node result sig) fun _ => .pure ?_
      rintro _ ⟨rfl, -⟩
      simp [Line.codes]

theorem continues_passItems (hshape : Shape.ofKind (r.kindOf node) = .pass)
    : Continues known (passItems r node) (r.slots node) fun items codes => codes = codesOf items := by
  unfold passItems
  dsimp only
  split
  · next hkind =>
    simp only [Routine.slots, hkind]
    refine .last (continues_message hknown node) fun message => .after (continues_declare hknown _) fun fresh => .pure ?_
    rintro _ rfl
    simp [Line.codes]
  · next hkind =>
    simp only [Routine.slots, Routine.statementSockets, hkind, map_cons, map_nil]
    refine .last (continues_input hknown node _ _) fun value => .pure ?_
    rintro _ rfl
    simp [Line.codes]
  · next hkind =>
    simp only [Routine.slots, Routine.statementSockets, hkind, map_cons, map_nil]
    refine .last (continues_input hknown node _ _) fun value =>
      .after (continues_declare hknown _) fun fresh => .pure ?_
    rintro _ rfl
    simp [Line.codes]
  · next hkind =>
    simp only [Routine.slots, hkind]
    refine .after (continues_declare hknown _) fun fresh => .text hknown (show (Code.raw "[]").isText by rfl) ?_
    simp [Line.codes]
  · next hkind =>
    simp only [Routine.slots, Routine.statementSockets, hkind, map_cons, map_nil]
    refine .last (continues_input hknown node _ _) fun value => .pure ?_
    rintro _ rfl
    simp [Line.codes]
  · next hkind =>
    simp only [Routine.slots, Routine.statementSockets, hkind, map_nil]
    refine .after (continues_temporary hknown "__pop") fun result =>
      .after (continues_bindTemporary hknown _ rfl) fun _ => .pure ?_
    simp [Line.codes]
  · next hkind =>
    simp only [Routine.slots, Routine.statementSockets, hkind, map_cons, map_nil]
    refine .bind (continues_input hknown node "index" "0") fun index =>
      .last (continues_input hknown node "value" "0") fun value => .pure ?_
    rintro _ rfl _ rfl
    simp [Line.codes]
  · next hkind => exact continues_callItems hknown hkind
  · next =>
    have hslots : r.slots node = [] := by
      unfold Routine.slots Routine.statementSockets
      cases hkind : r.kindOf node <;> simp_all [Shape.ofKind]
    rw [hslots]
    exact .pure rfl

theorem continues_lastItems (hshape : Shape.ofKind (r.kindOf node) = .last) (hreturns : r.NamesReturns)
    : Continues known (lastItems r node) (r.slots node) fun items codes => codes = codesOf items := by
  unfold lastItems
  dsimp only
  split
  · next hkind =>
    simp only [Routine.slots, Routine.statementSockets, hkind, map_nil]
    exact .pure (by simp)
  · next hkind =>
    simp only [Routine.slots, Routine.statementSockets, hkind, map_nil]
    exact .pure (by simp [Line.codes])
  · next hkind =>
    simp only [Routine.slots, Routine.statementSockets, hkind, map_nil]
    exact .pure (by simp [Line.codes])
  · next hkind =>
    simp only [Routine.slots, Routine.statementSockets, hkind]
    unfold returnItems
    split
    · next hsig =>
      rw [hsig]
      exact .pure rfl
    · next sig hsig =>
      rw [hsig, Option.elim_some, map_map]
      refine .last (continues_inputs hknown node _) fun values => .pure ?_
      rintro codes ⟨rfl, hlength⟩
      have hcodes := codes_returnLine ((hreturns sig hsig).trans hlength)
      match codes, hcodes with
      | [], _ | [_], _ => simp [Line.codes]
      | _ :: _ :: _, hcodes => simpa [returnLine] using hcodes.symm
  · next =>
    cases hkind : r.kindOf node <;> simp_all [Shape.ofKind]

theorem continues_loopHead (hshape : Shape.ofKind (r.kindOf node) = .loop)
    : Continues known (loopHead r node) (r.slots node)
        fun head codes => ∀ body, (head body).codes = codes ++ codesOf body := by
  unfold loopHead
  dsimp only
  split
  · next hkind =>
    simp only [Routine.slots, Routine.statementSockets, hkind, map_cons, map_nil]
    refine .bind (continues_input hknown node "from" "0") fun start =>
      .bind (continues_input hknown node "to" "10") fun limit =>
      .last (continues_input hknown node "step" "1") fun step =>
      .after (continues_declare hknown _) fun _ => .pure ?_
    rintro _ rfl _ rfl _ rfl body
    simp [Item.codes]
  · next hkind =>
    simp only [Routine.slots, Routine.statementSockets, Shape.eq_loop_of_ofKind hshape hkind, map_cons, map_nil]
    refine .last (continues_input hknown node _ _) fun cond => .pure ?_
    rintro _ rfl body
    simp [Item.codes]

theorem continues_walk (hreturns : r.NamesReturns)
    {tour : Tour} {depth : Nat} {passed : List String} (h : tour.Follows r depth passed)
    : Continues known (walk r tour) (tour.nodes.flatMap r.slots)
        fun items codes => codes = codesOf items := by
  induction tour generalizing depth passed with
  | stop => exact .pure rfl
  | cut node => exact .after (continues_report hknown rfl) fun _ => .pure (by simp [Line.codes])
  | pass node rest ih =>
    refine .bind (continues_passItems hknown h.1.shape) fun items => .last (ih h.2) fun items' => .pure ?_
    rintro _ rfl _ rfl
    simp
  | last node =>
    rw [Tour.nodes, flatMap_singleton]
    exact continues_lastItems hknown h.shape hreturns
  | branch node onTrue onFalse ihTrue ihFalse =>
    obtain ⟨hmeets, -, htrue, hfalse⟩ := h
    have hslots : r.slots node = [r.wiring.source? node.id "condition"] := by
      simp only [Routine.slots, Routine.statementSockets, Shape.eq_branch_of_ofKind hmeets.shape, map_cons, map_nil]
    rw [Tour.nodes, flatMap_cons, flatMap_append, hslots]
    refine .bind (continues_input hknown node "condition" "false") fun cond =>
      .bind (ihTrue htrue) fun items => .last (ihFalse hfalse) fun items' => .pure ?_
    rintro _ rfl _ rfl _ rfl
    simp [codesOf, Item.codes]
  | loop node body rest ihBody ihRest =>
    obtain ⟨hmeets, -, hbody, hrest⟩ := h
    rw [Tour.nodes, flatMap_cons, flatMap_append]
    refine .bind (continues_loopHead hknown hmeets.shape) fun head =>
      .bind (ihBody hbody) fun items => .last (ihRest hrest) fun items' => .pure ?_
    rintro _ rfl _ rfl codes hhead
    simp [codesOf, hhead]

end Build

end NodeScript.Compile
