import NodeScript.Proofs.Emission
import NodeScript.Proofs.Parse.Inversion
import NodeScript.Proofs.Rendering
import NodeScript.Proofs.Splicing

/-!
Nodes around text that was typed into them. It is put between the operators of a node as it is, and is what it was on
its own where the rule for its place reads it so.
-/

namespace NodeScript.Script

open List Parse

variable {text : String} {tree tree' : Expr} {lexemes : List Lexeme}

/-- On any line the text has the same tokens, and the rule reads all of them as the tree. -/
def ReadsBy (rule : Nat → Parse Expr) (text : String) (tree : Expr) : Prop :=
  ∃ lexemes, Lexes text.toList lexemes ∧ ∀ stream : TokenStream, stream.tokens.map Token.lexeme = lexemes
    → rule stream.bound stream = .ok (tree, ⟨[], stream.endLine⟩)

theorem Lexes.exists_scanFrom {text : List Char} (h : Lexes text lexemes) (line : Nat)
    : ∃ stream, scanFrom line text = .ok stream ∧ stream.tokens.map Token.lexeme = lexemes :=
  h (text.length + 1) line (Nat.le_succ _)

theorem ReadsBy.unique {rule : Nat → Parse Expr} (h : ReadsBy rule text tree) (h' : ReadsBy rule text tree')
    : tree = tree' := by
  obtain ⟨_, hlexes, hrule⟩ := h
  obtain ⟨_, hlexes', hrule'⟩ := h'
  obtain ⟨stream, hscan, hstream⟩ := hlexes.exists_scanFrom 1
  obtain ⟨stream', hscan', hstream'⟩ := hlexes'.exists_scanFrom 1
  cases hscan.symm.trans hscan'
  cases (hrule stream hstream).symm.trans (hrule' stream hstream')
  rfl

theorem Closed.lexes_append {text rest : List Char} {more : List Lexeme} (hclosed : Closed text)
    (htext : Lexes text lexemes) (hrest : Lexes rest more) (hend : EndsOperand rest)
    : Lexes (text ++ rest) (lexemes ++ more) := by
  intro bound line hbound
  obtain ⟨stream, hstream, rfl⟩ := htext.exists_scanFrom line
  obtain ⟨stream', hstream', rfl⟩ := hrest.exists_scanFrom stream.endLine
  refine ⟨⟨stream.tokens ++ stream'.tokens, stream'.endLine⟩, ?_, map_append⟩
  have hscan := scanFrom_append hclosed hend line
  rw [hstream, Except.bind, TokenStream.andThen, hstream'] at hscan
  exact (scanTokens_congr line hbound (Nat.le_succ _)).trans hscan

theorem mem_of_head?_text {mark : Punct} (h : mark.text.toList.head? = some '=')
    : mark ∈ Punct.equal :: .strictEqual :: closers := by
  revert h
  cases mark <;> decide

theorem Lexes.exists_first {text : List Char} (h : Lexes text lexemes) (hbegins : Begins lexemes)
    : ∃ c tail, text = c :: tail ∧ c ≠ '=' := by
  obtain ⟨stream, hscan, rfl⟩ := h.exists_scanFrom 1
  obtain ⟨lexeme, others, hlexemes, hother⟩ := hbegins
  cases text with
  | nil =>
    cases hscan
    cases hlexemes
  | cons c tail =>
    refine ⟨c, tail, rfl, ?_⟩
    rintro rfl
    have hskip : skipTrivia .blank 1 ('=' :: tail) = .ok (1, '=' :: tail) :=
      skipTrivia_of_not_blank (by decide) (by decide) 1 tail
    have hlexeme : scanLexeme 1 '=' tail = _ := scanLexeme_mark (by decide) (by simp [startsNumber]) (by decide) 1
    cases hpunct : scanPunct? ('=' :: tail) with
    | none =>
      rw [hpunct] at hlexeme
      cases (scanFrom_of_error hskip hlexeme).symm.trans hscan
    | some found =>
      -- The first mark of the text starts with the sign.
      rw [hpunct] at hlexeme
      have hfound := (scanFrom_of_token hskip hlexeme).symm.trans hscan
      obtain ⟨_, _, hmark, -⟩ := found.1.exists_text
      have htext := text_of_scanPunct? hpunct
      rw [hmark] at htext
      cases htext
      have hmem := mem_of_head?_text (congrArg head? hmark)
      cases hrest : scanFrom 1 found.2 with
      | error e => cases hrest ▸ hfound
      | ok rest =>
        rw [hrest] at hfound
        cases hfound
        cases hlexemes
        cases (isMark_self found.1).symm.trans (hother _ hmem)

end NodeScript.Script

namespace NodeScript.Compile

open List Script Script.Parse

variable {text : String} {tree : Expr} {level depth height : Nat}

/-- A text that the rule of the level reads as the tree inside of so many levels of nesting, and that leaves no string
and no comment open. -/
def FitsAt (level depth : Nat) (text : String) (tree : Expr) : Prop :=
  Closed text.toList ∧ ReadsBy (chain · depth level) text tree

theorem FitsAt.exists_lexemes (h : FitsAt level depth text tree) (hlevel : level ≤ levels)
    (hdepth : depth + height = Script.maxNesting)
    : ∃ lexemes, Lexes text.toList lexemes ∧ Splices text lexemes ∧ Begins lexemes
      ∧ ReadsChain level height lexemes tree := by
  obtain ⟨hclosed, lexemes, hlexes, hrule⟩ := h
  obtain ⟨stream, -, hstream⟩ := hlexes.exists_scanFrom 1
  obtain ⟨taken, htaken, hreads⟩ := (yieldsAt hdepth).chain hlevel _ _ _ (hrule stream hstream)
  obtain rfl : taken.map Token.lexeme = lexemes := by
    rw [← hstream, htaken, append_nil]
  exact ⟨_, hlexes, fun _ _ hmore hrest => hclosed.lexes_append hlexes hmore hrest, hreads⟩

theorem FitsAt.isChain (h : FitsAt level depth text tree) (hlevel : level ≤ levels)
    (hdepth : depth + height = Script.maxNesting) : IsChain level text height tree := by
  obtain ⟨lexemes, -, hsplices, -, hreads⟩ := h.exists_lexemes hlevel hdepth
  exact ⟨lexemes, hsplices, hreads⟩

theorem readsBy_of_reads {rule : Nat → Nat → Parse Expr} {slack : Nat} {lexemes : List Lexeme}
    {follow : Option Lexeme → Prop} (hsplices : Splices text lexemes) (h : Reads rule slack height lexemes follow tree)
    (hslack : slack ≤ 32) (hend : follow none) (depth : Nat) (hdepth : depth + height ≤ Script.maxNesting)
    : ReadsBy (rule · depth) text tree := by
  have hlexes := hsplices [] [] .nil rfl
  rw [append_nil, append_nil] at hlexes
  refine ⟨lexemes, hlexes, fun stream hstream => ?_⟩
  have hbound : 16 * lexemes.length + slack ≤ stream.bound := by
    rw [← hstream, length_map, TokenStream.bound]
    omega
  obtain hok | ⟨hfits, -⟩ := h True _ depth hbound (fun _ => hdepth) stream.tokens [] stream.endLine hstream hend
  · rwa [append_nil] at hok
  · exact absurd trivial hfits

theorem haltsAt_none (level : Nat) : HaltsAt level none :=
  ⟨by rintro _ ⟨⟩, by rintro _ ⟨⟩⟩

theorem IsChain.readsBy (h : IsChain level text height tree) (hlevel : level ≤ levels)
    (hheight : height + 1 ≤ Script.maxNesting) : ReadsBy (expression · 0) text tree := by
  obtain ⟨lexemes, hsplices, hreads⟩ := h
  exact readsBy_of_reads hsplices (hreads.expression hlevel) (by decide) (haltsAt_none 0) 0 (by omega)

theorem IsChain.fitsAt (h : IsChain level text height tree) (hclosed : Closed text.toList)
    (hdepth : depth + height ≤ Script.maxNesting) : FitsAt level depth text tree := by
  obtain ⟨lexemes, hsplices, hreads⟩ := h
  have hchain := readsBy_of_reads hsplices hreads.reads (by omega) (haltsAt_none level) depth hdepth
  exact ⟨hclosed, hchain⟩

theorem IsOperand.readsBy (h : IsOperand text height tree) (hheight : height + 1 ≤ Script.maxNesting)
    : ReadsBy (expression · 0) text tree :=
  (h.isChain (Nat.zero_le _)).readsBy (Nat.zero_le _) hheight

/-- The expression of a node around those of its operands. -/
def template (kind : NodeKind) (operand : String → Expr) : Expr :=
  match kind.operator?.bind binaryOp?, kind with
  | some op, _ => .binary op (operand "a") (operand "b")
  | none, .random => randomTree (operand "min") (operand "max")
  | none, _ => .unary .not (operand "value")

/-- The operators that an operand may have outside of parentheses are those of the level and above. -/
def placeLevel (kind : NodeKind) (socket : String) : Nat :=
  match kind.operator?.bind binaryOp?, kind with
  | some op, _ => if socket = "a" then (Connective.binary op).level else (Connective.binary op).level + 1
  | none, .random => if socket = "max" then 4 else 5
  | none, _ => levels

/-- How many levels of nesting an operand stands in. -/
def placeDepth : NodeKind → Nat
  | .random => 4
  | .not => 3
  | _ => 2

theorem exists_binaryOp {kind : NodeKind} (h : kind.operator?.isSome)
    : ∃ operator op, kind.operator? = some operator ∧ binaryOp? operator = some op ∧ placeDepth kind = 2 := by
  cases kind <;> cases h <;> exact ⟨_, _, rfl, rfl, rfl⟩

theorem readsBy_nodeCode {r : Routine} {node : Node} {operand : String → Code} {trees : String → Expr}
    (hkind : (r.kindOf node).operator?.isSome ∨ r.kindOf node = .random ∨ r.kindOf node = .not)
    (h : ∀ socket ∈ operandSockets (r.kindOf node),
      FitsAt (placeLevel (r.kindOf node) socket) (placeDepth (r.kindOf node)) (operand socket).text
        (trees socket)) (temps : List (Endpoint × Code)) (socket : String)
    : ReadsBy (expression · 0) (r.nodeCode temps node socket operand).text
        (template (r.kindOf node) trees) := by
  unfold Routine.nodeCode
  generalize r.kindOf node = kind at *
  obtain hop | rfl | rfl := hkind
  · obtain ⟨operator, op, hoperator, hop, hdepth⟩ := exists_binaryOp hop
    have hlevel := lt_levels_of_connective (Connective.binary op).connective?_mark
    simp only [operandSockets, placeLevel, template, hoperator, Option.bind_some, hop, hdepth] at h ⊢
    have ha : IsChain _ _ 498 _ := (h "a" (by simp)).isChain (Nat.le_of_lt hlevel) rfl
    have hb : IsChain _ _ 498 _ := (h "b" (by simp)).isChain hlevel rfl
    have hwhole := isOperand_binary ha hb
    rw [text_binaryMark hop] at hwhole
    exact hwhole.readsBy (Nat.le_refl _)
  · have hleast : IsChain 5 _ 496 _ := (h "min" (by decide)).isChain (by decide) rfl
    have hgreatest : IsChain 4 _ 496 _ := (h "max" (by decide)).isChain (by decide) rfl
    exact (isOperand_random hleast hgreatest).readsBy (Nat.le_refl _)
  · obtain ⟨lexemes, hlexes, hsplices, hbegins, hreads⟩ : ∃ lexemes, _ ∧ _ ∧ _ ∧ ReadsChain levels 497 lexemes _ :=
      (h "value" (by decide)).exists_lexemes (Nat.le_refl _) rfl
    exact (isOperand_not ⟨lexemes, hsplices, hreads⟩ (hlexes.exists_first hbegins)).readsBy (Nat.le_refl _)

namespace Build

theorem finds_resolve_assembled {r : Routine} {passed : List Endpoint} {out : Endpoint}
    (houtput : out ∉ passed) (room : Nat)
    : Finds r (resolve r (room + 1) passed out) fun temps marks =>
        Assembled r temps (Unfolds r temps marks) out := by
  refine finds_resolve_cases ?_ (fun hpassed => absurd hpassed houtput) (by simp) ?_
  · intro temps marks code hunfolds hprovisional
    cases hunfolds with
    | circular | tooDeep => cases hprovisional
    | missing hnone => exact .missing hnone
    | node operand hnode hwired htyped =>
      exact .node operand hnode fun socket hsocket => ⟨hwired socket hsocket, htyped socket hsocket⟩
  · rintro room' - -
    exact (finds_resolveOutput out fun source _ => finds_resolve r room' (out :: passed) source).weaken
      fun _ _ _ h => ⟨h.unfolds, h⟩

/-- Operands that the rules for their places read as given are the operands of the expression that a node is
resolved to. -/
theorem resolve_grouping {routine : Routine} {s : State} (hs : Sound routine s) {passed : List Endpoint}
    {output : Endpoint} (houtput : output ∉ passed) {node : Node} (hnode : routine.wiring.node? output.node = some node)
    (hkind : (routine.kindOf node).operator?.isSome ∨ routine.kindOf node = .random ∨ routine.kindOf node = .not)
    (room : Nat)
    : let kind := routine.kindOf node
      let found := (resolve routine (room + 1) passed output).run s
      ∃ operand : String → Code, found.1 = routine.nodeCode s.temporaries node output.socket operand
        ∧ (∀ socket ∈ operandSockets kind, Supplied routine (Unfolds routine s.temporaries found.2.Marked) node socket
          (typedOperand kind node socket) (operand socket))
        ∧ ∀ trees : String → Expr, (∀ socket ∈ operandSockets kind,
            FitsAt (placeLevel kind socket) (placeDepth kind) (operand socket).text (trees socket))
          → ReadsBy (expression · 0) found.1.text (template kind trees) := by
  intro kind found
  have hfound : Assembled routine s.temporaries (Unfolds routine s.temporaries found.2.Marked) output found.1 :=
    ((finds_resolve_assembled houtput room s hs).2.2 _ id).2
  generalize found.1 = code at hfound ⊢
  cases hfound with
  | missing hnone => cases hnode.symm.trans hnone
  | node operand hnode' hsupplied =>
    cases hnode.symm.trans hnode'
    exact ⟨operand, rfl, hsupplied, fun trees htrees => readsBy_nodeCode hkind htrees _ _⟩

/-- A product of what is typed in. -/
def product (a b : String) : Routine where
  wiring := .ofEdges [⟨"n", .multiply, none, { inlineValues := ⟨[("a", a), ("b", b)], by simp⟩ }⟩] []
  functions := .ofGraph {}
  aliases := {}
  signature := none
  instrument := false

theorem isChain_raw (text : String) (h : IsAtom text) {level : Nat} (hlevel : level ≤ levels)
    : IsChain level text 0 (rawTree text) :=
  (isOperand_raw (.inr h)).isChain hlevel

theorem isChain_sum : IsChain 4 "1 + 2" 0 (.binary .add (rawTree "1") (rawTree "2")) := by
  have hsum := (isChain_raw "1" rfl (by decide)).binary
    (show connective? 4 .plus = some (.binary .add) from rfl) (isChain_raw "2" rfl (by decide))
  rwa [show "1" ++ " " ++ Punct.plus.text ++ " " ++ "2" = "1 + 2" by decide] at hsum

/-- A sum in parentheses stays a factor. -/
theorem resolve_grouping_product : ReadsBy (expression · 0)
        ((resolve (product "(1 + 2)" "3") 1 [] ⟨"n", "out"⟩).run (product "(1 + 2)" "3").start).1.text
        (.binary .multiply (.binary .add (rawTree "1") (rawTree "2")) (rawTree "3")) := by
  have hsum : IsOperand "(1 + 2)" 1 (.binary .add (rawTree "1") (rawTree "2")) := by
    have hparen := isOperand_paren isChain_sum (by decide)
    rwa [show "(" ++ "1 + 2" ++ ")" = "(1 + 2)" by decide] at hparen
  have houtput : (⟨"n", "out"⟩ : Endpoint) ∉ ([] : List Endpoint) := List.not_mem_nil
  obtain ⟨operand, -, hsupplied, hreads⟩ :=
    resolve_grouping (product "(1 + 2)" "3").sound_start houtput rfl (.inl rfl) 0
  have ha : operand "a" = .raw "(1 + 2)" := (hsupplied "a" (by decide)).typed rfl
  have hb : operand "b" = .raw "3" := (hsupplied "b" (by decide)).typed rfl
  let trees (socket : String) : Expr :=
    if socket = "a" then .binary .add (rawTree "1") (rawTree "2") else rawTree "3"
  refine hreads trees (forall_mem_cons.mpr ⟨?_, forall_mem_singleton.mpr ?_⟩)
  · rw [ha]
    exact (hsum.isChain (by decide)).fitsAt (by decide) (by decide)
  · rw [hb]
    exact (isChain_raw "3" rfl (by decide)).fitsAt (by decide) (by decide)

/-- A sum without parentheses does not: its last summand becomes the factor. -/
theorem product_regroups
    : let sum : Expr := .binary .add (rawTree "1") (rawTree "2")
      let found := (resolve (product "1 + 2" "3") 1 [] ⟨"n", "out"⟩).run (product "1 + 2" "3").start
      ReadsBy (expression · 0) "1 + 2" sum ∧ ReadsBy (expression · 0) "3" (rawTree "3")
        ∧ ReadsBy (expression · 0) found.1.text
          (.binary .add (rawTree "1") (.binary .multiply (rawTree "2") (rawTree "3")))
        ∧ ¬ ReadsBy (expression · 0) found.1.text (.binary .multiply sum (rawTree "3")) := by
  intro sum found
  have hfound : found.1.text = "(1 + 2 * 3)" := by decide +kernel
  have hproduct := (isChain_raw "2" rfl (by decide)).binary
    (show connective? 5 .star = some (.binary .multiply) from rfl) (isChain_raw "3" rfl (by decide))
  have hsum := (isChain_raw "1" rfl (by decide)).binary
    (show connective? 4 .plus = some (.binary .add) from rfl) hproduct
  have hread : ReadsBy (expression · 0) "(1 + 2 * 3)" _ := (isOperand_paren hsum (by decide)).readsBy (by decide)
  rw [hfound]
  refine ⟨isChain_sum.readsBy (by decide) (by decide), (isChain_raw "3" rfl (Nat.le_refl _)).readsBy (by decide) (by decide),
    hread, fun hother => ?_⟩
  cases ReadsBy.unique hread hother

end Build

end NodeScript.Compile
