import NodeScript.Proofs.ExpressionDepth
import NodeScript.Proofs.Rendering
import NodeScript.Proofs.Splicing

/-!
What is written into generated code stays where it is written. A line leaves no string and no comment
open if no text on it does, so that the lines around it have their own tokens.
-/

namespace NodeScript.Script

open List

theorem Ended.text {text text' : String} (h : Ended text.toList) (h' : Closed text'.toList)
    : Closed (text ++ text').toList := by
  rw [String.toList_append]
  exact h.append h'

theorem Closed.text {text text' : String} (h : Closed text.toList) (h' : Separates text'.toList)
    : Ended (text ++ text').toList := by
  rw [String.toList_append]
  exact h.separate h'

theorem Ended.enclose {before text after : String} (h : Ended before.toList) (htext : Closed text.toList)
    (hafter : Separates after.toList := by decide) : Ended (before ++ text ++ after).toList :=
  (h.text htext).text hafter

theorem closed_intercalate {texts : List String} (h : ∀ text ∈ texts, Closed text.toList)
    : Closed (", ".intercalate texts).toList := by
  induction texts with
  | nil => decide
  | cons first texts ih =>
    rw [forall_mem_cons] at h
    cases texts with
    | nil => simpa using h.1
    | cons second texts =>
      have hrest := (h.1.text (show Separates ", ".toList by decide)).append (ih h.2)
      simpa using hrest

end NodeScript.Script

namespace NodeScript.Compile

open List Script

theorem IsName.ended {name : String} (h : IsName name) : Ended name.toList := by
  obtain ⟨c, tail, heq, hstart, htail⟩ := h.word
  have hinert : ∀ d ∈ name.toList, isInert d := by
    rw [heq, forall_mem_cons]
    exact ⟨isInert_of (p := isWordStart) (by decide) hstart,
      fun d hd => isInert_of (p := isWordPart) (by decide) (htail d hd)⟩
  exact .inl (Inside.after_inert hinert)

theorem scanLexeme_quote (text : String) (line : Nat) (rest : List Char)
    : scanLexeme line '"' (text.toList.flatMap quoteChar ++ '"' :: rest) = .ok (.str text, line, rest) := by
  unfold scanLexeme
  rw [if_pos (.inl rfl), scanString_quote]
  simp [Except.map]

/-- Quoted text is one token on the line where it starts, and the text after it is read as on its own. -/
theorem scan_quote_append (text rest : String)
    : (∀ line, ∃ tail, skipTrivia .blank line (quote text ++ rest).toList = .ok (line, '"' :: tail)
          ∧ scanLexeme line '"' tail = .ok (.str text, line, rest.toList))
        ∧ (∀ line, scanFrom line (quote text ++ rest).toList
          = (scanFrom line rest.toList).map (.cons ⟨.str text, line⟩))
        ∧ TokenStream.scan (quote text ++ rest) = (TokenStream.scan rest).map (.cons ⟨.str text, 1⟩) := by
  have htoken (line : Nat) : ∃ tail, skipTrivia .blank line (quote text ++ rest).toList = .ok (line, '"' :: tail)
      ∧ scanLexeme line '"' tail = .ok (.str text, line, rest.toList) := by
    rw [String.toList_append, toList_quote_append]
    exact ⟨_, skipTrivia_of_not_blank (by decide) (by decide) _ _, scanLexeme_quote text line rest.toList⟩
  have hscan (line : Nat) : scanFrom line (quote text ++ rest).toList
      = (scanFrom line rest.toList).map (.cons ⟨.str text, line⟩) := by
    obtain ⟨_, hskip, hlexeme⟩ := htoken line
    exact scanFrom_of_token hskip hlexeme
  exact ⟨htoken, hscan, hscan 1⟩

theorem ended_quote (text : String) : Ended (quote text).toList := by
  have htext := toList_quote_append text []
  rw [append_nil] at htext
  obtain ⟨taken, htaken, -, hended⟩ := taken_of_scanLexeme (scanLexeme_quote text 1 [])
  rw [append_nil] at htaken
  rw [htext, htaken]
  exact .inl (hended.resolve_right fun hslash => absurd hslash.1 (by decide))

theorem closed_of_isAtom {text : String} (h : IsAtom text) : Closed text.toList := by
  obtain ⟨lexeme, tree, ⟨c, tail, next, heq, hscan⟩, hatom, -⟩ := exists_spells_of_isAtom h
  obtain ⟨taken, rfl, -, htaken | ⟨rfl, rfl⟩⟩ := taken_of_scanLexeme hscan
  · rw [heq, append_nil]
    exact Ended.closed (.inl htaken)
  · rw [heq]
    decide

section Texts

variable {text text' : String}

theorem closed_binary {operator : String} (hoperator : (binaryOp? operator).isSome)
    (h : Closed text.toList) (h' : Closed text'.toList)
    : Closed ("(" ++ text ++ " " ++ operator ++ " " ++ text' ++ ")").toList := by
  have hseparates : Separates (" " ++ operator ++ " ").toList := by
    obtain ⟨op, hop⟩ := Option.isSome_iff_exists.mp hoperator
    rw [← text_binaryMark hop]
    cases op <;> decide
  have hboth := ((show Ended "(".toList by decide).enclose h hseparates).enclose h'
    (show Separates ")".toList by decide)
  simpa using hboth.closed

theorem closed_random (h : Closed text.toList) (h' : Closed text'.toList)
    : Closed ("(Math.floor(Math.random() * (" ++ text' ++ " - " ++ text ++ " + 1)) + " ++ text ++ ")").toList :=
  (((Ended.enclose (by decide) h').enclose h).enclose h).closed

theorem closed_not (h : Closed text.toList) : Closed ("(!" ++ text ++ ")").toList :=
  (Ended.enclose (by decide) h).closed

theorem closed_element {array : String} (harray : IsName array) (h : Closed text.toList)
    : Closed (array ++ "[" ++ text ++ "]").toList :=
  ((harray.ended.closed.text (by decide)).enclose h).closed

end Texts

theorem Code.closed_of_fits {code : Code} (h : code.Fits) : Closed code.text.toList := by
  induction code with
  | ident name => exact (IsName.ended h).closed
  | member record field => exact (h.1.ended.closed.text (by decide)).text h.2.ended.closed
  | raw text =>
    obtain rfl | h := h
    · decide
    · exact closed_of_isAtom h
  | quoted text => exact (ended_quote text).closed
  | binary operator left right ihl ihr => exact closed_binary h.1 (ihl h.2.1) (ihr h.2.2)
  | random least greatest ihl ihg => exact closed_random (ihl h.1) (ihg h.2)
  | not operand ih => exact closed_not (ih h)
  | length array => exact ((IsName.ended h).closed.text (by decide)).closed
  | element array index ih => exact closed_element h.1 (ih h.2)
  | undefined | circular | tooDeep => decide

theorem Shaped.closed {operand : String → Code} {sockets : List String} {code : Code}
    (h : Shaped operand sockets code) (hoperand : ∀ socket ∈ sockets, Closed (operand socket).text.toList)
    : Closed code.text.toList := by
  cases h with
  | binary operator h => exact closed_binary h (hoperand _ (by simp)) (hoperand _ (by simp))
  | random => exact closed_random (hoperand _ (by simp)) (hoperand _ (by simp))
  | not => exact closed_not (hoperand _ (by simp))
  | element array h => exact closed_element h (hoperand _ (by simp))
  | leaf code h => exact Code.closed_of_fits h.1

def Code.Closes (code : Code) : Prop :=
  Closed code.text.toList

theorem ended_declaration (fresh : Bool) : Ended (declaration fresh).toList := by
  cases fresh <;> decide

theorem Line.closed {line : Line} (h : line.Fits Code.Closes)
    (hcomment : ∀ id, line ≠ .unknownFunction id) (hdeep : line ≠ .nestingTooDeep)
    : Closed line.text.toList := by
  obtain ⟨hcodes, hnames, -⟩ := h
  have hname : ∀ name ∈ line.names, Closed name.toList := fun name hmem => (hnames name hmem).ended.closed
  unfold Code.Closes at hcodes
  cases line with
  | enter node => exact (Ended.enclose (by decide) (ended_quote node).closed).closed
  | notify name =>
    have hname := hname name (by simp [names])
    exact ((Ended.enclose (by decide) (ended_quote name).closed).enclose hname).closed
  | assign fresh name value | ask fresh name value =>
    have hname := hname name (by simp [names])
    exact (((ended_declaration fresh).enclose hname).enclose (hcodes value (by simp [codes]))).closed
  | print value | returnValue value => exact (Ended.enclose (by decide) (hcodes value (by simp [codes]))).closed
  | breakLoop | continueLoop | returnNothing => decide
  | push array value =>
    have hname := hname array (by simp [names])
    exact ((hname.text (by decide)).enclose (hcodes value (by simp [codes]))).closed
  | pop temporary array =>
    have htemporary := hname temporary (by simp [names])
    exact ((Ended.enclose (by decide) htemporary).enclose (hname array (by simp [names]))).closed
  | store array index value =>
    have hname := hname array (by simp [names])
    have hindex := hcodes index (by simp [codes])
    exact (((hname.text (by decide)).enclose hindex).enclose (hcodes value (by simp [codes]))).closed
  | returnRecord fields =>
    have hfields : ∀ text ∈ fields.map fun field => field.1 ++ ": " ++ field.2.text, Closed text.toList := by
      intro text htext
      obtain ⟨field, hfield, rfl⟩ := mem_map.mp htext
      have hleft := (hname field.1 (mem_map_of_mem hfield)).text (show Separates ": ".toList by decide)
      exact hleft.text (hcodes field.2 (mem_map_of_mem hfield))
    exact (Ended.enclose (by decide) (closed_intercalate hfields)).closed
  | call temporary function arguments =>
    have hresult : Closed (temporary.elim "" fun name => "let " ++ name ++ " = ").toList := by
      cases temporary with
      | none => decide
      | some name => exact (Ended.enclose (by decide) (hname name (by simp [names]))).closed
    have harguments : ∀ text ∈ arguments.map Code.text, Closed text.toList := by
      intro text htext
      obtain ⟨code, hcode, rfl⟩ := mem_map.mp htext
      exact hcodes code hcode
    have hname := hname function (by simp [names])
    exact (((hresult.text (by decide)).enclose hname).enclose (closed_intercalate harguments)).closed
  | unknownFunction id => exact absurd rfl (hcomment id)
  | nestingTooDeep => exact absurd rfl hdeep

def ReadsAlike (text text' : String) : Prop :=
  ∀ rest rest', SameTokens rest rest' → EndsLine rest → EndsLine rest'
    → SameTokens ('\n' :: (text.toList ++ rest)) ('\n' :: (text'.toList ++ rest'))

namespace ReadsAlike

theorem of_closed {text : String} (h : Closed text.toList) : ReadsAlike text text := by
  intro rest rest' hsame hrest hrest'
  exact (hsame.append h hrest.endsOperand hrest'.endsOperand).lineBreak

theorem of_comments (depth : Nat) {comment comment' : String} (h : '\n' ∉ comment.toList) (h' : '\n' ∉ comment'.toList)
    : ReadsAlike (indented depth ("//" ++ comment)) (indented depth ("//" ++ comment')) := by
  have hskip : ∀ {comment : String} {rest : List Char}, '\n' ∉ comment.toList → EndsLine rest
      → SameTokens ((indented depth ("//" ++ comment)).toList ++ rest) rest := by
    intro comment rest hcomment hrest line
    have htext : (indented depth ("//" ++ comment)).toList ++ rest
        = List.replicate (2 * depth) ' ' ++ '/' :: '/' :: (comment.toList ++ rest) := by
      simp [indented, toList_pushn]
    rw [htext, SameTokens.spaces, SameTokens.comment hcomment hrest]
  intro rest rest' hsame hrest hrest'
  have hboth : SameTokens ((indented depth ("//" ++ comment)).toList ++ rest)
      ((indented depth ("//" ++ comment')).toList ++ rest') := by
    intro line
    rw [hskip h hrest, hskip h' hrest', hsame]
  exact hboth.lineBreak

theorem nil : ReadsAlike "" "" := of_closed (by decide)

theorem intercalate {separator : String} (hseparator : separator = "\n" ∨ separator = "\n\n")
    {texts texts' : List String} (h : List.Forall₂ ReadsAlike texts texts')
    : ReadsAlike (separator.intercalate texts) (separator.intercalate texts') := by
  induction h with
  | nil => exact nil
  | @cons first first' texts texts' hfirst hrest ih =>
    cases hrest with
    | nil => simpa using hfirst
    | @cons second second' texts texts' hsecond hrest =>
      intro rest rest' hsame hends hends'
      have hsame := ih rest rest' hsame hends hends'
      obtain rfl | rfl := hseparator
      · simpa using hfirst _ _ hsame (.inr ⟨_, rfl⟩) (.inr ⟨_, rfl⟩)
      · simpa using hfirst _ _ hsame.lineBreak (.inr ⟨_, rfl⟩) (.inr ⟨_, rfl⟩)

theorem parse_eq {text text' : String} (h : ReadsAlike text text') : Program.parse text = Program.parse text' := by
  have hscan : ∀ text : String, TokenStream.scan text = scanFrom 0 ('\n' :: text.toList) :=
    fun text => scanFrom_congr rfl
  have hsame := h [] [] (fun _ => rfl) (.inl rfl) (.inl rfl) 0
  rw [append_nil, append_nil, ← hscan, ← hscan] at hsame
  unfold Program.parse
  rw [hsame]

end ReadsAlike

theorem closed_indented (depth : Nat) {text : String} (h : Closed text.toList)
    : Closed (indented depth text).toList := by
  have hspaces : Ended ("".pushn ' ' (2 * depth)).toList := by
    refine .inl (Inside.after_inert fun c hc => ?_)
    rw [toList_pushn] at hc
    rw [eq_of_mem_replicate hc]
    decide
  exact hspaces.text h

theorem readsAlike_unknownFunction (depth : Nat) {id id' : String} (h : '\n' ∉ id.toList) (h' : '\n' ∉ id'.toList)
    : ReadsAlike (indented depth (Line.unknownFunction id).text) (indented depth (Line.unknownFunction id').text) := by
  have htext : ∀ id : String, (Line.unknownFunction id).text
      = "//" ++ (" Error: function '" ++ id ++ "' not found") := by
    intro id
    simp only [← String.append_assoc]
    rfl
  rw [htext, htext]
  exact .of_comments depth (by simp [h]) (by simp [h'])

theorem Line.readsAlike (depth : Nat) {line : Line} (h : line.Fits Code.Closes)
    : ReadsAlike (indented depth line.text) (indented depth line.text) := by
  by_cases hcomment : ∃ id, line = .unknownFunction id
  · obtain ⟨id, rfl⟩ := hcomment
    exact readsAlike_unknownFunction depth (h.comment id rfl) (h.comment id rfl)
  by_cases hdeep : line = .nestingTooDeep
  · subst hdeep
    have hbreak : '\n' ∉ " Error: control flow nested too deeply".toList := by decide
    have htext : Line.nestingTooDeep.text = "//" ++ " Error: control flow nested too deeply" := by decide
    rw [htext]
    exact .of_comments depth hbreak hbreak
  exact .of_closed (closed_indented depth (Line.closed h (fun id heq => hcomment ⟨id, heq⟩) hdeep))

theorem readsAlike_head (depth : Nat) {text : String} (h : Ended text.toList)
    : ReadsAlike (indented depth text) (indented depth text) :=
  .of_closed (closed_indented depth h.closed)

theorem readsAlike_brace (depth : Nat) {text : String} (h : text = "\x7d" ∨ text = "\x7d else \x7b")
    : ReadsAlike (indented depth text) (indented depth text) := by
  apply readsAlike_head
  obtain rfl | rfl := h <;> decide

mutual

theorem Item.readsAlike : {item : Item} → {room : Nat} → (depth : Nat) → item.Fits Code.Closes room
    → ∀ line ∈ item.lines depth, ReadsAlike line line
  | .line line, room, depth, h => by
    have hline : line.Fits Code.Closes := by
      cases room <;> exact h
    rw [Item.lines, forall_mem_singleton]
    exact Line.readsAlike depth hline
  | .ifElse cond thenItems elseItems, room + 1, depth, h => by
    obtain ⟨hcond, hthen, helse⟩ := h
    simp only [Item.lines, forall_mem_append, forall_mem_singleton]
    refine ⟨⟨⟨⟨readsAlike_head depth ?_, readsAlike_linesOf (depth + 1) hthen⟩, readsAlike_brace depth (.inr rfl)⟩,
      readsAlike_linesOf (depth + 1) helse⟩, readsAlike_brace depth (.inl rfl)⟩
    exact .enclose (by decide) hcond
  | .whileLoop cond body, room + 1, depth, h => by
    obtain ⟨hcond, hbody⟩ := h
    simp only [Item.lines, forall_mem_append, forall_mem_singleton]
    refine ⟨⟨readsAlike_head depth ?_, readsAlike_linesOf (depth + 1) hbody⟩, readsAlike_brace depth (.inl rfl)⟩
    exact .enclose (by decide) hcond
  | .forLoop name start limit step body, room + 1, depth, h => by
    obtain ⟨hname, hstart, hlimit, hstep, hbody⟩ := h
    have hname := hname.ended.closed
    simp only [Item.lines, forall_mem_append, forall_mem_singleton]
    refine ⟨⟨readsAlike_head depth ?_, readsAlike_linesOf (depth + 1) hbody⟩, readsAlike_brace depth (.inl rfl)⟩
    exact (((((Ended.enclose (by decide) hname).enclose hstart).enclose hname).enclose hlimit).enclose hname).enclose hstep

theorem readsAlike_linesOf : {items : List Item} → {room : Nat} → (depth : Nat)
    → FitsAll Code.Closes room items → ∀ line ∈ linesOf depth items, ReadsAlike line line
  | [], _, _, _ => by simp [linesOf]
  | item :: items, _, depth, h => by
    rw [linesOf, forall_mem_append]
    exact ⟨Item.readsAlike depth h.1, readsAlike_linesOf depth h.2⟩

end

end NodeScript.Compile
