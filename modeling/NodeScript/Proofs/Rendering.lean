import NodeScript.Proofs.Parse.Statement
import NodeScript.Proofs.Trees

/-!
The text of generated code is read back as the tree that it stands for.
-/

namespace NodeScript.Compile

open List Script Script.Parse

theorem scanString_quoteChar (c : Char) (startLine line : Nat) (rest : List Char)
    : scanString '"' startLine .plain line (quoteChar c ++ rest) =
      scanString.push c (scanString '"' startLine .plain line rest) := by
  unfold quoteChar
  split
  any_goals rfl
  · next hbackslash hquote hbreak _ _ =>
    rw [singleton_append, scanString, if_neg hbreak, if_neg hquote, if_neg hbackslash]

theorem scanString_quote (text : List Char) (startLine line : Nat) (rest : List Char)
    : scanString '"' startLine .plain line (text.flatMap quoteChar ++ '"' :: rest) = .ok (text, line, rest) := by
  induction text with
  | nil => rfl
  | cons c text ih =>
    rw [flatMap_cons, append_assoc, scanString_quoteChar, ih]
    rfl

variable {text name function object : String} {tree value : Expr} {lexemes more : List Lexeme} {rest : List Char}
  {height height' : Nat} {stmt : Stmt} {stmts stmts' : List Stmt} {lines lines' : List String}

theorem lexes_string (h : Lexes rest lexemes) {written text : List Char}
    (hscan : ∀ line, scanString '"' line .plain line (written ++ '"' :: rest) = .ok (text, line, rest))
    : Lexes ('"' :: (written ++ '"' :: rest)) (.str (String.ofList text) :: lexemes) := by
  apply h.token
  · rw [length_append, length_cons]
    omega
  · intro line
    exact skipTrivia_of_not_blank (by decide) (by decide) _ _
  · intro line
    refine ⟨line, ?_⟩
    unfold scanLexeme
    rw [if_pos (.inl rfl), hscan]
    rfl

theorem toList_quote_append (text : String) (rest : List Char)
    : (quote text).toList ++ rest = '"' :: (text.toList.flatMap quoteChar ++ '"' :: rest) := by
  simp [quote]

theorem lexes_quote (h : Lexes rest lexemes) (text : String)
    : Lexes ((quote text).toList ++ rest) (.str text :: lexemes) := by
  rw [toList_quote_append, ← String.ofList_toList (s := text)]
  exact lexes_string h fun line => by rw [scanString_quote, String.toList_ofList]

theorem bracketOpen_mem : ('[', Punct.bracketOpen) ∈ singleMarks := by decide

theorem bracketClose_mem : (']', Punct.bracketClose) ∈ singleMarks := by decide

theorem parenOpen_mem : ('(', Punct.parenOpen) ∈ singleMarks := by decide

theorem parenClose_mem : (')', Punct.parenClose) ∈ singleMarks := by decide

theorem comma_mem : (',', Punct.comma) ∈ singleMarks := by decide

theorem colon_mem : (':', Punct.colon) ∈ singleMarks := by decide

theorem braceOpen_mem : ('{', Punct.braceOpen) ∈ singleMarks := by decide

theorem braceClose_mem : ('}', Punct.braceClose) ∈ singleMarks := by decide

theorem semicolon_mem : (';', Punct.semicolon) ∈ singleMarks := by decide

theorem head?_append_of_isWord (h : IsWord text) (rest : List Char)
    : (text.toList ++ rest).head?.all fun c => !c.isDigit := by
  obtain ⟨c, tail, heq, hstart, -⟩ := h
  simpa [heq] using (isWordStart_not_other hstart).2.2.2.2.2

def Splices (text : String) (lexemes : List Lexeme) : Prop :=
  ∀ rest more, Lexes rest more → EndsOperand rest → Lexes (text.toList ++ rest) (lexemes ++ more)

def IsOperand (text : String) (height : Nat) (tree : Expr) : Prop :=
  ∃ lexemes, (∃ c tail, text.toList = c :: tail ∧ c ≠ '=') ∧ Splices text lexemes
    ∧ Opens lexemes ∧ Reads unary 1 height lexemes Halts tree

/-- The text is read as an expression of the level wherever one may stand. -/
def IsChain (level : Nat) (text : String) (height : Nat) (tree : Expr) : Prop :=
  ∃ lexemes, Splices text lexemes ∧ ReadsChain level height lexemes tree

theorem IsOperand.isChain (h : IsOperand text height tree) {level : Nat} (hlevel : level ≤ levels)
    : IsChain level text height tree := by
  obtain ⟨lexemes, -, hlexes, -, hreads⟩ := h
  exact ⟨lexemes, hlexes, .of_unary hlevel hreads⟩

theorem IsOperand.mono (h : IsOperand text height tree) (hheight : height ≤ height') : IsOperand text height' tree := by
  obtain ⟨lexemes, hfirst, hlexes, hopens, hreads⟩ := h
  exact ⟨lexemes, hfirst, hlexes, hopens, hreads.mono hheight⟩

theorem exists_spells_of_isAtom (h : IsAtom text)
    : ∃ lexeme tree, Spells text lexeme ∧ atom? lexeme = some tree ∧ atomTree? text = some tree := by
  obtain ⟨tree, htree⟩ := Option.isSome_iff_exists.mp h
  have hatom := htree
  unfold atomTree? at hatom
  split at hatom
  · simp at hatom
  · next c tail heq =>
    split at hatom
    · next lexeme next hscan => exact ⟨lexeme, tree, ⟨c, tail, next, heq, hscan⟩, hatom, htree⟩
    · simp at hatom

theorem isOperand_atom {lexeme : Lexeme} (htext : Spells text lexeme) (hatom : atom? lexeme = some tree)
    : IsOperand text 0 tree := by
  have hlexeme : ∀ mark, lexeme ≠ .punct mark := by
    rintro mark rfl
    simp [atom?] at hatom
  have hopens : Opens [lexeme] := ⟨_, _, rfl, .inr (.inr (.inr (by simp [hatom])))⟩
  refine ⟨[lexeme], ?_, ?_, hopens, reads_unary_primary hopens (reads_primary_atom hatom)⟩
  · obtain ⟨c, tail, next, heq, hscan⟩ := htext
    refine ⟨c, tail, heq, ?_⟩
    rintro rfl
    exact absurd (start_of_scanLexeme hscan hlexeme) (by decide)
  · intro rest more hmore hrest
    exact hmore.spelled htext hlexeme hrest

theorem isOperand_raw (h : text = "[]" ∨ IsAtom text) : IsOperand text 0 (rawTree text) := by
  unfold rawTree
  split
  · next heq =>
    subst heq
    have hopens : Opens [.punct .bracketOpen, .punct .bracketClose] := ⟨_, _, rfl, .inr (.inl rfl)⟩
    refine ⟨_, ⟨'[', [']'], rfl, by decide⟩, ?_, hopens,
      reads_unary_primary hopens (reads_primary_array (reads_items_nil .bracketClose))⟩
    intro rest more hmore _
    exact (hmore.single (by decide)).single (by decide)
  · next hne =>
    obtain ⟨lexeme, tree, hspells, hatom, htree⟩ := exists_spells_of_isAtom (h.resolve_left hne)
    rw [htree]
    exact isOperand_atom hspells hatom

theorem isOperand_quote (text : String) : IsOperand (quote text) 0 (.str text) := by
  have hopens : Opens [.str text] := ⟨_, _, rfl, .inr (.inr (.inr rfl))⟩
  refine ⟨[.str text], ⟨'"', _, String.toList_ofList, by decide⟩, ?_, hopens,
    reads_unary_primary hopens (reads_primary_atom rfl)⟩
  intro rest more hmore _
  exact lexes_quote hmore text

theorem isOperand_member {record field : String} (hrecord : IsName record) (hfield : IsWord field)
    : IsOperand (record ++ "." ++ field) 0 (.member (.identifier record) field) := by
  obtain ⟨c, tail, heq, hstart, htail⟩ := hrecord.word
  have hopens := opens_word hrecord.notKeyword [.punct .dot, .word field]
  refine ⟨_, ⟨c, tail ++ '.' :: field.toList, by simp [heq], ?_⟩, ?_, hopens, ?_⟩
  · rintro rfl
    exact absurd hstart (by decide)
  · intro rest more hmore hrest
    have hword := hmore.word hfield hrest.endsWord
    have hdot := hword.dot (head?_append_of_isWord hfield rest)
    have := hdot.word hrecord.word rfl
    simpa using this
  · exact reads_unary_name hrecord.notKeyword (reads_accesses_member (reads_accesses_nil _))

theorem isOperand_element {array : String} {index : Expr} (harray : IsName array) (hindex : IsOperand text height index)
    : IsOperand (array ++ "[" ++ text ++ "]") (height + 1) (.index (.identifier array) index) := by
  obtain ⟨c, tail, heq, hstart, htail⟩ := harray.word
  obtain ⟨lexemes, hfirst, hlexes, hopens, hreads⟩ := hindex
  refine ⟨.word array :: .punct .bracketOpen :: (lexemes ++ [.punct .bracketClose]),
    ⟨c, tail ++ '[' :: (text.toList ++ [']']), by simp [heq], ?_⟩, ?_,
    opens_word harray.notKeyword _, ?_⟩
  · rintro rfl
    exact absurd hstart (by decide)
  · intro rest more hmore hrest
    have hclose := hmore.single bracketClose_mem
    have hinner := hlexes _ _ hclose rfl
    have hopen := hinner.single bracketOpen_mem
    have := hopen.word harray.word rfl
    simpa using this
  · exact reads_unary_name harray.notKeyword
      (reads_accesses_index (reads_expression_unary hreads) (reads_accesses_nil _))

theorem Splices.paren (h : Splices text lexemes)
    : Splices ("(" ++ text ++ ")") (.punct .parenOpen :: (lexemes ++ [.punct .parenClose])) := by
  intro rest more hmore _
  have hclose := hmore.single parenClose_mem
  have := (h _ _ hclose rfl).single parenOpen_mem
  simpa using this

theorem isOperand_paren {level : Nat} (h : IsChain level text height tree) (hlevel : level ≤ levels)
    : IsOperand ("(" ++ text ++ ")") (height + 1) tree := by
  obtain ⟨lexemes, hlexes, hreads⟩ := h
  have hopens : Opens (.punct .parenOpen :: (lexemes ++ [.punct .parenClose])) :=
    ⟨_, _, rfl, .inl rfl⟩
  exact ⟨_, ⟨'(', text.toList ++ [')'], by simp, by decide⟩, hlexes.paren, hopens,
    reads_unary_primary hopens (reads_primary_paren (hreads.expression hlevel))⟩

theorem Splices.binary {left right : String} {lexemes' : List Lexeme} (h : Splices left lexemes)
    (h' : Splices right lexemes') (mark : Punct)
    : Splices (left ++ " " ++ mark.text ++ " " ++ right) (lexemes ++ .punct mark :: lexemes') := by
  intro rest more hmore hrest
  have := h _ _ ((h' _ _ hmore hrest).spaced mark).space rfl
  simpa using this

theorem IsChain.binary {left right : String} {leftTree rightTree : Expr} {level : Nat} {mark : Punct} {op : Connective}
    (hop : connective? level mark = some op) (hleft : IsChain level left height leftTree)
    (hright : IsChain (level + 1) right height rightTree)
    : IsChain level (left ++ " " ++ mark.text ++ " " ++ right) height (op.apply leftTree rightTree) := by
  obtain ⟨lexemes, hlexes, hreads⟩ := hleft
  obtain ⟨lexemes', hlexes', hreads'⟩ := hright
  exact ⟨_, hlexes.binary hlexes' mark, .binary hop hreads hreads'⟩

theorem not_eq_paren (text : String) : "(!" ++ text ++ ")" = "(" ++ ("!" ++ text) ++ ")" := by
  rw [← String.append_assoc]
  rfl

theorem Splices.not (h : Splices text lexemes) (hfirst : ∃ c tail, text.toList = c :: tail ∧ c ≠ '=')
    : Splices ("!" ++ text) (.punct .bang :: lexemes) := by
  intro rest more hmore hrest
  obtain ⟨c, tail, heq, hc⟩ := hfirst
  have := (h _ _ hmore hrest).bang ⟨c, tail ++ rest, by simp [heq], hc⟩
  simpa using this

theorem text_binaryMark {operator : String} {op : BinaryOp} (h : binaryOp? operator = some op)
    : (binaryMark op).text = operator := by
  unfold binaryOp? at h
  split at h
  case h_12 => simp at h
  all_goals
    obtain rfl := Option.some.inj h
    rfl

theorem isOperand_binary {left right : String} {leftTree rightTree : Expr} {op : BinaryOp}
    (hleft : IsChain (Connective.binary op).level left height leftTree)
    (hright : IsChain ((Connective.binary op).level + 1) right height rightTree)
    : IsOperand ("(" ++ left ++ " " ++ (binaryMark op).text ++ " " ++ right ++ ")") (height + 1)
        (.binary op leftTree rightTree) := by
  have hop := (Connective.binary op).connective?_mark
  simpa only [String.append_assoc, Connective.mark, Connective.apply] using
    isOperand_paren (hleft.binary hop hright) (Nat.le_of_lt (lt_levels_of_connective hop))

theorem isOperand_not (h : IsChain levels text height tree) (hfirst : ∃ c tail, text.toList = c :: tail ∧ c ≠ '=')
    : IsOperand ("(!" ++ text ++ ")") (height + 2) (.unary .not tree) := by
  obtain ⟨lexemes, hlexes, hreads⟩ := h
  rw [not_eq_paren]
  have hnot := reads_unary_op (show unaryOp? .bang = some .not from rfl) hreads.unary
  exact isOperand_paren ⟨_, hlexes.not hfirst, .of_unary (Nat.le_refl _) hnot⟩ (Nat.le_refl _)

theorem reads_methodCall (method : String) (arguments : List (List Lexeme × Expr))
    (hobject : isKeyword object = false) (h : ∀ argument ∈ arguments, ReadsExpression height argument.1 argument.2)
    : Reads unary 1 height (.word object :: .punct .dot :: .word method :: .punct .parenOpen
          :: (commaList (arguments.map Prod.fst) ++ [.punct .parenClose]))
        Halts (.call (.member (.identifier object) method) (arguments.map Prod.snd)) :=
  reads_unary_name hobject
    (reads_accesses_member (reads_accesses_call (reads_items (by decide) h) (reads_accesses_nil _)))

theorem lexes_call (h : Lexes rest more) (hfunction : IsWord function)
    : Lexes (function.toList ++ '(' :: rest) (.word function :: .punct .parenOpen :: more) :=
  (h.single parenOpen_mem).word hfunction rfl

theorem lexes_methodCall (h : Lexes rest more) {method : String} (hobject : IsWord object) (hmethod : IsWord method)
    : Lexes (object.toList ++ '.' :: (method.toList ++ '(' :: rest))
        (.word object :: .punct .dot :: .word method :: .punct .parenOpen :: more) :=
  ((lexes_call h hmethod).dot (head?_append_of_isWord hmethod _)).word hobject rfl

def randomLexemes (low high one : List Lexeme) : List Lexeme :=
  [.word "Math", .punct .dot, .word "floor", .punct .parenOpen, .word "Math", .punct .dot, .word "random",
    .punct .parenOpen, .punct .parenClose, .punct .star, .punct .parenOpen]
  ++ (high ++ .punct .minus :: low ++ .punct .plus :: one)
  ++ [.punct .parenClose, .punct .parenClose, .punct .plus] ++ low

theorem random_eq_paren (least greatest : String)
    : "(Math.floor(Math.random() * (" ++ greatest ++ " - " ++ least ++ " + 1)) + " ++ least ++ ")" =
      "(" ++ ("Math.floor(Math.random() * (" ++ greatest ++ " - " ++ least ++ " + 1)) + " ++ least) ++ ")" := by
  simp only [← String.append_assoc]
  rfl

theorem Splices.random {least greatest : String} {low high one : List Lexeme} (hleast : Splices least low)
    (hgreatest : Splices greatest high) (hone : Splices "1" one)
    : Splices ("Math.floor(Math.random() * (" ++ greatest ++ " - " ++ least ++ " + 1)) + " ++ least)
        (randomLexemes low high one) := by
  intro rest more hmore hrest
  have hlast := (hleast _ _ hmore hrest).spaced .plus
  have hunit := hone _ _ ((hlast.space.single parenClose_mem).single parenClose_mem) rfl
  have hlow := hleast _ _ (hunit.spaced .plus).space rfl
  have hhigh := hgreatest _ _ (hlow.spaced .minus).space rfl
  have hproduct := (hhigh.single parenOpen_mem).spaced .star
  have hmath : IsWord "Math" := by decide
  have hfraction := lexes_methodCall (hproduct.space.single parenClose_mem) hmath (show IsWord "random" by decide)
  have hfloor := lexes_methodCall hfraction hmath (show IsWord "floor" by decide)
  simpa [randomLexemes, Punct.text] using hfloor

def randomTree (least greatest : Expr) : Expr :=
  .binary .add (.call (.member (.identifier "Math") "floor")
      [.binary .multiply (.call (.member (.identifier "Math") "random") [])
        (.binary .add (.binary .subtract greatest least) (rawTree "1"))])
    least

theorem isOperand_random {least greatest : String} {leastTree greatestTree : Expr}
    (hleast : IsChain 5 least height leastTree) (hgreatest : IsChain 4 greatest height greatestTree)
    : IsOperand ("(Math.floor(Math.random() * (" ++ greatest ++ " - " ++ least ++ " + 1)) + " ++ least ++ ")")
        (height + 3) (randomTree leastTree greatestTree) := by
  have hone : IsOperand "1" 0 (rawTree "1") := isOperand_raw (.inr rfl)
  obtain ⟨one, -, hlexesOne, -, hreadsOne⟩ := hone
  obtain ⟨low, hlexesLow, hlow⟩ := hleast
  obtain ⟨high, hlexesHigh, hhigh⟩ := hgreatest
  -- The expression from the inside out: the span, the product, the rounded product, the sum.
  have hspan : ReadsChain 4 height _ _ :=
    .binary (show connective? 4 .plus = some (.binary .add) from rfl)
      (.binary (show connective? 4 .minus = some (.binary .subtract) from rfl) hhigh hlow)
      (.of_unary (by decide) (hreadsOne.mono (Nat.zero_le height)))
  have hfraction : Reads unary 1 (height + 1) _ Halts _ :=
    reads_methodCall "random" [] (show isKeyword "Math" = false by decide) (by simp)
  have hproduct : ReadsChain 5 (height + 1) _ _ :=
    .binary (show connective? 5 .star = some (.binary .multiply) from rfl) (.of_unary (by decide) hfraction)
      (.of_unary (by decide)
        (reads_unary_primary ⟨_, _, rfl, .inl rfl⟩ (reads_primary_paren (hspan.expression (by decide)))))
  have hfloor := reads_methodCall "floor" [(_, _)] (show isKeyword "Math" = false by decide) (by
    intro argument hmem
    rw [mem_singleton.mp hmem]
    exact ⟨begins_word _ _, hproduct.expression (by decide)⟩)
  have hsum : ReadsChain 4 (height + 2) _ _ :=
    .binary (show connective? 4 .plus = some (.binary .add) from rfl) (.of_unary (by decide) hfloor)
      (hlow.mono (Nat.le_add_right height 2))
  rw [random_eq_paren]
  refine isOperand_paren ⟨_, ?_, hsum⟩ (by decide)
  simpa [randomLexemes, commaList_nil, commaList_singleton] using Splices.random hlexesLow hlexesHigh hlexesOne

theorem isOperand_undefined : IsOperand "undefined" 0 .undefined :=
  isOperand_atom (spells_word (by decide)) rfl

theorem isOperand_comment (comment : String) (h : IsOperand text height tree)
    (hcomment : ∀ rest more, Lexes rest more → Lexes (comment.toList ++ rest) more)
    : IsOperand (text ++ " " ++ comment) height tree := by
  obtain ⟨lexemes, ⟨c, tail, heq, hc⟩, hlexes, hopens, hreads⟩ := h
  refine ⟨lexemes, ⟨c, tail ++ ' ' :: comment.toList, by simp [heq], hc⟩, ?_, hopens, hreads⟩
  intro rest more hmore _
  have := hlexes _ _ (hcomment _ _ hmore).space rfl
  simpa using this

theorem Code.isOperand {code : Code} (h : code.Fits) : IsOperand code.text code.height code.tree := by
  induction code with
  | ident name => exact isOperand_atom (spells_word h.word) (atom?_word h.notKeyword)
  | member record field => exact isOperand_member h.1 h.2.word
  | raw text => exact isOperand_raw h
  | quoted text => exact isOperand_quote text
  | binary operator left right ihl ihr =>
    obtain ⟨hop, hleft, hright⟩ := h
    obtain ⟨op, hop⟩ := Option.isSome_iff_exists.mp hop
    have hl := (ihl hleft).mono (Nat.le_max_left left.height right.height)
    have hr := (ihr hright).mono (Nat.le_max_right left.height right.height)
    have htree : (binary operator left right).tree = .binary op left.tree right.tree := by
      simp [Code.tree, hop]
    have hlevel := lt_levels_of_connective (Connective.binary op).connective?_mark
    have := isOperand_binary (hl.isChain (Nat.le_of_lt hlevel)) (hr.isChain hlevel)
    rw [text_binaryMark hop] at this
    rw [htree]
    exact this
  | random least greatest ihl ihg =>
    have hl := (ihl h.1).mono (Nat.le_max_left least.height greatest.height)
    have hg := (ihg h.2).mono (Nat.le_max_right least.height greatest.height)
    exact isOperand_random (hl.isChain (by decide)) (hg.isChain (by decide))
  | not operand ih =>
    obtain ⟨_, hfirst, -⟩ := ih h
    exact isOperand_not ((ih h).isChain (Nat.le_refl _)) hfirst
  | length array =>
    have htext : array ++ ".length" = array ++ "." ++ "length" := by
      rw [String.append_assoc]
      rfl
    have := isOperand_member h (show IsWord "length" by decide)
    rwa [← htext] at this
  | element array index ih => exact isOperand_element h.1 (ih h.2)
  | undefined => exact isOperand_undefined
  | circular =>
    apply isOperand_comment "/* circular */" isOperand_undefined
    intro rest more hmore
    exact hmore.trivia (by simp; omega) fun line => ⟨line, by simp [skipTrivia]⟩
  | tooDeep =>
    apply isOperand_comment "/* too deep */" isOperand_undefined
    intro rest more hmore
    exact hmore.trivia (by simp; omega) fun line => ⟨line, by simp [skipTrivia]⟩

def IsValue (text : String) (height : Nat) (tree : Expr) : Prop :=
  ∃ lexemes, Splices text lexemes ∧ Begins lexemes ∧ Reads unary 1 height lexemes Halts tree

theorem IsOperand.isValue (h : IsOperand text height tree) : IsValue text height tree := by
  obtain ⟨lexemes, -, hlexes, hopens, hreads⟩ := h
  exact ⟨lexemes, hlexes, hopens.begins, hreads⟩

def IsList (text : String) (height : Nat) (trees : List Expr) : Prop :=
  ∃ arguments : List (List Lexeme × Expr), arguments.map Prod.snd = trees
    ∧ (∀ argument ∈ arguments, ReadsExpression height argument.1 argument.2)
    ∧ Splices text (commaList (arguments.map Prod.fst))

theorem isList_nil (height : Nat) : IsList "" height [] :=
  ⟨[], rfl, by simp, fun _ _ hmore _ => hmore⟩

theorem isList_single (h : IsValue text height tree) : IsList text (height + 1) [tree] := by
  obtain ⟨lexemes, hlexes, hbegins, hreads⟩ := h
  refine ⟨[(lexemes, tree)], rfl, ?_, ?_⟩
  · exact forall_mem_singleton.mpr ⟨hbegins, reads_expression_unary hreads⟩
  · intro rest more hmore hrest
    simpa [commaList_singleton] using hlexes _ _ hmore hrest

theorem splices_intercalate {α : Type} {items : List α} {text : α → String} {lexemes : α → List Lexeme}
    (h : ∀ a ∈ items, Splices (text a) (lexemes a))
    : Splices (", ".intercalate (items.map text)) (commaList (items.map lexemes)) := by
  induction items with
  | nil => exact fun _ _ hmore _ => hmore
  | cons a items ih =>
    rw [forall_mem_cons] at h
    intro rest more hmore hrest
    cases items with
    | nil => simpa [commaList_singleton] using h.1 _ _ hmore hrest
    | cons b items =>
      have := h.1 _ _ ((ih h.2 _ _ hmore hrest).space.single comma_mem) rfl
      simpa [commaList_cons_cons] using this

theorem Code.isValue {code : Code} (h : code.Fits ∧ code.height ≤ height) : IsValue code.text height code.tree :=
  ((code.isOperand h.1).mono h.2).isValue

theorem isList_intercalate {codes : List Code} (h : ∀ code ∈ codes, code.Fits ∧ code.height ≤ height)
    : IsList (", ".intercalate (codes.map Code.text)) (height + 1) (codes.map Code.tree) := by
  choose! lexemes hlexes hbegins hreads using fun (code : Code) (h : code.Fits ∧ code.height ≤ height) => Code.isValue h
  refine ⟨codes.map fun code => (lexemes code, code.tree), by simp, ?_, ?_⟩
  · intro argument hmem
    obtain ⟨code, hcode, rfl⟩ := mem_map.mp hmem
    exact ⟨hbegins code (h code hcode), reads_expression_unary (hreads code (h code hcode))⟩
  · simpa [Function.comp_def] using splices_intercalate fun code hcode => hlexes code (h code hcode)

theorem isValue_record {fields : List (String × Code)} (hnames : ∀ field ∈ fields, IsWord field.1)
    (hcodes : ∀ field ∈ fields, field.2.Fits ∧ field.2.height ≤ height)
    : IsValue ("\x7b " ++ ", ".intercalate (fields.map fun (name, value) => name ++ ": " ++ value.text)
          ++ " \x7d")
        (height + 1) (.object (fields.map fun field => (field.1, field.2.tree))) := by
  choose! lexemes hlexes hbegins hreads using fun (code : Code) (h : code.Fits ∧ code.height ≤ height) => Code.isValue h
  have hentries : ∀ entry ∈ fields.map fun field => (field.1, lexemes field.2, field.2.tree),
      ReadsExpression (height + 1) entry.2.1 entry.2.2 := by
    intro entry hmem
    obtain ⟨field, hfield, rfl⟩ := mem_map.mp hmem
    exact ⟨hbegins _ (hcodes field hfield), reads_expression_unary (hreads _ (hcodes field hfield))⟩
  have hreads := reads_primary_object (reads_fieldsAs (fun _ => takes_key) (fun _ => rfl) hentries)
  rw [map_map, map_map] at hreads
  have hopens : ∀ tail, Opens (.punct .braceOpen :: tail) :=
    fun tail => ⟨_, _, rfl, .inr (.inr (.inl rfl))⟩
  refine ⟨_, ?_, (hopens _).begins, reads_unary_primary (hopens _) hreads⟩
  intro rest more hmore _
  have hclose := (hmore.single braceClose_mem).space
  have hfield : ∀ field ∈ fields,
      Splices (field.1 ++ ": " ++ field.2.text) (.word field.1 :: .punct .colon :: lexemes field.2) := by
    intro field hfield rest more hmore hrest
    have hvalue := hlexes _ (hcodes field hfield) _ _ hmore hrest
    have := (hvalue.space.single colon_mem).word (hnames field hfield) rfl
    simpa using this
  have hfields := splices_intercalate hfield _ _ hclose rfl
  have := hfields.space.single braceOpen_mem
  simpa [Function.comp_def, fieldLexemesAs] using this

def IsPhrase (word text : String) (height : Nat) (tree : Expr) : Prop :=
  ∃ tail, Splices text (.word word :: tail) ∧ Reads unary 1 height (.word word :: tail) Halts tree

theorem IsPhrase.isValue {word : String} (h : IsPhrase word text height tree) : IsValue text height tree := by
  obtain ⟨tail, hlexes, hreads⟩ := h
  exact ⟨_, hlexes, begins_word _ _, hreads⟩

theorem isPhrase_call {trees : List Expr} (hfunction : IsName function) (h : IsList text height trees)
    : IsPhrase function (function ++ "(" ++ text ++ ")") height (.call (.identifier function) trees) := by
  obtain ⟨arguments, rfl, harguments, hlexes⟩ := h
  refine ⟨_, ?_, reads_unary_name hfunction.notKeyword (reads_accesses_call (reads_items (by decide) harguments)
    (reads_accesses_nil _))⟩
  intro rest more hmore _
  have := lexes_call (hlexes _ _ (hmore.single parenClose_mem) rfl) hfunction.word
  simpa using this

theorem isPhrase_methodCall {trees : List Expr} (hobject : IsName object) {method : String}
    (hmethod : IsWord method) (h : IsList text height trees)
    : IsPhrase object (object ++ "." ++ method ++ "(" ++ text ++ ")") height
        (.call (.member (.identifier object) method) trees) := by
  obtain ⟨arguments, rfl, harguments, hlexes⟩ := h
  refine ⟨_, ?_, reads_methodCall method arguments hobject.notKeyword harguments⟩
  intro rest more hmore _
  have := lexes_methodCall (hlexes _ _ (hmore.single parenClose_mem) rfl) hobject.word hmethod
  simpa using this

theorem isPhrase_await (h : IsValue text height tree)
    : IsPhrase "await" ("await " ++ text) (height + 1) (.await tree) := by
  obtain ⟨lexemes, hlexes, -, hreads⟩ := h
  refine ⟨lexemes, ?_, reads_unary_await hreads⟩
  intro rest more hmore hrest
  have := (hlexes _ _ hmore hrest).space.word (show IsWord "await" by decide) rfl
  simpa using this

def IsStatement (text : String) (height : Nat) (stmt : Stmt) : Prop :=
  ∃ lexemes, (∀ rest more, Lexes rest more → Lexes (text.toList ++ rest) (lexemes ++ more))
    ∧ ReadsStatement height lexemes stmt

theorem isStatement_expr {word : String} (hword : StartsSimple word) (h : IsPhrase word text height tree)
    : IsStatement (text ++ ";") (height + 2) (.expr tree) := by
  obtain ⟨tail, hlexes, hreads⟩ := h
  refine ⟨_, ?_, readsStatement_expr hword hreads⟩
  intro rest more hmore
  have := hlexes _ _ (hmore.single semicolon_mem) rfl
  simpa using this

theorem isStatement_bind {fresh : Bool} (hname : IsName name) (h : IsValue text height value)
    : IsStatement (declaration fresh ++ name ++ " = " ++ text ++ ";") (height + 2) (bindTree fresh name value) := by
  obtain ⟨lexemes, hlexes, -, hreads⟩ := h
  have hassign : ∀ rest more, Lexes rest more → Lexes (name.toList ++ ' ' :: '=' :: ' ' :: (text.toList ++ ';' :: rest))
        (.word name :: .punct .assign :: (lexemes ++ .punct .semicolon :: more)) := by
    intro rest more hmore
    have hvalue := hlexes _ _ (hmore.single semicolon_mem) rfl
    exact (hvalue.spaced .assign).space.word hname.word rfl
  cases fresh with
  | false =>
    refine ⟨_, ?_, readsStatement_assign hname.notKeyword (fun _ => rfl)
      (reads_unary_name hname.notKeyword (reads_accesses_nil _)) hreads⟩
    intro rest more hmore
    simpa [declaration] using hassign _ _ hmore
  | true =>
    refine ⟨_, ?_, readsStatement_declaration (reads_declaration hname.notKeyword (reads_expression_unary hreads))⟩
    intro rest more hmore
    have := (hassign _ _ hmore).space.word (show IsWord "let" by decide) rfl
    simpa [declaration] using this

theorem isStatement_store {array text' : String} {index : Expr} (harray : IsName array)
    (hindex : IsValue text height index) (hvalue : IsValue text' height value)
    : IsStatement (array ++ "[" ++ text ++ "] = " ++ text' ++ ";") (height + 3)
        (.assign (.element array index) .assign value) := by
  obtain ⟨lexemes, hlexes, -, hreads⟩ := hindex
  obtain ⟨lexemes', hlexes', -, hreads'⟩ := hvalue
  have hleft := reads_unary_name harray.notKeyword
    (reads_accesses_index (reads_expression_unary hreads) (reads_accesses_nil _))
  refine ⟨_, ?_, readsStatement_assign harray.notKeyword (fun _ => rfl) hleft (hreads'.mono (Nat.le_succ height))⟩
  intro rest more hmore
  have hvalue := hlexes' _ _ (hmore.single semicolon_mem) rfl
  have hclose := (hvalue.spaced .assign).space.single bracketClose_mem
  have hopen := (hlexes _ _ hclose rfl).single bracketOpen_mem
  have := hopen.word harray.word rfl
  simpa [Punct.text] using this

theorem isStatement_returnNothing : IsStatement "return;" 1 (.returnValue none) := by
  refine ⟨[.word "return", .punct .semicolon], ?_, ?_⟩
  · intro rest more hmore
    exact (hmore.single semicolon_mem).word (show IsWord "return" by decide) rfl
  · have hvalue : ∀ (fits : Prop) bound depth, 16 * ([] : List Lexeme).length + 9 ≤ bound
        → (fits → depth + 0 ≤ Script.maxNesting)
        → Takes fits (returned bound depth) [] (· = some (.punct .semicolon)) none :=
      fun _ _ _ _ _ => takes_returned_none
    exact readsStatement_return hvalue

theorem isStatement_return (h : IsValue text height value)
    : IsStatement ("return " ++ text ++ ";") (height + 2) (.returnValue (some value)) := by
  obtain ⟨lexemes, hlexes, hbegins, hreads⟩ := h
  refine ⟨_, ?_, readsStatement_return fun fits bound depth hbound hdepth =>
    (takes_returned_some hbegins (reads_expression_unary hreads fits bound depth hbound hdepth)).weaken ?_⟩
  · intro rest more hmore
    have := (hlexes _ _ (hmore.single semicolon_mem) rfl).space.word (show IsWord "return" by decide) rfl
    simpa using this
  · rintro _ rfl
    exact haltsAt_of_mem_closers (by decide) 0

theorem isStatement_break : IsStatement "break;" 1 .breakLoop := by
  refine ⟨_, ?_, readsStatement_break⟩
  intro rest more hmore
  exact (hmore.single semicolon_mem).word (show IsWord "break" by decide) rfl

theorem isStatement_continue : IsStatement "continue;" 1 .continueLoop := by
  refine ⟨_, ?_, readsStatement_continue⟩
  intro rest more hmore
  exact (hmore.single semicolon_mem).word (show IsWord "continue" by decide) rfl

theorem IsStatement.congr {text' : String} (h : IsStatement text height stmt) (htext : text.toList = text'.toList)
    (hheight : height ≤ height') : IsStatement text' height' stmt := by
  obtain ⟨lexemes, hlexes, hreads⟩ := h
  rw [htext] at hlexes
  exact ⟨lexemes, hlexes, hreads.mono hheight⟩

def globalNames : List String :=
  ["console", "parseFloat", "prompt", "__onNode", "__onVar"]

theorem isName_of_mem_globalNames (h : name ∈ globalNames) : IsName name := by
  have : ∀ name ∈ globalNames, IsWord name ∧ isKeyword name = false := by decide
  exact ⟨(this name h).1, (this name h).2⟩

theorem Line.isStatement {line : Line} (h : line.Fits (Code.Within height)) (htree : line.tree? = some stmt)
    : IsStatement line.text (height + 5) stmt := by
  obtain ⟨hcodes, hnames, -⟩ := h
  have hawait : StartsSimple "await" := by
    unfold StartsSimple
    decide
  have hsimple : ∀ {name}, IsName name → StartsSimple name :=
    fun hname => startsSimple_of_not_keyword hname.notKeyword
  cases line with
  | enter node =>
    cases htree
    have hname : IsName "__onNode" := isName_of_mem_globalNames (by decide)
    have hcall := isPhrase_call hname (isList_single (isOperand_quote node).isValue)
    change IsStatement ("await __onNode(" ++ quote node ++ ");") _ _
    exact (isStatement_expr hawait (isPhrase_await hcall.isValue)).congr (by simp) (by omega)
  | notify name =>
    cases htree
    have hname : IsName name := hnames name (mem_singleton_self _)
    have hvar : IsName "__onVar" := isName_of_mem_globalNames (by decide)
    have hcodes : ∀ code ∈ [Code.quoted name, .ident name], code.Fits ∧ code.height ≤ 0 := by
      simp [Code.Fits, Code.height, hname]
    have harguments : IsList (", ".intercalate [quote name, name]) 1 [.str name, .identifier name] :=
      isList_intercalate hcodes
    change IsStatement ("__onVar(" ++ quote name ++ ", " ++ name ++ ");") _ _
    exact (isStatement_expr (hsimple hvar) (isPhrase_call hvar harguments)).congr (by simp) (by omega)
  | assign fresh name value =>
    cases htree
    have hname : IsName name := hnames name (mem_singleton_self _)
    have hvalue := Code.isValue (hcodes value (mem_singleton_self _))
    exact (isStatement_bind hname hvalue).congr rfl (by omega)
  | ask fresh name message =>
    cases htree
    have hname : IsName name := hnames name (mem_singleton_self _)
    have hprompt : IsName "prompt" := isName_of_mem_globalNames (by decide)
    have hfloat : IsName "parseFloat" := isName_of_mem_globalNames (by decide)
    have hmessage := Code.isValue (hcodes message (mem_singleton_self _))
    have hanswer := isPhrase_await (isPhrase_call hprompt (isList_single hmessage)).isValue
    have hvalue := isPhrase_call hfloat (isList_single hanswer.isValue)
    change IsStatement (declaration fresh ++ name ++ " = parseFloat(await prompt(" ++ message.text ++ "));") _ _
    exact (isStatement_bind hname hvalue.isValue).congr (by simp) (by omega)
  | print value =>
    cases htree
    have hconsole : IsName "console" := isName_of_mem_globalNames (by decide)
    have hvalue := Code.isValue (hcodes value (mem_singleton_self _))
    have hcall := isPhrase_methodCall hconsole (show IsWord "log" by decide) (isList_single hvalue)
    change IsStatement ("console.log(" ++ value.text ++ ");") _ _
    exact (isStatement_expr (hsimple hconsole) hcall).congr (by simp) (by omega)
  | breakLoop =>
    cases htree
    exact isStatement_break.congr rfl (by omega)
  | continueLoop =>
    cases htree
    exact isStatement_continue.congr rfl (by omega)
  | push array value =>
    cases htree
    have harray : IsName array := hnames array (mem_singleton_self _)
    have hvalue := Code.isValue (hcodes value (mem_singleton_self _))
    have hcall := isPhrase_methodCall harray (show IsWord "push" by decide) (isList_single hvalue)
    change IsStatement (array ++ ".push(" ++ value.text ++ ");") _ _
    exact (isStatement_expr (hsimple harray) hcall).congr (by simp) (by omega)
  | pop temporary array =>
    cases htree
    have htemporary : IsName temporary := hnames temporary (by simp [Line.names])
    have harray : IsName array := hnames array (by simp [Line.names])
    have hcall := isPhrase_methodCall harray (show IsWord "pop" by decide) (isList_nil 0)
    change IsStatement ("let " ++ temporary ++ " = " ++ array ++ ".pop();") _ (bindTree true _ _)
    exact (isStatement_bind htemporary hcall.isValue).congr (by simp [declaration]) (by omega)
  | store array index value =>
    cases htree
    have harray : IsName array := hnames array (mem_singleton_self _)
    have hindex := Code.isValue (hcodes index (by simp [Line.codes]))
    have hvalue := Code.isValue (hcodes value (by simp [Line.codes]))
    exact (isStatement_store harray hindex hvalue).congr rfl (by omega)
  | returnNothing =>
    cases htree
    exact isStatement_returnNothing.congr rfl (by omega)
  | returnValue value =>
    cases htree
    have hvalue := Code.isValue (hcodes value (mem_singleton_self _))
    exact (isStatement_return hvalue).congr rfl (by omega)
  | returnRecord fields =>
    cases htree
    have hrecord : IsValue _ (height + 1) _ := isValue_record
      (fun field hfield => (hnames field.1 (mem_map_of_mem hfield)).word)
      (fun field hfield => hcodes field.2 (mem_map_of_mem hfield))
    change IsStatement ("return \x7b " ++ ", ".intercalate
      (fields.map fun (name, value) => name ++ ": " ++ value.text) ++ " \x7d;") _ _
    exact (isStatement_return hrecord).congr (by simp) (by omega)
  | call temporary function arguments =>
    cases htree
    have hfunction : IsName function := hnames function (by simp [Line.names])
    have harguments : ∀ code ∈ arguments, Code.Within height code := hcodes
    have hcall := isPhrase_await (isPhrase_call hfunction (isList_intercalate harguments)).isValue
    cases temporary with
    | none =>
      change IsStatement ("" ++ "await " ++ function ++ "(" ++ ", ".intercalate (arguments.map Code.text) ++ ");") _ _
      exact (isStatement_expr hawait hcall).congr (by simp) (by omega)
    | some name =>
      have hname : IsName name := hnames name (by simp [Line.names])
      change IsStatement ("let " ++ name ++ " = " ++ "await " ++ function ++ "(" ++ ", ".intercalate
        (arguments.map Code.text) ++ ");") _ (bindTree true _ _)
      exact (isStatement_bind hname hcall.isValue).congr (by simp [declaration]) (by omega)
  | unknownFunction id | nestingTooDeep => exact nomatch htree

def linesText (lines : List String) : List Char :=
  lines.flatMap fun line => '\n' :: line.toList

theorem endsLine_linesText (lines : List String) (hrest : EndsLine rest) : EndsLine (linesText lines ++ rest) := by
  cases lines with
  | nil => exact hrest
  | cons line lines => exact .inr ⟨_, rfl⟩

def IsBlock (lines : List String) (height : Nat) (stmts : List Stmt) : Prop :=
  ∃ parts : List (List Lexeme × Stmt), parts.map Prod.snd = stmts
    ∧ (∀ part ∈ parts, ReadsStatement height part.1 part.2)
    ∧ ∀ rest more, Lexes rest more → EndsLine rest
        → Lexes (linesText lines ++ rest) ((parts.map Prod.fst).flatten ++ more)

namespace IsBlock

theorem nil : IsBlock [] height [] :=
  ⟨[], rfl, by simp, fun _ _ hmore _ => hmore⟩

theorem append (h : IsBlock lines height stmts) (h' : IsBlock lines' height stmts')
    : IsBlock (lines ++ lines') height (stmts ++ stmts') := by
  obtain ⟨parts, rfl, hreads, hlexes⟩ := h
  obtain ⟨parts', rfl, hreads', hlexes'⟩ := h'
  refine ⟨parts ++ parts', by simp, ?_, ?_⟩
  · intro part hmem
    exact (mem_append.mp hmem).elim (hreads part) (hreads' part)
  · intro rest more hmore hrest
    have := hlexes _ _ (hlexes' _ _ hmore hrest) (endsLine_linesText _ hrest)
    simpa [linesText] using this

theorem single (hreads : ReadsStatement height lexemes stmt)
    (hlexes : ∀ rest more, Lexes rest more → EndsLine rest → Lexes (linesText lines ++ rest) (lexemes ++ more))
    : IsBlock lines height [stmt] := by
  refine ⟨[(lexemes, stmt)], rfl, forall_mem_singleton.mpr hreads, ?_⟩
  intro rest more hmore hrest
  simpa using hlexes _ _ hmore hrest

end IsBlock

theorem toList_pushn (text : String) (c : Char) (n : Nat)
    : (text.pushn c n).toList = text.toList ++ List.replicate n c := by
  induction n with
  | zero => simp [String.pushn, Nat.repeat]
  | succ n ih =>
    rw [replicate_succ', ← append_assoc, ← ih]
    exact String.toList_push c

theorem lexes_indented (depth : Nat) (text : String) (h : Lexes (text.toList ++ rest) lexemes)
    : Lexes (linesText [indented depth text] ++ rest) lexemes := by
  have htext : linesText [indented depth text] ++ rest
      = '\n' :: (List.replicate (2 * depth) ' ' ++ (text.toList ++ rest)) := by
    simp [linesText, indented, toList_pushn]
  rw [htext]
  exact (h.spaces _).lineBreak

theorem lexes_line (depth : Nat) {chars : List Char} (h : Lexes chars lexemes) (hchars : text.toList ++ rest = chars)
    : Lexes (linesText [indented depth text] ++ rest) lexemes :=
  lexes_indented depth text (hchars ▸ h)

theorem isBlock_comment (depth : Nat) {comment : List Char}
    (htext : text.toList = '/' :: '/' :: comment) (hbreak : '\n' ∉ comment)
    : IsBlock [indented depth text] height [] := by
  refine ⟨[], rfl, by simp, ?_⟩
  intro rest more hmore hrest
  apply lexes_indented
  rw [htext]
  exact hmore.comment hrest hbreak

theorem Line.isBlock (depth : Nat) {line : Line} (h : line.Fits (Code.Within height))
    : IsBlock [indented depth line.text] (height + 5) line.tree?.toList := by
  cases htree : line.tree? with
  | some stmt =>
    obtain ⟨lexemes, hlexes, hreads⟩ := Line.isStatement h htree
    apply IsBlock.single hreads
    intro rest more hmore _
    exact lexes_indented _ _ (hlexes _ _ hmore)
  | none =>
    -- Only comments are no statements.
    have hcomment : ∃ comment, line.text.toList = '/' :: '/' :: comment ∧ '\n' ∉ comment := by
      cases line with
      | unknownFunction id =>
        have hid := h.comment id rfl
        refine ⟨" Error: function '".toList ++ id.toList ++ "' not found".toList, ?_, ?_⟩
        · change ("// Error: function '" ++ id ++ "' not found").toList = _
          simp
        · simp [hid]
      | nestingTooDeep =>
        refine ⟨" Error: control flow nested too deeply".toList, ?_, ?_⟩
        · rfl
        · decide
      | _ => exact nomatch htree
    obtain ⟨comment, htext, hbreak⟩ := hcomment
    exact isBlock_comment depth htext hbreak

theorem linesText_append (lines lines' : List String)
    : linesText (lines ++ lines') = linesText lines ++ linesText lines' :=
  flatMap_append

theorem lexes_body (depth : Nat) (text : String) {parts : List (List Lexeme × Stmt)}
    (hlexes : ∀ rest more, Lexes rest more → EndsLine rest
      → Lexes (linesText lines ++ rest) ((parts.map Prod.fst).flatten ++ more))
    (hmore : Lexes (text.toList ++ rest) (.punct .braceClose :: more))
    : Lexes ('{' :: (linesText lines ++ (linesText [indented depth text] ++ rest)))
        (blockLexemes (parts.map Prod.fst) ++ more) := by
  have hend := lexes_indented depth text hmore
  have := (hlexes _ _ hend (.inr ⟨_, rfl⟩)).single braceOpen_mem
  simpa [blockLexemes] using this

theorem isBlock_if (depth : Nat) {cond : Code} (hcond : Code.Within height cond)
    (hheight : height + 1 ≤ height') (h : IsBlock lines height' stmts) (h' : IsBlock lines' height' stmts')
    : IsBlock ([indented depth ("if (" ++ cond.text ++ ") \x7b")] ++ lines
          ++ [indented depth "\x7d else \x7b"] ++ lines' ++ [indented depth "\x7d"])
        (height' + 1) [.ifElse cond.tree stmts (some stmts')] := by
  obtain ⟨parts, rfl, hreads, hlexes⟩ := h
  obtain ⟨parts', rfl, hreads', hlexes'⟩ := h'
  obtain ⟨lexemes, hlexesTest, -, hreadsTest⟩ := Code.isValue hcond
  apply IsBlock.single (readsStatement_if ((reads_expression_unary hreadsTest).mono hheight) hreads hreads')
  intro rest more hmore _
  have helse := lexes_body depth "\x7d" hlexes' (hmore.single braceClose_mem)
  have hmiddle : Lexes ("\x7d else \x7b".toList ++ _) (.punct .braceClose :: .word "else" :: _) :=
    (helse.space.word (show IsWord "else" by decide) rfl).space.single braceClose_mem
  have hthen := lexes_body depth "\x7d else \x7b" hlexes hmiddle
  have htest := hlexesTest _ _ (hthen.space.single parenClose_mem) rfl
  have hhead := (htest.single parenOpen_mem).space.word (show IsWord "if" by decide) rfl
  simp only [linesText_append]
  simp only [append_assoc, cons_append]
  refine lexes_line depth hhead ?_
  simp

theorem isBlock_while (depth : Nat) {cond : Code}
    (hcond : Code.Within height cond) (hheight : height + 1 ≤ height') (h : IsBlock lines height' stmts)
    : IsBlock ([indented depth ("while (" ++ cond.text ++ ") \x7b")] ++ lines ++ [indented depth "\x7d"])
        (height' + 1) [.whileLoop cond.tree stmts] := by
  obtain ⟨parts, rfl, hreads, hlexes⟩ := h
  obtain ⟨lexemes, hlexesTest, -, hreadsTest⟩ := Code.isValue hcond
  apply IsBlock.single (readsStatement_while ((reads_expression_unary hreadsTest).mono hheight) hreads)
  intro rest more hmore _
  have hbody := lexes_body depth "\x7d" hlexes (hmore.single braceClose_mem)
  have htest := hlexesTest _ _ (hbody.space.single parenClose_mem) rfl
  have hhead := (htest.single parenOpen_mem).space.word (show IsWord "while" by decide) rfl
  simp only [linesText_append]
  simp only [append_assoc, cons_append]
  refine lexes_line depth hhead ?_
  simp

theorem isBlock_for (depth : Nat) {start limit step : Code}
    (hname : IsName name) (hstart : Code.Within height start) (hlimit : Code.Within height limit)
    (hstep : Code.Within height step) (hheight : height ≤ height') (h : IsBlock lines (height' + 1) stmts)
    : IsBlock
        ([indented depth ("for (let " ++ name ++ " = " ++ start.text ++ "; " ++ name ++ " < "
            ++ limit.text ++ "; " ++ name ++ " += " ++ step.text ++ ") \x7b")] ++ lines
          ++ [indented depth "\x7d"])
        (height' + 2)
        [.forLoop (some (.declare name (some start.tree))) (some (.binary .less (.identifier name) limit.tree))
          (some (.assign (.variable name) .add step.tree)) stmts] := by
  obtain ⟨parts, rfl, hreads, hlexes⟩ := h
  obtain ⟨first, hlexesFirst, -, hreadsFirst⟩ := Code.isValue hstart
  obtain ⟨second, hlexesSecond, -, hreadsSecond⟩ := Code.isValue hlimit
  obtain ⟨third, hlexesThird, -, hreadsThird⟩ := Code.isValue hstep
  apply IsBlock.single (readsStatement_for hname.notKeyword (hreadsFirst.mono hheight)
    (hreadsSecond.mono hheight) (hreadsThird.mono hheight) hreads)
  intro rest more hmore _
  have hbody := lexes_body depth "\x7d" hlexes (hmore.single braceClose_mem)
  have hstep := hlexesThird _ _ (hbody.space.single parenClose_mem) rfl
  have hupdate := ((hstep.spaced .plusAssign).space.word hname.word rfl).space.single semicolon_mem
  have hlimit := hlexesSecond _ _ hupdate rfl
  have htest := ((hlimit.spaced .less).space.word hname.word rfl).space.single semicolon_mem
  have hstart := hlexesFirst _ _ htest rfl
  have hdeclare := ((hstart.spaced .assign).space.word hname.word rfl).space.word (show IsWord "let" by decide) rfl
  have hhead := (hdeclare.single parenOpen_mem).space.word (show IsWord "for" by decide) rfl
  simp only [linesText_append]
  simp only [append_assoc, cons_append]
  refine lexes_line depth hhead ?_
  simp [Punct.text]

theorem IsBlock.mono (h : IsBlock lines height stmts) (hheight : height ≤ height') : IsBlock lines height' stmts := by
  obtain ⟨parts, hstmts, hreads, hlexes⟩ := h
  exact ⟨parts, hstmts, fun part hmem => (hreads part hmem).mono hheight, hlexes⟩

mutual

theorem Item.isBlock : ∀ {item : Item} {room : Nat} (depth : Nat), item.Fits (Code.Within height) room
        → IsBlock (item.lines depth) (room + height + 5) item.trees
  | .line line, room, depth, h => by
    have hline : line.Fits (Code.Within height) := by
      cases room <;> exact h
    exact (Line.isBlock depth hline).mono (by omega)
  | .ifElse cond thenItems elseItems, room + 1, depth, ⟨hcond, hthen, helse⟩ => by
    have := isBlock_if depth hcond (by omega) (isBlock_linesOf (depth + 1) hthen)
      (isBlock_linesOf (depth + 1) helse)
    rw [show room + 1 + height + 5 = room + height + 5 + 1 by omega]
    exact this
  | .whileLoop cond body, room + 1, depth, ⟨hcond, hbody⟩ => by
    have := isBlock_while depth hcond (by omega) (isBlock_linesOf (depth + 1) hbody)
    rw [show room + 1 + height + 5 = room + height + 5 + 1 by omega]
    exact this
  | .forLoop name start limit step body, room + 1, depth, ⟨hname, hstart, hlimit, hstep, hbody⟩ => by
    have := isBlock_for depth hname hstart hlimit hstep (show height ≤ room + height + 4 by omega)
      (isBlock_linesOf (depth + 1) hbody)
    rw [show room + 1 + height + 5 = room + height + 4 + 2 by omega]
    exact this

theorem isBlock_linesOf : ∀ {items : List Item} {room : Nat} (depth : Nat), FitsAll (Code.Within height) room items
        → IsBlock (linesOf depth items) (room + height + 5) (treesOf items)
  | [], _, _, _ => .nil
  | _ :: _, _, depth, h => (Item.isBlock depth h.1).append (isBlock_linesOf depth h.2)

end

namespace IsBlock

open List

theorem congr (h : IsBlock lines height stmts) (htext : linesText lines' = linesText lines)
    : IsBlock lines' height stmts := by
  unfold IsBlock
  rwa [htext]

theorem blank (h : IsBlock lines height stmts) : IsBlock ("" :: lines) height stmts := by
  obtain ⟨parts, hstmts, hreads, hlexes⟩ := h
  exact ⟨parts, hstmts, hreads, fun rest more hmore hrest => (hlexes _ _ hmore hrest).lineBreak⟩

theorem intercalate (h : IsBlock lines height stmts) : IsBlock ["\n".intercalate lines] height stmts := by
  cases lines with
  | nil => exact h.blank
  | cons line lines =>
    apply h.congr
    clear h
    induction lines generalizing line with
    | nil => simp [linesText]
    | cons line' lines ih =>
      specialize ih line'
      simp only [linesText, flatMap_cons, flatMap_nil, append_nil] at ih
      simp [linesText, ← ih]

theorem paragraphs {parts : List (String × List Stmt)} (h : ∀ part ∈ parts, IsBlock [part.1] height part.2)
    : IsBlock ["\n\n".intercalate (parts.map Prod.fst)] height (parts.flatMap Prod.snd) := by
  induction parts with
  | nil => exact nil.blank
  | cons part parts ih =>
    have hfirst := h part (mem_cons_self ..)
    specialize ih fun part hpart => h part (mem_cons_of_mem _ hpart)
    cases parts with
    | nil => simpa using hfirst
    | cons part' parts =>
      apply (hfirst.append ih.blank).congr
      simp [linesText]

end IsBlock

theorem isBlock_function {room : Nat} {sig : Signature} (hnamed : sig.Named)
    {items : List Item} (h : FitsAll (Code.Within height) room items)
    : IsBlock [Job.functionText sig items] (room + height + 6) [Job.functionTree sig items] := by
  obtain ⟨parts, hstmts, hreads, hlexes⟩ := isBlock_linesOf 1 h
  unfold Job.functionText Job.functionTree
  apply IsBlock.intercalate
  rw [← hstmts]
  apply IsBlock.single (readsStatement_function hnamed.name.notKeyword
    (fun param hparam => (hnamed.params param hparam).notKeyword) hreads)
  intro rest more hmore _
  have hbody := lexes_body 0 "\x7d" hlexes (hmore.single braceClose_mem)
  have hwords : ∀ param ∈ sig.params, Splices (id param) [.word param] :=
    fun param hparam _ _ hmore hrest => hmore.word (hnamed.params param hparam).word hrest.endsWord
  have hparams := splices_intercalate hwords _ _ (hbody.space.single parenClose_mem) rfl
  have hname := (hparams.single parenOpen_mem).word hnamed.name.word rfl
  have hhead := (hname.space.word (show IsWord "function" by decide) rfl).space.word
    (show IsWord "async" by decide) rfl
  simpa [linesText, indented, String.pushn, Nat.repeat] using hhead.lineBreak

theorem IsBlock.scanned (h : IsBlock [text] height stmts)
    : ∃ (parts : List (List Lexeme × Stmt)) (stream : TokenStream), parts.map Prod.snd = stmts
        ∧ (∀ part ∈ parts, ReadsStatement height part.1 part.2)
        ∧ stream.tokens.map Token.lexeme = (parts.map Prod.fst).flatten
        ∧ Program.parse text = Program.ofTokens stream := by
  obtain ⟨parts, hstmts, hreads, hlexes⟩ := h
  have htext := hlexes [] [] .nil (.inl rfl)
  simp only [linesText, flatMap_cons, flatMap_nil, append_nil] at htext
  obtain ⟨stream, hstream, hlexemes⟩ := htext.scan
  refine ⟨parts, stream, hstmts, hreads, hlexemes, ?_⟩
  unfold Program.parse
  rw [hstream]
  rfl

theorem Program.parse_of_isBlock (h : IsBlock [text] height stmts) (hheight : height ≤ Script.maxNesting)
    : Program.parse text = .ok ⟨stmts⟩ := by
  obtain ⟨parts, stream, rfl, hreads, hlexemes, hparse⟩ := h.scanned
  rw [hparse]
  exact Program.ofTokens_of_readsStatement hreads hlexemes hheight

theorem Program.eq_of_parse_of_isBlock (h : IsBlock [text] height stmts)
    {program : Program} (hprogram : Program.parse text = .ok program)
    : program = ⟨stmts⟩ := by
  obtain ⟨parts, stream, rfl, hreads, hlexemes, hparse⟩ := h.scanned
  rw [hparse] at hprogram
  exact Program.eq_of_ofTokens hreads hlexemes hprogram

theorem Job.isBlock_programText {room : Nat} {functions : List (Signature × List Item)}
    (hfunctions : ∀ function ∈ functions, function.1.Named ∧ FitsAll (Code.Within height) room function.2)
    {main : List Item} (hmain : FitsAll (Code.Within height) room main)
    : IsBlock [programText (functions.map fun function => functionText function.1 function.2) main]
        (room + height + 6)
        (functions.map (fun function => functionTree function.1 function.2) ++ treesOf main) := by
  have hparts : ∀ part ∈ functions.map fun function =>
      (functionText function.1 function.2, [functionTree function.1 function.2]),
      IsBlock [part.1] (room + height + 6) part.2 := by
    intro part hpart
    obtain ⟨function, hfunction, rfl⟩ := mem_map.mp hpart
    obtain ⟨hnamed, hfits⟩ := hfunctions function hfunction
    exact isBlock_function hnamed hfits
  unfold programText
  split
  next hempty =>
    obtain rfl : main = [] := by simp_all
    have := IsBlock.paragraphs hparts
    simpa [Function.comp_def, flatMap_map, treesOf, ← map_eq_flatMap] using this
  next hempty =>
    have hlast : ∀ part ∈ [("\n".intercalate (linesOf 0 main), treesOf main)],
        IsBlock [part.1] (room + height + 6) part.2 :=
      forall_mem_singleton.mpr ((isBlock_linesOf 0 hmain).mono (Nat.le_succ _)).intercalate
    have := IsBlock.paragraphs (forall_mem_append.mpr ⟨hparts, hlast⟩)
    simpa [Function.comp_def, flatMap_map, ← map_eq_flatMap] using this

end NodeScript.Compile
