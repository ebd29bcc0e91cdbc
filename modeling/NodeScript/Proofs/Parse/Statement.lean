import NodeScript.Proofs.Parse.Expression

/-!
What the rules for statements make of given lexemes.
-/

namespace NodeScript.Script.Parse

open List

variable {α β : Type} {height bound depth : Nat} {lexemes lexemes' : List Lexeme}
  {stmts : List (List Lexeme × Stmt)} {name word : String} {follow : Option Lexeme → Prop} {value left test : Expr}
  {mark : Punct} {stmt : Stmt} {place : Target} {lexeme : Lexeme} {params : List String}

theorem Reads.weaken {rule : Nat → Nat → Parse α} {slack : Nat} {follow' : Option Lexeme → Prop} {a : α}
    (h : Reads rule slack height lexemes follow a) (hfollow : ∀ next, follow' next → follow next)
    : Reads rule slack height lexemes follow' a :=
  fun fits bound depth hbound hdepth => (h fits bound depth hbound hdepth).weaken hfollow

theorem Takes.map {rule : Parse α} {a : α} (h : Takes fits rule lexemes follow a) (f : α → β)
    : Takes fits (f <$> rule) lexemes follow (f a) := by
  rw [map_eq_pure_bind]
  exact .last h .pure

def partEnds : List Punct := [.semicolon, .parenClose]

theorem haltsAt_of_mem_partEnds (h : mark ∈ partEnds) : HaltsAt 0 (some (.punct mark)) :=
  haltsAt_of_mem_closers (by revert h; cases mark <;> decide) 0

theorem takes_simpleStatement_expr {tree : Expr} (h : Takes fits (expression bound depth) lexemes (HaltsAt 0) tree)
    (hmark : mark ∈ partEnds)
    : Takes fits (simpleStatement bound depth) lexemes (· = some (.punct mark)) (.expr tree) := by
  have hother : ∀ op ∈ [.plusPlus, .minusMinus, .assign, .plusAssign, .minusAssign],
      ∀ next, next = some (.punct mark) → isMark op (upcoming [] next) = false := by
    rintro op hop _ rfl
    rw [upcoming_nil, isMark, decide_eq_false_iff_not]
    rintro rfl
    revert hop hmark
    cases mark <;> decide
  unfold simpleStatement
  apply takes_line
  intro start
  rw [← append_nil lexemes]
  apply Takes.bind h
  · apply Takes.look (takes_eat_none _) (hother _ (by decide))
    apply Takes.look (takes_eat_none _) (hother _ (by decide))
    apply Takes.look (takes_eat_none _) (hother _ (by decide))
    apply Takes.look (takes_eat_none _) (hother _ (by decide))
    apply Takes.look (takes_eat_none _) (hother _ (by decide))
    exact .pure
  · rintro _ rfl
    exact haltsAt_of_mem_partEnds hmark

def assignMark : AssignOp → Punct
  | .assign => .assign | .add => .plusAssign | .subtract => .minusAssign

theorem takes_simpleStatement_assign (op : AssignOp) (hplace : ∀ start, target start left = Pure.pure place)
    (hleft : Takes fits (expression bound depth) lexemes (HaltsAt 0) left)
    (hvalue : Takes fits (expression bound depth) lexemes' (HaltsAt 0) value)
    : Takes fits (simpleStatement bound depth) (lexemes ++ .punct (assignMark op) :: lexemes') (HaltsAt 0)
        (.assign place op value) := by
  unfold simpleStatement
  apply takes_line
  intro start
  apply Takes.before (by cases op <;> decide) hleft
  apply Takes.look (takes_eat_none _) fun _ _ => by cases op <;> rfl
  apply Takes.look (takes_eat_none _) fun _ _ => by cases op <;> rfl
  have hrest : Takes fits (simpleStatement.assignment bound depth start left op) lexemes' (HaltsAt 0)
      (.assign place op value) := by
    unfold simpleStatement.assignment
    rw [hplace]
    exact .last hvalue .pure
  cases op with
  | assign => exact .cons (takes_eat _) hrest
  | add =>
    apply Takes.look (takes_eat_none _) fun _ _ => rfl
    exact .cons (takes_eat _) hrest
  | subtract =>
    apply Takes.look (takes_eat_none _) fun _ _ => rfl
    apply Takes.look (takes_eat_none _) fun _ _ => rfl
    exact .cons (takes_eat _) hrest

theorem takes_startsDeclaration (next : Option Lexeme) : Takes fits startsDeclaration [] (· = next)
        (isWord "let" next || isWord "const" next || isWord "var" next) := by
  have hword : ∀ word (next' : Option Lexeme), next' = next → isWord word (upcoming [] next') = isWord word next := by
    rintro word _ rfl
    rfl
  unfold startsDeclaration
  apply Takes.look (takes_checkWord "let" (isWord "let" next)) (hword _)
  apply Takes.look (takes_checkWord "const" (isWord "const" next)) (hword _)
  apply Takes.look (takes_checkWord "var" (isWord "var" next)) (hword _)
  exact .pure

theorem takes_declaration_none (hname : isKeyword name = false)
    : Takes fits (declaration bound depth) [.word "let", .word name] (· = some (.punct .semicolon))
        (.declare name none) := by
  unfold declaration
  apply Takes.cons (takes_skip _)
  apply Takes.cons (takes_identifier hname)
  apply Takes.look (takes_eat_none _)
  · rintro _ rfl
    rfl
  · exact .pure

theorem takes_condition {f : Expr → Parse β} {b : β}
    (htest : Takes fits (expression bound depth) lexemes (HaltsAt 0) test) (hf : Takes fits (f test) lexemes' follow b)
    : Takes fits (condition bound depth >>= f)
        (.punct .parenOpen :: (lexemes ++ .punct .parenClose :: lexemes')) follow b := by
  unfold condition
  rw [bind_assoc]
  apply Takes.cons (takes_expect _)
  rw [bind_assoc]
  apply Takes.before (by decide) htest
  rw [bind_assoc]
  apply Takes.cons (takes_expect _)
  rw [pure_bind]
  exact hf

section Kinds

variable {rest : List Token} {line endLine : Nat}

theorem statementKind_if : statementKind (bound + 1) depth ⟨⟨.word "if", line⟩ :: rest, endLine⟩
    = ifStatement bound depth ⟨rest, endLine⟩ := by
  rw [statementKind]
  rfl

theorem statementKind_while : statementKind (bound + 1) depth ⟨⟨.word "while", line⟩ :: rest, endLine⟩ = (do
      let test ← condition bound depth
      return .whileLoop test (← body bound depth) : Parse Stmt) ⟨rest, endLine⟩ := by
  rw [statementKind]
  rfl

theorem statementKind_for : statementKind (bound + 1) depth ⟨⟨.word "for", line⟩ :: rest, endLine⟩ = (do
      let head ← forHead bound depth
      return .forLoop head.1 head.2.1 head.2.2 (← body bound depth) : Parse Stmt) ⟨rest, endLine⟩ := by
  rw [statementKind]
  rfl

theorem statementKind_break : statementKind (bound + 1) depth ⟨⟨.word "break", line⟩ :: rest, endLine⟩
    = (do endStatement; return .breakLoop : Parse Stmt) ⟨rest, endLine⟩ := by
  rw [statementKind]
  rfl

theorem statementKind_continue : statementKind (bound + 1) depth ⟨⟨.word "continue", line⟩ :: rest, endLine⟩
    = (do endStatement; return .continueLoop : Parse Stmt) ⟨rest, endLine⟩ := by
  rw [statementKind]
  rfl

theorem statementKind_return : statementKind (bound + 1) depth ⟨⟨.word "return", line⟩ :: rest, endLine⟩ = (do
      let value ← returned bound depth
      endStatement
      return .returnValue value : Parse Stmt) ⟨rest, endLine⟩ := by
  rw [statementKind]
  rfl

end Kinds

def NoElse (next : Option Lexeme) : Prop :=
  isWord "else" next = false

def StartsStatement (lexeme : Lexeme) : Prop :=
  isMark .braceClose (some lexeme) = false ∧ NoElse (some lexeme)

theorem startsStatement_word (h : word ≠ "else") : StartsStatement (.word word) :=
  ⟨rfl, by simpa [NoElse, isWord] using h⟩

structure ReadsStatement (height : Nat) (lexemes : List Lexeme) (stmt : Stmt) : Prop where
  starts : ∃ lexeme tail, lexemes = lexeme :: tail ∧ StartsStatement lexeme
  reads : Reads statement 1 height lexemes NoElse stmt

abbrev ReadsAll (height : Nat) (stmts : List (List Lexeme × Stmt)) : Prop :=
  ∀ stmt ∈ stmts, ReadsStatement height stmt.1 stmt.2

theorem ReadsStatement.mono {height' : Nat} (h : ReadsStatement height lexemes stmt) (hheight : height ≤ height')
    : ReadsStatement height' lexemes stmt :=
  ⟨h.starts, h.reads.mono hheight⟩

def statementWords : List String :=
  ["let", "const", "var", "if", "else", "while", "for", "break", "continue", "return", "function",
   "async"]

def StartsSimple (word : String) : Prop :=
  ∀ special ∈ statementWords, word ≠ special

theorem ReadsStatement.of_kind (hstart : StartsStatement lexeme) (hfollow : ∀ next, NoElse next → follow next)
    (h : ∀ (fits : Prop) bound depth, 16 * lexemes.length + 14 ≤ bound → (fits → depth + height ≤ maxNesting)
      → Takes fits (statementKind (bound + 1) depth) (lexeme :: lexemes) follow stmt)
    : ReadsStatement (height + 1) (lexeme :: lexemes) stmt := by
  refine ⟨⟨_, _, rfl, hstart⟩, ?_⟩
  intro fits bound depth hbound hdepth
  rw [length_cons] at hbound
  obtain ⟨bound, rfl⟩ : ∃ b, bound = b + 2 := ⟨bound - 2, by omega⟩
  rw [statement]
  exact takes_nested hdepth fun hdepth => (h fits bound (depth + 1) (by omega) hdepth).weaken hfollow

structure StartsPlain (lexeme : Lexeme) : Prop where
  words : ∀ special ∈ statementWords, isWord special (some lexeme) = false
  marks : ∀ mark ∈ [.semicolon, .parenClose, .braceOpen, .braceClose], isMark mark (some lexeme) = false

theorem StartsSimple.startsPlain (h : StartsSimple word) : StartsPlain (.word word) where
  words := fun special hmem => by simpa [isWord] using h special hmem
  marks := fun _ _ => rfl

theorem readsStatement_simple (hstart : StartsPlain lexeme)
    (h : Reads simpleStatement 9 height (lexeme :: lexemes) (· = some (.punct .semicolon)) stmt)
    : ReadsStatement (height + 1) (lexeme :: (lexemes ++ [.punct .semicolon])) stmt := by
  obtain ⟨hnot, hmarks⟩ := hstart
  apply ReadsStatement.of_kind ⟨hmarks _ (by decide), hnot _ (by decide)⟩ fun _ _ => trivial
  intro fits bound depth hbound hdepth
  rw [length_append, length_singleton] at hbound
  rw [statementKind]
  apply Takes.look (takes_eat_none _) fun _ _ => hmarks _ (by decide)
  apply Takes.look (takes_check _ false) fun _ _ => hmarks _ (by decide)
  apply Takes.look (takes_startsDeclaration (some lexeme)) fun _ _ => rfl
  rw [hnot "let" (by decide), hnot "const" (by decide), hnot "var" (by decide)]
  apply Takes.look (takes_eatWord_none "if") fun _ _ => hnot _ (by decide)
  apply Takes.look (takes_eatWord_none "while") fun _ _ => hnot _ (by decide)
  apply Takes.look (takes_eatWord_none "for") fun _ _ => hnot _ (by decide)
  apply Takes.look (takes_eatWord_none "break") fun _ _ => hnot _ (by decide)
  apply Takes.look (takes_eatWord_none "continue") fun _ _ => hnot _ (by decide)
  apply Takes.look (takes_eatWord_none "return") fun _ _ => hnot _ (by decide)
  apply Takes.look (takes_checkWord "function" false) fun _ _ => hnot _ (by decide)
  apply Takes.look (takes_checkWord "async" false) fun _ _ => hnot _ (by decide)
  rw [← cons_append]
  apply Takes.bind (h fits bound depth (by rw [length_cons]; omega) hdepth)
  · exact .cons takes_endStatement .pure
  · intros
    rfl

theorem readsStatement_expr {tree : Expr} (hword : StartsSimple word)
    (h : Reads unary 1 height (.word word :: lexemes) Halts tree)
    : ReadsStatement (height + 2) (.word word :: (lexemes ++ [.punct .semicolon])) (.expr tree) := by
  apply readsStatement_simple hword.startsPlain
  intro fits bound depth hbound hdepth
  apply takes_simpleStatement_expr _ (by decide)
  exact reads_expression_unary h fits bound depth hbound hdepth

theorem startsSimple_of_not_keyword (h : isKeyword word = false) : StartsSimple word := by
  rintro special hmem rfl
  have : ∀ special ∈ statementWords, isKeyword special = true := by decide
  simp [this word hmem] at h

theorem haltsAt_of_eq (hmark : mark ∈ partEnds) (next : Option Lexeme) (h : next = some (.punct mark))
    : HaltsAt 0 next :=
  h ▸ haltsAt_of_mem_partEnds hmark

theorem reads_simpleStatement_assign (op : AssignOp) (hplace : ∀ start, target start left = Pure.pure place)
    (hleft : Reads expression 9 height lexemes (HaltsAt 0) left)
    (hvalue : Reads expression 9 height lexemes' (HaltsAt 0) value) (hmark : mark ∈ partEnds)
    : Reads simpleStatement 9 height (lexemes ++ .punct (assignMark op) :: lexemes')
        (· = some (.punct mark)) (.assign place op value) := by
  intro fits bound depth hbound hdepth
  rw [length_append, length_cons] at hbound
  have htakes := takes_simpleStatement_assign op hplace (hleft fits bound depth (by omega) hdepth)
    (hvalue fits bound depth (by omega) hdepth)
  exact htakes.weaken (haltsAt_of_eq hmark)

theorem readsStatement_assign (hword : isKeyword word = false) (hplace : ∀ start, target start left = Pure.pure place)
    (hleft : Reads unary 1 height (.word word :: lexemes) Halts left)
    (hvalue : Reads unary 1 height lexemes' Halts value)
    : ReadsStatement (height + 2) (.word word :: (lexemes ++ .punct .assign :: (lexemes' ++ [.punct .semicolon])))
        (.assign place .assign value) := by
  have hlist : lexemes ++ .punct .assign :: (lexemes' ++ [.punct .semicolon])
      = (lexemes ++ .punct .assign :: lexemes') ++ [.punct .semicolon] := by
    simp
  rw [hlist]
  apply readsStatement_simple (startsSimple_of_not_keyword hword).startsPlain
  exact reads_simpleStatement_assign .assign hplace (reads_expression_unary hleft)
    (reads_expression_unary hvalue) (by decide)

theorem readsStatement_declaration
    (h : Reads declaration 9 height (.word "let" :: lexemes) (· = some (.punct .semicolon)) stmt)
    : ReadsStatement (height + 1) (.word "let" :: (lexemes ++ [.punct .semicolon])) stmt := by
  apply ReadsStatement.of_kind (startsStatement_word (by decide)) fun _ _ => trivial
  intro fits bound depth hbound hdepth
  rw [length_append, length_singleton] at hbound
  rw [statementKind]
  apply Takes.look (takes_eat_none _) fun _ _ => rfl
  apply Takes.look (takes_check _ false) fun _ _ => rfl
  apply Takes.look (takes_startsDeclaration (some (.word "let"))) fun _ _ => rfl
  rw [← cons_append]
  apply Takes.bind (h fits bound depth (by rw [length_cons]; omega) hdepth)
  · exact .cons takes_endStatement .pure
  · intros
    rfl

theorem reads_declaration (hname : isKeyword name = false)
    (hvalue : Reads expression 9 height lexemes (HaltsAt 0) value)
    : Reads declaration 9 height (.word "let" :: .word name :: .punct .assign :: lexemes)
        (· = some (.punct .semicolon)) (.declare name (some value)) := by
  intro fits bound depth hbound hdepth
  simp only [length_cons] at hbound
  unfold declaration
  apply Takes.cons (takes_skip _)
  apply Takes.cons (takes_identifier hname)
  apply Takes.cons (takes_eat _)
  exact .last ((hvalue fits bound depth (by omega) hdepth).weaken (haltsAt_of_eq (by decide))) .pure

theorem readsStatement_break : ReadsStatement 1 [.word "break", .punct .semicolon] .breakLoop := by
  apply ReadsStatement.of_kind (startsStatement_word (by decide)) fun _ _ => trivial
  intro fits bound depth _ _
  apply Takes.step (fun _ _ _ => statementKind_break)
  exact .cons takes_endStatement .pure

theorem readsStatement_continue : ReadsStatement 1 [.word "continue", .punct .semicolon] .continueLoop := by
  apply ReadsStatement.of_kind (startsStatement_word (by decide)) fun _ _ => trivial
  intro fits bound depth _ _
  apply Takes.step (fun _ _ _ => statementKind_continue)
  exact .cons takes_endStatement .pure

theorem takes_closes (closed ended : Bool)
    : Takes fits closes [] (fun next => isMark .braceClose next = closed ∧ next.isNone = ended) (closed || ended) :=
  .look (takes_check _ closed) (fun _ h => h.1) (.look (takes_atEnd ended) (fun _ h => h.2) .pure)

theorem takes_returned_none : Takes fits (returned bound depth) [] (· = some (.punct .semicolon)) none := by
  unfold returned
  apply Takes.look (takes_check _ true) (by rintro _ rfl; rfl)
  apply Takes.look (takes_closes false false) (by rintro _ rfl; exact ⟨rfl, rfl⟩)
  exact .pure

theorem takes_returned_some (hbegins : Begins lexemes)
    (hvalue : Takes fits (expression bound depth) lexemes (HaltsAt 0) value)
    : Takes fits (returned bound depth) lexemes (HaltsAt 0) (some value) := by
  unfold returned
  apply Takes.look (takes_check _ false) fun next _ => hbegins.isMark next (by decide)
  apply Takes.look (takes_closes false false)
  · intro next _
    refine ⟨hbegins.isMark next (by decide), ?_⟩
    obtain ⟨lexeme, tail, rfl, -⟩ := hbegins
    rfl
  · exact hvalue.map some

theorem readsStatement_return {value : Option Expr}
    (hvalue : ∀ (fits : Prop) bound depth, 16 * lexemes.length + 9 ≤ bound → (fits → depth + height ≤ maxNesting)
      → Takes fits (returned bound depth) lexemes (· = some (.punct .semicolon)) value)
    : ReadsStatement (height + 1) (.word "return" :: (lexemes ++ [.punct .semicolon])) (.returnValue value) := by
  apply ReadsStatement.of_kind (startsStatement_word (by decide)) fun _ _ => trivial
  intro fits bound depth hbound hdepth
  rw [length_append] at hbound
  apply Takes.step (fun _ _ _ => statementKind_return)
  apply Takes.bind (hvalue fits bound depth (by omega) hdepth)
  · exact .cons takes_endStatement .pure
  · intros
    rfl

theorem noElse_upcoming {next : Option Lexeme}
    (h : ∀ stmt ∈ stmts, ∃ lexeme tail, stmt.1 = lexeme :: tail ∧ StartsStatement lexeme)
    (hnext : NoElse (upcoming lexemes next))
    : NoElse (upcoming ((stmts.map Prod.fst).flatten ++ lexemes) next) := by
  cases stmts with
  | nil => exact hnext
  | cons stmt stmts =>
    obtain ⟨lexeme, tail, hstart, -, hword⟩ := h stmt (mem_cons_self ..)
    rw [map_cons, flatten_cons, hstart]
    exact hword

theorem reads_blockRest (h : ReadsAll height stmts)
    : Reads blockRest 0 height ((stmts.map Prod.fst).flatten ++ [.punct .braceClose]) anything
        (stmts.map Prod.snd) := by
  induction stmts with
  | nil =>
    refine .of_succ (by simp) fun fits bound depth hbound _ => ?_
    rw [blockRest]
    exact .cons (takes_eat _) .pure
  | cons stmt stmts ih =>
    refine .of_succ (by rw [length_append, length_singleton]; omega) fun fits bound depth hbound hdepth => ?_
    obtain ⟨⟨lexeme, tail, hstart, hmark, -⟩, hreads⟩ := h stmt (mem_cons_self ..)
    specialize ih fun s hs => h s (mem_cons_of_mem _ hs)
    have hnext : ∀ next, NoElse (upcoming ((stmts.map Prod.fst).flatten ++ [.punct .braceClose]) next) :=
      fun _ =>
      noElse_upcoming (fun s hs => (h s (mem_cons_of_mem _ hs)).starts) rfl
    simp only [map_cons, flatten_cons, append_assoc, length_append, length_cons, length_nil] at hbound ih ⊢
    have hlength : stmt.1.length = tail.length + 1 := by rw [hstart, length_cons]
    rw [blockRest]
    apply Takes.look (takes_eat_none _)
    · intro next _
      rw [hstart]
      exact hmark
    · apply Takes.look (takes_atEnd false)
      · intro next _
        rw [hstart]
        rfl
      · apply Takes.bind (hreads fits bound depth (by omega) hdepth)
        · exact .last (ih fits bound depth (by rw [length_append]; simp only [length_cons, length_nil]; omega) hdepth) .pure
        · intro next _
          exact hnext next

def blockLexemes (lexemes : List (List Lexeme)) : List Lexeme :=
  .punct .braceOpen :: (lexemes.flatten ++ [.punct .braceClose])

theorem reads_block (h : ReadsAll height stmts)
    : Reads block 0 height (blockLexemes (stmts.map Prod.fst)) anything (stmts.map Prod.snd) := by
  refine .of_succ (by simp [blockLexemes]) fun fits bound depth hbound hdepth => ?_
  unfold blockLexemes at hbound ⊢
  rw [length_cons] at hbound
  rw [block]
  apply Takes.cons (takes_expect _)
  exact reads_blockRest h fits bound depth (by omega) hdepth

theorem reads_body (h : ReadsAll height stmts)
    : Reads body 1 height (blockLexemes (stmts.map Prod.fst)) anything (stmts.map Prod.snd) := by
  refine .of_succ (by simp) fun fits bound depth hbound hdepth => ?_
  rw [body]
  apply Takes.look (takes_check _ true) fun _ _ => rfl
  exact reads_block h fits bound depth (by omega) hdepth

theorem readsStatement_block (h : ReadsAll height stmts)
    : ReadsStatement (height + 1) (blockLexemes (stmts.map Prod.fst)) (.block (stmts.map Prod.snd)) := by
  have hstart : StartsStatement (.punct .braceOpen) := ⟨rfl, rfl⟩
  apply ReadsStatement.of_kind hstart fun _ _ => trivial
  intro fits bound depth hbound hdepth
  obtain ⟨bound, rfl⟩ : ∃ b, bound = b + 1 := ⟨bound - 1, by omega⟩
  rw [statementKind]
  apply Takes.look (takes_eat_none _) fun _ _ => rfl
  apply Takes.look (takes_check _ true) fun _ _ => rfl
  rw [if_pos rfl, block, bind_assoc]
  apply Takes.cons (takes_expect _)
  exact .last (reads_blockRest h fits bound depth (by omega) hdepth) .pure

theorem readsStatement_if_none (htest : Reads expression 9 height lexemes (HaltsAt 0) test)
    (hstmts : ReadsAll height stmts)
    : ReadsStatement (height + 1) (.word "if" :: .punct .parenOpen :: (lexemes ++ .punct .parenClose
          :: blockLexemes (stmts.map Prod.fst)))
        (.ifElse test (stmts.map Prod.snd) none) := by
  apply ReadsStatement.of_kind (startsStatement_word (by decide)) fun _ hnext => hnext
  intro fits bound depth hbound hdepth
  simp only [length_cons, length_append] at hbound
  obtain ⟨bound, rfl⟩ : ∃ b, bound = b + 1 := ⟨bound - 1, by omega⟩
  apply Takes.step (fun _ _ _ => statementKind_if)
  rw [ifStatement]
  apply takes_condition (htest fits bound depth (by omega) hdepth)
  rw [← append_nil (blockLexemes _)]
  apply Takes.bind (reads_body hstmts fits bound depth (by omega) hdepth)
  · exact .look (takes_eatWord_none "else") (fun _ hnext => hnext) .pure
  · intros
    trivial

theorem readsStatement_if {thenBody elseBody : List (List Lexeme × Stmt)}
    (htest : Reads expression 9 height lexemes (HaltsAt 0) test) (hthen : ReadsAll height thenBody)
    (helse : ReadsAll height elseBody)
    : ReadsStatement (height + 1) (.word "if" :: .punct .parenOpen :: (lexemes ++ .punct .parenClose
          :: (blockLexemes (thenBody.map Prod.fst) ++ .word "else" :: blockLexemes (elseBody.map Prod.fst))))
        (.ifElse test (thenBody.map Prod.snd) (some (elseBody.map Prod.snd))) := by
  apply ReadsStatement.of_kind (startsStatement_word (by decide)) fun _ _ => trivial
  intro fits bound depth hbound hdepth
  simp only [length_cons, length_append] at hbound
  obtain ⟨bound, rfl⟩ : ∃ b, bound = b + 1 := ⟨bound - 1, by omega⟩
  apply Takes.step (fun _ _ _ => statementKind_if)
  rw [ifStatement]
  apply takes_condition (htest fits bound depth (by omega) hdepth)
  apply Takes.bind (reads_body hthen fits bound depth (by omega) hdepth)
  · apply Takes.cons (takes_eatWord "else")
    apply Takes.look (takes_eatWord_none "if") fun _ _ => rfl
    exact .last (reads_body helse fits bound depth (by omega) hdepth) .pure
  · intros
    trivial

theorem readsStatement_while (htest : Reads expression 9 height lexemes (HaltsAt 0) test)
    (hstmts : ReadsAll height stmts)
    : ReadsStatement (height + 1) (.word "while" :: .punct .parenOpen :: (lexemes ++ .punct .parenClose
          :: blockLexemes (stmts.map Prod.fst)))
        (.whileLoop test (stmts.map Prod.snd)) := by
  apply ReadsStatement.of_kind (startsStatement_word (by decide)) fun _ _ => trivial
  intro fits bound depth hbound hdepth
  simp only [length_cons, length_append] at hbound
  apply Takes.step (fun _ _ _ => statementKind_while)
  apply takes_condition (htest fits bound depth (by omega) hdepth)
  exact .last (reads_body hstmts fits bound depth (by omega) hdepth) .pure

inductive ReadsPart (rule : Nat → Nat → Parse α) (mark : Punct) (height : Nat)
    : List Lexeme → Option α → Prop where
  | none : ReadsPart rule mark height [] .none
  | some {lexemes : List Lexeme} {a : α} (hstart : ∀ next, isMark mark (upcoming lexemes next) = false)
    (h : Reads rule 9 height lexemes (· = .some (.punct mark)) a) :
    ReadsPart rule mark height lexemes (.some a)

theorem ReadsPart.mono {rule : Nat → Nat → Parse α} {height' : Nat} {value : Option α}
    (h : ReadsPart rule mark height lexemes value) (hheight : height ≤ height')
    : ReadsPart rule mark height' lexemes value := by
  cases h with
  | none => exact .none
  | some hstart h => exact .some hstart (h.mono hheight)

theorem ReadsPart.takes {rule : Nat → Nat → Parse α} {value : Option α} (h : ReadsPart rule mark height lexemes value)
    (hbound : 16 * lexemes.length + 9 ≤ bound) (hdepth : fits → depth + height ≤ maxNesting)
    {rest : Option α → Parse β} {b : β} (hrest : Takes fits (rest value) (.punct mark :: lexemes') follow b)
    : Takes fits (check mark >>= fun found =>
          if found = true then pure .none >>= rest else (Option.some <$> rule bound depth) >>= rest)
        (lexemes ++ .punct mark :: lexemes') follow b := by
  cases h with
  | none =>
    apply Takes.look (takes_check mark true) fun _ _ => by simp [isMark]
    rw [if_pos rfl, pure_bind]
    exact hrest
  | some hstart h =>
    apply Takes.look (takes_check mark false)
    · intro next _
      have := hstart (.some (.punct mark))
      unfold upcoming at this ⊢
      cases lexemes with
      | nil => simp [isMark] at this
      | cons lexeme lexemes => exact this
    · rw [if_neg (by simp)]
      apply Takes.bind ((h fits bound depth hbound hdepth).map Option.some) hrest
      intros
      rfl

theorem reads_initial_none : Reads forHead.initial 9 height [] (· = some (.punct .semicolon)) none := by
  intro fits bound depth _ _
  unfold forHead.initial
  apply Takes.look (takes_check _ true)
  · rintro _ rfl
    rfl
  · exact .pure

theorem reads_initial_declaration (h : Reads declaration 9 height (.word "let" :: lexemes) follow stmt)
    : Reads forHead.initial 9 height (.word "let" :: lexemes) follow (some stmt) := by
  intro fits bound depth hbound hdepth
  unfold forHead.initial
  apply Takes.look (takes_check _ false) fun _ _ => rfl
  apply Takes.look (takes_startsDeclaration (some (.word "let"))) fun _ _ => rfl
  exact (h fits bound depth hbound hdepth).map some

theorem reads_initial_simple (hstart : StartsPlain lexeme)
    (h : Reads simpleStatement 9 height (lexeme :: lexemes) follow stmt)
    : Reads forHead.initial 9 height (lexeme :: lexemes) follow (some stmt) := by
  intro fits bound depth hbound hdepth
  unfold forHead.initial
  apply Takes.look (takes_check _ false) fun _ _ => hstart.marks _ (by decide)
  apply Takes.look (takes_startsDeclaration (some lexeme)) fun _ _ => rfl
  rw [hstart.words "let" (by decide), hstart.words "const" (by decide), hstart.words "var" (by decide)]
  exact (h fits bound depth hbound hdepth).map some

section ForLoop

variable {init update : Option Stmt} {test : Option Expr} {initLexemes testLexemes updateLexemes : List Lexeme}
  (hinit : Reads forHead.initial 9 height initLexemes (· = some (.punct .semicolon)) init)
  (htest : ReadsPart expression .semicolon height testLexemes test)
  (hupdate : ReadsPart simpleStatement .parenClose height updateLexemes update)

include hinit htest hupdate

theorem reads_forHead : Reads forHead 0 height
        (.punct .parenOpen :: (initLexemes ++ .punct .semicolon :: (testLexemes ++ .punct .semicolon
          :: (updateLexemes ++ [.punct .parenClose]))))
        anything (init, test, update) := by
  intro fits bound depth hbound hdepth
  simp only [length_cons, length_append] at hbound
  unfold forHead
  apply Takes.cons (takes_expect _)
  apply Takes.bind (hinit fits bound depth (by omega) hdepth)
  · apply Takes.cons (takes_expect _)
    apply htest.takes (by omega) hdepth
    apply Takes.cons (takes_expect _)
    apply hupdate.takes (by omega) hdepth
    exact .cons (takes_expect _) .pure
  · intros
    rfl

theorem readsStatement_forLoop (hstmts : ReadsAll height stmts) : ReadsStatement (height + 1)
        (.word "for" :: .punct .parenOpen :: (initLexemes ++ .punct .semicolon :: (testLexemes
          ++ .punct .semicolon :: (updateLexemes ++ .punct .parenClose :: blockLexemes (stmts.map Prod.fst)))))
        (.forLoop init test update (stmts.map Prod.snd)) := by
  apply ReadsStatement.of_kind (startsStatement_word (by decide)) fun _ _ => trivial
  intro fits bound depth hbound hdepth
  simp only [length_cons, length_append] at hbound
  apply Takes.step (fun _ _ _ => statementKind_for)
  have hhead := reads_forHead hinit htest hupdate fits bound depth
    (by simp only [length_cons, length_append, length_nil]; omega) hdepth
  have hbody := reads_body hstmts fits bound depth (by omega) hdepth
  have hlist : .punct .parenOpen :: (initLexemes ++ .punct .semicolon :: (testLexemes
        ++ .punct .semicolon :: (updateLexemes ++ .punct .parenClose :: blockLexemes (stmts.map Prod.fst))))
      = .punct .parenOpen :: (initLexemes ++ .punct .semicolon :: (testLexemes ++ .punct .semicolon
        :: (updateLexemes ++ [.punct .parenClose]))) ++ blockLexemes (stmts.map Prod.fst) := by
    simp
  rw [hlist]
  exact .bind hhead (.last hbody .pure) fun _ _ => trivial

end ForLoop

theorem readsStatement_for {start limit step : Expr} {startLexemes limitLexemes stepLexemes : List Lexeme}
    (hname : isKeyword name = false) (hstart : Reads unary 1 height startLexemes Halts start)
    (hlimit : Reads unary 1 height limitLexemes Halts limit) (hstep : Reads unary 1 height stepLexemes Halts step)
    (hstmts : ReadsAll (height + 1) stmts)
    : ReadsStatement (height + 2) (.word "for" :: .punct .parenOpen :: .word "let" :: .word name :: .punct .assign
          :: (startLexemes ++ .punct .semicolon :: .word name :: .punct .less :: (limitLexemes
              ++ .punct .semicolon :: .word name :: .punct .plusAssign :: (stepLexemes
                ++ .punct .parenClose :: blockLexemes (stmts.map Prod.fst)))))
        (.forLoop (some (.declare name (some start))) (some (.binary .less (.identifier name) limit))
          (some (.assign (.variable name) .add step)) (stmts.map Prod.snd)) := by
  have hvariable : Reads unary 1 height [.word name] Halts (.identifier name) :=
    reads_unary_name hname (reads_accesses_nil _)
  have hless : connective? 3 .less = some (.binary .less) := rfl
  have htest : ReadsChain 3 height (.word name :: .punct .less :: limitLexemes) (.binary .less (.identifier name) limit) :=
    .binary hless (.of_unary (by decide) hvariable) (.of_unary (by decide) hlimit)
  have hinit := reads_initial_declaration (reads_declaration hname (reads_expression_unary hstart))
  have hupdate := reads_simpleStatement_assign .add (fun _ => rfl) (reads_expression_unary hvariable)
    (reads_expression_unary hstep) (show .parenClose ∈ partEnds by decide)
  exact readsStatement_forLoop hinit
    (.some (fun _ => rfl) ((htest.expression (by decide)).weaken (haltsAt_of_eq (by decide))))
    (.some (fun _ => rfl) hupdate) hstmts

theorem takes_names (h : ∀ name' ∈ name :: params, isKeyword name' = false) : ∀ bound, params.length < bound
        → Takes fits (names bound) (commaList ((name :: params).map fun name => [.word name]))
            (· = some (.punct .parenClose)) (name :: params) := by
  induction params generalizing name with
  | nil =>
    intro bound hbound
    cases bound with
    | zero => simp at hbound
    | succ bound =>
      rw [names]
      apply Takes.cons (takes_identifier (h name (by simp)))
      exact .look (takes_eat_none .comma) (by rintro _ rfl; rfl) .pure
  | cons name' params ih =>
    intro bound hbound
    cases bound with
    | zero => omega
    | succ bound =>
      rw [length_cons] at hbound
      rw [names, map_cons, map_cons, commaList_cons_cons]
      apply Takes.cons (takes_identifier (h name (by simp)))
      apply Takes.cons (takes_eat .comma)
      exact .last (ih (fun n hn => h n (mem_cons_of_mem _ hn)) bound (by omega)) .pure

theorem takes_functionHead {f : String × List String → Parse β} {b : β} (hname : isKeyword name = false)
    (hparams : ∀ param ∈ params, isKeyword param = false) (hbound : params.length < bound)
    (hf : Takes fits (f (name, params)) lexemes follow b)
    : Takes fits (functionHead bound >>= f) (.word "async" :: .word "function" :: .word name :: .punct .parenOpen
          :: (commaList (params.map fun name => [.word name]) ++ .punct .parenClose :: lexemes))
        follow b := by
  have hclose : Takes fits ((expect .parenClose) >>= fun _ => f (name, params))
      (.punct .parenClose :: lexemes) follow b :=
    .cons (takes_expect _) hf
  unfold functionHead
  simp only [bind_assoc]
  apply Takes.cons (takes_eatWord "async")
  apply Takes.cons (takes_eatWord "function")
  rw [if_pos rfl]
  simp only [pure_bind, bind_assoc]
  apply Takes.cons (takes_identifier hname)
  apply Takes.cons (takes_expect _)
  cases params with
  | nil =>
    apply Takes.look (takes_check .parenClose true) fun _ _ => rfl
    simpa [commaList_nil] using hclose
  | cons param params =>
    apply Takes.look (takes_check .parenClose false)
    · intro next _
      cases params <;> rfl
    · rw [if_neg (by simp), bind_assoc]
      apply Takes.bind (takes_names hparams bound (by simp at hbound; omega))
      · simpa using hclose
      · intros
        rfl

theorem length_le_length_commaList (params : List String)
    : params.length ≤ (commaList (params.map fun name => [Lexeme.word name])).length := by
  induction params with
  | nil => exact Nat.zero_le _
  | cons param params ih =>
    cases params with
    | nil => exact Nat.le_refl _
    | cons param' params =>
      rw [map_cons, map_cons, commaList_cons_cons]
      simp only [map_cons, length_append, length_cons, length_nil] at ih ⊢
      omega

theorem readsStatement_function (hname : isKeyword name = false) (hparams : ∀ param ∈ params, isKeyword param = false)
    (hstmts : ReadsAll height stmts)
    : ReadsStatement (height + 1) (.word "async" :: .word "function" :: .word name :: .punct .parenOpen
          :: (commaList (params.map fun name => [.word name])
            ++ .punct .parenClose :: blockLexemes (stmts.map Prod.fst)))
        (.function name params (stmts.map Prod.snd)) := by
  apply ReadsStatement.of_kind (startsStatement_word (by decide)) fun _ _ => trivial
  intro fits bound depth hbound hdepth
  simp only [length_cons, length_append] at hbound
  have hlength := length_le_length_commaList params
  rw [statementKind]
  apply Takes.look (takes_eat_none _) fun _ _ => rfl
  apply Takes.look (takes_check _ false) fun _ _ => rfl
  apply Takes.look (takes_startsDeclaration (some (.word "async"))) fun _ _ => rfl
  apply Takes.look (takes_eatWord_none "if") fun _ _ => rfl
  apply Takes.look (takes_eatWord_none "while") fun _ _ => rfl
  apply Takes.look (takes_eatWord_none "for") fun _ _ => rfl
  apply Takes.look (takes_eatWord_none "break") fun _ _ => rfl
  apply Takes.look (takes_eatWord_none "continue") fun _ _ => rfl
  apply Takes.look (takes_eatWord_none "return") fun _ _ => rfl
  apply Takes.look (takes_checkWord "function" false) fun _ _ => rfl
  apply Takes.look (takes_checkWord "async" true) fun _ _ => rfl
  have hblock := reads_block hstmts fits bound depth (by omega) hdepth
  exact takes_functionHead hname hparams (by omega) (.last hblock .pure)

theorem takes_statements (hheight : fits → height ≤ maxNesting) (h : ReadsAll height stmts)
    : ∀ bound, 16 * (stmts.map Prod.fst).flatten.length + 2 ≤ bound
        → Takes fits (statements bound) (stmts.map Prod.fst).flatten (· = none) (stmts.map Prod.snd) := by
  induction stmts with
  | nil =>
    intro bound hbound
    cases bound with
    | zero => omega
    | succ bound =>
      rw [statements]
      exact .look (takes_atEnd true) (by rintro _ rfl; rfl) .pure
  | cons stmt stmts ih =>
    intro bound hbound
    obtain ⟨⟨lexeme, tail, hstart, hmark, -⟩, hreads⟩ := h stmt (mem_cons_self ..)
    specialize ih fun s hs => h s (mem_cons_of_mem _ hs)
    have hnext : NoElse (upcoming (stmts.map Prod.fst).flatten none) := by
      rw [← append_nil (stmts.map Prod.fst).flatten]
      exact noElse_upcoming (fun s hs => (h s (mem_cons_of_mem _ hs)).starts) rfl
    simp only [map_cons, flatten_cons, length_append] at hbound ⊢
    have hlength : stmt.1.length = tail.length + 1 := by rw [hstart, length_cons]
    cases bound with
    | zero => omega
    | succ bound =>
      rw [statements]
      apply Takes.look (takes_atEnd false)
      · intro next _
        rw [hstart]
        rfl
      · apply Takes.bind (hreads fits bound 0 (by omega) (by rwa [Nat.zero_add]))
        · exact .last (ih bound (by omega)) .pure
        · rintro _ rfl
          exact hnext

end NodeScript.Script.Parse

namespace NodeScript.Script

open List

variable {height : Nat} {stmts : List (List Lexeme × Stmt)} {stream : TokenStream} (h : Parse.ReadsAll height stmts)
  (hstream : stream.tokens.map Token.lexeme = (stmts.map Prod.fst).flatten)
include h hstream

theorem Program.ofTokens_or_of_readsStatement {fits : Prop} (hheight : fits → height ≤ maxNesting)
    : Program.ofTokens stream = .ok ⟨stmts.map Prod.snd⟩ ∨ ¬ fits ∧ ∃ e, Program.ofTokens stream = .error e := by
  have hlength : stream.tokens.length = (stmts.map Prod.fst).flatten.length := by
    rw [← hstream, length_map]
  have htakes := Parse.takes_statements hheight h stream.bound
    (by unfold TokenStream.bound; omega) stream.tokens [] stream.endLine hstream rfl
  rw [append_nil] at htakes
  unfold Program.ofTokens
  obtain htakes | ⟨hfits, e, htakes⟩ := htakes
  · rw [htakes]
    exact .inl rfl
  · rw [htakes]
    exact .inr ⟨hfits, e, rfl⟩

theorem Program.ofTokens_of_readsStatement (hheight : height ≤ maxNesting)
    : Program.ofTokens stream = .ok ⟨stmts.map Prod.snd⟩ :=
  (ofTokens_or_of_readsStatement h hstream fun _ => hheight).resolve_right fun hfail => hfail.1 trivial

theorem Program.eq_of_ofTokens {program : Program} (hprogram : Program.ofTokens stream = .ok program)
    : program = ⟨stmts.map Prod.snd⟩ := by
  obtain hok | ⟨-, e, hfail⟩ := ofTokens_or_of_readsStatement h hstream False.elim
  · exact Except.ok.inj (hprogram.symm.trans hok)
  · simp [hfail] at hprogram

end NodeScript.Script
