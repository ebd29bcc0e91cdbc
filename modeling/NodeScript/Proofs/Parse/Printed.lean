import NodeScript.Proofs.Printing

/-!
Reading what was printed. The rules of the grammar make of the lexemes of a tree the tree, and so the
parser makes of the text of a program the program.
-/

namespace NodeScript.Script

open List

variable {height : Nat} {style : Style} {tree : Expr}

open Parse

/-- The numbers of the expression are those of decimal literals, and its names are words. -/
inductive Expr.Proper (numeral : Float → Literal) : Expr → Prop where
  | number {value : Float} (h : (numeral value).value = value) : Proper numeral (.number value)
  | str (value : String) : Proper numeral (.str value)
  | bool (value : Bool) : Proper numeral (.bool value)
  | undefined : Proper numeral .undefined
  | null : Proper numeral .null
  | identifier {name : String} (hname : Compile.IsName name) : Proper numeral (.identifier name)
  | array {items : List Expr} (hitems : ∀ item ∈ items, Proper numeral item) :
    Proper numeral (.array items)
  | object {fields : List (String × Expr)} (hfields : ∀ field ∈ fields, Proper numeral field.2) :
    Proper numeral (.object fields)
  | unary {operand : Expr} (op : UnaryOp) (h : Proper numeral operand) :
    Proper numeral (.unary op operand)
  | binary {left right : Expr} (op : BinaryOp) (hleft : Proper numeral left)
    (hright : Proper numeral right) : Proper numeral (.binary op left right)
  | logical {left right : Expr} (op : LogicalOp) (hleft : Proper numeral left)
    (hright : Proper numeral right) : Proper numeral (.logical op left right)
  | member {holder : Expr} {property : String} (h : Proper numeral holder)
    (hproperty : IsWord property) : Proper numeral (.member holder property)
  | index {holder position : Expr} (h : Proper numeral holder)
    (hposition : Proper numeral position) : Proper numeral (.index holder position)
  | call {callee : Expr} {arguments : List Expr} (h : Proper numeral callee)
    (harguments : ∀ argument ∈ arguments, Proper numeral argument) :
    Proper numeral (.call callee arguments)
  | await {operand : Expr} (h : Proper numeral operand) : Proper numeral (.await operand)

inductive Target.Proper (numeral : Float → Literal) : Target → Prop where
  | named {name : String} (hname : Compile.IsName name) : Proper numeral (.variable name)
  | element {name : String} {position : Expr} (hname : Compile.IsName name)
    (hposition : position.Proper numeral) : Proper numeral (.element name position)

def Stmt.isUpdate : Stmt → Bool
  | .assign .. | .expr _ => true
  | _ => false

def Stmt.isInitial : Stmt → Bool
  | .declare .. => true
  | stmt => stmt.isUpdate

/-- The expressions of the statement are proper, its names are words, and the heads of its loops are
of the right kinds. -/
inductive Stmt.Proper (numeral : Float → Literal) : Stmt → Prop where
  | declare {name : String} {value : Option Expr} (hname : Compile.IsName name)
    (hvalue : ∀ tree ∈ value, tree.Proper numeral) : Proper numeral (.declare name value)
  | assign {target : Target} {value : Expr} (op : AssignOp) (htarget : target.Proper numeral)
    (hvalue : value.Proper numeral) : Proper numeral (.assign target op value)
  | expr {value : Expr} (hvalue : value.Proper numeral) : Proper numeral (.expr value)
  | ifElse {condition : Expr} {thenBody : List Stmt} {elseBody : Option (List Stmt)}
    (hcondition : condition.Proper numeral) (hthen : ∀ stmt ∈ thenBody, Proper numeral stmt)
    (helse : ∀ body ∈ elseBody, ∀ stmt ∈ body, Proper numeral stmt) :
    Proper numeral (.ifElse condition thenBody elseBody)
  | whileLoop {condition : Expr} {body : List Stmt} (hcondition : condition.Proper numeral)
    (hbody : ∀ stmt ∈ body, Proper numeral stmt) : Proper numeral (.whileLoop condition body)
  | forLoop {init : Option Stmt} {condition : Option Expr} {update : Option Stmt} {body : List Stmt}
    (hinitial : ∀ stmt ∈ init, stmt.isInitial) (hinit : ∀ stmt ∈ init, Proper numeral stmt)
    (hcondition : ∀ test ∈ condition, test.Proper numeral)
    (hupdates : ∀ stmt ∈ update, stmt.isUpdate) (hupdate : ∀ stmt ∈ update, Proper numeral stmt)
    (hbody : ∀ stmt ∈ body, Proper numeral stmt) :
    Proper numeral (.forLoop init condition update body)
  | breakLoop : Proper numeral .breakLoop
  | continueLoop : Proper numeral .continueLoop
  | returnValue {value : Option Expr} (hvalue : ∀ tree ∈ value, tree.Proper numeral) :
    Proper numeral (.returnValue value)
  | block {body : List Stmt} (hbody : ∀ stmt ∈ body, Proper numeral stmt) :
    Proper numeral (.block body)
  | function {name : String} {params : List String} {body : List Stmt}
    (hname : Compile.IsName name) (hparams : ∀ param ∈ params, Compile.IsName param)
    (hbody : ∀ stmt ∈ body, Proper numeral stmt) : Proper numeral (.function name params body)

theorem itemLexemes_eq_map (items : List Expr) : itemLexemes items = items.map Expr.lexemes := by
  induction items with
  | nil => rfl
  | cons item items ih => rw [itemLexemes, ih, map_cons]

theorem entryLexemes_eq_map (fields : List (String × Expr)) : entryLexemes fields =
      fields.map fun field => .str field.1 :: .punct .colon :: field.2.lexemes := by
  induction fields with
  | nil => rfl
  | cons field fields ih => rw [entryLexemes, ih, map_cons]

theorem bodyLexemes_eq_map (body : List Stmt) : bodyLexemes body = body.map Stmt.lexemes := by
  induction body with
  | nil => rfl
  | cons stmt body ih => rw [bodyLexemes, ih, map_cons]

variable {numeral : Float → Literal} {lexemes : List Lexeme} {stmt : Stmt} {level : Nat}
  {rows : List (List Lexeme)}

namespace Style

variable (style : Style)

@[simp]
theorem spells_punct (mark : Punct) : style.Spells (.punct mark) := trivial

@[simp]
theorem spells_str (value : String) : style.Spells (.str value) := trivial

@[simp]
theorem spells_number_iff (value : Float)
    : style.Spells (.number value) ↔ (style.numeral value).value = value := Iff.rfl

@[simp]
theorem spells_word_iff (text : String) : style.Spells (.word text) ↔ IsWord text := Iff.rfl

def SpellsAll (lexemes : List Lexeme) : Prop :=
  ∀ lexeme ∈ lexemes, style.Spells lexeme

@[simp]
theorem spellsAll_nil : style.SpellsAll [] := nofun

@[simp]
theorem spellsAll_cons {lexeme : Lexeme}
    : style.SpellsAll (lexeme :: lexemes) ↔ style.Spells lexeme ∧ style.SpellsAll lexemes :=
  forall_mem_cons

@[simp]
theorem spellsAll_append {lexemes' : List Lexeme}
    : style.SpellsAll (lexemes ++ lexemes') ↔ style.SpellsAll lexemes ∧ style.SpellsAll lexemes' :=
  forall_mem_append

@[simp]
theorem spellsAll_parenthesized : style.SpellsAll (parenthesized lexemes) ↔ style.SpellsAll lexemes := by
  simp [parenthesized]

@[simp]
theorem spellsAll_guarded {due : Nat} : style.SpellsAll (guarded due level lexemes) ↔ style.SpellsAll lexemes := by
  unfold guarded
  split
  · simp
  · rfl

@[simp]
theorem spellsAll_flatten : style.SpellsAll rows.flatten ↔ ∀ row ∈ rows, style.SpellsAll row :=
  forall_mem_flatten

@[simp]
theorem spellsAll_commaList : style.SpellsAll (commaList rows) ↔ ∀ row ∈ rows, style.SpellsAll row := by
  induction rows with
  | nil => simp [commaList_nil]
  | cons row rows ih =>
    cases rows with
    | nil => simp [commaList_singleton]
    | cons row' rows =>
      rw [commaList_cons_cons, spellsAll_append, spellsAll_cons, ih]
      simp

@[simp]
theorem spellsAll_blockLexemes : style.SpellsAll (blockLexemes rows) ↔ ∀ row ∈ rows, style.SpellsAll row := by
  simp [blockLexemes]

end Style

theorem Expr.Proper.spellsAll (h : tree.Proper style.numeral) : style.SpellsAll tree.lexemes := by
  induction h with
  | number h => simpa [Expr.lexemes] using h
  | str | undefined | null => simp [Expr.lexemes] <;> decide
  | bool value => cases value <;> simp [Expr.lexemes] <;> decide
  | identifier hname => simpa [Expr.lexemes] using hname.word
  | array _ ih => simpa [Expr.lexemes, itemLexemes_eq_map] using ih
  | object _ ih =>
    simp only [Expr.lexemes, entryLexemes_eq_map, Style.spellsAll_cons, Style.spellsAll_append,
      Style.spellsAll_commaList, forall_mem_map]
    simpa using ih
  | unary op _ ih => simpa [Expr.lexemes] using ih
  | binary op _ _ hleft hright | logical op _ _ hleft hright => simpa [Expr.lexemes] using ⟨hleft, hright⟩
  | member _ hproperty ih => simpa [Expr.lexemes] using ⟨ih, hproperty⟩
  | index _ _ hholder hposition => simpa [Expr.lexemes] using ⟨hholder, hposition⟩
  | call _ _ hcallee harguments =>
    simpa [Expr.lexemes, itemLexemes_eq_map] using ⟨hcallee, harguments⟩
  | await _ ih => simpa [Expr.lexemes] using ⟨by decide, ih⟩

theorem Target.Proper.spellsAll {target : Target} (h : target.Proper style.numeral)
    : style.SpellsAll target.lexemes := by
  cases h with
  | named hname => simpa [Target.lexemes] using hname.word
  | element hname hposition => simpa [Target.lexemes] using ⟨hname.word, hposition.spellsAll⟩

theorem Stmt.Proper.spellsAll_clause (h : stmt.Proper style.numeral) : style.SpellsAll stmt.clause := by
  cases h with
  | @declare name value hname hvalue =>
    cases value with
    | none => simpa [Stmt.clause] using ⟨by decide, hname.word⟩
    | some tree => simpa [Stmt.clause] using ⟨by decide, hname.word, (hvalue tree rfl).spellsAll⟩
  | assign op htarget hvalue => simpa [Stmt.clause] using ⟨htarget.spellsAll, hvalue.spellsAll⟩
  | expr hvalue => simpa [Stmt.clause] using hvalue.spellsAll
  | _ => simp [Stmt.clause]

theorem Style.spellsAll_elim (style : Style) {α : Type} {part : Option α} {f : α → List Lexeme}
    (h : ∀ a ∈ part, style.SpellsAll (f a)) : style.SpellsAll (part.elim [] f) := by
  cases part with
  | none => exact style.spellsAll_nil
  | some a => exact h a rfl

theorem Stmt.Proper.spellsAll (h : stmt.Proper style.numeral) : style.SpellsAll stmt.lexemes := by
  induction h with
  | declare hname hvalue =>
    simpa [Stmt.lexemes] using (Stmt.Proper.declare hname hvalue).spellsAll_clause
  | assign op htarget hvalue =>
    simpa [Stmt.lexemes] using (Stmt.Proper.assign op htarget hvalue).spellsAll_clause
  | expr hvalue => simpa [Stmt.lexemes] using (Stmt.Proper.expr hvalue).spellsAll_clause
  | @ifElse _ _ elseBody hcondition _ _ hthen helse =>
    have helse : style.SpellsAll (elseLexemes elseBody) := by
      cases elseBody with
      | none => exact style.spellsAll_nil
      | some body => simpa [elseLexemes, bodyLexemes_eq_map] using ⟨by decide, helse body rfl⟩
    simpa [Stmt.lexemes, bodyLexemes_eq_map] using ⟨by decide, hcondition.spellsAll, hthen, helse⟩
  | whileLoop hcondition _ hbody =>
    simpa [Stmt.lexemes, bodyLexemes_eq_map] using ⟨by decide, hcondition.spellsAll, hbody⟩
  | forLoop _ hinit hcondition _ hupdate _ _ _ hbody =>
    have hinit := style.spellsAll_elim fun stmt hmem => (hinit stmt hmem).spellsAll_clause
    have hcondition := style.spellsAll_elim fun test hmem => (hcondition test hmem).spellsAll
    have hupdate := style.spellsAll_elim fun stmt hmem => (hupdate stmt hmem).spellsAll_clause
    simpa [Stmt.lexemes, bodyLexemes_eq_map] using ⟨by decide, hinit, hcondition, hupdate, hbody⟩
  | breakLoop | continueLoop => simpa [Stmt.lexemes] using by decide
  | returnValue hvalue =>
    have hvalue := style.spellsAll_elim fun tree hmem => (hvalue tree hmem).spellsAll
    simpa [Stmt.lexemes] using ⟨by decide, hvalue⟩
  | block _ hbody => simpa [Stmt.lexemes, bodyLexemes_eq_map] using hbody
  | function hname hparams _ hbody =>
    have hparams := fun param hmem => (hparams param hmem).word
    simpa [Stmt.lexemes, bodyLexemes_eq_map] using ⟨by decide, by decide, hname.word, hparams, hbody⟩

theorem opens_parenthesized (lexemes : List Lexeme) : Opens (parenthesized lexemes) :=
  ⟨_, _, rfl, .inl rfl⟩

/-- The grammar reads the expression as one of each level up to its own. -/
structure Expr.Readable (tree : Expr) : Prop where
  begins : Begins tree.lexemes
  chain : ∀ {level : Nat}, level ≤ levels → level ≤ tree.level → ReadsChain level tree.nesting tree.lexemes tree

namespace Expr.Readable

theorem of_unary {tree : Expr} (hbegins : Begins tree.lexemes)
    (h : Reads Parse.unary 1 tree.nesting tree.lexemes Halts tree) : tree.Readable :=
  ⟨hbegins, fun hlevel _ => .of_unary hlevel h⟩

theorem of_primary {tree : Expr} (hopens : Opens tree.lexemes)
    (h : Reads primary 0 tree.nesting tree.lexemes anything tree) : tree.Readable :=
  .of_unary hopens.begins (reads_unary_primary hopens h)

theorem of_atom {tree : Expr} {lexeme : Lexeme} (hlexemes : tree.lexemes = [lexeme])
    (h : atom? lexeme = some tree) : tree.Readable := by
  apply of_primary
  · exact ⟨lexeme, [], hlexemes, .inr (.inr (.inr (by simp [h])))⟩
  · rw [hlexemes]
    exact reads_primary_atom h

variable {tree : Expr} (h : tree.Readable)
include h

theorem expression : Reads Parse.expression 9 (tree.nesting + 1) tree.lexemes (HaltsAt 0) tree :=
  (h.chain (Nat.zero_le _) (Nat.zero_le _)).expression (Nat.zero_le _)

theorem readsExpression (hheight : tree.nesting + 1 ≤ height) : ReadsExpression height tree.lexemes tree :=
  ⟨h.begins, h.expression.mono hheight⟩

theorem parens : Reads primary 0 (tree.nesting + 1) (parenthesized tree.lexemes) anything tree :=
  reads_primary_paren h.expression

theorem parens_unary : Reads Parse.unary 1 (tree.nesting + 1) (parenthesized tree.lexemes) Halts tree :=
  reads_unary_primary (opens_parenthesized _) h.parens

theorem guarded_begins (due : Nat) : Begins (guarded due tree.level tree.lexemes) := by
  unfold guarded
  split
  · exact (opens_parenthesized _).begins
  · exact h.begins

theorem guarded_chain {due : Nat} (hdue : due ≤ levels)
    : ReadsChain due (guardedNesting due tree.level tree.nesting) (guarded due tree.level tree.lexemes) tree := by
  unfold guarded guardedNesting
  split
  · exact .of_unary hdue h.parens_unary
  · next hlt => exact h.chain hdue (Nat.le_of_not_lt hlt)

end Expr.Readable

namespace Parse.Connective

theorem lexemes_apply (op : Connective) (left right : Expr) : (op.apply left right).lexemes =
      guarded op.level left.level left.lexemes
        ++ .punct op.mark :: guarded (op.level + 1) right.level right.lexemes := by
  cases op <;> simp only [apply, Expr.lexemes, mark]

theorem nesting_apply (op : Connective) (left right : Expr) : (op.apply left right).nesting =
      max (guardedNesting op.level left.level left.nesting)
        (guardedNesting (op.level + 1) right.level right.nesting) := by
  cases op <;> simp only [apply, Expr.nesting]

theorem readable_apply (op : Connective) {left right : Expr} (hleft : left.Readable)
    (hright : right.Readable) : (op.apply left right).Readable := by
  have hop := op.connective?_mark
  have hlt := lt_levels_of_connective hop
  obtain ⟨hheight, hheight'⟩ := Nat.max_le.mp (Nat.le_of_eq (nesting_apply op left right).symm)
  refine ⟨?_, fun _ hle => ?_⟩
  · rw [lexemes_apply]
    exact (hleft.guarded_begins _).append _
  · rw [lexemes_apply]
    apply ReadsChain.of_le (Nat.le_of_lt hlt) (by cases op <;> exact hle)
    exact .binary hop ((hleft.guarded_chain (Nat.le_of_lt hlt)).mono hheight) ((hright.guarded_chain hlt).mono hheight')

end Parse.Connective

theorem nesting_le_itemNesting {items : List Expr} {item : Expr} (h : item ∈ items)
    : item.nesting + 1 ≤ itemNesting items := by
  induction items with
  | nil => simp at h
  | cons first items ih =>
    rw [itemNesting]
    obtain rfl | h := mem_cons.mp h
    · omega
    · have := ih h
      omega

theorem nesting_le_entryNesting {fields : List (String × Expr)} {field : String × Expr}
    (h : field ∈ fields) : field.2.nesting + 1 ≤ entryNesting fields := by
  induction fields with
  | nil => simp at h
  | cons first fields ih =>
    rw [entryNesting]
    obtain rfl | h := mem_cons.mp h
    · omega
    · have := ih h
      omega

theorem reads_itemLexemes {items : List Expr} (h : ∀ item ∈ items, item.Readable) {close : Punct}
    (hclose : close ∈ [.parenClose, .bracketClose])
    : Reads (Parse.items · · close) 10 (itemNesting items)
        (commaList (itemLexemes items)) (· = some (.punct close)) items := by
  have hitems : ∀ item ∈ items.map fun item => (item.lexemes, item),
      ReadsExpression (itemNesting items) item.1 item.2 := by
    simp only [forall_mem_map]
    intro item hmem
    exact (h item hmem).readsExpression (nesting_le_itemNesting hmem)
  simpa [itemLexemes_eq_map, Function.comp_def] using reads_items hclose hitems

theorem reads_entryLexemes {fields : List (String × Expr)} (h : ∀ field ∈ fields, field.2.Readable)
    : Reads Parse.fields 1 (entryNesting fields) (commaList (entryLexemes fields))
        (· = some (.punct .braceClose)) fields := by
  have hfields : ∀ field ∈ fields.map fun field => (field.1, field.2.lexemes, field.2),
      ReadsExpression (entryNesting fields) field.2.1 field.2.2 := by
    simp only [forall_mem_map]
    intro field hmem
    exact (h field hmem).readsExpression (nesting_le_entryNesting hmem)
  have hreads := reads_fieldsAs (fun _ => takes_key_str) (fun _ => rfl) hfields
  simpa [entryLexemes_eq_map, fieldLexemesAs, Function.comp_def] using hreads

theorem Expr.Readable.access {holder : Expr} (h : holder.Readable)
    (hlexemes : tree.lexemes = parenthesized holder.lexemes ++ lexemes) (hheight : holder.nesting + 1 ≤ tree.nesting)
    (hle : height ≤ tree.nesting) (htree : Reads (accesses · · holder) 1 height lexemes Halts tree)
    : tree.Readable := by
  have hopens := opens_parenthesized holder.lexemes
  apply of_unary
  · rw [hlexemes]
    exact (hopens.append _).begins
  · rw [hlexemes]
    exact reads_unary_operand hopens (h.parens.mono hheight) (htree.mono hle)

theorem Expr.Proper.readable (h : tree.Proper numeral) : tree.Readable := by
  induction h with
  | number _ | str value | undefined | null => exact .of_atom rfl rfl
  | bool value =>
    cases value with
    | true | false => exact .of_atom rfl rfl
  | identifier hname => exact .of_atom rfl (atom?_word hname.notKeyword)
  | array _ ih =>
    apply Expr.Readable.of_primary
    · exact ⟨_, _, rfl, .inr (.inl rfl)⟩
    · exact reads_primary_array (reads_itemLexemes ih (by decide))
  | object _ ih =>
    apply Expr.Readable.of_primary
    · exact ⟨_, _, rfl, .inr (.inr (.inl rfl))⟩
    · exact reads_primary_object (reads_entryLexemes ih)
  | unary op _ ih =>
    apply Expr.Readable.of_unary
    · exact ⟨_, _, rfl, by cases op <;> decide⟩
    · exact reads_unary_op (by cases op <;> rfl) (ih.guarded_chain (Nat.le_refl _)).unary
  | binary op _ _ hleft hright => exact Connective.readable_apply (.binary op) hleft hright
  | logical op _ _ hleft hright => exact Connective.readable_apply (.logical op) hleft hright
  | @member holder property _ _ ih =>
    apply ih.access rfl (Nat.le_refl _) (Nat.zero_le _)
    exact reads_accesses_member (reads_accesses_nil _)
  | @index holder position _ _ hholder hposition =>
    apply hholder.access rfl (Nat.le_max_left ..) (Nat.le_max_right ..)
    apply reads_accesses_index hposition.expression
    exact reads_accesses_nil (.index holder position)
  | @call callee arguments _ _ hcallee harguments =>
    apply hcallee.access rfl (Nat.le_max_left ..) (Nat.le_max_right ..)
    apply reads_accesses_call (reads_itemLexemes harguments (by decide))
    exact reads_accesses_nil (.call callee arguments)
  | await _ ih =>
    apply Expr.Readable.of_unary
    · exact begins_word _ _
    · exact reads_unary_await (ih.guarded_chain (Nat.le_refl _)).unary

def Target.place : Target → Expr
  | .variable name => .identifier name
  | .element name position => .index (.identifier name) position

theorem Target.Proper.reads {target : Target} (h : target.Proper numeral)
    : Reads expression 9 target.nesting target.lexemes (HaltsAt 0) target.place := by
  cases h with
  | named hname => exact reads_expression_unary (reads_unary_name hname.notKeyword (reads_accesses_nil _))
  | element hname hposition =>
    apply reads_expression_unary
    apply reads_unary_name hname.notKeyword
    exact reads_accesses_index hposition.readable.expression (reads_accesses_nil _)

theorem Stmt.Proper.startsPlain (h : stmt.Proper numeral) (hupdate : stmt.isUpdate)
    : ∃ lexeme tail, stmt.clause = lexeme :: tail ∧ StartsPlain lexeme := by
  cases h with
  | assign op htarget _ =>
    cases htarget with
    | named hname | element hname _ =>
      exact ⟨_, _, rfl, (startsSimple_of_not_keyword hname.notKeyword).startsPlain⟩
  | expr _ =>
    refine ⟨_, _, rfl, ?_, ?_⟩
    · intros
      rfl
    · decide
  | _ => simp [Stmt.isUpdate] at hupdate

theorem Stmt.Proper.reads_clause (h : stmt.Proper numeral) (hupdate : stmt.isUpdate) {mark : Punct}
    (hmark : mark ∈ partEnds)
    : Reads simpleStatement 9 stmt.clauseNesting stmt.clause (· = some (.punct mark)) stmt := by
  cases h with
  | @assign target value op htarget hvalue =>
    apply reads_simpleStatement_assign op
      (fun start => show Parse.target start target.place = pure target by cases target <;> rfl) _ _ hmark
    · exact htarget.reads.mono (Nat.le_max_left ..)
    · exact hvalue.readable.expression.mono (Nat.le_max_right ..)
  | expr hvalue =>
    intro fits bound depth hbound hdepth
    apply takes_simpleStatement_expr _ hmark
    exact reads_expression_unary hvalue.readable.parens_unary fits bound depth hbound hdepth
  | _ => simp [Stmt.isUpdate] at hupdate

theorem reads_clause_declare {name : String} {value : Option Expr} (hname : Compile.IsName name)
    (hvalue : ∀ tree ∈ value, tree.Proper numeral)
    : ∃ tail, (Stmt.declare name value).clause = .word "let" :: tail
        ∧ Reads declaration 9 (Stmt.declare name value).clauseNesting (.word "let" :: tail)
            (· = some (.punct .semicolon)) (.declare name value) := by
  cases value with
  | none => exact ⟨_, rfl, fun _ _ _ _ _ => takes_declaration_none hname.notKeyword⟩
  | some tree =>
    exact ⟨_, rfl, reads_declaration hname.notKeyword (hvalue tree rfl).readable.expression⟩

theorem Stmt.Proper.readsStatement_clause (h : stmt.Proper numeral) (hupdate : stmt.isUpdate)
    : ReadsStatement (stmt.clauseNesting + 1) (stmt.clause ++ [.punct .semicolon]) stmt := by
  have hreads := h.reads_clause hupdate (show Punct.semicolon ∈ partEnds by decide)
  obtain ⟨lexeme, tail, heq, hplain⟩ := h.startsPlain hupdate
  rw [heq] at hreads ⊢
  exact readsStatement_simple hplain hreads

theorem Stmt.Proper.reads_initial {init : Option Stmt} (hinit : ∀ stmt ∈ init, stmt.Proper numeral)
    (hinitial : ∀ stmt ∈ init, stmt.isInitial)
    : Reads forHead.initial 9 (init.elim 0 Stmt.clauseNesting) (init.elim [] Stmt.clause)
        (· = some (.punct .semicolon)) init := by
  cases init with
  | none => exact reads_initial_none
  | some stmt =>
    have hproper := hinit stmt rfl
    have hkind := hinitial stmt rfl
    dsimp only [Option.elim_some]
    by_cases hupdate : stmt.isUpdate
    · have hreads := hproper.reads_clause hupdate (show Punct.semicolon ∈ partEnds by decide)
      obtain ⟨lexeme, tail, heq, hplain⟩ := hproper.startsPlain hupdate
      rw [heq] at hreads ⊢
      exact reads_initial_simple hplain hreads
    · cases hproper with
      | declare hname hvalue =>
        obtain ⟨tail, heq, hreads⟩ := reads_clause_declare hname hvalue
        rw [heq]
        exact reads_initial_declaration hreads
      | _ => exact absurd hkind hupdate

theorem Stmt.Proper.readsPart {update : Option Stmt} (hupdate : ∀ stmt ∈ update, stmt.Proper numeral)
    (hkind : ∀ stmt ∈ update, stmt.isUpdate)
    : ReadsPart simpleStatement .parenClose (update.elim 0 Stmt.clauseNesting) (update.elim [] Stmt.clause) update := by
  cases update with
  | none => exact .none
  | some stmt =>
    have hproper := hupdate stmt rfl
    apply ReadsPart.some _ (hproper.reads_clause (hkind stmt rfl) (by decide))
    intro next
    obtain ⟨lexeme, tail, heq, hplain⟩ := hproper.startsPlain (hkind stmt rfl)
    rw [heq]
    exact hplain.marks .parenClose (by decide)

theorem Expr.Proper.readsPart {condition : Option Expr} (h : ∀ test ∈ condition, test.Proper numeral)
    : ReadsPart expression .semicolon (condition.elim 0 fun test => test.nesting + 1)
        (condition.elim [] Expr.lexemes) condition := by
  cases condition with
  | none => exact .none
  | some test =>
    have hreadable := (h test rfl).readable
    apply ReadsPart.some _ (hreadable.expression.weaken (haltsAt_of_eq (by decide)))
    intro next
    exact hreadable.begins.isMark next (by decide)

theorem nesting_le_bodyNesting {body : List Stmt} (h : stmt ∈ body) : stmt.nesting ≤ bodyNesting body := by
  induction body with
  | nil => simp at h
  | cons first body ih =>
    rw [bodyNesting]
    obtain rfl | h := mem_cons.mp h
    · omega
    · have := ih h
      omega

def paired (body : List Stmt) : List (List Lexeme × Stmt) :=
  body.map fun stmt => (stmt.lexemes, stmt)

@[simp]
theorem map_fst_paired (body : List Stmt) : (paired body).map Prod.fst = bodyLexemes body := by
  simp [paired, bodyLexemes_eq_map, Function.comp_def]

@[simp]
theorem map_snd_paired (body : List Stmt) : (paired body).map Prod.snd = body := by
  simp [paired, Function.comp_def]

theorem readsStatement_paired {body : List Stmt} (h : ∀ stmt ∈ body, ReadsStatement stmt.nesting stmt.lexemes stmt)
    (hheight : bodyNesting body ≤ height) : ReadsAll height (paired body) := by
  unfold ReadsAll paired
  rw [forall_mem_map]
  intro stmt hmem
  exact (h stmt hmem).mono (Nat.le_trans (nesting_le_bodyNesting hmem) hheight)

theorem Stmt.Proper.readsStatement (h : stmt.Proper numeral) : ReadsStatement stmt.nesting stmt.lexemes stmt := by
  induction h with
  | declare hname hvalue =>
    obtain ⟨tail, heq, hreads⟩ := reads_clause_declare hname hvalue
    rw [Stmt.lexemes, Stmt.nesting, heq]
    exact readsStatement_declaration hreads
  | assign op htarget hvalue =>
    rw [Stmt.lexemes, Stmt.nesting]
    exact (Stmt.Proper.assign op htarget hvalue).readsStatement_clause rfl
  | expr hvalue =>
    rw [Stmt.lexemes, Stmt.nesting]
    exact (Stmt.Proper.expr hvalue).readsStatement_clause rfl
  | @ifElse condition thenBody elseBody hcondition _ _ hthen helse =>
    rw [Stmt.lexemes, Stmt.nesting]
    generalize hheight : max (condition.nesting + 1) (max (bodyNesting thenBody) (elseNesting elseBody)) = height
    have htest := hcondition.readable.expression.mono (show _ ≤ height by omega)
    have hthen := readsStatement_paired hthen (show _ ≤ height by omega)
    cases elseBody with
    | none => simpa [parenthesized, elseLexemes] using readsStatement_if_none htest hthen
    | some body =>
      rw [elseNesting] at hheight
      have helse := readsStatement_paired (helse body rfl) (show _ ≤ height by omega)
      simpa [parenthesized, elseLexemes] using readsStatement_if htest hthen helse
  | @whileLoop condition body hcondition _ hbody =>
    rw [Stmt.lexemes, Stmt.nesting]
    generalize hheight : max (condition.nesting + 1) (bodyNesting body) = height
    have htest := hcondition.readable.expression.mono (show _ ≤ height by omega)
    have hbody := readsStatement_paired hbody (show _ ≤ height by omega)
    simpa [parenthesized] using readsStatement_while htest hbody
  | @forLoop init condition update body hinitial hinit hcondition hupdates hupdate _ _ _ hbody =>
    rw [Stmt.lexemes, Stmt.nesting]
    generalize hheight : max (max (init.elim 0 Stmt.clauseNesting) (condition.elim 0 fun test => test.nesting + 1))
        (max (update.elim 0 Stmt.clauseNesting) (bodyNesting body)) = height
    have hfirst := (Stmt.Proper.reads_initial hinit hinitial).mono (show _ ≤ height by omega)
    have htest := (Expr.Proper.readsPart hcondition).mono (show _ ≤ height by omega)
    have hlast := (Stmt.Proper.readsPart hupdate hupdates).mono (show _ ≤ height by omega)
    have hbody := readsStatement_paired hbody (show _ ≤ height by omega)
    simpa using readsStatement_forLoop hfirst htest hlast hbody
  | breakLoop => exact readsStatement_break
  | continueLoop => exact readsStatement_continue
  | @returnValue value hvalue =>
    rw [Stmt.lexemes, Stmt.nesting]
    apply readsStatement_return
    intro fits bound depth hbound hdepth
    cases value with
    | none => exact takes_returned_none
    | some tree =>
      have hreadable := (hvalue tree rfl).readable
      have htakes := takes_returned_some hreadable.begins (hreadable.expression fits bound depth hbound hdepth)
      exact htakes.weaken (haltsAt_of_eq (by decide))
  | block _ hbody =>
    rw [Stmt.lexemes, Stmt.nesting]
    simpa using readsStatement_block (readsStatement_paired hbody (Nat.le_refl _))
  | function hname hparams _ hbody =>
    rw [Stmt.lexemes, Stmt.nesting]
    have hbody := readsStatement_paired hbody (Nat.le_refl _)
    simpa using readsStatement_function hname.notKeyword (fun param hmem => (hparams param hmem).notKeyword) hbody

def Program.Proper (numeral : Float → Literal) (program : Program) : Prop :=
  ∀ stmt ∈ program.body, stmt.Proper numeral

/-- The parser reads back every program that is printed, in any style. -/
theorem Program.parse_print (style : Style) (program : Program) (hproper : program.Proper style.numeral)
    (hnesting : bodyNesting program.body ≤ maxNesting)
    : Program.parse (program.print style) = .ok program := by
  have hlexes : Lexes (style.typeset (bodyLexemes program.body).flatten) (bodyLexemes program.body).flatten := by
    apply style.lexes_typeset
    show style.SpellsAll _
    rw [bodyLexemes_eq_map, Style.spellsAll_flatten, forall_mem_map]
    intro stmt hmem
    exact (hproper stmt hmem).spellsAll
  obtain ⟨stream, hscan, hstream⟩ := (show Lexes ('\n' :: (program.print style).toList) _ by
    rw [Program.print, String.toList_ofList]
    exact hlexes.lineBreak).scan
  have hreads := readsStatement_paired (fun stmt hmem => (hproper stmt hmem).readsStatement) (Nat.le_refl _)
  rw [← map_fst_paired] at hstream
  have htokens := Program.ofTokens_of_readsStatement hreads hstream hnesting
  rw [map_snd_paired] at htokens
  rw [Program.parse, hscan]
  exact htokens

def fifteenHundredths : Literal where
  whole := ['1']
  fraction := some ['5']
  exponent := some (true, ['1'])
  isDigits_whole := by decide
  isDigits_fraction := by simp [IsDigits]
  isDigits_exponent := by simp [IsDigits]

def nestedLoops : Program :=
  ⟨[.function "scale" ["x"] [.returnValue (some (.binary .multiply
        (.binary .subtract (.number fifteenHundredths.value) (.identifier "x"))
        (.unary .negate (.unary .negate (.identifier "x")))))],
    .forLoop (some (.declare "i" none))
      (some (.logical .and (.unary .not (.logical .or (.identifier "a") (.identifier "b")))
        (.call (.identifier "f") [.str "k"])))
      (some (.assign (.element "p" (.str "q")) .subtract (.await (.call (.identifier "f") [.object [("if", .null)]]))))
      [.ifElse (.binary .subtract (.identifier "a")
        (.binary .subtract (.identifier "b") (.identifier "a"))) [.breakLoop] none]]⟩

theorem Program.parse_print_nestedLoops
    : nestedLoops.Proper (fun _ => fifteenHundredths) ∧ bodyNesting nestedLoops.body ≤ maxNesting
        ∧ Program.parse (nestedLoops.print (.tight fun _ => fifteenHundredths)) = .ok nestedLoops := by
  have hname : ∀ name ∈ ["scale", "x", "i", "a", "b", "f", "p"], Compile.IsName name := by
    have hword : ∀ name ∈ ["scale", "x", "i", "a", "b", "f", "p"], IsWord name ∧ isKeyword name = false := by decide
    exact fun name hmem => ⟨(hword name hmem).1, (hword name hmem).2⟩
  have hidentifier : ∀ name ∈ ["scale", "x", "i", "a", "b", "f", "p"],
      Expr.Proper (fun _ => fifteenHundredths) (.identifier name) :=
    fun name hmem => .identifier (hname name hmem)
  have hproper : nestedLoops.Proper (fun _ => fifteenHundredths) := by
    unfold Program.Proper nestedLoops
    rw [forall_mem_cons, forall_mem_singleton]
    refine ⟨.function (hname _ (by decide)) ?_ ?_, .forLoop ?_ ?_ ?_ ?_ ?_ ?_⟩
    · simpa using hname "x" (by decide)
    · rw [forall_mem_singleton]
      refine .returnValue ?_
      rintro _ ⟨⟩
      exact .binary _ (.binary _ (.number rfl) (hidentifier _ (by decide)))
        (.unary _ (.unary _ (hidentifier _ (by decide))))
    · simp [Stmt.isInitial]
    · rintro _ ⟨⟩
      exact .declare (hname _ (by decide)) nofun
    · rintro _ ⟨⟩
      refine .logical _ (.unary _ (.logical _ ?_ ?_)) (.call ?_ ?_)
      any_goals exact hidentifier _ (by decide)
      · simpa using .str "k"
    · simp [Stmt.isUpdate]
    · rintro _ ⟨⟩
      refine .assign _ (.element (hname _ (by decide)) (.str "q")) (.await (.call ?_ ?_))
      · exact hidentifier _ (by decide)
      · rw [forall_mem_singleton]
        exact .object (by simpa using .null)
    · rw [forall_mem_singleton]
      refine .ifElse (.binary _ ?_ (.binary _ ?_ ?_)) ?_ nofun
      any_goals exact hidentifier _ (by decide)
      · simpa using .breakLoop
  have hnesting : bodyNesting nestedLoops.body ≤ maxNesting := by decide
  exact ⟨hproper, hnesting, Program.parse_print (.tight fun _ => fifteenHundredths) nestedLoops hproper hnesting⟩

end NodeScript.Script
