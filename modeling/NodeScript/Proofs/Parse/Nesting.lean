import NodeScript.Proofs.Parse.Statement
import NodeScript.Proofs.Scan

/-!
How deep the statements of a program stand inside each other. Every rule that reads a statement inside another one
counts as a level of nesting, but for the one that reads an `if` right after an `else`.
-/

namespace NodeScript.Script

open List

variable {depth : Nat} {stmt : Stmt}

def Stmt.isIf : Stmt → Bool
  | .ifElse .. => true
  | _ => false

def Stmt.elseIf? : Stmt → Option Stmt
  | .ifElse _ _ (some [stmt]) => if stmt.isIf then some stmt else none
  | _ => none

/-- The statements in the body, an arm or the else branch of a statement, but for those that go on with it as an
`else if`. -/
def Stmt.inner (stmt : Stmt) : List Stmt :=
  match stmt with
  | .ifElse _ thenBody elseBody => if stmt.elseIf?.isSome then thenBody else thenBody ++ elseBody.getD []
  | .whileLoop _ body | .forLoop _ _ _ body | .block body | .function _ _ body => body
  | _ => []

/-- The statement stands `depth` statements deep in the program, itself included, and `chained` of them are an
`else if`. -/
inductive Program.Nests (program : Program) : (depth chained : Nat) → Stmt → Prop where
  | top {stmt : Stmt} : stmt ∈ program.body → Nests program 1 0 stmt
  | inner {depth chained : Nat} {outer stmt : Stmt} :
    Nests program depth chained outer → stmt ∈ outer.inner → Nests program (depth + 1) chained stmt
  | elseIf {depth chained : Nat} {outer stmt : Stmt} :
    Nests program depth chained outer → outer.elseIf? = some stmt → Nests program (depth + 1) (chained + 1) stmt

inductive Stmt.Fits : Nat → Stmt → Prop where
  | intro {n : Nat} {stmt : Stmt} (inner : ∀ s ∈ stmt.inner, Fits n s)
    (elseIf : ∀ s, stmt.elseIf? = some s → Fits (n + 1) s) : Fits (n + 1) stmt

namespace Stmt.Fits

variable {n : Nat} {stmt : Stmt}

theorem succ (h : Fits n stmt) : Fits (n + 1) stmt := by
  induction h with
  | intro _ _ ihInner ihElseIf => exact .intro ihInner ihElseIf

theorem of_body {body : List Stmt} (h : ∀ s ∈ body, Fits n s) (hinner : stmt.inner = body)
    (helse : stmt.elseIf? = none) : Fits (n + 1) stmt := by
  refine .intro (hinner ▸ h) fun s hs => ?_
  rw [helse] at hs
  cases hs

theorem ifElse {condition : Expr} {thenBody : List Stmt} {elseBody : Option (List Stmt)}
    (hthen : ∀ s ∈ thenBody, Fits n s)
    (helse : ∀ body, elseBody = some body → (∀ s ∈ body, Fits n s) ∨ ∃ s, body = [s] ∧ s.isIf ∧ Fits (n + 1) s)
    : Fits (n + 1) (.ifElse condition thenBody elseBody) := by
  refine .intro (fun s hs => ?_) fun s hs => ?_
  · unfold inner at hs
    dsimp only at hs
    split at hs
    · exact hthen s hs
    · next hnone =>
      obtain hs | hs := mem_append.mp hs
      · exact hthen s hs
      · cases elseBody with
        | none => cases hs
        | some body =>
          obtain hbody | ⟨t, rfl, hif, -⟩ := helse body rfl
          · exact hbody s hs
          · simp [elseIf?, hif] at hnone
  · unfold elseIf? at hs
    split at hs
    · next heq =>
      cases heq
      obtain ⟨-, rfl⟩ := Option.ite_some_none_eq_some.mp hs
      obtain hbody | ⟨t, ht, -, hfits⟩ := helse _ rfl
      · exact (hbody _ mem_cons_self).succ
      · cases ht
        exact hfits
    · cases hs

end Stmt.Fits

theorem Program.Nests.fits {program : Program} {limit chained : Nat} (h : program.Nests depth chained stmt)
    (hfits : ∀ s ∈ program.body, s.Fits limit) : ∃ room, depth + room = limit + chained ∧ stmt.Fits (room + 1) := by
  induction h with
  | top hmem =>
    cases hfits _ hmem with
    | intro inner elseIf => exact ⟨_, Nat.add_comm .., .intro inner elseIf⟩
  | inner _ hmem ih =>
    obtain ⟨room, hroom, hfits⟩ := ih
    cases hfits with
    | intro inner =>
      have hinner := inner _ hmem
      cases hinner with
      | intro inner elseIf => exact ⟨_, by omega, .intro inner elseIf⟩
  | elseIf _ hsome ih =>
    obtain ⟨room, hroom, hfits⟩ := ih
    cases hfits with
    | intro _ elseIf => exact ⟨room, by omega, elseIf _ hsome⟩

namespace Parse

def Gives {α : Type} (P : α → Prop) (rule : Parse α) : Prop :=
  ∀ stream a rest, rule stream = .ok (a, rest) → P a

namespace Gives

variable {α β : Type} {P : α → Prop} {Q : β → Prop} {rule : Parse α} {f : α → Parse β}

theorem pure {a : α} (h : P a) : Gives P (Pure.pure a) := by
  rintro _ _ _ heq
  cases heq
  exact h

theorem bind (h : Gives P rule) (hf : ∀ a, P a → Gives Q (f a)) : Gives Q (rule >>= f) := by
  intro stream b rest heq
  cases hrule : rule stream with
  | error e =>
    rw [bind_error hrule] at heq
    cases heq
  | ok result =>
    rw [bind_ok hrule] at heq
    exact hf _ (h _ _ _ hrule) _ _ _ heq

theorem after (hf : ∀ a, Gives Q (f a)) : Gives Q (rule >>= f) :=
  bind (P := fun _ => True) (fun _ _ _ _ => trivial) fun a _ => hf a

theorem exceeded : Gives P (exceeded : Parse α) := by
  rintro _ _ _ heq
  cases heq

theorem nested {rule : Nat → Parse α} (h : depth < maxNesting → Gives P (rule (depth + 1)))
    : Gives P (nested depth rule) := by
  unfold Parse.nested
  split
  · rintro _ _ _ heq
    cases heq
  · next hdepth => exact h (Nat.lt_of_not_le hdepth)

end Gives

def IsFlat (stmt : Stmt) : Prop :=
  stmt.inner = [] ∧ stmt.elseIf? = none

theorem IsFlat.fits (h : IsFlat stmt) (n : Nat) : stmt.Fits (n + 1) :=
  .of_body (forall_mem_nil _) h.1 h.2

theorem gives_declaration (bound depth : Nat) : Gives IsFlat (declaration bound depth) := by
  refine .after fun _ => .after fun _ => .after fun found => ?_
  split
  · exact .after fun _ => .pure ⟨rfl, rfl⟩
  · exact .pure ⟨rfl, rfl⟩

theorem gives_simpleStatement (bound depth : Nat) : Gives IsFlat (simpleStatement bound depth) := by
  refine .after fun _ => .after fun _ => .after fun found => ?_
  split
  · exact .after fun _ => .pure ⟨rfl, rfl⟩
  · refine .after fun found => ?_
    split
    · exact .after fun _ => .pure ⟨rfl, rfl⟩
    · have hassignment : ∀ start left op, Gives IsFlat (simpleStatement.assignment bound depth start left op) :=
        fun _ _ _ => .after fun _ => .after fun _ => .pure ⟨rfl, rfl⟩
      refine .after fun found => ?_
      split
      · exact hassignment _ _ _
      · refine .after fun found => ?_
        split
        · exact hassignment _ _ _
        · refine .after fun found => ?_
          split
          · exact hassignment _ _ _
          · exact .pure ⟨rfl, rfl⟩

def AllFit (depth : Nat) (stmts : List Stmt) : Prop :=
  ∀ stmt ∈ stmts, stmt.Fits (maxNesting - depth)

structure FitsUpTo (bound : Nat) : Prop where
  statement : ∀ depth, Gives (Stmt.Fits (maxNesting - depth)) (statement bound depth)
  kind : ∀ depth, Gives (Stmt.Fits (maxNesting - depth + 1)) (statementKind bound depth)
  ifStatement : ∀ depth, Gives (fun stmt => stmt.isIf ∧ stmt.Fits (maxNesting - depth + 1)) (ifStatement bound depth)
  block : ∀ depth, Gives (AllFit depth) (block bound depth)
  blockRest : ∀ depth, Gives (AllFit depth) (blockRest bound depth)
  body : ∀ depth, Gives (AllFit depth) (body bound depth)

namespace FitsUpTo

variable {bound : Nat} (ih : FitsUpTo bound) (depth : Nat)
include ih

theorem statement_succ : Gives (Stmt.Fits (maxNesting - depth)) (Parse.statement (bound + 1) depth) := by
  unfold Parse.statement
  refine .nested fun hdepth => ?_
  rw [show maxNesting - depth = maxNesting - (depth + 1) + 1 by omega]
  exact ih.kind (depth + 1)

theorem ifStatement_succ
    : Gives (fun stmt => stmt.isIf ∧ stmt.Fits (maxNesting - depth + 1)) (Parse.ifStatement (bound + 1) depth) := by
  unfold Parse.ifStatement
  refine .after fun test => .bind (ih.body depth) fun thenBody hthen => .after fun found => ?_
  split
  · refine .after fun found => ?_
    split
    · refine .bind (ih.ifStatement depth) fun stmt hstmt => .pure ⟨rfl, .ifElse hthen ?_⟩
      rintro _ ⟨⟩
      exact .inr ⟨stmt, rfl, hstmt⟩
    · refine .bind (ih.body depth) fun elseBody helse => .pure ⟨rfl, .ifElse hthen ?_⟩
      rintro _ ⟨⟩
      exact .inl helse
  · exact .pure ⟨rfl, .ifElse hthen nofun⟩

theorem kind_succ : Gives (Stmt.Fits (maxNesting - depth + 1)) (Parse.statementKind (bound + 1) depth) := by
  have hflat : ∀ stmt, IsFlat stmt → stmt.Fits (maxNesting - depth + 1) := fun _ h => h.fits _
  unfold Parse.statementKind
  refine .after fun found => ?_
  split
  · exact .pure (hflat _ ⟨rfl, rfl⟩)
  refine .after fun found => ?_
  split
  · exact .bind (ih.block depth) fun body hbody => .pure (.of_body hbody rfl rfl)
  refine .after fun found => ?_
  split
  · exact .bind (gives_declaration bound depth) fun stmt hstmt => .after fun _ => .pure (hflat _ hstmt)
  refine .after fun found => ?_
  split
  · exact fun stream stmt rest heq => (ih.ifStatement depth stream stmt rest heq).2
  refine .after fun found => ?_
  split
  · exact .after fun _ => .bind (ih.body depth) fun body hbody => .pure (.of_body hbody rfl rfl)
  refine .after fun found => ?_
  split
  · exact .after fun _ => .bind (ih.body depth) fun body hbody => .pure (.of_body hbody rfl rfl)
  refine .after fun found => ?_
  split
  · exact .after fun _ => .pure (hflat _ ⟨rfl, rfl⟩)
  refine .after fun found => ?_
  split
  · exact .after fun _ => .pure (hflat _ ⟨rfl, rfl⟩)
  refine .after fun found => ?_
  split
  · exact .after fun _ => .after fun _ => .pure (hflat _ ⟨rfl, rfl⟩)
  refine .after fun _ => .after fun _ => ?_
  split
  · exact .after fun _ => .bind (ih.block depth) fun body hbody => .pure (.of_body hbody rfl rfl)
  · exact .bind (gives_simpleStatement bound depth) fun stmt hstmt => .after fun _ => .pure (hflat _ hstmt)

theorem block_succ : Gives (AllFit depth) (Parse.block (bound + 1) depth) := by
  unfold Parse.block
  exact .after fun _ => ih.blockRest depth

theorem blockRest_succ : Gives (AllFit depth) (Parse.blockRest (bound + 1) depth) := by
  unfold Parse.blockRest
  refine .after fun found => ?_
  split
  · exact .pure (forall_mem_nil _)
  refine .after fun ended => ?_
  split
  · rintro _ _ _ heq
    cases heq
  · exact .bind (ih.statement depth) fun stmt hstmt => .bind (ih.blockRest depth) fun rest hrest =>
      .pure (forall_mem_cons.mpr ⟨hstmt, hrest⟩)

theorem body_succ : Gives (AllFit depth) (Parse.body (bound + 1) depth) := by
  unfold Parse.body
  refine .after fun found => ?_
  split
  · exact ih.block depth
  · exact .bind (ih.statement depth) fun stmt hstmt => .pure (forall_mem_singleton.mpr hstmt)

end FitsUpTo

theorem fitsUpTo (bound : Nat) : FitsUpTo bound := by
  induction bound with
  | zero =>
    constructor
    all_goals
      intro depth
      simp only [statement, statementKind, ifStatement, block, blockRest, body]
      exact .exceeded
  | succ bound ih =>
    exact
      { statement := ih.statement_succ
        kind := ih.kind_succ
        ifStatement := ih.ifStatement_succ
        block := ih.block_succ
        blockRest := ih.blockRest_succ
        body := ih.body_succ }

theorem gives_statements (bound : Nat) : Gives (AllFit 0) (statements bound) := by
  induction bound with
  | zero => exact .exceeded
  | succ bound ih =>
    unfold statements
    refine .after fun ended => ?_
    split
    · exact .pure (forall_mem_nil _)
    · exact .bind ((fitsUpTo bound).statement 0) fun stmt hstmt => .bind ih fun rest hrest =>
        .pure (forall_mem_cons.mpr ⟨hstmt, hrest⟩)

end Parse

/-- Statements stand at most `maxNesting` deep in a program that was parsed, not counting those that are an
`else if`. -/
theorem Program.nests_le_of_parse {source : String} {program : Program} (h : Program.parse source = .ok program)
    {depth chained : Nat} {stmt : Stmt} (hstmt : program.Nests depth chained stmt)
    : depth ≤ maxNesting + chained := by
  have hfits : Parse.AllFit 0 program.body := by
    unfold Program.parse at h
    cases hscan : TokenStream.scan source with
    | error e =>
      rw [hscan] at h
      cases h
    | ok stream =>
      rw [hscan] at h
      change Program.ofTokens stream = _ at h
      unfold Program.ofTokens at h
      cases hrun : Parse.statements stream.bound stream with
      | error e =>
        rw [hrun] at h
        cases h
      | ok result =>
        rw [hrun] at h
        cases h
        exact Parse.gives_statements _ _ _ _ hrun
  obtain ⟨room, hroom, -⟩ := hstmt.fits hfits
  exact Nat.le.intro hroom

def elseIfText : Nat → List Char
  | 0 => ['(', 'a', ')', ';']
  | n + 1 => '(' :: 'a' :: ')' :: ';' :: ("else".toList ++ ' ' :: ("if".toList ++ elseIfText n))

def elseIfLexemes : Nat → List Lexeme
  | 0 => [.punct .parenOpen, .word "a", .punct .parenClose, .punct .semicolon]
  | n + 1 => .punct .parenOpen :: .word "a" :: .punct .parenClose :: .punct .semicolon :: .word "else" :: .word "if"
    :: elseIfLexemes n

def elseIfs : Nat → Stmt
  | 0 => .ifElse (.identifier "a") [.block []] none
  | n + 1 => .ifElse (.identifier "a") [.block []] (some [elseIfs n])

theorem endsWord_elseIfText (n : Nat) : EndsWord (elseIfText n) := by
  cases n <;> rfl

theorem lexes_elseIfText (n : Nat) : Lexes (elseIfText n) (elseIfLexemes n) := by
  have hhead : ∀ {rest lexemes}, Lexes rest lexemes → Lexes ('(' :: 'a' :: ')' :: ';' :: rest)
      (.punct .parenOpen :: .word "a" :: .punct .parenClose :: .punct .semicolon :: lexemes) := by
    intro rest lexemes h
    have hclose : Lexes (')' :: ';' :: rest) (.punct .parenClose :: .punct .semicolon :: lexemes) :=
      (h.single (by decide)).single (by decide)
    exact (hclose.word (isWord_iff.mpr (by decide) : IsWord "a") rfl).single (by decide)
  induction n with
  | zero => exact hhead .nil
  | succ n ih =>
    have hif := ih.word (isWord_iff.mpr (by decide) : IsWord "if") (endsWord_elseIfText n)
    exact hhead (hif.space.word (isWord_iff.mpr (by decide) : IsWord "else") rfl)

namespace Parse

theorem takes_elseIf {fits : Prop} {bound : Nat} {lexemes : List Lexeme} {rest : Expr → List Stmt → Parse Stmt}
    (hbound : 25 ≤ bound) (hdepth : fits → depth + 1 ≤ maxNesting)
    (hrest : Takes fits (rest (.identifier "a") [.block []]) lexemes NoElse stmt)
    : Takes fits (condition bound depth >>= fun test => body bound depth >>= rest test)
        (.punct .parenOpen :: .word "a" :: .punct .parenClose :: .punct .semicolon :: lexemes) NoElse stmt := by
  obtain ⟨bound, rfl⟩ : ∃ b, bound = b + 3 := ⟨bound - 3, by omega⟩
  have hbody : Takes fits (body (bound + 3) depth) [.punct .semicolon] anything [.block []] := by
    rw [body]
    apply Takes.look (takes_check _ false) fun _ _ => rfl
    refine .last ?_ .pure
    rw [statement]
    refine takes_nested hdepth fun _ => ?_
    rw [statementKind]
    exact .cons (takes_eat _) .pure
  have hname : Reads unary 1 0 _ Halts _ := reads_unary_name (show isKeyword "a" = false by decide) (reads_accesses_nil _)
  exact takes_condition (reads_expression_unary hname fits _ depth hbound hdepth) (.bind hbody hrest fun _ _ => trivial)

theorem reads_elseIfs (n : Nat) : Reads ifStatement 0 1 (elseIfLexemes n) NoElse (elseIfs n) := by
  induction n with
  | zero =>
    intro fits bound depth hbound hdepth
    simp only [elseIfLexemes, length_cons] at hbound
    obtain ⟨bound, rfl⟩ : ∃ b, bound = b + 1 := ⟨bound - 1, by omega⟩
    rw [ifStatement]
    refine takes_elseIf (by omega) hdepth ?_
    exact .look (takes_eatWord_none "else") (fun _ h => h) .pure
  | succ n ih =>
    intro fits bound depth hbound hdepth
    simp only [elseIfLexemes, length_cons] at hbound
    obtain ⟨bound, rfl⟩ : ∃ b, bound = b + 1 := ⟨bound - 1, by omega⟩
    rw [ifStatement]
    refine takes_elseIf (by omega) hdepth ?_
    apply Takes.cons (takes_eatWord "else")
    apply Takes.cons (takes_eatWord "if")
    exact .last (ih fits _ depth (by omega) hdepth) .pure

end Parse

theorem parse_elseIfs (n : Nat) : Program.parse (String.ofList ("if".toList ++ elseIfText n)) = .ok ⟨[elseIfs n]⟩ := by
  have hlexes := (lexes_elseIfText n).word (isWord_iff.mpr (by decide) : IsWord "if") (endsWord_elseIfText n)
  rw [← String.toList_ofList (l := "if".toList ++ _)] at hlexes
  obtain ⟨stream, hscan, hlexemes⟩ := hlexes.lineBreak.scan
  have hstatement : Parse.ReadsStatement 2 (.word "if" :: elseIfLexemes n) (elseIfs n) := by
    apply Parse.ReadsStatement.of_kind (Parse.startsStatement_word (by decide)) fun _ h => h
    intro fits bound depth hbound hdepth
    apply Parse.Takes.step fun _ _ _ => Parse.statementKind_if
    exact Parse.reads_elseIfs n fits bound depth (by omega) hdepth
  have hstmts : ∀ stmt ∈ [(.word "if" :: elseIfLexemes n, elseIfs n)], Parse.ReadsStatement 2 stmt.1 stmt.2 :=
    forall_mem_singleton.mpr hstatement
  unfold Program.parse
  rw [hscan]
  exact Program.ofTokens_of_readsStatement hstmts (by simpa using hlexemes) (by decide)

theorem nests_elseIfs (n : Nat) : ∀ k ≤ n, Program.Nests ⟨[elseIfs n]⟩ (k + 1) k (elseIfs (n - k)) := by
  intro k hk
  induction k with
  | zero => exact .top mem_cons_self
  | succ k ih =>
    refine .elseIf (ih (by omega)) ?_
    obtain ⟨m, hm⟩ : ∃ m, n - k = m + 1 := ⟨n - k - 1, by omega⟩
    rw [hm, show n - (k + 1) = m by omega, elseIfs, Stmt.elseIf?, if_pos (by cases m <;> rfl)]

theorem Program.nests_le_of_parse_elseIfs
    : Program.parse (String.ofList ("if".toList ++ elseIfText maxNesting)) = .ok ⟨[elseIfs maxNesting]⟩
      ∧ Program.Nests ⟨[elseIfs maxNesting]⟩ (maxNesting + 1) maxNesting (elseIfs 0)
      ∧ maxNesting + 1 ≤ maxNesting + maxNesting := by
  have hparse := parse_elseIfs maxNesting
  have hnests := nests_elseIfs maxNesting maxNesting (Nat.le_refl _)
  rw [Nat.sub_self] at hnests
  exact ⟨hparse, hnests, Program.nests_le_of_parse hparse hnests⟩

theorem Program.elseIfs_exceed_maxNesting : ∃ source program stmt, Program.parse source = .ok program
        ∧ program.Nests (maxNesting + 2) (maxNesting + 1) stmt :=
  ⟨_, _, _, parse_elseIfs (maxNesting + 1), nests_elseIfs (maxNesting + 1) (maxNesting + 1) (Nat.le_refl _)⟩

end NodeScript.Script
