import NodeScript.Proofs.Parse.Expression

/-!
Where a rule for expressions succeeds, the tokens that it has taken are read as what it has found wherever they stand:
in front of other tokens, with other bounds, and inside of fewer levels.
-/

namespace NodeScript.Script.Parse

open List

variable {α β : Type}

/-- Where the rule succeeds, the lexemes that it has taken and what it yields satisfy `Q`. -/
def Yields (rule : Parse α) (Q : List Lexeme → α → Prop) : Prop :=
  ∀ stream a rest, rule stream = .ok (a, rest)
    → ∃ taken, stream = ⟨taken ++ rest.tokens, rest.endLine⟩ ∧ Q (taken.map Token.lexeme) a

namespace Yields

variable {rule : Parse α} {Q Q' : List Lexeme → α → Prop}

theorem mono (h : Yields rule Q) (hQ : ∀ l a, Q l a → Q' l a) : Yields rule Q' := by
  intro stream a rest heq
  obtain ⟨taken, htaken, hl⟩ := h stream a rest heq
  exact ⟨taken, htaken, hQ _ _ hl⟩

theorem pure {a : α} (h : Q [] a) : Yields (Pure.pure a) Q := by
  rintro stream _ _ ⟨⟩
  exact ⟨[], rfl, h⟩

theorem fails (h : ∀ stream r, rule stream ≠ .ok r) : Yields rule Q :=
  fun _ _ _ heq => absurd heq (h _ _)

theorem unexpected (expected : Expectation) : Yields (Parse.unexpected expected) Q :=
  fails (by rintro ⟨_ | _, _⟩ _ ⟨⟩)

theorem bind {f : α → Parse β} {R : List Lexeme → β → Prop} (h : Yields rule Q)
    (hf : ∀ l a, Q l a → Yields (f a) fun l' => R (l ++ l')) : Yields (rule >>= f) R := by
  intro stream b rest heq
  cases hrule : rule stream with
  | error e => cases (bind_error hrule).symm.trans heq
  | ok found =>
    obtain ⟨taken, rfl, hl⟩ := h stream _ _ hrule
    obtain ⟨taken', htaken', hl'⟩ := hf _ _ hl _ b rest ((bind_ok hrule).symm.trans heq)
    refine ⟨taken ++ taken', ?_, map_append ▸ hl'⟩
    rw [htaken', append_assoc]

theorem test {p : Option Lexeme → α} {took : α → Bool} (ht : Tests rule p took)
    (htook : ∀ lexeme, took (p (some lexeme)) = true → Q [lexeme] (p (some lexeme)))
    (hleft : ∀ a, took a = false → Q [] a) : Yields rule Q := by
  rintro ⟨tokens, endLine⟩ _ _ heq
  rw [ht.eq] at heq
  cases heq
  split
  · next h =>
    cases tokens with
    | nil => cases h.symm.trans ht.none
    | cons token tokens => exact ⟨[token], rfl, htook _ h⟩
  · next h => exact ⟨[], rfl, hleft _ (Bool.not_eq_true _ ▸ h)⟩

theorem peek {g : Option Lexeme → Parse α} (hnone : ∀ stream r, g none stream ≠ .ok r)
    (h : ∀ lexeme, (∀ stream r, g (some lexeme) stream ≠ .ok r)
      ∨ ∃ f : Parse α, g (some lexeme) = (skip >>= fun _ => f) ∧ Yields f fun l => Q (lexeme :: l))
    : Yields (peek >>= g) Q := by
  rintro ⟨_ | ⟨token, tokens⟩, endLine⟩ a rest heq
  · exact absurd heq (hnone _ _)
  · obtain hfails | ⟨f, hf, hyields⟩ := h token.lexeme
    · exact absurd heq (hfails _ _)
    · change g (some token.lexeme) _ = _ at heq
      rw [hf] at heq
      obtain ⟨taken, htaken, hl⟩ := hyields _ _ _ heq
      cases htaken
      exact ⟨token :: taken, rfl, hl⟩

theorem nested {rule : Nat → Parse α} {d h : Nat} (hd : d + h = maxNesting)
    (hrule : ∀ k, h = k + 1 → d + 1 + k = maxNesting → Yields (rule (d + 1)) Q) : Yields (nested d rule) Q := by
  unfold Parse.nested
  split
  · exact fails (by rintro _ _ ⟨⟩)
  · next hdeep => exact hrule (h - 1) (by omega) (by omega)

theorem branch {t : Parse Bool} {p : Option Lexeme → Bool} {took : Bool → Bool} (ht : Tests t p took) {x y : Parse α}
    (hx : ∀ lexeme, took true = true → p (some lexeme) = true → Yields x fun l => Q (lexeme :: l))
    (hx' : took true = false → Yields x Q) (hy : Yields y Q) (hfalse : took false = false := by rfl)
    : Yields (t >>= fun c => if c = true then x else y) Q := by
  refine bind (Q := fun l found => Yields (if found = true then x else y) fun l' => Q (l ++ l')) (test ht ?_ ?_)
    fun _ _ h => h
  · intro lexeme htook
    cases hp : p (some lexeme) with
    | false => cases (hp ▸ htook).symm.trans hfalse
    | true => exact hx lexeme (hp ▸ htook) hp
  · rintro (_ | _) htook
    · exact hy
    · exact hx' htook

theorem eat {mark : Punct} {x y : Parse α} (hx : Yields x fun l => Q (.punct mark :: l)) (hy : Yields y Q)
    : Yields (eat mark >>= fun c => if c = true then x else y) Q := by
  refine branch (tests_eat mark) (fun lexeme _ h => ?_) (by rintro ⟨⟩) hy
  cases lexeme with
  | punct found => exact of_decide_eq_true h ▸ hx
  | _ => cases h

theorem expect (mark : Punct) : Yields (expect mark) fun l _ => l = [.punct mark] :=
  eat (pure rfl) (unexpected _)

theorem operator {meaning : Punct → Option α} {rule : Parse (Option α)}
    (ht : Tests rule (markOf? meaning) Option.isSome)
    : Yields rule fun l found => (∃ mark op, meaning mark = some op ∧ found = some op ∧ l = [.punct mark])
      ∨ found = none ∧ l = [] := by
  refine test ht (fun lexeme h => .inl ?_) fun found h => .inr ⟨Option.not_isSome_iff_eq_none.mp (by simp [h]), rfl⟩
  cases lexeme with
  | punct mark =>
    obtain ⟨op, hop⟩ := Option.isSome_iff_exists.mp h
    exact ⟨mark, op, hop, hop, rfl⟩
  | _ => cases h

theorem property : Yields property fun l name => l = [.word name] := by
  refine peek (by rintro _ _ ⟨⟩) fun lexeme => ?_
  cases lexeme with
  | word text => exact .inr ⟨_, rfl, pure rfl⟩
  | _ => exact .inl (by rintro ⟨_ | ⟨_, _ | _⟩, _⟩ _ ⟨⟩)

theorem key : Yields key fun l name => ∃ lexeme, l = [lexeme] ∧ isMark .braceClose (some lexeme) = false
    ∧ ∀ fits : Prop, Takes fits key [lexeme] anything name := by
  refine peek (by rintro _ _ ⟨⟩) fun lexeme => ?_
  cases lexeme with
  | punct mark => exact .inl (by rintro ⟨_ | ⟨_, _ | _⟩, _⟩ _ ⟨⟩)
  | _ => exact .inr ⟨_, rfl, pure ⟨_, rfl, rfl, fun _ => .one fun _ _ _ => rfl⟩⟩

end Yields

variable {b d h level : Nat}

structure YieldsAt (b d h : Nat) : Prop where
  expression : Yields (expression b d) (ReadsExpression h)
  chain : ∀ {level}, level ≤ levels → Yields (chain b d level) fun l tree => Begins l ∧ ReadsChain level h l tree
  chainRest : ∀ {level}, level < levels → ∀ left, Yields (chainRest b d level left) fun l tree =>
    GoesOnAt level l ∧ Resumes (chainRest · · level left) 1 level h l tree
  unary : Yields (unary b d) fun l tree => Begins l ∧ Reads unary 1 h l Halts tree
  accesses head : Yields (accesses b d head) (Reads (accesses · · head) 1 h · Halts)
  items {close} : close ∈ [.parenClose, .bracketClose]
    → Yields (items b d close) (Reads (items · · close) 10 h · (· = some (.punct close)))
  fields : Yields (fields b d) (Reads fields 1 h · (· = some (.punct .braceClose)))
  primary : Yields (primary b d) fun l tree => Opens l ∧ Reads primary 0 h l anything tree

namespace YieldsAt

variable (ih : YieldsAt b d h)
include ih

theorem chainRest_succ (hlevel : level < levels) (left : Expr)
    : Yields (Parse.chainRest (b + 1) d level left) fun l tree =>
        GoesOnAt level l ∧ Resumes (Parse.chainRest · · level left) 1 level h l tree := by
  rw [Parse.chainRest]
  refine .bind (.operator (tests_connective level)) ?_
  rintro _ _ (⟨mark, op, hop, rfl, rfl⟩ | ⟨rfl, rfl⟩)
  · refine .bind (ih.chain hlevel) fun l right hl => (ih.chainRest hlevel _).mono ?_
    rintro l' tree ⟨hl', hrest⟩
    refine ⟨.inr ⟨mark, l ++ l', rfl, hop ▸ rfl⟩, fun hheight hmore hwhole => ?_⟩
    rw [singleton_append, cons_append, append_assoc]
    exact reads_chainRest_cons hop (hl'.append hmore) (hl.2.operand.mono hheight) (hrest hheight hmore hwhole)
  · exact .pure ⟨.inl rfl, fun _ _ hwhole => hwhole⟩

theorem accesses_succ (head : Expr)
    : Yields (Parse.accesses (b + 1) d head) (Reads (Parse.accesses · · head) 1 h · Halts) := by
  rw [Parse.accesses]
  refine .eat ?_ (.eat ?_ (.eat ?_ (.pure (reads_accesses_nil head))))
  · refine .bind .property ?_
    rintro _ name rfl
    exact (ih.accesses _).mono fun _ _ hl => reads_accesses_member hl
  · refine .bind ih.expression fun l position hl => .bind (.expect _) ?_
    rintro _ _ rfl
    exact (ih.accesses _).mono fun _ _ hl' => reads_accesses_index hl.reads hl'
  · refine .bind (ih.items (by decide)) fun l arguments hl => .bind (.expect _) ?_
    rintro _ _ rfl
    exact (ih.accesses _).mono fun _ _ hl' => reads_accesses_call hl hl'

theorem items_succ {close : Punct} (hclose : close ∈ [.parenClose, .bracketClose])
    : Yields (Parse.items (b + 1) d close) (Reads (Parse.items · · close) 10 h · (· = some (.punct close))) := by
  have hcloser : close ∈ closers := by
    revert hclose
    cases close <;> decide
  rw [Parse.items]
  refine .branch (tests_check close) (by rintro _ ⟨⟩) (fun _ => .pure (reads_items_nil close)) ?_
  refine .bind ih.expression fun l item hl => ?_
  have hfirst := fun next => hl.begins.isMark next hcloser
  refine .eat (.bind (ih.items hclose) fun l' rest hl' => .pure ?_) (.pure ?_)
  · obtain ⟨lexeme, tail, rfl, -⟩ := hl.begins
    rw [append_nil]
    exact reads_items_cons hfirst hl.reads hl' (cons_ne_nil _ _)
  · rw [append_nil]
    exact reads_items_last hclose hfirst hl.reads

theorem fields_succ : Yields (Parse.fields (b + 1) d) (Reads Parse.fields 1 h · (· = some (.punct .braceClose))) := by
  rw [Parse.fields]
  refine .branch (tests_check _) (by rintro _ ⟨⟩) (fun _ => .pure reads_fields_nil) (.bind .key ?_)
  rintro _ name ⟨lexeme, rfl, hfirst, hkey⟩
  refine .bind (.expect _) ?_
  rintro _ _ rfl
  refine .bind ih.expression fun l value hl => .eat (.bind ih.fields fun l' rest hl' => .pure ?_) (.pure ?_)
  · rw [append_nil]
    exact reads_fields_cons hfirst hkey hl.reads hl'
  · rw [append_nil]
    exact reads_fields_last hfirst hkey hl.reads

theorem primary_succ
    : Yields (Parse.primary (b + 1) d) fun l tree => Opens l ∧ Reads Parse.primary 0 h l anything tree := by
  have hatom : ∀ {lexeme tree}, atom? lexeme = some tree
      → Opens [lexeme] ∧ Reads Parse.primary 0 h [lexeme] anything tree :=
    fun hatom => ⟨⟨_, _, rfl, .inr (.inr (.inr (hatom ▸ rfl)))⟩, reads_primary_atom hatom⟩
  rw [Parse.primary]
  refine .peek (by rintro _ _ ⟨⟩) fun lexeme => ?_
  generalize hnext : some lexeme = next
  split
  case h_3 =>
    cases hnext
    refine .inr ⟨_, rfl, .bind ih.expression fun l inner hl => .bind (.expect _) ?_⟩
    rintro _ _ rfl
    exact .pure ⟨⟨_, _, rfl, .inl rfl⟩, reads_primary_paren hl.reads⟩
  case h_4 =>
    cases hnext
    refine .inr ⟨_, rfl, .bind (ih.items (by decide)) fun l elements hl => .bind (.expect _) ?_⟩
    rintro _ _ rfl
    exact .pure ⟨⟨_, _, rfl, .inr (.inl rfl)⟩, reads_primary_array hl⟩
  case h_5 =>
    cases hnext
    refine .inr ⟨_, rfl, .bind ih.fields fun l entries hl => .bind (.expect _) ?_⟩
    rintro _ _ rfl
    exact .pure ⟨⟨_, _, rfl, .inr (.inr (.inl rfl))⟩, reads_primary_object hl⟩
  case h_10 =>
    cases hnext
    split
    · exact .inl (by rintro ⟨_ | _, _⟩ _ ⟨⟩)
    · next hkeyword => exact .inr ⟨_, rfl, .pure (hatom (atom?_word (Bool.not_eq_true _ ▸ hkeyword)))⟩
  case h_11 => exact .inl (by rintro ⟨_ | _, _⟩ _ ⟨⟩)
  all_goals
    cases hnext
    exact .inr ⟨_, rfl, .pure (hatom rfl)⟩

end YieldsAt

theorem yieldsAt (hd : d + h = maxNesting) : YieldsAt b d h := by
  induction b generalizing d h with
  | zero =>
    constructor
    all_goals
      intros
      simp only [expression, chain, chainRest, unary, accesses, items, fields, primary]
      exact .fails (by rintro ⟨_ | _, _⟩ _ ⟨⟩)
  | succ b ih =>
    constructor
    case expression =>
      rw [expression]
      refine .nested hd ?_
      rintro h rfl hd'
      exact ((ih hd').chain (Nat.zero_le _)).mono fun _ _ hl => ⟨hl.1, reads_expression hl.2.reads⟩
    case chain =>
      intro level hlevel
      rw [chain]
      split
      · next hlt =>
        refine .bind ((ih hd).chain hlt) fun l left hl => ((ih hd).chainRest hlt left).mono ?_
        exact fun l' tree hl' => ⟨hl.1.append l', .append hlt hl.2 hl'.1 hl'.2⟩
      · next hlt =>
        obtain rfl : level = levels := Nat.le_antisymm hlevel (Nat.le_of_not_lt hlt)
        exact (ih hd).unary.mono fun _ _ hl => ⟨hl.1, .of_unary hlevel hl.2⟩
    case unary =>
      have hnested : Yields (nested d fun depth => unary b depth) fun l tree => ∃ k, h = k + 1 ∧ Reads unary 1 k l Halts tree :=
        .nested hd fun k hk hd' => (ih hd').unary.mono fun _ _ hl => ⟨k, hk, hl.2⟩
      rw [unary]
      refine .bind (.operator tests_unaryOp) ?_
      rintro _ _ (⟨mark, op, hop, rfl, rfl⟩ | ⟨rfl, rfl⟩)
      · refine .bind hnested ?_
        rintro l operand ⟨k, rfl, hl⟩
        have hbegins : unaryOp? mark ≠ none → ∀ tail, Begins (.punct mark :: tail) := by
          intro hmark tail
          refine ⟨_, _, rfl, ?_⟩
          revert hmark
          cases mark <;> decide
        refine .pure ⟨hbegins (by simp [hop]) _, ?_⟩
        rw [append_nil]
        exact reads_unary_op hop hl
      · refine .branch (tests_eatWord "await") (fun lexeme _ hword => ?_) (by rintro ⟨⟩) ?_
        · refine .bind hnested ?_
          rintro l operand ⟨k, rfl, hl⟩
          obtain rfl : lexeme = .word "await" := by
            cases lexeme with
            | word found => exact congrArg _ (of_decide_eq_true hword)
            | _ => cases hword
          refine .pure ⟨begins_word _ _, ?_⟩
          rw [append_nil]
          exact reads_unary_await hl
        · refine .bind (ih hd).primary fun l head hl => ((ih hd).accesses head).mono fun l' tree hl' => ?_
          have hreads := reads_unary_operand hl.1 hl.2 hl'
          exact ⟨(hl.1.append l').begins, hreads⟩
    case chainRest => exact (ih hd).chainRest_succ
    case accesses => exact (ih hd).accesses_succ
    case items => exact (ih hd).items_succ
    case fields => exact (ih hd).fields_succ
    case primary => exact (ih hd).primary_succ

end NodeScript.Script.Parse
