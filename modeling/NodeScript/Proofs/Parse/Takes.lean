import Mathlib.Data.List.Basic
import NodeScript.Script.Grammar

/-!
What the rules of the grammar make of given lexemes, whatever tokens come after them.
-/

namespace NodeScript.Script.Parse

open List

variable {α β : Type} {lexeme : Lexeme}

theorem bind_ok {x : Parse α} {f : α → Parse β} {stream stream' : TokenStream} {a : α}
    (h : x stream = .ok (a, stream')) : (x >>= f) stream = f a stream' := by
  simp only [bind, StateT.bind, h, Except.bind]

theorem bind_error {x : Parse α} {f : α → Parse β} {stream : TokenStream} {e : SyntaxError}
    (h : x stream = .error e) : (x >>= f) stream = .error e := by
  simp only [bind, StateT.bind, h, Except.bind]

def upcoming (lexemes : List Lexeme) (next : Option Lexeme) : Option Lexeme :=
  lexemes.head?.or next

@[simp]
theorem upcoming_cons (lexeme : Lexeme) (lexemes : List Lexeme) (next : Option Lexeme)
    : upcoming (lexeme :: lexemes) next = some lexeme := rfl

@[simp]
theorem upcoming_nil (next : Option Lexeme) : upcoming [] next = next := rfl

/-- The rule takes tokens for the lexemes and yields `a`, if what comes next is as it should be. Unless all `fits`,
it may fail instead. -/
def Takes (fits : Prop) (rule : Parse α) (lexemes : List Lexeme) (follow : Option Lexeme → Prop) (a : α) : Prop :=
  ∀ tokens rest endLine, tokens.map Token.lexeme = lexemes → follow (rest.head?.map Token.lexeme)
    → rule ⟨tokens ++ rest, endLine⟩ = .ok (a, ⟨rest, endLine⟩)
      ∨ ¬ fits ∧ ∃ e, rule ⟨tokens ++ rest, endLine⟩ = .error e

variable {fits : Prop}

def anything : Option Lexeme → Prop := fun _ => True

namespace Takes

variable {rule : Parse α} {lexemes lexemes' : List Lexeme} {follow follow' : Option Lexeme → Prop}
  {a : α} {b : β} {f : α → Parse β}

theorem pure : Takes fits (Pure.pure a : Parse α) [] follow a := by
  intro tokens rest endLine htokens _
  rw [map_eq_nil_iff.mp htokens]
  exact .inl rfl

theorem bind (hrule : Takes fits rule lexemes follow a) (hf : Takes fits (f a) lexemes' follow' b)
    (hfollow : ∀ next, follow' next → follow (upcoming lexemes' next))
    : Takes fits (rule >>= f) (lexemes ++ lexemes') follow' b := by
  intro tokens rest endLine htokens hnext
  obtain ⟨tokens₁, tokens₂, rfl, hfirst, hsecond⟩ := map_eq_append_iff.mp htokens
  have hupcoming : follow ((tokens₂ ++ rest).head?.map Token.lexeme) := by
    have := hfollow _ hnext
    rw [← hsecond] at this
    cases tokens₂ with
    | nil | cons token tokens₂ => exact this
  rw [append_assoc]
  obtain hok | ⟨hfits, e, herror⟩ := hrule _ _ endLine hfirst hupcoming
  · rw [bind_ok hok]
    exact hf _ _ _ hsecond hnext
  · exact .inr ⟨hfits, e, bind_error herror⟩

theorem cons (hrule : Takes fits rule [lexeme] anything a) (hf : Takes fits (f a) lexemes follow b)
    : Takes fits (rule >>= f) (lexeme :: lexemes) follow b :=
  bind hrule hf fun _ _ => trivial

theorem last (hrule : Takes fits rule lexemes follow a) (hf : Takes fits (f a) [] follow b)
    : Takes fits (rule >>= f) lexemes follow b := by
  rw [← append_nil lexemes]
  exact bind hrule hf fun _ h => h

theorem look (hrule : Takes fits rule [] follow' a) (hfollow : ∀ next, follow next → follow' (upcoming lexemes next))
    (hf : Takes fits (f a) lexemes follow b) : Takes fits (rule >>= f) lexemes follow b :=
  bind hrule hf hfollow

theorem weaken (h : Takes fits rule lexemes follow a) (hfollow : ∀ next, follow' next → follow next)
    : Takes fits rule lexemes follow' a :=
  fun tokens rest endLine htokens hnext => h tokens rest endLine htokens (hfollow _ hnext)

theorem one (h : ∀ line rest endLine, rule ⟨⟨lexeme, line⟩ :: rest, endLine⟩ = .ok (a, ⟨rest, endLine⟩))
    : Takes fits rule [lexeme] anything a := by
  intro tokens rest endLine htokens _
  obtain ⟨⟨_, line⟩, tail, rfl, rfl, htail⟩ := map_eq_cons_iff.mp htokens
  rw [map_eq_nil_iff.mp htail]
  exact .inl (h line rest endLine)

theorem step {rule' : Parse α}
    (heq : ∀ line rest endLine, rule ⟨⟨lexeme, line⟩ :: rest, endLine⟩ = rule' ⟨rest, endLine⟩)
    (h : Takes fits rule' lexemes follow a) : Takes fits rule (lexeme :: lexemes) follow a := by
  intro tokens rest endLine htokens hnext
  obtain ⟨⟨_, line⟩, tail, rfl, rfl, htail⟩ := map_eq_cons_iff.mp htokens
  rw [cons_append, heq]
  exact h tail rest endLine htail hnext

end Takes

def isMark (mark : Punct) : Option Lexeme → Bool
  | some (.punct found) => found = mark
  | _ => false

def isWord (word : String) : Option Lexeme → Bool
  | some (.word found) => found = word
  | _ => false

structure Tests (rule : Parse α) (p : Option Lexeme → α) (took : α → Bool) : Prop where
  eq : ∀ tokens endLine, rule ⟨tokens, endLine⟩ = .ok (p (tokens.head?.map Token.lexeme),
        ⟨if took (p (tokens.head?.map Token.lexeme)) then tokens.tail else tokens, endLine⟩)
  none : took (p none) = false

namespace Tests

variable {rule : Parse α} {p : Option Lexeme → α} {took : α → Bool} (h : Tests rule p took)
include h

theorem takes (htook : took (p (some lexeme)) = true) : Takes fits rule [lexeme] anything (p (some lexeme)) :=
  .one fun line rest endLine => by rw [h.eq]; simp [htook]

theorem takes_none {a : α} (htook : took a = false) : Takes fits rule [] (fun next => p next = a) a := by
  intro tokens rest endLine htokens hnext
  rw [map_eq_nil_iff.mp htokens, nil_append, h.eq, hnext, htook]
  exact .inl rfl

theorem look {β δ : Type} {rule' : Parse β} {p' : Option Lexeme → β} {taken : β → Bool} (h' : Tests rule' p' taken)
    (htook : ∀ a, took a = false) (htaken : ∀ b, taken b = false) (f : α → β → δ)
    : Tests (rule >>= fun a => rule' >>= fun b => Pure.pure (f a b)) (fun next => f (p next) (p' next))
        (fun _ => false) where
  eq tokens endLine := by
    rw [bind_ok (h.eq tokens endLine), bind_ok (h'.eq _ endLine), htook, htaken]
    rfl
  none := rfl

end Tests

theorem tests_peek : Tests peek id fun _ => false :=
  ⟨fun _ _ => rfl, rfl⟩

theorem tests_check (mark : Punct) : Tests (check mark) (isMark mark) fun _ => false where
  eq tokens endLine := by rcases tokens with _ | ⟨⟨_ | _ | _ | _, _⟩, _⟩ <;> rfl
  none := rfl

theorem tests_checkWord (word : String) : Tests (checkWord word) (isWord word) fun _ => false where
  eq tokens endLine := by rcases tokens with _ | ⟨⟨_ | _ | _ | _, _⟩, _⟩ <;> rfl
  none := rfl

theorem tests_atEnd : Tests atEnd Option.isNone fun _ => false where
  eq tokens endLine := by cases tokens <;> rfl
  none := rfl

theorem tests_eat (mark : Punct) : Tests (eat mark) (isMark mark) id where
  eq tokens endLine := by
    rw [eat, bind_ok ((tests_check mark).eq tokens endLine)]
    cases isMark mark (tokens.head?.map Token.lexeme) <;> rfl
  none := rfl

theorem tests_eatWord (word : String) : Tests (eatWord word) (isWord word) id where
  eq tokens endLine := by
    rw [eatWord, bind_ok ((tests_checkWord word).eq tokens endLine)]
    cases isWord word (tokens.head?.map Token.lexeme) <;> rfl
  none := rfl

theorem takes_peek (next : Option Lexeme) : Takes fits peek [] (· = next) next :=
  tests_peek.takes_none rfl

theorem takes_skip (lexeme : Lexeme) : Takes fits skip [lexeme] anything () :=
  .one fun _ _ _ => rfl

theorem takes_line {f : Nat → Parse β} {lexemes : List Lexeme} {follow : Option Lexeme → Prop}
    {b : β} (h : ∀ n, Takes fits (f n) lexemes follow b) : Takes fits (line >>= f) lexemes follow b := by
  intro tokens rest endLine htokens hnext
  rw [bind_ok (by rfl)]
  exact h _ _ _ _ htokens hnext

theorem takes_check (mark : Punct) (found : Bool)
    : Takes fits (check mark) [] (fun next => isMark mark next = found) found :=
  (tests_check mark).takes_none rfl

theorem takes_checkWord (word : String) (found : Bool)
    : Takes fits (checkWord word) [] (fun next => isWord word next = found) found :=
  (tests_checkWord word).takes_none rfl

theorem takes_atEnd (ended : Bool) : Takes fits atEnd [] (fun next => next.isNone = ended) ended :=
  tests_atEnd.takes_none rfl

theorem isMark_self (mark : Punct) : isMark mark (some (.punct mark)) = true :=
  decide_eq_true rfl

theorem isWord_self (word : String) : isWord word (some (.word word)) = true :=
  decide_eq_true rfl

theorem takes_eat (mark : Punct) : Takes fits (eat mark) [.punct mark] anything true :=
  isMark_self mark ▸ (tests_eat mark).takes (isMark_self mark)

theorem takes_eat_none (mark : Punct) : Takes fits (eat mark) [] (fun next => isMark mark next = false) false :=
  (tests_eat mark).takes_none rfl

theorem takes_eatWord (word : String) : Takes fits (eatWord word) [.word word] anything true :=
  isWord_self word ▸ (tests_eatWord word).takes (isWord_self word)

theorem takes_eatWord_none (word : String)
    : Takes fits (eatWord word) [] (fun next => isWord word next = false) false :=
  (tests_eatWord word).takes_none rfl

theorem takes_expect (mark : Punct) : Takes fits (expect mark) [.punct mark] anything () :=
  .cons (takes_eat mark) .pure

theorem takes_identifier {name : String} (h : isKeyword name = false)
    : Takes fits identifier [.word name] anything name := by
  apply Takes.one
  intro line rest endLine
  unfold identifier
  rw [bind_ok (by rfl)]
  simp only [head?_cons, Option.map_some, h]
  rfl

theorem takes_property (name : String) : Takes fits property [.word name] anything name :=
  .one fun _ _ _ => rfl

theorem takes_key (name : String) : Takes fits key [.word name] anything name :=
  .one fun _ _ _ => rfl

theorem takes_key_str (name : String) : Takes fits key [.str name] anything name :=
  .one fun _ _ _ => rfl

theorem takes_endStatement : Takes fits endStatement [.punct .semicolon] anything () :=
  .cons (takes_eat _) .pure

theorem takes_nested {rule : Nat → Parse α} {depth height : Nat} {lexemes : List Lexeme}
    {follow : Option Lexeme → Prop} {a : α} (hdepth : fits → depth + (height + 1) ≤ maxNesting)
    (h : (fits → depth + 1 + height ≤ maxNesting) → Takes fits (rule (depth + 1)) lexemes follow a)
    : Takes fits (nested depth rule) lexemes follow a := by
  unfold nested
  split
  · next hdeep =>
    intro tokens rest endLine _ _
    exact .inr ⟨fun hfits => absurd (hdepth hfits) (by omega), _, rfl⟩
  · apply h
    intro hfits
    have := hdepth hfits
    omega

def markOf? {γ : Type} (meaning : Punct → Option γ) : Option Lexeme → Option γ
  | some (.punct mark) => meaning mark
  | _ => none

theorem markOf?_eq_none {γ : Type} {meaning : Punct → Option γ} {next : Option Lexeme}
    (h : ∀ mark, next = some (.punct mark) → meaning mark = none) : markOf? meaning next = none := by
  rcases next with _ | _ | _ | _ | mark
  any_goals rfl
  · exact h mark rfl

theorem tests_connective (level : Nat) : Tests (connective level) (markOf? (connective? level)) Option.isSome where
  eq tokens endLine := by
    rcases tokens with _ | ⟨⟨_ | _ | _ | mark, _⟩, _⟩
    any_goals rfl
    rw [connective, bind_ok (tests_peek.eq _ _)]
    obtain h | ⟨op, h⟩ := Option.eq_none_or_eq_some (connective? level mark)
    all_goals
      simp only [head?_cons, Option.map_some, id_eq, markOf?, h]
      rfl
  none := rfl

theorem tests_unaryOp : Tests unaryOp (markOf? unaryOp?) Option.isSome where
  eq tokens endLine := by
    rcases tokens with _ | ⟨⟨_ | _ | _ | mark, _⟩, _⟩
    any_goals rfl
    rw [unaryOp, bind_ok (tests_peek.eq _ _)]
    obtain h | ⟨op, h⟩ := Option.eq_none_or_eq_some (unaryOp? mark)
    all_goals
      simp only [head?_cons, Option.map_some, id_eq, markOf?, h]
      rfl
  none := rfl

theorem takes_connective {level : Nat} {mark : Punct} {op : Connective} (h : connective? level mark = some op)
    : Takes fits (connective level) [.punct mark] anything (some op) :=
  h ▸ (tests_connective level).takes (congrArg Option.isSome h)

theorem takes_unaryOp {mark : Punct} {op : UnaryOp} (h : unaryOp? mark = some op)
    : Takes fits unaryOp [.punct mark] anything (some op) :=
  h ▸ tests_unaryOp.takes (congrArg Option.isSome h)

theorem takes_unaryOp_none
    : Takes fits unaryOp [] (fun next => ∀ mark, next = some (.punct mark) → unaryOp? mark = none) none :=
  (tests_unaryOp.takes_none rfl).weaken fun _ => markOf?_eq_none

end NodeScript.Script.Parse
