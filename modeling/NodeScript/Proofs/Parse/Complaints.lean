import Mathlib.Data.List.Basic
import NodeScript.Proofs.Parse.Takes

/-!
Which token a complaint of the grammar is about, and how the tokens before it can go on.

A rule looks at one token more than it takes, so that what it does with some tokens is settled by them and the one
that comes next. It is followed through lists of lexemes here; the lines of the tokens play no part in what it does.
-/

namespace NodeScript.Script

open List

namespace TokenStream

variable (stream : TokenStream) (n : Nat)

def lexemes : List Lexeme :=
  stream.tokens.map Token.lexeme

def drop : TokenStream :=
  { stream with tokens := stream.tokens.drop n }

def lineAt : Nat :=
  stream.tokens[n]?.elim stream.endLine Token.line

theorem lexemes_drop : (stream.drop n).lexemes = stream.lexemes.drop n :=
  map_drop

theorem drop_drop (m : Nat) : (stream.drop n).drop m = stream.drop (n + m) := by
  unfold drop
  rw [List.drop_drop]

theorem lineAt_drop (i : Nat) : (stream.drop n).lineAt i = stream.lineAt (n + i) := by
  unfold lineAt drop
  rw [getElem?_drop]

end TokenStream

def SyntaxError.isUnexpected : SyntaxError → Bool
  | unexpectedToken .. => true
  | _ => false

namespace Parse

variable {α β γ : Type} {rule : Parse α} {f : α → Parse β} {l : List Lexeme} {n m i : Nat} {a : α} {b : β}
  {expected : Expectation}

def Consumes (rule : Parse α) (l : List Lexeme) (n : Nat) (a : α) : Prop :=
  n ≤ l.length ∧ ∀ stream : TokenStream, stream.lexemes = l → rule stream = .ok (a, stream.drop n)

def Rejects (rule : Parse α) (l : List Lexeme) (i : Nat) (expected : Expectation) : Prop :=
  i ≤ l.length ∧ ∀ stream : TokenStream, stream.lexemes = l
    → rule stream = .error (.unexpectedToken l[i]? expected (stream.lineAt i))

def Refuses (rule : Parse α) (l : List Lexeme) : Prop :=
  ∀ stream : TokenStream, stream.lexemes = l → ∃ error, rule stream = .error error ∧ error.isUnexpected = false

theorem Consumes.bind (h : Consumes rule l n a) (hf : Consumes (f a) (l.drop n) m b)
    : Consumes (rule >>= f) l (n + m) b := by
  have hle := hf.1
  rw [length_drop] at hle
  refine ⟨by have := h.1; omega, fun stream hstream => ?_⟩
  rw [bind_ok (h.2 stream hstream), hf.2 _ (by rw [stream.lexemes_drop, hstream]), TokenStream.drop_drop]

theorem Consumes.bind_rejects (h : Consumes rule l n a) (hf : Rejects (f a) (l.drop n) i expected)
    : Rejects (rule >>= f) l (n + i) expected := by
  have hle := hf.1
  rw [length_drop] at hle
  refine ⟨by have := h.1; omega, fun stream hstream => ?_⟩
  rw [bind_ok (h.2 stream hstream), hf.2 _ (by rw [stream.lexemes_drop, hstream]), getElem?_drop,
    TokenStream.lineAt_drop]

theorem Consumes.bind_refuses (h : Consumes rule l n a) (hf : Refuses (f a) (l.drop n)) : Refuses (rule >>= f) l := by
  intro stream hstream
  rw [bind_ok (h.2 stream hstream)]
  exact hf _ (by rw [stream.lexemes_drop, hstream])

theorem Rejects.bind (h : Rejects rule l i expected) : Rejects (rule >>= f) l i expected :=
  ⟨h.1, fun stream hstream => bind_error (h.2 stream hstream)⟩

theorem Refuses.bind (h : Refuses rule l) : Refuses (rule >>= f) l := by
  intro stream hstream
  obtain ⟨error, heq, herror⟩ := h stream hstream
  exact ⟨error, bind_error heq, herror⟩

/-! ### How a rule can go on

A rule comes with all the bounds above its own, `x 0` being the rule itself. More lexemes may call for a greater
bound. -/

variable {C C' : List Lexeme → Prop} {x y : Nat → Parse α} {g : α → Nat → Parse β} {c : List Lexeme}

def Continues (C : List Lexeme → Prop) (x : Nat → Parse α) : Prop :=
  ∃ c, C c ∧ ∀ e k, Refuses (x e) (c ++ k)

def Completable (C : List Lexeme → Prop) (x : Nat → Parse α) (l : List Lexeme) : Prop :=
  ∀ h : α → Nat → Parse Unit, (∀ a, Continues C (h a)) → ∃ c, ∀ e k, Refuses (x e >>= fun a => h a e) (l ++ (c ++ k))

def anyway : List Lexeme → Prop := fun _ => True

inductive Fares (C : List Lexeme → Prop) (x : Nat → Parse α) (l : List Lexeme) : Prop where
  | consumes (n : Nat) (a : α) (h : ∀ e l', l'.take (n + 1) = l.take (n + 1) → Consumes (x e) l' n a)
    (hnext : n ≠ 0 → Completable C x (l.take n))
  | rejects (i j : Nat) (expected : Expectation) (h : Rejects (x 0) l i expected)
    (hj : j = i ∨ j + 1 = i ∧ expected = .propertyName) (hnext : j ≠ 0 → Completable C x (l.take j))
  | refuses (h : Refuses (x 0) l)

def Goes (C : List Lexeme → Prop) (x : Nat → Parse α) : Prop :=
  ∀ l, Fares C x l

structure Tells (C : List Lexeme → Prop) (x : Nat → Parse α) : Prop where
  start : Completable C x []
  goes : Goes C x

theorem Tells.completable (h : Tells C x) (hnext : n ≠ 0 → Completable C x (l.take n))
    : Completable C x (l.take n) := by
  by_cases hn : n = 0
  · rw [hn, take_zero]
    exact h.start
  · exact hnext hn

theorem Completable.after (hx : ∀ e l', l'.take (n + 1) = l.take (n + 1) → Consumes (x e) l' n a) (hm : m ≠ 0)
    (hle : m ≤ (l.drop n).length) (hg : Completable C (g a) ((l.drop n).take m))
    : Completable C (fun e => x e >>= fun a => g a e) (l.take (n + m)) := by
  rw [length_drop] at hle
  intro h hh
  obtain ⟨c, hc⟩ := hg h hh
  refine ⟨c, fun e k => ?_⟩
  have htake : (l.take (n + m) ++ (c ++ k)).take (n + 1) = l.take (n + 1) := by
    rw [take_append_of_le_length (by rw [length_take]; omega), take_take, Nat.min_eq_left (by omega)]
  have hdrop : (l.take (n + m) ++ (c ++ k)).drop n = (l.drop n).take m ++ (c ++ k) := by
    rw [drop_append_of_le_length (by rw [length_take]; omega), drop_take, Nat.add_sub_cancel_left]
  rw [bind_assoc]
  refine (hx e _ htake).bind_refuses ?_
  rw [hdrop]
  exact hc e k

theorem Fares.bind (h : ∀ e l', l'.take (n + 1) = l.take (n + 1) → Consumes (x e) l' n a)
    (hnext : n ≠ 0 → Completable C (fun e => x e >>= fun a => g a e) (l.take n)) (hg : Fares C (g a) (l.drop n))
    : Fares C (fun e => x e >>= fun a => g a e) l := by
  have hself := h 0 l rfl
  have hlater : ∀ {m : Nat}, m ≤ (l.drop n).length → (m ≠ 0 → Completable C (g a) ((l.drop n).take m)) → n + m ≠ 0
      → Completable C (fun e => x e >>= fun a => g a e) (l.take (n + m)) := by
    intro m hle hm hne
    by_cases hzero : m = 0
    · rw [hzero] at hne ⊢
      exact hnext hne
    · exact .after h hzero hle (hm hzero)
  cases hg with
  | consumes m b hb hm =>
    refine .consumes (n + m) b (fun e l' heq => ?_) (hlater (hb 0 _ rfl).1 hm)
    have heq' : l'.take (n + 1) = l.take (n + 1) := by
      have := congrArg (List.take (n + 1)) heq
      simpa only [take_take, Nat.min_eq_left (show n + 1 ≤ n + m + 1 by omega)] using this
    refine (h e l' heq').bind (hb e _ ?_)
    rw [take_drop, take_drop, ← Nat.add_assoc, heq]
  | rejects i j expected hi hj hm =>
    refine .rejects (n + i) (n + j) expected (hself.bind_rejects hi) ?_ (hlater ?_ hm)
    · exact hj.imp (congrArg _) fun h => ⟨congrArg (n + ·) h.1, h.2⟩
    · have := hi.1
      omega
  | refuses hb => exact .refuses (hself.bind_refuses hb)

theorem Goes.bind_of (hx : Tells C x) (hg : ∀ a, Goes C' (g a))
    (hlook : ∀ l, Completable C x l → Completable C' (fun e => x e >>= fun a => g a e) l)
    : Goes C' (fun e => x e >>= fun a => g a e) := by
  intro l
  cases hx.goes l with
  | consumes n a h hnext => exact .bind h (fun _ => hlook _ (hx.completable hnext)) (hg a _)
  | rejects i j expected h hj hnext => exact .rejects i j expected h.bind hj fun hne => hlook _ (hnext hne)
  | refuses h => exact .refuses h.bind

theorem Completable.bind (hx : Completable C x l)
    (hg : ∀ h : β → Nat → Parse Unit, (∀ b, Continues C' (h b)) → ∀ a, Continues C fun e => g a e >>= fun b => h b e)
    : Completable C' (fun e => x e >>= fun a => g a e) l := by
  intro h hh
  simp only [bind_assoc]
  exact hx _ (hg h hh)

theorem Tells.bind (hx : Tells anyway x) (hg : ∀ a, Tells C (g a)) : Tells C (fun e => x e >>= fun a => g a e) := by
  have hnext : ∀ h : β → Nat → Parse Unit, (∀ b, Continues C (h b))
      → ∀ a, Continues anyway fun e => g a e >>= fun b => h b e := by
    intro h hh a
    obtain ⟨c, hc⟩ := (hg a).start h hh
    exact ⟨c, trivial, hc⟩
  exact ⟨hx.start.bind hnext, .bind_of hx (fun a => (hg a).goes) fun _ hl => hl.bind hnext⟩

theorem Tells.bind_pure (hx : Tells C x) (f : α → β) : Tells C fun e => x e >>= fun a => pure (f a) := by
  have hnext : ∀ h : β → Nat → Parse Unit, (∀ b, Continues C (h b))
      → ∀ a, Continues C fun e => (pure (f a) : Parse β) >>= fun b => h b e := by
    intro h hh a
    simp only [pure_bind]
    exact hh (f a)
  refine ⟨hx.start.bind hnext, .bind_of hx (fun a l => ?_) fun _ hl => hl.bind hnext⟩
  exact .consumes 0 (f a) (fun _ _ _ => ⟨Nat.zero_le _, fun _ _ => rfl⟩) (absurd rfl)

theorem Completable.of_append {d : List Lexeme} (h : Completable C x (l ++ d)) : Completable C x l := by
  intro g hg
  obtain ⟨c, hc⟩ := h g hg
  refine ⟨d ++ c, fun e k => ?_⟩
  rw [append_assoc, ← append_assoc]
  exact hc e k

theorem Completable.of_refuses (c : List Lexeme) (h : ∀ e k, Refuses (x e) (c ++ k)) : Completable C x [] :=
  fun _ _ => ⟨c, fun e k => (h e k).bind⟩

theorem Tells.pure (a : α) : Tells C (fun _ => (Pure.pure a : Parse α)) where
  start h hh := by
    obtain ⟨c, -, hc⟩ := hh a
    exact ⟨c, hc⟩
  goes _ := .consumes 0 a (fun _ _ _ => ⟨Nat.zero_le _, fun _ _ => rfl⟩) (absurd rfl)

theorem rejects_unexpected (expected : Expectation) (l : List Lexeme)
    : Rejects (unexpected expected : Parse α) l 0 expected := by
  refine ⟨Nat.zero_le _, fun stream hstream => ?_⟩
  subst hstream
  obtain ⟨_ | _, _⟩ := stream <;> rfl

theorem Goes.unexpected (expected : Expectation) : Goes C (fun _ => (unexpected expected : Parse α)) :=
  fun l => .rejects 0 0 expected (rejects_unexpected expected l) (.inl rfl) (absurd rfl)

theorem Goes.refuses (h : ∀ l, Refuses (x 0) l) : Goes C x :=
  fun l => .refuses (h l)

theorem Tells.refuses (h : ∀ e l, Refuses (x e) l) : Tells C x :=
  ⟨.of_refuses [] h, .refuses (h 0)⟩

theorem Tells.nested {rule : Nat → Nat → Parse α} {depth : Nat}
    (h : depth < maxNesting → Tells C fun e => rule e (depth + 1)) : Tells C fun e => nested depth (rule e) := by
  unfold Parse.nested
  split
  · exact .refuses fun _ _ _ _ => ⟨_, rfl, rfl⟩
  · next hdepth => exact h (Nat.lt_of_not_le hdepth)

theorem consumes_skip (lexeme : Lexeme) (l : List Lexeme) : Consumes skip (lexeme :: l) 1 () := by
  refine ⟨Nat.succ_le_succ (Nat.zero_le _), fun stream hstream => ?_⟩
  obtain ⟨_ | _, _⟩ := stream
  · cases hstream
  · rfl

theorem consumes_skip_nil : Consumes skip [] 0 () := by
  refine ⟨Nat.zero_le _, fun stream hstream => ?_⟩
  obtain ⟨_ | _, _⟩ := stream
  · rfl
  · cases hstream

theorem Tells.skip : Tells C (fun _ => skip) := by
  have hskip : ∀ lexeme, Completable C (fun _ => Parse.skip) [lexeme] := by
    intro lexeme h hh
    obtain ⟨c, -, hc⟩ := hh ()
    exact ⟨c, fun e k => (consumes_skip lexeme _).bind_refuses (hc e k)⟩
  refine ⟨(hskip (.punct .comma)).of_append (l := []), fun l => ?_⟩
  cases l with
  | nil =>
    refine .consumes 0 () (fun _ l' hl' => ?_) (absurd rfl)
    obtain rfl : l' = [] := by simpa using hl'
    exact consumes_skip_nil
  | cons lexeme l =>
    refine .consumes 1 () (fun _ l' hl' => ?_) fun _ => hskip lexeme
    cases l' with
    | nil => cases hl'
    | cons lexeme' l' => exact consumes_skip lexeme' l'

namespace Tests

variable {t : Parse γ} {p : Option Lexeme → γ} {took : γ → Bool} {g : γ → Nat → Parse β} (ht : Tests t p took)
include ht

theorem consumes_none {found : γ} (hfound : p l.head? = found) (htook : took found = false) : Consumes t l 0 found := by
  refine ⟨Nat.zero_le _, fun stream hstream => ?_⟩
  subst hfound hstream
  rw [TokenStream.lexemes, head?_map] at htook ⊢
  rw [ht.eq stream.tokens stream.endLine, htook]
  rfl

theorem consumes {lexeme : Lexeme} (htook : took (p (some lexeme)) = true) (l : List Lexeme)
    : Consumes t (lexeme :: l) 1 (p (some lexeme)) := by
  refine ⟨Nat.succ_le_succ (Nat.zero_le _), fun stream hstream => ?_⟩
  obtain ⟨_ | ⟨token, tokens⟩, endLine⟩ := stream
  · cases hstream
  · cases hstream
    rw [ht.eq]
    simp only [head?_cons, Option.map_some, htook]
    rfl

theorem completable {lexeme : Lexeme} (htook : took (p (some lexeme)) = true)
    (hg : Completable C (g (p (some lexeme))) []) : Completable C (fun e => t >>= fun c => g c e) [lexeme] := by
  intro h hh
  obtain ⟨c, hc⟩ := hg h hh
  refine ⟨c, fun e k => ?_⟩
  rw [bind_assoc]
  exact (ht.consumes htook _).bind_refuses (hc e k)

theorem goes (hg : ∀ c, took c = true → Tells C (g c)) (hg' : ∀ c, took c = false → Goes C (g c))
    : Goes C (fun e => t >>= fun c => g c e) := by
  intro l
  cases htook : took (p l.head?) with
  | false =>
    refine .bind (n := 0) (fun _ l' hl' => ht.consumes_none ?_ htook) (absurd rfl) (hg' _ htook l)
    have hhead := congrArg head? hl'
    simp only [head?_take, Nat.zero_add, Nat.one_ne_zero, if_false] at hhead
    rw [hhead]
  | true =>
    cases l with
    | nil => exact absurd (htook.symm.trans ht.none) (by decide)
    | cons lexeme l =>
      have hbranch := hg _ htook
      refine .bind (n := 1) (fun _ l' hl' => ?_) (fun _ => ht.completable htook hbranch.start) (hbranch.goes l)
      cases l' with
      | nil => cases hl'
      | cons lexeme' l' =>
        obtain rfl : lexeme' = lexeme := (List.cons.inj hl').1
        exact ht.consumes htook l'

end Tests

end Parse

end NodeScript.Script
