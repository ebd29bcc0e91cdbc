import NodeScript.Proofs.Parse.Complaints

/-!
How the rules for expressions go on. Wherever an expression may stand, parentheses may be opened until they nest too
deep, and after an operand they are arguments that do.
-/

namespace NodeScript.Script.Parse

variable {α β : Type} {C : List Lexeme → Prop} {l k : List Lexeme} {d m b : Nat} {close : Punct} {level : Nat}

section Branches

variable {t : Parse Bool} {p : Option Lexeme → Bool} {x y : Nat → Parse β}

theorem Goes.taken (ht : Tests t p id) (hx : Tells C x) (hy : Goes C y)
    : Goes C (fun e => t >>= fun c => if c = true then x e else y e) := by
  refine ht.goes ?_ ?_
  · rintro _ rfl
    exact hx
  · rintro _ rfl
    exact hy

theorem Tells.taken (ht : Tests t p id) {lexeme : Lexeme} (hlexeme : p (some lexeme) = true) (hx : Tells C x)
    (hy : Goes C y) : Tells C (fun e => t >>= fun c => if c = true then x e else y e) where
  start := by
    have hstart : Completable C (fun e => if p (some lexeme) = true then x e else y e) [] := by
      rw [hlexeme]
      exact hx.start
    exact (ht.completable (g := fun c e => if c = true then x e else y e) hlexeme hstart).of_append (l := [])
  goes := .taken ht hx hy

theorem Tells.eat (mark : Punct) (hx : Tells C x) (hy : Goes C y)
    : Tells C (fun e => eat mark >>= fun c => if c = true then x e else y e) :=
  .taken (tests_eat mark) (isMark_self mark) hx hy

theorem Tells.eatWord (word : String) (hx : Tells C x) (hy : Goes C y)
    : Tells C (fun e => eatWord word >>= fun c => if c = true then x e else y e) :=
  .taken (tests_eatWord word) (isWord_self word) hx hy

theorem Goes.look {γ : Type} {t : Parse γ} {p : Option Lexeme → γ} {g : γ → Nat → Parse β}
    (ht : Tests t p fun _ => false) (hg : ∀ c, Goes C (g c)) : Goes C (fun e => t >>= fun c => g c e) :=
  ht.goes (fun _ h => absurd h Bool.false_ne_true) fun c _ => hg c

theorem Goes.check {t : Parse Bool} {p : Option Lexeme → Bool} (ht : Tests t p fun _ => false) (hx : Goes C x)
    (hy : Goes C y) : Goes C (fun e => t >>= fun c => if c = true then x e else y e) := by
  refine .look ht fun c => ?_
  cases c
  · exact hy
  · exact hx

end Branches

theorem Tells.map {x : Nat → Parse α} (h : Tells C x) (f : α → β) : Tells C (fun e => f <$> x e) := by
  simp only [map_eq_pure_bind]
  exact h.bind_pure f

theorem tells_expect (mark : Punct) : Tells anyway (fun _ => expect mark) := by
  unfold expect
  exact .eat mark (.pure ()) (.unexpected _)

theorem Consumes.of_takes {rule : Parse α} {lexemes : List Lexeme} {a : α} (h : Takes True rule lexemes anything a)
    (k : List Lexeme) : Consumes rule (lexemes ++ k) lexemes.length a := by
  refine ⟨by simp, fun stream hstream => ?_⟩
  obtain ⟨tokens, rest, htokens, hlexemes, -⟩ := List.map_eq_append_iff.mp hstream
  obtain ⟨_, endLine⟩ := stream
  obtain rfl := htokens
  refine ((h tokens rest endLine hlexemes trivial).resolve_right fun hfail => hfail.1 trivial).trans ?_
  rw [← hlexemes, List.length_map, TokenStream.drop, List.drop_left]

theorem Completable.of_takes {rule : Parse α} {lexemes : List Lexeme} {a : α} (h : Takes True rule lexemes anything a)
    : Completable C (fun _ => rule) [] := by
  intro g hg
  obtain ⟨c, -, hc⟩ := hg a
  refine ⟨lexemes ++ c, fun e k => ?_⟩
  rw [List.nil_append, List.append_assoc]
  refine (Consumes.of_takes h _).bind_refuses ?_
  rw [List.drop_left]
  exact hc e k

theorem tells_skip_pure (a : α) : Tells anyway (fun _ => skip >>= fun _ => (pure a : Parse α)) :=
  Tells.skip.bind fun _ => .pure a

theorem tells_identifier : Tells anyway (fun _ => identifier) where
  start := .of_takes (takes_identifier (show isKeyword "x" = false from rfl))
  goes := by
    refine .look tests_peek fun next => ?_
    split
    · split
      · exact .unexpected _
      · exact (tells_skip_pure _).goes
    · exact .unexpected _

theorem goes_skip_unexpected : Goes C (fun _ => skip >>= fun _ => (unexpected .propertyName : Parse α)) := by
  intro l
  cases l with
  | nil =>
    exact .rejects _ 0 _ (consumes_skip_nil.bind_rejects (rejects_unexpected _ _)) (.inl rfl) (absurd rfl)
  | cons lexeme l =>
    exact .rejects _ 0 _ ((consumes_skip lexeme l).bind_rejects (rejects_unexpected _ _)) (.inr ⟨rfl, rfl⟩) (absurd rfl)

theorem tells_property : Tells anyway (fun _ => property) where
  start := .of_takes (takes_property "x")
  goes := by
    refine .look tests_peek fun next => ?_
    split
    · exact (tells_skip_pure _).goes
    · exact goes_skip_unexpected

theorem tells_key : Tells anyway (fun _ => key) where
  start := .of_takes (takes_key "x")
  goes := by
    refine .look tests_peek fun next => ?_
    split
    any_goals exact (tells_skip_pure _).goes
    · exact goes_skip_unexpected

def parens (m : Nat) : List Lexeme :=
  List.replicate m (.punct .parenOpen)

def deep : List Lexeme :=
  parens (maxNesting + 2)

theorem refuses_exceeded (l : List Lexeme) : Refuses (exceeded : Parse α) l :=
  fun _ _ => ⟨_, rfl, rfl⟩

section Refuses

variable {rule rule' : Parse α} {lexeme : Lexeme}

theorem Refuses.of_bound {rule : Nat → Parse α} (hzero : rule 0 = exceeded) (hsucc : ∀ bound, Refuses (rule (bound + 1)) l)
    (bound : Nat) : Refuses (rule bound) l := by
  cases bound with
  | zero =>
    rw [hzero]
    exact refuses_exceeded l
  | succ bound => exact hsucc bound

theorem Refuses.peek (h : Refuses rule' (lexeme :: l))
    (heq : ∀ line rest endLine, rule ⟨⟨lexeme, line⟩ :: rest, endLine⟩ = rule' ⟨⟨lexeme, line⟩ :: rest, endLine⟩)
    : Refuses rule (lexeme :: l) := by
  rintro ⟨_ | ⟨⟨_, line⟩, rest⟩, endLine⟩ hstream
  · cases hstream
  · obtain rfl := (List.cons.inj hstream).1
    rw [heq]
    exact h _ hstream

theorem Refuses.step (h : Refuses rule' l)
    (heq : ∀ line rest endLine, rule ⟨⟨lexeme, line⟩ :: rest, endLine⟩ = rule' ⟨rest, endLine⟩)
    : Refuses rule (lexeme :: l) := by
  rintro ⟨_ | ⟨⟨_, line⟩, rest⟩, endLine⟩ hstream
  · cases hstream
  · obtain ⟨rfl, hrest⟩ := List.cons.inj hstream
    rw [heq]
    exact h _ hrest

end Refuses

structure RefusesUpTo (bound : Nat) : Prop where
  expression : ∀ {d m} k, maxNesting < d + m → Refuses (expression bound d) (parens m ++ k)
  chain : ∀ {d m} level k, maxNesting < d + m → Refuses (chain bound d level) (parens (m + 1) ++ k)
  unary : ∀ {d m} k, maxNesting < d + m → Refuses (unary bound d) (parens (m + 1) ++ k)
  primary : ∀ {d m} k, maxNesting < d + m → Refuses (primary bound d) (parens (m + 1) ++ k)

theorem refusesUpTo (bound : Nat) : RefusesUpTo bound := by
  induction bound with
  | zero =>
    constructor
    all_goals
      intros
      simp only [expression, chain, unary, primary]
      exact refuses_exceeded _
  | succ bound ih =>
    constructor
    case expression =>
      intro d m k hm
      rw [expression, nested]
      split
      · exact fun _ _ => ⟨_, rfl, rfl⟩
      · obtain ⟨m, rfl⟩ : ∃ n, m = n + 1 := ⟨m - 1, by omega⟩
        exact ih.chain 0 k (by omega)
    case chain =>
      intro d m level k hm
      rw [chain]
      split
      · exact (ih.chain (level + 1) k hm).bind
      · exact ih.unary k hm
    case unary =>
      intro d m k hm
      rw [unary]
      exact .peek ((ih.primary k hm).bind (f := accesses bound d)) fun _ _ _ => rfl
    case primary =>
      intro d m k hm
      rw [primary]
      exact .step ((ih.expression k hm).bind (f := fun inner => do expect .parenClose; return inner)) fun _ _ _ => rfl

theorem refuses_expression (d : Nat) (k : List Lexeme) (bound : Nat) : Refuses (expression bound d) (deep ++ k) :=
  (refusesUpTo bound).expression k (by omega)

theorem refuses_chain (d level : Nat) (k : List Lexeme) (bound : Nat) : Refuses (chain bound d level) (deep ++ k) :=
  (refusesUpTo bound).chain level k (by omega)

theorem refuses_items (d : Nat) {m : Nat} (hm : maxNesting ≤ m) (hclose : close ≠ .parenOpen) (k : List Lexeme)
    : ∀ bound, Refuses (items bound d close) (parens (m + 1) ++ k) := by
  refine .of_bound (by rw [items]) fun bound => ?_
  rw [items]
  have hcheck : Consumes (check close) (parens (m + 1) ++ k) 0 false :=
    (tests_check close).consumes_none (decide_eq_false hclose.symm) rfl
  exact hcheck.bind_refuses ((refusesUpTo bound).expression k (by omega)).bind

theorem refuses_accesses (d : Nat) (head : Expr) (k : List Lexeme)
    : ∀ bound, Refuses (accesses bound d head) (deep ++ k) := by
  refine .of_bound (by rw [accesses]) fun bound => ?_
  rw [accesses]
  exact .step ((refuses_items d (Nat.le_refl _) (by decide) k bound).bind
    (f := fun arguments => do expect .parenClose; accesses bound d (.call head arguments))) fun _ _ _ => rfl

theorem refuses_chainRest {mark : Punct} {op : Connective} (hop : connective? level mark = some op) (d : Nat)
    (left : Expr) (k : List Lexeme) : ∀ bound, Refuses (chainRest bound d level left) (.punct mark :: (deep ++ k)) := by
  refine .of_bound (by rw [chainRest]) fun bound => ?_
  rw [chainRest]
  exact (Consumes.of_takes (takes_connective hop) (deep ++ k)).bind_refuses (refuses_chain d (level + 1) k bound).bind

theorem refuses_fields (d : Nat) (k : List Lexeme)
    : ∀ bound, Refuses (fields bound d) (.word "x" :: .punct .colon :: (deep ++ k)) := by
  refine .of_bound (by rw [fields]) fun bound => ?_
  rw [fields]
  refine ((tests_check .braceClose).consumes_none rfl rfl).bind_refuses ?_
  refine (Consumes.of_takes (takes_key "x") _).bind_refuses ?_
  exact (Consumes.of_takes (takes_expect .colon) _).bind_refuses (refuses_expression d k bound).bind

structure GoesUpTo (b : Nat) : Prop where
  expression : ∀ d, Goes anyway fun e => expression (e + b) d
  chain : ∀ d level, Goes anyway fun e => chain (e + b) d level
  chainRest : ∀ d level left, level < levels → Goes anyway fun e => chainRest (e + b) d level left
  unary : ∀ d, Goes anyway fun e => unary (e + b) d
  accesses : ∀ d head, Goes anyway fun e => accesses (e + b) d head
  items : ∀ d close, close ≠ .parenOpen → Goes anyway fun e => items (e + b) d close
  fields : ∀ d, Goes anyway fun e => fields (e + b) d
  primary : ∀ d, Goes anyway fun e => primary (e + b) d

namespace GoesUpTo

section

variable (h : GoesUpTo b) (d : Nat)
include h

theorem tells_expression : Tells anyway fun e => Parse.expression (e + b) d :=
  ⟨.of_refuses deep fun e k => refuses_expression d k (e + b), h.expression d⟩

theorem tells_chain (level : Nat) : Tells anyway fun e => Parse.chain (e + b) d level :=
  ⟨.of_refuses deep fun e k => refuses_chain d level k (e + b), h.chain d level⟩

theorem tells_chainRest (hlevel : level < levels) (left : Expr)
    : Tells anyway fun e => Parse.chainRest (e + b) d level left := by
  have hmark : ∀ level < levels, (connective? level ([.or, .and, .equal, .less, .plus, .star].getD level .or)).isSome := by
    decide
  obtain ⟨op, hop⟩ := Option.isSome_iff_exists.mp (hmark level hlevel)
  exact ⟨.of_refuses (_ :: deep) fun e k => refuses_chainRest hop d left k (e + b), h.chainRest d level left hlevel⟩

theorem tells_unary : Tells anyway fun e => Parse.unary (e + b) d :=
  ⟨.of_refuses deep fun e k => (refusesUpTo (e + b)).unary k (by omega), h.unary d⟩

theorem tells_accesses (head : Expr) : Tells anyway fun e => Parse.accesses (e + b) d head :=
  ⟨.of_refuses deep fun e k => refuses_accesses d head k (e + b), h.accesses d head⟩

theorem tells_items (hclose : close ≠ .parenOpen) : Tells anyway fun e => Parse.items (e + b) d close :=
  ⟨.of_refuses deep fun e k => refuses_items d (Nat.le_succ _) hclose k (e + b), h.items d close hclose⟩

theorem tells_fields : Tells anyway fun e => Parse.fields (e + b) d :=
  ⟨.of_refuses (.word "x" :: .punct .colon :: deep) fun e k => refuses_fields d k (e + b), h.fields d⟩

theorem tells_primary : Tells anyway fun e => Parse.primary (e + b) d :=
  ⟨.of_refuses deep fun e k => (refusesUpTo (e + b)).primary k (by omega), h.primary d⟩

theorem expression_succ : Goes anyway fun e => Parse.expression (e + (b + 1)) d := by
  simp only [← Nat.add_assoc, Parse.expression]
  exact (Tells.nested fun _ => h.tells_chain (d + 1) 0).goes

theorem chain_succ (level : Nat) : Goes anyway fun e => Parse.chain (e + (b + 1)) d level := by
  simp only [← Nat.add_assoc, Parse.chain]
  split
  · next hlevel => exact ((h.tells_chain d (level + 1)).bind (h.tells_chainRest d hlevel)).goes
  · exact h.unary d

theorem chainRest_succ (hlevel : level < levels) (left : Expr)
    : Goes anyway fun e => Parse.chainRest (e + (b + 1)) d level left := by
  simp only [← Nat.add_assoc, Parse.chainRest]
  refine (tests_connective level).goes ?_ ?_
  · rintro (_ | op) hop
    · cases hop
    · exact (h.tells_chain d (level + 1)).bind fun right => h.tells_chainRest d hlevel _
  · rintro (_ | op) hop
    · exact (Tells.pure left).goes
    · cases hop

theorem unary_succ : Goes anyway fun e => Parse.unary (e + (b + 1)) d := by
  have hnested : Tells anyway fun e => Parse.nested d fun depth => Parse.unary (e + b) depth :=
    .nested fun _ => h.tells_unary (d + 1)
  simp only [← Nat.add_assoc, Parse.unary]
  refine tests_unaryOp.goes ?_ ?_
  · rintro (_ | op) hop
    · cases hop
    · exact hnested.bind fun operand => .pure (Expr.unary op operand)
  · rintro (_ | op) hop
    · refine .taken (tests_eatWord "await") ?_ ?_
      · exact hnested.bind fun operand => .pure operand.await
      · exact ((h.tells_primary d).bind (h.tells_accesses d)).goes
    · cases hop

theorem accesses_succ (head : Expr) : Goes anyway fun e => Parse.accesses (e + (b + 1)) d head := by
  simp only [← Nat.add_assoc, Parse.accesses]
  refine .taken (tests_eat _) (tells_property.bind fun name => h.tells_accesses d _) ?_
  refine .taken (tests_eat _) ?_ (.taken (tests_eat _) ?_ (Tells.pure head).goes)
  · exact (h.tells_expression d).bind fun position => (tells_expect _).bind fun _ => h.tells_accesses d _
  · exact (h.tells_items d (by decide)).bind fun arguments => (tells_expect _).bind fun _ => h.tells_accesses d _

theorem items_succ (hclose : close ≠ .parenOpen) : Goes anyway fun e => Parse.items (e + (b + 1)) d close := by
  simp only [← Nat.add_assoc, Parse.items]
  refine .check (tests_check close) (Tells.pure []).goes ?_
  refine ((h.tells_expression d).bind fun item => ?_).goes
  exact .eat .comma ((h.tells_items d hclose).bind fun rest => .pure (item :: rest)) (Tells.pure [item]).goes

theorem fields_succ : Goes anyway fun e => Parse.fields (e + (b + 1)) d := by
  simp only [← Nat.add_assoc, Parse.fields]
  refine .check (tests_check _) (Tells.pure []).goes ?_
  refine (tells_key.bind fun name => (tells_expect _).bind fun _ => (h.tells_expression d).bind fun value => ?_).goes
  exact .eat .comma ((h.tells_fields d).bind fun rest => .pure ((name, value) :: rest)) (Tells.pure [(name, value)]).goes

theorem primary_succ : Goes anyway fun e => Parse.primary (e + (b + 1)) d := by
  simp only [← Nat.add_assoc, Parse.primary]
  refine .look tests_peek fun next => ?_
  split
  any_goals exact (tells_skip_pure _).goes
  · exact (Tells.skip.bind fun _ => (h.tells_expression d).bind fun inner => (tells_expect _).bind fun _ => .pure inner).goes
  · exact (Tells.skip.bind fun _ => (h.tells_items d (show .bracketClose ≠ _ by decide)).bind fun elements =>
      (tells_expect _).bind fun _ => .pure (Expr.array elements)).goes
  · exact (Tells.skip.bind fun _ => (h.tells_fields d).bind fun entries =>
      (tells_expect _).bind fun _ => .pure (Expr.object entries)).goes
  · split
    · exact .unexpected _
    · exact (tells_skip_pure _).goes
  · exact .unexpected _

end

end GoesUpTo

theorem goesUpTo (b : Nat) : GoesUpTo b := by
  induction b with
  | zero =>
    constructor
    all_goals
      intros
      refine .refuses fun l => ?_
      simp only [Nat.add_zero, expression, chain, chainRest, unary, accesses, items, fields, primary]
      exact refuses_exceeded _
  | succ b ih =>
    exact
      { expression := ih.expression_succ
        chain := ih.chain_succ
        chainRest := fun d _ left hlevel => ih.chainRest_succ d hlevel left
        unary := ih.unary_succ
        accesses := ih.accesses_succ
        items := fun d _ hclose => ih.items_succ d hclose
        fields := ih.fields_succ
        primary := ih.primary_succ }

end NodeScript.Script.Parse
