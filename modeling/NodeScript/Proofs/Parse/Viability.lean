import NodeScript.Proofs.Parse.Continuations

/-!
The tokens before the one that the grammar complains about can always go on, unless a property name was expected: then
the token before it may be the one to blame.
-/

namespace NodeScript.Script

namespace Parse

variable {α β : Type} {C : List Lexeme → Prop} {x y : Nat → Parse α} {g : α → Nat → Parse β} {l : List Lexeme}
  {b d : Nat}

def Refusing (result : Except SyntaxError (α × TokenStream)) : Prop :=
  ∃ error, result = .error error ∧ error.isUnexpected = false

def Alike (result result' : Except SyntaxError (α × TokenStream)) : Prop :=
  result = result' ∨ Refusing result ∧ Refusing result'

theorem Alike.bind {rule : Parse α} {f f' : α → Parse β} (h : ∀ a stream, Alike (f a stream) (f' a stream))
    (stream : TokenStream) : Alike ((rule >>= f) stream) ((rule >>= f') stream) := by
  cases hrule : rule stream with
  | ok result =>
    rw [bind_ok hrule, bind_ok hrule]
    exact h _ _
  | error e =>
    rw [bind_error hrule, bind_error hrule]
    exact .inl rfl

theorem Alike.bind_left {rule rule' : Parse α} {stream : TokenStream} (h : Alike (rule stream) (rule' stream))
    (f : α → Parse β) : Alike ((rule >>= f) stream) ((rule' >>= f) stream) := by
  obtain h | ⟨⟨error, h, hother⟩, ⟨error', h', hother'⟩⟩ := h
  · refine .inl ?_
    cases hright : rule' stream with
    | ok result => rw [bind_ok (h.trans hright), bind_ok hright]
    | error error => rw [bind_error (h.trans hright), bind_error hright]
  · exact .inr ⟨⟨error, bind_error h, hother⟩, ⟨error', bind_error h', hother'⟩⟩

theorem Alike.branch {t : Parse Bool} {rule rule' other other' : Parse α}
    (h : ∀ stream, Alike (rule stream) (rule' stream)) (h' : ∀ stream, Alike (other stream) (other' stream))
    : ∀ stream, Alike ((t >>= fun c => if c = true then rule else other) stream)
        ((t >>= fun c => if c = true then rule' else other') stream) := by
  refine .bind fun c => ?_
  cases c
  · exact h'
  · exact h

section Alike

variable {rule rule' : Parse α} (h : ∀ stream, Alike (rule stream) (rule' stream))
include h

theorem Consumes.of_alike {n : Nat} {a : α} (hrule : Consumes rule' l n a) : Consumes rule l n a := by
  refine ⟨hrule.1, fun stream hstream => ?_⟩
  have heq := hrule.2 stream hstream
  obtain hsame | ⟨-, error, herror, -⟩ := h stream
  · exact hsame.trans heq
  · cases heq.symm.trans herror

theorem Refuses.of_alike (hrule : Refuses rule' l) : Refuses rule l := by
  intro stream hstream
  obtain hsame | ⟨hrefusing, -⟩ := h stream
  · rw [hsame]
    exact hrule stream hstream
  · exact hrefusing

theorem Rejects.of_alike {i : Nat} {expected : Expectation} (hrule : Rejects rule' l i expected)
    : Rejects rule l i expected := by
  refine ⟨hrule.1, fun stream hstream => ?_⟩
  have heq := hrule.2 stream hstream
  obtain hsame | ⟨-, error, herror, hother⟩ := h stream
  · exact hsame.trans heq
  · cases heq.symm.trans herror
    cases hother

end Alike

theorem Tells.of_alike (h : ∀ e stream, Alike (x e stream) (y e stream)) (hy : Tells C y) : Tells C x := by
  have hcompletable : ∀ {l}, Completable C y l → Completable C x l := by
    intro l hl g hg
    obtain ⟨c, hc⟩ := hl g hg
    refine ⟨c, fun e k => .of_alike (fun stream => ?_) (hc e k)⟩
    exact (h e stream).bind_left _
  refine ⟨hcompletable hy.start, fun l => ?_⟩
  cases hy.goes l with
  | consumes n a hn hnext =>
    exact .consumes n a (fun e l' hl' => .of_alike (h e) (hn e l' hl')) (hcompletable ∘ hnext)
  | rejects i j expected hi hj hnext => exact .rejects i j expected (.of_alike (h 0) hi) hj (hcompletable ∘ hnext)
  | refuses hy => exact .refuses (.of_alike (h 0) hy)

theorem tests_closes : Tests closes (fun next => isMark .braceClose next || next.isNone) fun _ => false :=
  (tests_check .braceClose).look tests_atEnd (fun _ => rfl) (fun _ => rfl) (· || ·)

theorem tests_startsDeclaration
    : Tests startsDeclaration (fun next => isWord "let" next || isWord "const" next || isWord "var" next)
        fun _ => false where
  eq tokens endLine := by
    rw [startsDeclaration, bind_ok ((tests_checkWord "let").eq tokens endLine),
      bind_ok ((tests_checkWord "const").eq _ endLine), bind_ok ((tests_checkWord "var").eq _ endLine)]
    rfl
  none := rfl

theorem tells_endStatement : Tells anyway (fun _ => endStatement) := by
  unfold endStatement
  exact .eat _ (.pure ()) (.check tests_closes (Tells.pure ()).goes (.unexpected _))

theorem tells_expression (b d : Nat) : Tells anyway fun e => expression (e + b) d :=
  (goesUpTo b).tells_expression d

theorem tells_target (start : Nat) (left : Expr) : Tells anyway fun _ => target start left := by
  unfold target
  split
  any_goals exact .pure _
  · exact .refuses fun _ _ _ _ => ⟨_, rfl, rfl⟩

theorem alike_target (start start' : Nat) (left : Expr) (stream : TokenStream)
    : Alike (target start left stream) (target start' left stream) := by
  unfold target
  split
  any_goals exact .inl rfl
  · exact .inr ⟨⟨_, rfl, rfl⟩, ⟨_, rfl, rfl⟩⟩

def afterOperand (bound depth start : Nat) (left : Expr) : Parse Stmt := do
  if ← eat .plusPlus then
    return .assign (← target start left) .add (.number 1)
  else if ← eat .minusMinus then
    return .assign (← target start left) .subtract (.number 1)
  else if ← eat .assign then
    simpleStatement.assignment bound depth start left .assign
  else if ← eat .plusAssign then
    simpleStatement.assignment bound depth start left .add
  else if ← eat .minusAssign then
    simpleStatement.assignment bound depth start left .subtract
  else
    return .expr left

theorem simpleStatement_eq (bound depth : Nat)
    : simpleStatement bound depth = line >>= fun start => expression bound depth >>= afterOperand bound depth start :=
  rfl

theorem alike_afterOperand (bound depth start start' : Nat) (left : Expr)
    : ∀ stream, Alike (afterOperand bound depth start left stream) (afterOperand bound depth start' left stream) := by
  have hplace : ∀ (f : Target → Parse Stmt) stream,
      Alike ((target start left >>= f) stream) ((target start' left >>= f) stream) :=
    fun f stream => (alike_target start start' left stream).bind_left f
  have hassign : ∀ op stream, Alike (simpleStatement.assignment bound depth start left op stream)
      (simpleStatement.assignment bound depth start' left op stream) :=
    fun op => .bind fun value => hplace _
  unfold afterOperand
  refine .branch (hplace _) (.branch (hplace _) ?_)
  exact .branch (hassign _) (.branch (hassign _) (.branch (hassign _) fun _ => .inl rfl))

theorem tells_simpleStatement (b d : Nat) : Tells anyway fun e => simpleStatement (e + b) d := by
  -- the line on which the statement starts is told by a refusal only
  have hline : ∀ e stream, Alike (simpleStatement (e + b) d stream)
      ((expression (e + b) d >>= afterOperand (e + b) d 0) stream) := fun e stream =>
    Alike.bind (fun left => alike_afterOperand (e + b) d _ 0 left) stream
  have hstep : ∀ left op, Tells anyway fun _ => target 0 left >>= fun place =>
      (pure (.assign place op (.number 1)) : Parse Stmt) :=
    fun left op => (tells_target 0 left).bind_pure _
  have hassign : ∀ left op, Tells anyway fun e => simpleStatement.assignment (e + b) d 0 left op := fun left op =>
    (tells_expression b d).bind fun value => (tells_target 0 left).bind_pure _
  refine .of_alike hline ((tells_expression b d).bind fun left => ?_)
  refine .eat _ (hstep left _) (.taken (tests_eat _) (hstep left _) (.taken (tests_eat _) (hassign left _) ?_))
  exact .taken (tests_eat _) (hassign left _) (.taken (tests_eat _) (hassign left _) (Tells.pure _).goes)

theorem tells_declaration (b d : Nat) : Tells anyway fun e => declaration (e + b) d :=
  Tells.skip.bind fun _ => tells_identifier.bind fun _ =>
    .eat _ ((tells_expression b d).bind_pure _) (Tells.pure _).goes

theorem tells_condition (b d : Nat) : Tells anyway fun e => condition (e + b) d :=
  (tells_expect _).bind fun _ => (tells_expression b d).bind fun test => (tells_expect _).bind fun _ => .pure test

theorem refuses_simpleStatement (d : Nat) (k : List Lexeme) (bound : Nat)
    : Refuses (simpleStatement bound d) (deep ++ k) := by
  intro stream hstream
  rw [simpleStatement_eq]
  exact Refuses.bind (refuses_expression d k bound) stream hstream

theorem refuses_map {rule : Parse α} (h : Refuses rule l) (f : α → β) : Refuses (f <$> rule) l := by
  rw [map_eq_pure_bind]
  exact h.bind

theorem Tells.part {mark : Punct} (hmark : mark ≠ .parenOpen) {rest : Option α → Nat → Parse β}
    (hx : Tells anyway x) (hdeep : ∀ e k, Refuses (x e) (deep ++ k)) (hrest : ∀ value, Tells C (rest value))
    : Tells C fun e => check mark >>= fun c => if c = true then Pure.pure none >>= fun value => rest value e
        else (some <$> x e) >>= fun value => rest value e where
  start := by
    refine .of_refuses deep fun e k => ?_
    have hcheck : Consumes (check mark) (deep ++ k) 0 false :=
      (tests_check mark).consumes_none (decide_eq_false hmark.symm) rfl
    exact hcheck.bind_refuses (refuses_map (hdeep e k) _).bind
  goes := .check (tests_check mark) ((Tells.pure none).bind hrest).goes ((hx.map some).bind hrest).goes

theorem tells_initial (b d : Nat) : Tells anyway fun e => forHead.initial (e + b) d where
  start := .of_refuses deep fun e k =>
    .peek (refuses_map (refuses_simpleStatement d k (e + b)) some) fun _ _ _ => rfl
  goes := .check (tests_check _) (Tells.pure none).goes (.check tests_startsDeclaration
    ((tells_declaration b d).map some).goes ((tells_simpleStatement b d).map some).goes)

theorem tells_forHead (b d : Nat) : Tells anyway fun e => forHead (e + b) d := by
  refine (tells_expect _).bind fun _ => (tells_initial b d).bind fun init => (tells_expect _).bind fun _ => ?_
  refine .part (show Punct.semicolon ≠ _ by decide) (tells_expression b d) (fun e k => refuses_expression d k (e + b))
    fun test => ?_
  refine (tells_expect _).bind fun _ => ?_
  refine .part (show Punct.parenClose ≠ _ by decide) (tells_simpleStatement b d)
    (fun e k => refuses_simpleStatement d k (e + b)) fun update => ?_
  exact (tells_expect _).bind fun _ => .pure (init, test, update)

theorem tells_returned (b d : Nat) : Tells anyway fun e => returned (e + b) d where
  start := .of_refuses deep fun e k => .peek (refuses_map (refuses_expression d k (e + b)) some) fun _ _ _ => rfl
  goes := by
    refine .look (tests_check _) fun a => .look tests_closes fun c => ?_
    split
    · exact (Tells.pure none).goes
    · exact ((tells_expression b d).map some).goes

def closing (c : List Lexeme) : Prop :=
  c.head? = some (.punct .parenClose)

theorem consumes_names (bound : Nat) (hl : closing l)
    : Refuses (names bound) (.word "x" :: l) ∨ Consumes (names bound) (.word "x" :: l) 1 ["x"] := by
  cases bound with
  | zero => exact .inl (refuses_exceeded _)
  | succ bound =>
    have hcomma : Consumes (eat .comma) l 0 false := (tests_eat .comma).consumes_none (by rw [hl]; rfl) rfl
    have hname := Consumes.of_takes (takes_identifier (show isKeyword "x" = false from rfl)) l
    rw [names]
    exact .inr (hname.bind (m := 0) (hcomma.bind (m := 0) ⟨Nat.zero_le _, fun _ _ => rfl⟩))

theorem tells_names (b : Nat) : Tells closing fun e => names (e + b) := by
  have hstart : ∀ b, Completable closing (fun e => names (e + b)) [] := by
    intro b h hh
    obtain ⟨c, hclosing, hc⟩ := hh ["x"]
    refine ⟨.word "x" :: c, fun e k => ?_⟩
    have hnext : closing (c ++ k) := by rw [closing, List.head?_append, hclosing]; rfl
    obtain hnames | hnames := consumes_names (e + b) hnext
    · exact hnames.bind
    · exact hnames.bind_refuses (hc e k)
  refine ⟨hstart b, ?_⟩
  induction b with
  | zero =>
    refine .refuses fun _ => ?_
    exact refuses_exceeded _
  | succ b ih =>
    have hnames : Tells closing fun e => names (e + b) := ⟨hstart b, ih⟩
    simp only [names]
    exact (tells_identifier.bind fun name => .eat _ (hnames.bind_pure (name :: ·)) (Tells.pure _).goes).goes

theorem tells_params (name : String) (b : Nat) : Tells anyway fun e => check .parenClose >>= fun c =>
        if c = true then pure [] >>= fun params => expect .parenClose >>= fun _ => pure (name, params)
        else names (e + b) >>= fun params => expect .parenClose >>= fun _ => pure (name, params) := by
  have hclose : ∀ params : List String, Tells anyway fun _ => expect .parenClose >>= fun _ => pure (name, params) :=
    fun params => (tells_expect _).bind_pure _
  have hcontinues : ∀ (h : String × List String → Nat → Parse Unit), (∀ b, Continues anyway (h b)) → ∀ params,
      Continues closing fun e => (expect .parenClose >>= fun _ => pure (name, params)) >>= fun b => h b e := by
    intro h hh params
    obtain ⟨c, -, hc⟩ := hh (name, params)
    exact ⟨.punct .parenClose :: c, rfl, fun e k => .step (hc e k) fun _ _ _ => rfl⟩
  constructor
  · intro h hh
    obtain ⟨c, -, hc⟩ := hh (name, [])
    exact ⟨.punct .parenClose :: c, fun e k => .step (hc e k) fun _ _ _ => rfl⟩
  · refine .check (tests_check _) ((Tells.pure []).bind hclose).goes ?_
    exact .bind_of (tells_names b) (fun params => (hclose params).goes) fun l hl => hl.bind hcontinues

theorem Tells.keyword (word : String) (expected : Expectation) (hx : Tells C x)
    : Tells C fun e => Parse.eatWord word >>= fun c =>
        if c = true then x e else unexpected expected >>= fun _ : Unit => x e :=
  .eatWord word hx fun l => .rejects 0 0 expected (rejects_unexpected expected l).bind (.inl rfl) (absurd rfl)

theorem tells_functionHead (b : Nat) : Tells anyway fun e => functionHead (e + b) := by
  have hhead := Tells.keyword "function" .functionKeyword (tells_identifier.bind fun name =>
    (tells_expect .parenOpen).bind fun _ => tells_params name b)
  refine ⟨?_, (tests_eatWord "async").goes (fun _ _ => hhead) fun _ _ => hhead.goes⟩
  exact ((tests_eatWord "async").completable (isWord_self "async") hhead.start).of_append (l := [])

def deepening (c : List Lexeme) : Prop :=
  c = deep

theorem Goes.bind_deep (hx : Tells deepening x) (hg : ∀ a, Goes C (g a))
    (hdeep : ∀ a e k, Refuses (g a e) (deep ++ k)) : Goes C (fun e => x e >>= fun a => g a e) :=
  .bind_of hx hg fun _ hl => hl.bind fun _ _ a => ⟨deep, rfl, fun e k => (hdeep a e k).bind⟩

theorem refuses_statementKind (d : Nat) (k : List Lexeme) : ∀ bound, Refuses (statementKind bound d) (deep ++ k) := by
  refine .of_bound (by rw [statementKind]) fun bound => ?_
  rw [statementKind]
  exact .peek ((refuses_simpleStatement d k bound).bind (f := fun stmt => do endStatement; return stmt)) fun _ _ _ => rfl

theorem refuses_statement (d : Nat) (k : List Lexeme) : ∀ bound, Refuses (statement bound d) (deep ++ k) := by
  refine .of_bound (by rw [statement]) fun bound => ?_
  rw [statement, nested]
  split
  · exact fun _ _ => ⟨_, rfl, rfl⟩
  · exact refuses_statementKind (d + 1) k bound

theorem refuses_blockRest (d : Nat) (k : List Lexeme) : ∀ bound, Refuses (blockRest bound d) (deep ++ k) := by
  refine .of_bound (by rw [blockRest]) fun bound => ?_
  rw [blockRest]
  exact .peek ((refuses_statement d k bound).bind (f := fun stmt => do return stmt :: (← blockRest bound d)))
    fun _ _ _ => rfl

theorem refuses_block (d : Nat) (k : List Lexeme)
    : ∀ bound, Refuses (block bound d) (.punct .braceOpen :: (deep ++ k)) := by
  refine .of_bound (by rw [block]) fun bound => ?_
  rw [block]
  exact .step (refuses_blockRest d k bound) fun _ _ _ => rfl

theorem refuses_body (d : Nat) (k : List Lexeme) : ∀ bound, Refuses (body bound d) (deep ++ k) := by
  refine .of_bound (by rw [body]) fun bound => ?_
  rw [body]
  exact .peek ((refuses_statement d k bound).bind (f := fun stmt => pure [stmt])) fun _ _ _ => rfl

theorem refuses_ifStatement (d : Nat) (k : List Lexeme) : ∀ bound, Refuses (ifStatement bound d) (deep ++ k) := by
  refine .of_bound (by rw [ifStatement]) fun bound => ?_
  rw [ifStatement]
  exact ((Consumes.of_takes (takes_expect .parenOpen) _).bind_refuses
    ((refusesUpTo bound).expression k (show maxNesting < d + (maxNesting + 1) by omega)).bind).bind

theorem refuses_statements (k : List Lexeme) : ∀ bound, Refuses (statements bound) (deep ++ k) := by
  refine .of_bound rfl fun bound => ?_
  exact .peek ((refuses_statement 0 k bound).bind (f := fun stmt => do return stmt :: (← statements bound)))
    fun _ _ _ => rfl

structure StatementsGo (b : Nat) : Prop where
  statement : ∀ d, Goes deepening fun e => statement (e + b) d
  statementKind : ∀ d, Goes deepening fun e => statementKind (e + b) d
  ifStatement : ∀ d, Goes deepening fun e => ifStatement (e + b) d
  block : ∀ d, Goes deepening fun e => block (e + b) d
  blockRest : ∀ d, Goes deepening fun e => blockRest (e + b) d
  body : ∀ d, Goes deepening fun e => body (e + b) d

namespace StatementsGo

variable (h : StatementsGo b) (d : Nat)
include h

theorem tells_statement : Tells deepening fun e => Parse.statement (e + b) d :=
  ⟨.of_refuses deep fun e k => refuses_statement d k (e + b), h.statement d⟩

theorem tells_ifStatement : Tells deepening fun e => Parse.ifStatement (e + b) d :=
  ⟨.of_refuses deep fun e k => refuses_ifStatement d k (e + b), h.ifStatement d⟩

theorem tells_block : Tells deepening fun e => Parse.block (e + b) d :=
  ⟨.of_refuses (.punct .braceOpen :: deep) fun e k => refuses_block d k (e + b), h.block d⟩

theorem tells_blockRest : Tells deepening fun e => Parse.blockRest (e + b) d :=
  ⟨.of_refuses deep fun e k => refuses_blockRest d k (e + b), h.blockRest d⟩

theorem tells_body : Tells deepening fun e => Parse.body (e + b) d :=
  ⟨.of_refuses deep fun e k => refuses_body d k (e + b), h.body d⟩

theorem statement_succ : Goes deepening fun e => Parse.statement (e + (b + 1)) d := by
  simp only [← Nat.add_assoc, Parse.statement]
  refine (Tells.nested fun _ => ⟨?_, h.statementKind (d + 1)⟩).goes
  exact .of_refuses deep fun e k => refuses_statementKind (d + 1) k (e + b)

theorem ifStatement_succ : Goes deepening fun e => Parse.ifStatement (e + (b + 1)) d := by
  simp only [← Nat.add_assoc, Parse.ifStatement]
  have helse : ∀ test thenBody, Goes deepening fun e => eatWord "else" >>= fun c =>
      if c = true then eatWord "if" >>= fun c =>
        if c = true then Parse.ifStatement (e + b) d >>= fun other => pure (.ifElse test thenBody (some [other]))
        else Parse.body (e + b) d >>= fun elseBody => pure (.ifElse test thenBody (some elseBody))
      else (pure (.ifElse test thenBody none) : Parse Stmt) := by
    intro test thenBody
    refine .taken (tests_eatWord _) (.eatWord _ ?_ ?_) (Tells.pure _).goes
    · exact (h.tells_ifStatement d).bind_pure _
    · exact ((h.tells_body d).bind_pure _).goes
  refine (Tells.bind (tells_condition b d) fun test => ⟨?_, ?_⟩).goes
  · exact .of_refuses deep fun e k => (refuses_body d k (e + b)).bind
  · refine .bind_of (h.tells_body d) (helse test) fun l hl => hl.bind fun rest hrest thenBody => ?_
    obtain ⟨_, rfl, hdeep⟩ := hrest (.ifElse test thenBody none)
    exact ⟨deep, rfl, fun e k => .peek (hdeep e k) fun _ _ _ => rfl⟩

theorem block_succ : Goes deepening fun e => Parse.block (e + (b + 1)) d := by
  simp only [← Nat.add_assoc, Parse.block]
  exact ((tells_expect _).bind fun _ => h.tells_blockRest d).goes

theorem blockRest_succ : Goes deepening fun e => Parse.blockRest (e + (b + 1)) d := by
  simp only [← Nat.add_assoc, Parse.blockRest]
  refine .taken (tests_eat _) (.pure []) (.check tests_atEnd (.unexpected _) ?_)
  refine .bind_deep (h.tells_statement d) (fun stmt => ((h.tells_blockRest d).bind_pure (stmt :: ·)).goes) ?_
  exact fun _ e k => (refuses_blockRest d k (e + b)).bind

theorem body_succ : Goes deepening fun e => Parse.body (e + (b + 1)) d := by
  simp only [← Nat.add_assoc, Parse.body]
  exact .check (tests_check _) (h.block d) ((h.tells_statement d).bind_pure ([·])).goes

theorem statementKind_succ : Goes deepening fun e => Parse.statementKind (e + (b + 1)) d := by
  have hend : ∀ stmt : Stmt, Tells deepening fun _ => endStatement >>= fun _ => pure stmt := fun stmt =>
    tells_endStatement.bind fun _ => .pure stmt
  simp only [← Nat.add_assoc, Parse.statementKind]
  refine .taken (tests_eat _) (.pure _) ?_
  refine .check (tests_check _) ((h.tells_block d).bind_pure _).goes ?_
  refine .check tests_startsDeclaration ((tells_declaration b d).bind hend).goes ?_
  refine .taken (tests_eatWord _) (h.tells_ifStatement d) ?_
  refine .taken (tests_eatWord _) ((tells_condition b d).bind fun test => (h.tells_body d).bind_pure _) ?_
  refine .taken (tests_eatWord _) ((tells_forHead b d).bind fun head => (h.tells_body d).bind_pure _) ?_
  refine .taken (tests_eatWord _) (hend _) (.taken (tests_eatWord _) (hend _) ?_)
  refine .taken (tests_eatWord _) ((tells_returned b d).bind fun value => hend _) ?_
  refine .look (tests_checkWord _) fun _ => .look (tests_checkWord _) fun _ => ?_
  split
  · exact ((tells_functionHead b).bind fun head => (h.tells_block d).bind_pure _).goes
  · exact ((tells_simpleStatement b d).bind hend).goes

end StatementsGo

theorem statementsGo (b : Nat) : StatementsGo b := by
  induction b with
  | zero =>
    constructor
    all_goals
      intro d
      refine .refuses fun _ => ?_
      simp only [Nat.add_zero, statement, statementKind, ifStatement, block, blockRest, body]
      exact refuses_exceeded _
  | succ b ih =>
    exact ⟨ih.statement_succ, ih.statementKind_succ, ih.ifStatement_succ, ih.block_succ, ih.blockRest_succ,
      ih.body_succ⟩

theorem tells_statements (b : Nat) : Tells deepening fun e => statements (e + b) := by
  have hstart : ∀ b, Completable deepening (fun e => statements (e + b)) [] := fun b =>
    .of_refuses deep fun e k => refuses_statements k (e + b)
  refine ⟨hstart b, ?_⟩
  induction b with
  | zero =>
    refine .refuses fun _ => ?_
    exact refuses_exceeded _
  | succ b ih =>
    have hrest : Tells deepening fun e => statements (e + b) := ⟨hstart b, ih⟩
    simp only [statements]
    refine .check tests_atEnd (Tells.pure []).goes ?_
    refine .bind_deep ((statementsGo b).tells_statement 0) (fun stmt => (hrest.bind_pure (stmt :: ·)).goes) ?_
    exact fun _ e k => (refuses_statements k (e + b)).bind

end Parse

/-- Some tokens that start with the lexemes are a program, or fail for another reason than a single token. -/
def Viable (lexemes : List Lexeme) : Prop :=
  ∃ stream : TokenStream, lexemes <+: stream.lexemes
    ∧ ∀ found expected line, Program.ofTokens stream ≠ .error (.unexpectedToken found expected line)

theorem Viable.of_completable {b : Nat} {l : List Lexeme}
    (h : Parse.Completable Parse.deepening (fun e => Parse.statements (e + b)) l) : Viable l := by
  obtain ⟨c, hc⟩ := h (fun _ _ => Parse.exceeded) fun _ => ⟨_, rfl, fun _ _ => Parse.refuses_exceeded _⟩
  -- tokens that come after the completion make up for the bound
  let lexemes := l ++ (c ++ List.replicate b (.punct .semicolon))
  let stream : TokenStream := ⟨lexemes.map fun lexeme => ⟨lexeme, 1⟩, 1⟩
  have hlexemes : stream.lexemes = lexemes := by
    simp [stream, TokenStream.lexemes, Function.comp_def]
  have hbound : b ≤ stream.bound := by
    simp only [stream, TokenStream.bound, lexemes, List.length_map, List.length_append, List.length_replicate]
    omega
  obtain ⟨e, he⟩ := Nat.exists_eq_add_of_le' hbound
  refine ⟨stream, hlexemes ▸ List.prefix_append _ _, fun found expected line herror => ?_⟩
  unfold Program.ofTokens at herror
  rw [he] at herror
  obtain ⟨error, hrefuses, hother⟩ := hc e _ stream hlexemes
  cases hstatements : Parse.statements (e + b) stream with
  | ok result =>
    rw [hstatements] at herror
    cases herror
  | error error' =>
    rw [hstatements] at herror
    rw [Parse.bind_error hstatements] at hrefuses
    cases herror
    cases hrefuses
    cases hother

/-- A complaint is about the token with some index, wherever the tokens stand. The tokens before it can go on, unless a
property name was expected: then those before the token in its place can. -/
theorem Program.ofTokens_points {stream : TokenStream} {found : Option Lexeme} {expected : Expectation} {line : Nat}
    (h : Program.ofTokens stream = .error (.unexpectedToken found expected line))
    : ∃ i, i ≤ stream.lexemes.length
        ∧ (∀ stream' : TokenStream, stream'.lexemes = stream.lexemes → Program.ofTokens stream'
          = .error (.unexpectedToken stream.lexemes[i]? expected (stream'.lineAt i)))
        ∧ (Viable (stream.lexemes.take i)
          ∨ expected = .propertyName ∧ 0 < i ∧ Viable (stream.lexemes.take (i - 1))) := by
  have hbound : ∀ stream' : TokenStream, stream'.lexemes = stream.lexemes → stream'.bound = stream.bound := by
    intro stream' heq
    have := congrArg List.length heq
    simp only [TokenStream.lexemes, List.length_map] at this
    rw [TokenStream.bound, TokenStream.bound, this]
  have hstart := Parse.tells_statements stream.bound
  unfold Program.ofTokens at h
  cases hstart.goes stream.lexemes with
  | consumes n a hn hnext =>
    have heq := (hn 0 _ rfl).2 stream rfl
    rw [Nat.zero_add] at heq
    rw [heq] at h
    cases h
  | refuses hrefuses =>
    obtain ⟨error, heq, hother⟩ := hrefuses stream rfl
    rw [Nat.zero_add] at heq
    rw [heq] at h
    cases h
    cases hother
  | rejects i j expected' hi hj hnext =>
    have heq : ∀ stream' : TokenStream, stream'.lexemes = stream.lexemes → Parse.statements stream'.bound stream'
        = .error (.unexpectedToken stream.lexemes[i]? expected' (stream'.lineAt i)) := by
      intro stream' hstream'
      have := hi.2 stream' hstream'
      rwa [Nat.zero_add, ← hbound stream' hstream'] at this
    rw [heq stream rfl] at h
    cases h
    refine ⟨i, hi.1, fun stream' hstream' => ?_, ?_⟩
    · unfold Program.ofTokens
      rw [heq stream' hstream']
      rfl
    · have hviable := Viable.of_completable (hstart.completable hnext)
      obtain rfl | ⟨rfl, hname⟩ := hj
      · exact .inl hviable
      · exact .inr ⟨hname, Nat.succ_pos j, hviable⟩

section Stray

variable (bound depth line line' line'' endLine : Nat) (rest : List Token)

def stray : TokenStream :=
  ⟨⟨.word "a", line⟩ :: ⟨.punct .dot, line'⟩ :: ⟨.punct .parenOpen, line''⟩ :: rest, endLine⟩

def strayError : SyntaxError :=
  .unexpectedToken (rest.head?.map Token.lexeme) .propertyName (rest.head?.elim endLine Token.line)

theorem unary_stray
    : Parse.unary (bound + 2) depth (stray line line' line'' endLine rest) = .error (strayError endLine rest) := by
  have hname : Parse.primary (bound + 1) depth (stray line line' line'' endLine rest)
      = .ok (.identifier "a", ⟨⟨.punct .dot, line'⟩ :: ⟨.punct .parenOpen, line''⟩ :: rest, endLine⟩) := by
    rw [Parse.primary]
    rfl
  rw [Parse.unary]
  refine (Parse.bind_ok hname).trans ?_
  rw [Parse.accesses]
  rfl

theorem chain_stray : ∀ n ≤ Parse.levels, Parse.chain (bound + n + 3) depth (Parse.levels - n)
    (stray line line' line'' endLine rest) = .error (strayError endLine rest) := by
  intro n hn
  induction n with
  | zero =>
    rw [Parse.chain, Nat.sub_zero, if_neg (Nat.lt_irrefl _)]
    exact unary_stray ..
  | succ n ih =>
    rw [Parse.chain, if_pos (by omega)]
    refine Parse.bind_error ?_
    rw [show Parse.levels - (n + 1) + 1 = Parse.levels - n by omega]
    exact ih (by omega)

theorem ofTokens_stray
    : Program.ofTokens (stray line line' line'' endLine rest) = .error (strayError endLine rest) := by
  have hexpression : ∀ bound, Parse.expression (bound + 10) 1 (stray line line' line'' endLine rest)
      = .error (strayError endLine rest) := by
    intro bound
    rw [Parse.expression]
    exact chain_stray bound 2 line line' line'' endLine rest 6 (Nat.le_refl _)
  have hsimple : ∀ bound, Parse.simpleStatement (bound + 10) 1 (stray line line' line'' endLine rest)
      = .error (strayError endLine rest) := by
    intro bound
    exact Parse.bind_error (f := Parse.afterOperand (bound + 10) 1 line) (hexpression bound)
  have hstatement : ∀ bound, Parse.statement (bound + 12) 0 (stray line line' line'' endLine rest)
      = .error (strayError endLine rest) := by
    intro bound
    rw [Parse.statement, Parse.nested, if_neg (by decide), Parse.statementKind]
    exact Parse.bind_error (f := fun stmt => do Parse.endStatement; return stmt) (hsimple bound)
  have hstatements : ∀ bound, Parse.statements (bound + 13) (stray line line' line'' endLine rest)
      = .error (strayError endLine rest) := fun bound =>
    Parse.bind_error (f := fun stmt => do return stmt :: (← Parse.statements (bound + 12))) (hstatement bound)
  unfold Program.ofTokens
  rw [show TokenStream.bound _ = 16 * rest.length + 67 + 13 by simp [stray, TokenStream.bound]; omega, hstatements]
  rfl

end Stray

theorem Program.ofTokens_points_stray
    : let stream := stray 1 1 2 3 [⟨.word "b", 3⟩]
      Program.ofTokens stream = .error (.unexpectedToken (some (.word "b")) .propertyName 3)
      ∧ ∃ i, i ≤ stream.lexemes.length
        ∧ (∀ stream' : TokenStream, stream'.lexemes = stream.lexemes → Program.ofTokens stream'
          = .error (.unexpectedToken stream.lexemes[i]? .propertyName (stream'.lineAt i)))
        ∧ (Viable (stream.lexemes.take i)
          ∨ Expectation.propertyName = .propertyName ∧ 0 < i ∧ Viable (stream.lexemes.take (i - 1))) :=
  ⟨ofTokens_stray .., Program.ofTokens_points (ofTokens_stray ..)⟩

theorem Program.complains_late
    : (∀ stream : TokenStream, stream.lexemes = [.word "a", .punct .dot, .punct .parenOpen, .word "b"]
        → Program.ofTokens stream = .error (.unexpectedToken (some (.word "b")) .propertyName (stream.lineAt 3)))
      ∧ ¬ Viable [.word "a", .punct .dot, .punct .parenOpen] := by
  have htokens : ∀ {stream : TokenStream} {lexemes},
      stream.lexemes = .word "a" :: .punct .dot :: .punct .parenOpen :: lexemes
      → ∃ line line' line'' rest, stream = stray line line' line'' stream.endLine rest
        ∧ rest.map Token.lexeme = lexemes := by
    rintro ⟨tokens, endLine⟩ lexemes hstream
    obtain ⟨⟨_, line⟩, tokens', rfl, rfl, hafter⟩ := List.map_eq_cons_iff.mp hstream
    obtain ⟨⟨_, line'⟩, tokens'', rfl, rfl, hafter'⟩ := List.map_eq_cons_iff.mp hafter
    obtain ⟨⟨_, line''⟩, rest, rfl, rfl, hrest⟩ := List.map_eq_cons_iff.mp hafter'
    exact ⟨line, line', line'', rest, rfl, hrest⟩
  constructor
  · intro stream hstream
    obtain ⟨line, line', line'', rest, heq, hrest⟩ := htokens hstream
    obtain ⟨⟨_, _⟩, tokens, rfl, rfl, -⟩ := List.map_eq_cons_iff.mp hrest
    rw [heq]
    exact ofTokens_stray ..
  · rintro ⟨stream, ⟨lexemes, hlexemes⟩, hviable⟩
    obtain ⟨line, line', line'', rest, heq, -⟩ := htokens hlexemes.symm
    rw [heq] at hviable
    exact hviable _ _ _ (ofTokens_stray ..)

end NodeScript.Script
