import NodeScript.Proofs.Parse.Takes

/-!
What the rules for expressions make of given lexemes.
-/

namespace NodeScript.Script.Parse

open List

variable {α : Type}

/-- The rule reads the lexemes with a bound of sixteen for each and some slack. Where `height` levels more do not fit,
it may fail instead. -/
def Reads (rule : Nat → Nat → Parse α) (slack height : Nat) (lexemes : List Lexeme)
    (follow : Option Lexeme → Prop) (a : α) : Prop :=
  ∀ (fits : Prop) bound depth, 16 * lexemes.length + slack ≤ bound → (fits → depth + height ≤ maxNesting)
    → Takes fits (rule bound depth) lexemes follow a

def Halts (next : Option Lexeme) : Prop :=
  ∀ mark, next = some (.punct mark) → mark ∉ [.dot, .bracketOpen, .parenOpen]

def HaltsAt (level : Nat) (next : Option Lexeme) : Prop :=
  Halts next ∧ ∀ mark, next = some (.punct mark) → ∀ k, level ≤ k → connective? k mark = none

def atom? : Lexeme → Option Expr
  | .number value => some (.number value)
  | .str value => some (.str value)
  | .word text =>
    match text with
    | "true" => some (.bool true)
    | "false" => some (.bool false)
    | "null" => some .null
    | "undefined" => some .undefined
    | name => if isKeyword name then none else some (.identifier name)
  | .punct _ => none

def binaryMark : BinaryOp → Punct
  | .add => .plus | .subtract => .minus
  | .multiply => .star | .divide => .slash | .modulo => .percent
  | .less => .less | .lessEqual => .lessEqual
  | .greater => .greater | .greaterEqual => .greaterEqual
  | .strictEqual => .strictEqual | .strictNotEqual => .strictNotEqual
  | .looseEqual => .equal | .looseNotEqual => .notEqual

def Connective.mark : Connective → Punct
  | .binary op => binaryMark op
  | .logical .or => .or
  | .logical .and => .and

def Connective.level : Connective → Nat
  | .logical .or => 0
  | .logical .and => 1
  | .binary op =>
    match op with
    | .strictEqual | .strictNotEqual | .looseEqual | .looseNotEqual => 2
    | .less | .lessEqual | .greater | .greaterEqual => 3
    | .add | .subtract => 4
    | .multiply | .divide | .modulo => 5

theorem Connective.connective?_mark (op : Connective) : connective? op.level op.mark = some op := by
  cases op with
  | logical op | binary op => cases op <;> rfl

variable {tree head left right : Expr} {mark : Punct} {op : Connective} {height level : Nat} {name : String}
  {lexemes lexemes' : List Lexeme} {follow : Option Lexeme → Prop}

namespace Reads

variable {rule : Nat → Nat → Parse α} {slack height' : Nat} {a : α}

theorem of_succ (hpos : 0 < 16 * lexemes.length + slack)
    (h : ∀ (fits : Prop) bound depth, 16 * lexemes.length + slack ≤ bound + 1 → (fits → depth + height ≤ maxNesting)
      → Takes fits (rule (bound + 1) depth) lexemes follow a) : Reads rule slack height lexemes follow a := by
  intro fits bound depth hbound
  obtain ⟨bound, rfl⟩ := Nat.exists_eq_add_of_lt (Nat.lt_of_lt_of_le hpos hbound)
  rw [Nat.zero_add] at hbound ⊢
  exact h fits bound depth hbound

theorem mono (h : Reads rule slack height lexemes follow a) (hheight : height ≤ height')
    : Reads rule slack height' lexemes follow a :=
  fun fits bound depth hbound hdepth => h fits bound depth hbound fun hfits =>
    Nat.le_trans (Nat.add_le_add_left hheight depth) (hdepth hfits)

end Reads

theorem reads_primary_atom {lexeme : Lexeme} (h : atom? lexeme = some tree)
    : Reads primary 0 height [lexeme] anything tree := by
  refine .of_succ (by simp) fun fits bound depth hbound _ => ?_
  apply Takes.one
  intro line rest endLine
  rw [primary, bind_ok (by rfl)]
  simp only [head?_cons, Option.map_some]
  cases lexeme with
  | number value | str value =>
    obtain rfl := Option.some.inj h
    rfl
  | word text =>
    unfold atom? at h
    dsimp only at h
    split at h
    · obtain rfl := Option.some.inj h
      rfl
    · obtain rfl := Option.some.inj h
      rfl
    · obtain rfl := Option.some.inj h
      rfl
    · obtain rfl := Option.some.inj h
      rfl
    · split at h
      · simp at h
      · next hkeyword =>
        obtain rfl := Option.some.inj h
        generalize hnext : some (Lexeme.word text) = next
        split
        case h_10 =>
          obtain rfl := Lexeme.word.inj (Option.some.inj hnext)
          rw [if_neg hkeyword]
          rfl
        case h_11 hword => exact absurd hnext.symm (hword text)
        all_goals simp_all
  | punct mark => simp [atom?] at h

theorem connective?_of_levels_le {k : Nat} (h : levels ≤ k) (mark : Punct) : connective? k mark = none := by
  obtain ⟨n, rfl⟩ := Nat.exists_eq_add_of_le' h
  cases mark <;> rfl

theorem connective?_eq_none_of_lt {k : Nat} (h : connective? level mark = some op) (hk : level < k)
    : connective? k mark = none := by
  by_cases hle : levels ≤ k
  · exact connective?_of_levels_le hle mark
  · have : ∀ k < levels, ∀ level < k, (connective? level mark).isSome → connective? k mark = none := by
      cases mark <;> decide
    exact this k (by omega) level hk (by simp [h])

theorem haltsAt_of_connective (h : connective? level mark = some op) : HaltsAt (level + 1) (some (.punct mark)) := by
  refine ⟨?_, ?_⟩
  · rintro _ heq
    obtain rfl := Lexeme.punct.inj (Option.some.inj heq)
    intro hmem
    -- None of the marks that an operand goes on with is an operator.
    have hnone : connective? level mark = none := by
      simp only [mem_cons, not_mem_nil, or_false] at hmem
      obtain rfl | rfl | rfl := hmem
      all_goals simp [connective?]
    simp [hnone] at h
  · rintro _ heq k hk
    obtain rfl := Lexeme.punct.inj (Option.some.inj heq)
    exact connective?_eq_none_of_lt h hk

def closers : List Punct :=
  [.parenClose, .bracketClose, .braceClose, .comma, .semicolon, .assign, .plusAssign, .minusAssign]

theorem haltsAt_of_mem_closers (h : mark ∈ closers) (level : Nat) : HaltsAt level (some (.punct mark)) := by
  refine ⟨?_, ?_⟩
  · rintro _ heq
    obtain rfl := Lexeme.punct.inj (Option.some.inj heq)
    revert h
    cases mark <;> decide
  · rintro _ heq k _
    obtain rfl := Lexeme.punct.inj (Option.some.inj heq)
    by_cases hle : levels ≤ k
    · exact connective?_of_levels_le hle mark
    · have : ∀ k < levels, mark ∈ closers → connective? k mark = none := by
        cases mark <;> decide
      exact this k (by omega) h

theorem Takes.before {β : Type} {rule : Parse Expr} {f : Expr → Parse β} {b : β} (hmark : mark ∈ closers)
    (hrule : Takes fits rule lexemes (HaltsAt 0) tree) (hf : Takes fits (f tree) (.punct mark :: lexemes') follow b)
    : Takes fits (rule >>= f) (lexemes ++ .punct mark :: lexemes') follow b :=
  .bind hrule hf fun _ _ => haltsAt_of_mem_closers hmark 0

theorem reads_primary_paren (h : Reads expression 9 height lexemes (HaltsAt 0) tree)
    : Reads primary 0 height (.punct .parenOpen :: (lexemes ++ [.punct .parenClose])) anything tree := by
  refine .of_succ (by simp) fun fits bound depth hbound hdepth => ?_
  simp only [length_cons, length_append, length_nil] at hbound
  rw [primary]
  apply Takes.look (takes_peek (some (.punct .parenOpen))) fun _ _ => rfl
  apply Takes.cons (takes_skip _)
  apply Takes.before (by decide) (h fits bound depth (by omega) hdepth)
  exact .cons (takes_expect _) .pure

def Opens (lexemes : List Lexeme) : Prop :=
  ∃ lexeme tail, lexemes = lexeme :: tail
    ∧ (lexeme = .punct .parenOpen ∨ lexeme = .punct .bracketOpen ∨ lexeme = .punct .braceOpen ∨ (atom? lexeme).isSome)

theorem Opens.append (h : Opens lexemes) (lexemes' : List Lexeme) : Opens (lexemes ++ lexemes') := by
  obtain ⟨lexeme, tail, rfl, hlexeme⟩ := h
  exact ⟨lexeme, tail ++ lexemes', rfl, hlexeme⟩

theorem atom?_word (hname : isKeyword name = false) : atom? (.word name) = some (.identifier name) := by
  have hne : ∀ word, isKeyword word = true → name ≠ word := by
    rintro word hword rfl
    simp [hword] at hname
  unfold atom?
  dsimp only
  split
  · exact absurd rfl (hne "true" (by decide))
  · exact absurd rfl (hne "false" (by decide))
  · exact absurd rfl (hne "null" (by decide))
  · exact absurd rfl (hne "undefined" (by decide))
  · rw [if_neg (by simp [hname])]

theorem opens_word (h : isKeyword name = false) (tail : List Lexeme) : Opens (.word name :: tail) :=
  ⟨_, _, rfl, .inr (.inr (.inr (by simp [atom?_word h])))⟩

theorem Opens.upcoming (h : Opens lexemes) (next : Option Lexeme)
    : (∀ mark, upcoming lexemes next = some (.punct mark) → unaryOp? mark = none)
        ∧ isWord "await" (upcoming lexemes next) = false := by
  obtain ⟨lexeme, tail, rfl, rfl | rfl | rfl | hatom⟩ := h
  any_goals exact ⟨fun _ heq => Lexeme.punct.inj (Option.some.inj heq) ▸ rfl, rfl⟩
  · refine ⟨?_, ?_⟩
    · rintro mark heq
      obtain rfl := Option.some.inj heq
      simp [atom?] at hatom
    · rw [upcoming_cons]
      unfold isWord
      split
      · next found heq =>
        obtain rfl := Option.some.inj heq
        rw [decide_eq_false_iff_not]
        rintro rfl
        exact absurd hatom (by decide)
      · rfl

theorem reads_unary_operand (hopens : Opens lexemes) (hhead : Reads primary 0 height lexemes anything head)
    (htree : Reads (accesses · · head) 1 height lexemes' Halts tree)
    : Reads unary 1 height (lexemes ++ lexemes') Halts tree := by
  refine .of_succ (by simp) fun fits bound depth hbound hdepth => ?_
  rw [length_append] at hbound
  have hfirst := (hopens.append lexemes').upcoming
  have hlength : 1 ≤ lexemes.length := by
    obtain ⟨lexeme, tail, rfl, -⟩ := hopens
    simp
  rw [unary]
  apply Takes.look takes_unaryOp_none fun next _ => (hfirst next).1
  apply Takes.look (takes_eatWord_none "await") fun next _ => (hfirst next).2
  apply Takes.bind (hhead fits bound depth (by omega) hdepth)
  · exact htree fits bound depth (by omega) hdepth
  · intros
    trivial

theorem reads_unary_op {op : UnaryOp} (hop : unaryOp? mark = some op) (h : Reads unary 1 height lexemes Halts tree)
    : Reads unary 1 (height + 1) (.punct mark :: lexemes) Halts (.unary op tree) := by
  refine .of_succ (by simp) fun fits bound depth hbound hdepth => ?_
  rw [length_cons] at hbound
  rw [unary]
  apply Takes.cons (takes_unaryOp hop)
  dsimp only
  exact .last (takes_nested hdepth (h fits bound (depth + 1) (by omega))) .pure

theorem reads_unary_await (h : Reads unary 1 height lexemes Halts tree)
    : Reads unary 1 (height + 1) (.word "await" :: lexemes) Halts (.await tree) := by
  refine .of_succ (by simp) fun fits bound depth hbound hdepth => ?_
  rw [length_cons] at hbound
  rw [unary]
  apply Takes.look takes_unaryOp_none
  · intro next _ mark heq
    simp at heq
  · apply Takes.cons (takes_eatWord "await")
    rw [if_pos rfl]
    exact .last (takes_nested hdepth (h fits bound (depth + 1) (by omega))) .pure

theorem reads_chain_unary (h : Reads unary 1 height lexemes Halts tree)
    : Reads (chain · · levels) 2 height lexemes (HaltsAt levels) tree := by
  refine .of_succ (by simp) fun fits bound depth hbound hdepth => ?_
  rw [chain, if_neg (Nat.lt_irrefl _)]
  exact (h fits bound depth (by omega) hdepth).weaken fun _ hnext => hnext.1

theorem reads_chainRest_nil (level : Nat) (left : Expr)
    : Reads (chainRest · · level left) 1 height [] (HaltsAt level) left := by
  refine .of_succ (by simp) fun fits bound depth hbound _ => ?_
  rw [chainRest]
  apply Takes.look (((tests_connective level).takes_none rfl).weaken fun _ => markOf?_eq_none)
  · intro next hnext mark heq
    exact hnext.2 mark heq level (Nat.le_refl _)
  · exact .pure

def GoesOnAt (level : Nat) (lexemes : List Lexeme) : Prop :=
  lexemes = [] ∨ ∃ mark tail, lexemes = .punct mark :: tail ∧ (connective? level mark).isSome

theorem GoesOnAt.haltsAt (h : GoesOnAt level lexemes)
    {next : Option Lexeme} (hnext : HaltsAt level next) : HaltsAt (level + 1) (upcoming lexemes next) := by
  obtain rfl | ⟨mark, tail, rfl, hop⟩ := h
  · exact ⟨hnext.1, fun mark heq k hk => hnext.2 mark heq k (by omega)⟩
  · obtain ⟨op, hop⟩ := Option.isSome_iff_exists.mp hop
    exact haltsAt_of_connective hop

theorem reads_chainRest_cons (hop : connective? level mark = some op) (hlexemes : GoesOnAt level lexemes')
    (hright : Reads (chain · · (level + 1)) (7 - level) height lexemes (HaltsAt (level + 1)) right)
    (htree : Reads (chainRest · · level (op.apply left right)) 1 height lexemes' (HaltsAt level) tree)
    : Reads (chainRest · · level left) 1 height (.punct mark :: (lexemes ++ lexemes')) (HaltsAt level) tree := by
  refine .of_succ (by simp) fun fits bound depth hbound hdepth => ?_
  simp only [length_cons, length_append] at hbound
  rw [chainRest]
  apply Takes.cons (takes_connective hop)
  exact .bind (hright fits bound depth (by omega) hdepth) (htree fits bound depth (by omega) hdepth)
    fun _ hnext => hlexemes.haltsAt hnext

theorem reads_chain (hlevel : level < levels) (hlexemes : GoesOnAt level lexemes')
    (hleft : Reads (chain · · (level + 1)) (7 - level) height lexemes (HaltsAt (level + 1)) left)
    (htree : Reads (chainRest · · level left) 1 height lexemes' (HaltsAt level) tree)
    : Reads (chain · · level) (8 - level) height (lexemes ++ lexemes') (HaltsAt level) tree := by
  have : level < 6 := hlevel
  refine .of_succ (by omega) fun fits bound depth hbound hdepth => ?_
  rw [length_append] at hbound
  rw [chain, if_pos hlevel]
  exact .bind (hleft fits bound depth (by omega) hdepth) (htree fits bound depth (by omega) hdepth)
    fun _ hnext => hlexemes.haltsAt hnext

theorem lt_levels_of_connective (h : connective? level mark = some op) : level < levels := by
  apply Nat.lt_of_not_le
  intro hle
  simp [connective?_of_levels_le hle] at h

theorem GoesOnAt.append (h : GoesOnAt level lexemes) (h' : GoesOnAt level lexemes')
    : GoesOnAt level (lexemes ++ lexemes') := by
  obtain rfl | ⟨mark, tail, rfl, hop⟩ := h
  · exact h'
  · exact .inr ⟨mark, tail ++ lexemes', rfl, hop⟩

/-- Operators of the level that come after the lexemes go on with the tree. -/
def Resumes (rule : Nat → Nat → Parse Expr) (slack level height : Nat) (lexemes : List Lexeme) (tree : Expr) : Prop :=
  ∀ {height' lexemes' whole}, height ≤ height' → GoesOnAt level lexemes'
    → Reads (chainRest · · level tree) 1 height' lexemes' (HaltsAt level) whole
    → Reads rule slack height' (lexemes ++ lexemes') (HaltsAt level) whole

/-- The lexemes are read as an expression of the level, and as the left operand of its operators. -/
structure ReadsChain (level height : Nat) (lexemes : List Lexeme) (tree : Expr) : Prop where
  reads : Reads (chain · · level) (8 - level) height lexemes (HaltsAt level) tree
  resumes : level < levels → Resumes (chain · · level) (8 - level) level height lexemes tree

namespace ReadsChain

theorem of_resumes (h : Resumes (chain · · level) (8 - level) level height lexemes tree)
    : ReadsChain level height lexemes tree := by
  refine ⟨?_, fun _ => h⟩
  have hall := h (Nat.le_refl _) (.inl rfl) (reads_chainRest_nil level tree)
  rwa [append_nil] at hall

theorem mono {height' : Nat} (h : ReadsChain level height lexemes tree) (hheight : height ≤ height')
    : ReadsChain level height' lexemes tree :=
  ⟨h.reads.mono hheight, fun hlevel _ _ _ hle => h.resumes hlevel (Nat.le_trans hheight hle)⟩

theorem operand (h : ReadsChain (level + 1) height lexemes tree)
    : Reads (chain · · (level + 1)) (7 - level) height lexemes (HaltsAt (level + 1)) tree :=
  Nat.add_sub_add_right 7 1 level ▸ h.reads

theorem append (hlevel : level < levels) (hleft : ReadsChain (level + 1) height lexemes left)
    (hlexemes : GoesOnAt level lexemes') (hrest : Resumes (chainRest · · level left) 1 level height lexemes' tree)
    : ReadsChain level height (lexemes ++ lexemes') tree := by
  refine of_resumes fun hheight hmore hwhole => ?_
  rw [append_assoc]
  exact reads_chain hlevel (hlexemes.append hmore) (hleft.operand.mono hheight) (hrest hheight hmore hwhole)

theorem of_le {k : Nat} (hlevel : level ≤ levels) (hk : k ≤ level) (h : ReadsChain level height lexemes tree)
    : ReadsChain k height lexemes tree := by
  induction hk with
  | refl => exact h
  | step _ ih =>
    apply ih (Nat.le_of_succ_le hlevel)
    rw [← append_nil lexemes]
    exact append hlevel h (.inl rfl) fun _ _ hwhole => hwhole

theorem of_unary (hlevel : level ≤ levels) (h : Reads unary 1 height lexemes Halts tree)
    : ReadsChain level height lexemes tree :=
  of_le (Nat.le_refl _) hlevel ⟨reads_chain_unary h, fun hlt => absurd hlt (Nat.lt_irrefl _)⟩

theorem unary (h : ReadsChain levels height lexemes tree) : Reads unary 1 height lexemes Halts tree := by
  intro fits bound depth hbound hdepth
  have hchain : Takes fits (chain (bound + 1) depth levels) lexemes (HaltsAt levels) tree :=
    h.reads fits (bound + 1) depth (Nat.succ_le_succ hbound) hdepth
  rw [chain, if_neg (Nat.lt_irrefl _)] at hchain
  exact hchain.weaken fun _ hnext => ⟨hnext, fun mark _ _ hk => connective?_of_levels_le hk mark⟩

theorem binary (hop : connective? level mark = some op) (hleft : ReadsChain level height lexemes left)
    (hright : ReadsChain (level + 1) height lexemes' right)
    : ReadsChain level height (lexemes ++ .punct mark :: lexemes') (op.apply left right) := by
  refine of_resumes fun hheight hmore hwhole => ?_
  rw [append_assoc, cons_append]
  exact hleft.resumes (lt_levels_of_connective hop) hheight (.inr ⟨mark, _, rfl, hop ▸ rfl⟩)
    (reads_chainRest_cons hop hmore (hright.operand.mono hheight) hwhole)

end ReadsChain

theorem reads_expression (h : Reads (chain · · 0) 8 height lexemes (HaltsAt 0) tree)
    : Reads expression 9 (height + 1) lexemes (HaltsAt 0) tree := by
  refine .of_succ (by simp) fun fits bound depth hbound hdepth => ?_
  rw [expression]
  exact takes_nested hdepth (h fits bound (depth + 1) (by omega))

theorem ReadsChain.expression (h : ReadsChain level height lexemes tree) (hlevel : level ≤ levels)
    : Reads expression 9 (height + 1) lexemes (HaltsAt 0) tree :=
  reads_expression (h.of_le hlevel (Nat.zero_le _)).reads

theorem reads_expression_unary (h : Reads unary 1 height lexemes Halts tree)
    : Reads expression 9 (height + 1) lexemes (HaltsAt 0) tree :=
  reads_expression (ReadsChain.of_unary (Nat.zero_le _) h).reads

theorem reads_accesses_nil (head : Expr) : Reads (accesses · · head) 1 height [] Halts head := by
  refine .of_succ (by simp) fun fits bound depth hbound _ => ?_
  have hmark : ∀ mark ∈ [.dot, .bracketOpen, .parenOpen], ∀ next, Halts next → isMark mark next = false := by
    intro mark hmem next hnext
    unfold isMark
    split
    · next found =>
      rw [decide_eq_false_iff_not]
      rintro rfl
      exact hnext _ rfl hmem
    · rfl
  rw [accesses]
  apply Takes.look (takes_eat_none _) (hmark _ (by decide))
  apply Takes.look (takes_eat_none _) (hmark _ (by decide))
  apply Takes.look (takes_eat_none _) (hmark _ (by decide))
  exact .pure

theorem reads_unary_primary (hopens : Opens lexemes) (h : Reads primary 0 height lexemes anything tree)
    : Reads unary 1 height lexemes Halts tree := by
  rw [← append_nil lexemes]
  exact reads_unary_operand hopens h (reads_accesses_nil tree)

theorem reads_unary_name (hname : isKeyword name = false)
    (h : Reads (accesses · · (.identifier name)) 1 height lexemes Halts tree)
    : Reads unary 1 height (.word name :: lexemes) Halts tree :=
  reads_unary_operand (opens_word hname []) (reads_primary_atom (atom?_word hname)) h

theorem reads_accesses_member (h : Reads (accesses · · (.member head name)) 1 height lexemes Halts tree)
    : Reads (accesses · · head) 1 height (.punct .dot :: .word name :: lexemes) Halts tree := by
  refine .of_succ (by simp) fun fits bound depth hbound hdepth => ?_
  simp only [length_cons] at hbound
  rw [accesses]
  apply Takes.cons (takes_eat _)
  apply Takes.cons (takes_property name)
  exact h fits bound depth (by omega) hdepth

theorem reads_accesses_index {position : Expr} (hposition : Reads expression 9 height lexemes (HaltsAt 0) position)
    (h : Reads (accesses · · (.index head position)) 1 height lexemes' Halts tree)
    : Reads (accesses · · head) 1 height
        (.punct .bracketOpen :: (lexemes ++ .punct .bracketClose :: lexemes')) Halts tree := by
  refine .of_succ (by simp) fun fits bound depth hbound hdepth => ?_
  simp only [length_cons, length_append] at hbound
  rw [accesses]
  apply Takes.look (takes_eat_none _) fun _ _ => rfl
  apply Takes.cons (takes_eat _)
  apply Takes.before (by decide) (hposition fits bound depth (by omega) hdepth)
  apply Takes.cons (takes_expect _)
  exact h fits bound depth (by omega) hdepth

theorem reads_accesses_call {arguments : List Expr}
    (harguments : Reads (items · · .parenClose) 10 height lexemes (· = some (.punct .parenClose)) arguments)
    (h : Reads (accesses · · (.call head arguments)) 1 height lexemes' Halts tree)
    : Reads (accesses · · head) 1 height
        (.punct .parenOpen :: (lexemes ++ .punct .parenClose :: lexemes')) Halts tree := by
  refine .of_succ (by simp) fun fits bound depth hbound hdepth => ?_
  simp only [length_cons, length_append] at hbound
  rw [accesses]
  apply Takes.look (takes_eat_none _) fun _ _ => rfl
  apply Takes.look (takes_eat_none _) fun _ _ => rfl
  apply Takes.cons (takes_eat _)
  apply Takes.bind (harguments fits bound depth (by omega) hdepth)
  · apply Takes.cons (takes_expect _)
    exact h fits bound depth (by omega) hdepth
  · intros
    rfl

def commaList : List (List Lexeme) → List Lexeme :=
  List.intercalate [.punct .comma]

theorem commaList_nil : commaList [] = [] := rfl

theorem commaList_singleton (lexemes : List Lexeme) : commaList [lexemes] = lexemes := by
  simp [commaList, intercalate, intersperse]

theorem commaList_cons_cons (lexemes lexemes' : List Lexeme) (rest : List (List Lexeme))
    : commaList (lexemes :: lexemes' :: rest) = lexemes ++ .punct .comma :: commaList (lexemes' :: rest) := by
  simp [commaList, intercalate, intersperse]

def Begins (lexemes : List Lexeme) : Prop :=
  ∃ lexeme tail, lexemes = lexeme :: tail ∧ ∀ mark ∈ .equal :: .strictEqual :: closers, isMark mark (some lexeme) = false

theorem begins_word (word : String) (tail : List Lexeme) : Begins (.word word :: tail) :=
  ⟨_, _, rfl, fun _ _ => rfl⟩

theorem Opens.begins (h : Opens lexemes) : Begins lexemes := by
  obtain ⟨lexeme, tail, rfl, hlexeme⟩ := h
  refine ⟨lexeme, tail, rfl, ?_⟩
  intro mark hmark
  obtain rfl | rfl | rfl | hatom := hlexeme
  · revert mark
    decide
  · revert mark
    decide
  · revert mark
    decide
  · cases lexeme with
    | punct => simp [atom?] at hatom
    | _ => rfl

theorem Begins.append (h : Begins lexemes) (lexemes' : List Lexeme) : Begins (lexemes ++ lexemes') := by
  obtain ⟨lexeme, tail, rfl, hlexeme⟩ := h
  exact ⟨lexeme, tail ++ lexemes', rfl, hlexeme⟩

theorem Begins.isMark (h : Begins lexemes) (next : Option Lexeme) (hmark : mark ∈ closers)
    : isMark mark (Parse.upcoming lexemes next) = false := by
  obtain ⟨lexeme, tail, rfl, hlexeme⟩ := h
  exact hlexeme mark (mem_cons_of_mem _ (mem_cons_of_mem _ hmark))

structure ReadsExpression (height : Nat) (lexemes : List Lexeme) (tree : Expr) : Prop where
  begins : Begins lexemes
  reads : Reads expression 9 height lexemes (HaltsAt 0) tree

section Items

variable {close : Punct} (hclose : close ∈ [.parenClose, .bracketClose])

theorem reads_items_nil (close : Punct) : Reads (items · · close) 10 height [] (· = some (.punct close)) [] := by
  refine .of_succ (by simp) fun fits bound depth hbound _ => ?_
  rw [items]
  apply Takes.look (takes_check close true)
  · rintro _ rfl
    simp [isMark]
  · exact .pure

variable {item : Expr} {rest : List Expr}
  (hfirst : ∀ next, isMark close (upcoming lexemes next) = false)
  (hitem : Reads expression 9 height lexemes (HaltsAt 0) item)

include hclose hfirst hitem

theorem reads_items_last : Reads (items · · close) 10 height lexemes (· = some (.punct close)) [item] := by
  have hmarks : close ∈ closers ∧ isMark .comma (some (.punct close)) = false := by
    revert hclose
    cases close <;> decide
  refine .of_succ (by simp) fun fits bound depth hbound hdepth => ?_
  rw [items]
  apply Takes.look (takes_check close false) fun next _ => hfirst next
  rw [← append_nil lexemes]
  apply Takes.bind (hitem fits bound depth (by omega) hdepth)
  · apply Takes.look (takes_eat_none .comma)
    · rintro _ rfl
      exact hmarks.2
    · exact .pure
  · rintro _ rfl
    exact haltsAt_of_mem_closers hmarks.1 0

omit hclose in
theorem reads_items_cons (hrest : Reads (items · · close) 10 height lexemes' (· = some (.punct close)) rest)
    (hnonempty : lexemes ≠ [])
    : Reads (items · · close) 10 height (lexemes ++ .punct .comma :: lexemes')
        (· = some (.punct close)) (item :: rest) := by
  refine .of_succ (by simp) fun fits bound depth hbound hdepth => ?_
  rw [length_append, length_cons] at hbound
  rw [items]
  apply Takes.look (takes_check close false)
  · intro next _
    obtain ⟨lexeme, tail, rfl⟩ := exists_cons_of_ne_nil hnonempty
    exact hfirst next
  apply Takes.before (by decide) (hitem fits bound depth (by omega) hdepth)
  apply Takes.cons (takes_eat .comma)
  exact .last (hrest fits bound depth (by omega) hdepth) .pure

end Items

theorem reads_items {close : Punct} (hclose : close ∈ [.parenClose, .bracketClose])
    {arguments : List (List Lexeme × Expr)} (h : ∀ argument ∈ arguments, ReadsExpression height argument.1 argument.2)
    : Reads (items · · close) 10 height
        (commaList (arguments.map Prod.fst)) (· = some (.punct close)) (arguments.map Prod.snd) := by
  have hcloser : close ∈ closers := by
    revert hclose
    cases close <;> decide
  induction arguments with
  | nil => exact reads_items_nil close
  | cons argument arguments ih =>
    rw [forall_mem_cons] at h
    obtain ⟨⟨hbegins, hreads⟩, hrest⟩ := h
    have hfirst := fun next => hbegins.isMark next hcloser
    cases arguments with
    | nil =>
      rw [map_singleton, map_singleton, commaList_singleton]
      exact reads_items_last hclose hfirst hreads
    | cons argument' arguments =>
      obtain ⟨lexeme, tail, heq, -⟩ := hbegins
      rw [map_cons, map_cons, commaList_cons_cons]
      exact reads_items_cons hfirst hreads (ih hrest) (by simp [heq])

def fieldLexemesAs (spell : String → Lexeme) (field : String × List Lexeme × Expr) : List Lexeme :=
  spell field.1 :: .punct .colon :: field.2.1

section Fields

theorem reads_fields_nil : Reads fields 1 height [] (· = some (.punct .braceClose)) [] := by
  refine .of_succ (by simp) fun fits bound depth hbound _ => ?_
  rw [fields]
  apply Takes.look (takes_check .braceClose true)
  · rintro _ rfl
    rfl
  · exact .pure

variable {lexeme : Lexeme} {value : Expr}
  {rest : List (String × Expr)} (hfirst : isMark .braceClose (some lexeme) = false)
  (hkey : ∀ fits : Prop, Takes fits key [lexeme] anything name)
  (hvalue : Reads expression 9 height lexemes (HaltsAt 0) value)

include hfirst hkey hvalue

theorem reads_fields_last
    : Reads fields 1 height (lexeme :: .punct .colon :: lexemes) (· = some (.punct .braceClose)) [(name, value)] := by
  refine .of_succ (by simp) fun fits bound depth hbound hdepth => ?_
  simp only [length_cons] at hbound
  rw [fields]
  apply Takes.look (takes_check .braceClose false) (by intros; exact hfirst)
  apply Takes.cons (hkey _)
  apply Takes.cons (takes_expect _)
  rw [← append_nil lexemes]
  apply Takes.bind (hvalue fits bound depth (by omega) hdepth)
  · apply Takes.look (takes_eat_none .comma)
    · rintro _ rfl
      rfl
    · exact .pure
  · rintro _ rfl
    exact haltsAt_of_mem_closers (by decide) 0

theorem reads_fields_cons (hrest : Reads fields 1 height lexemes' (· = some (.punct .braceClose)) rest)
    : Reads fields 1 height (lexeme :: .punct .colon :: (lexemes ++ .punct .comma :: lexemes'))
        (· = some (.punct .braceClose)) ((name, value) :: rest) := by
  refine .of_succ (by simp) fun fits bound depth hbound hdepth => ?_
  simp only [length_cons, length_append] at hbound
  rw [fields]
  apply Takes.look (takes_check .braceClose false) (by intros; exact hfirst)
  apply Takes.cons (hkey _)
  apply Takes.cons (takes_expect _)
  apply Takes.before (by decide) (hvalue fits bound depth (by omega) hdepth)
  apply Takes.cons (takes_eat .comma)
  exact .last (hrest fits bound depth (by omega) hdepth) .pure

end Fields

theorem reads_fieldsAs {spell : String → Lexeme}
    (hkey : ∀ (fits : Prop) name, Takes fits key [spell name] anything name)
    (hspell : ∀ name, isMark .braceClose (some (spell name)) = false) {entries : List (String × List Lexeme × Expr)}
    (h : ∀ field ∈ entries, ReadsExpression height field.2.1 field.2.2)
    : Reads fields 1 height (commaList (entries.map (fieldLexemesAs spell)))
        (· = some (.punct .braceClose)) (entries.map fun field => (field.1, field.2.2)) := by
  induction entries with
  | nil => exact reads_fields_nil
  | cons field entries ih =>
    rw [forall_mem_cons] at h
    have hfirst := hspell field.1
    cases entries with
    | nil =>
      rw [map_singleton, map_singleton, commaList_singleton]
      exact reads_fields_last hfirst (hkey · _) h.1.reads
    | cons field' entries =>
      rw [map_cons, map_cons, commaList_cons_cons]
      exact reads_fields_cons hfirst (hkey · _) h.1.reads (ih h.2)

theorem reads_primary_array {elements : List Expr}
    (h : Reads (items · · .bracketClose) 10 height lexemes (· = some (.punct .bracketClose)) elements)
    : Reads primary 0 height (.punct .bracketOpen :: (lexemes ++ [.punct .bracketClose])) anything
        (.array elements) := by
  refine .of_succ (by simp) fun fits bound depth hbound hdepth => ?_
  simp only [length_cons, length_append, length_nil] at hbound
  rw [primary]
  apply Takes.look (takes_peek (some (.punct .bracketOpen))) fun _ _ => rfl
  apply Takes.cons (takes_skip _)
  apply Takes.bind (h fits bound depth (by omega) hdepth)
  · exact .cons (takes_expect _) .pure
  · intros
    rfl

theorem reads_primary_object {entries : List (String × Expr)}
    (h : Reads fields 1 height lexemes (· = some (.punct .braceClose)) entries)
    : Reads primary 0 height (.punct .braceOpen :: (lexemes ++ [.punct .braceClose])) anything (.object entries) := by
  refine .of_succ (by simp) fun fits bound depth hbound hdepth => ?_
  simp only [length_cons, length_append, length_nil] at hbound
  rw [primary]
  apply Takes.look (takes_peek (some (.punct .braceOpen))) fun _ _ => rfl
  apply Takes.cons (takes_skip _)
  apply Takes.bind (h fits bound depth (by omega) hdepth)
  · exact .cons (takes_expect _) .pure
  · intros
    rfl

end NodeScript.Script.Parse
