import NodeScript.Proofs.Scan

/-!
Text in the middle of other text. It keeps its tokens, and the text around it too, as long as it
leaves no string and no comment open.
-/

namespace NodeScript.Script

open List

inductive Inside where
  | nothing
  | slash
  | lineComment
  | blockComment
  | star
  | string (quote : Char) (state : StringState)
  /-- After a line break in a string. No text that goes on like this has tokens. -/
  | broken
  deriving DecidableEq, Repr

namespace Inside

def start (c : Char) : Inside :=
  if c = '/' then slash else if c = '"' ∨ c = '\'' then string c .plain else nothing

def next : Inside → Char → Inside
  | nothing, c => start c
  | slash, c => if c = '/' then lineComment else if c = '*' then blockComment else start c
  | lineComment, c => if c = '\n' then nothing else lineComment
  | blockComment, c => if c = '*' then star else blockComment
  | star, c => if c = '/' then nothing else if c = '*' then star else blockComment
  | string quote .plain, c =>
    if c = '\n' then broken
    else if c = quote then nothing
    else if c = '\\' then string quote .escape
    else string quote .plain
  | string quote .escape, c => if c = 'u' then string quote (.code []) else string quote .plain
  | string quote (.code taken), c =>
    if taken.length < 3 then string quote (.code (c :: taken)) else string quote .plain
  | broken, _ => broken

def after (inside : Inside) (text : List Char) : Inside :=
  text.foldl next inside

def isCode : Inside → Bool
  | string _ (.code _) => true
  | _ => false

/-- The line breaks of a text that start a line. One in the code of a character does not. -/
def lines : Inside → List Char → Nat
  | _, [] => 0
  | inside, c :: text => (if c = '\n' ∧ !inside.isCode then 1 else 0) + (inside.next c).lines text

def isClosed : Inside → Bool
  | nothing | slash | broken => true
  | _ => false

@[simp]
theorem after_nil (inside : Inside) : inside.after [] = inside := rfl

@[simp]
theorem after_cons (inside : Inside) (c : Char) (text : List Char)
    : inside.after (c :: text) = (inside.next c).after text := rfl

@[simp]
theorem after_append (inside : Inside) (text text' : List Char)
    : inside.after (text ++ text') = (inside.after text).after text' :=
  foldl_append

theorem lines_append (inside : Inside) (text text' : List Char)
    : inside.lines (text ++ text') = inside.lines text + (inside.after text).lines text' := by
  induction text generalizing inside with
  | nil => exact (Nat.zero_add _).symm
  | cons c text ih => rw [cons_append, lines, lines, ih, after_cons, Nat.add_assoc]

@[simp]
theorem after_broken (text : List Char) : broken.after text = broken := by
  induction text with
  | nil => rfl
  | cons c text ih => exact ih

theorem after_slash {text : List Char} (hnonempty : text ≠ []) (h : text.head?.all fun c => c ≠ '/' && c ≠ '*')
    : slash.after text = nothing.after text := by
  obtain ⟨c, text, rfl⟩ := exists_cons_of_ne_nil hnonempty
  simp only [head?_cons, Option.all_some, Bool.and_eq_true, decide_eq_true_eq] at h
  simp [next, h]

theorem isClosed_after_slash {text : List Char} (h : text.head?.all fun c => c ≠ '/' && c ≠ '*')
    : (slash.after text).isClosed = (nothing.after text).isClosed := by
  cases text with
  | nil => rfl
  | cons c text => rw [after_slash (cons_ne_nil c text) h]

end Inside

/-- The text leaves no string and no comment open. -/
def Closed (text : List Char) : Prop :=
  (Inside.nothing.after text).isClosed

instance (text : List Char) : Decidable (Closed text) :=
  inferInstanceAs (Decidable (_ = true))

def Ended (text : List Char) : Prop :=
  Inside.nothing.after text = .nothing ∨ Inside.nothing.after text = .broken

instance (text : List Char) : Decidable (Ended text) :=
  inferInstanceAs (Decidable (_ ∨ _))

def Separates (text : List Char) : Prop :=
  Inside.nothing.after text = .nothing ∧ Inside.slash.after text = .nothing

instance (text : List Char) : Decidable (Separates text) :=
  inferInstanceAs (Decidable (_ ∧ _))

section Append

variable {text text' : List Char}

theorem Ended.closed (h : Ended text) : Closed text := by
  unfold Closed
  obtain h | h := h
  · rw [h]
    rfl
  · rw [h]
    rfl

theorem Ended.append (h : Ended text) (h' : Closed text') : Closed (text ++ text') := by
  unfold Closed
  rw [Inside.after_append]
  obtain h | h := h
  · rw [h]
    exact h'
  · rw [h, Inside.after_broken]
    rfl

theorem Closed.separate (h : Closed text) (h' : Separates text') : Ended (text ++ text') := by
  unfold Ended
  rw [Inside.after_append]
  unfold Closed at h
  cases hafter : Inside.nothing.after text with
  | nothing => exact .inl h'.1
  | slash => exact .inl h'.2
  | broken => exact .inr (Inside.after_broken text')
  | lineComment | blockComment | star | string =>
    rw [hafter] at h
    cases h

end Append

def isInert (c : Char) : Bool :=
  c ≠ '/' && c ≠ '"' && c ≠ '\'' && c ≠ '\n'

theorem Inside.inert {taken : List Char} (h : ∀ c ∈ taken, isInert c)
    : nothing.after taken = nothing ∧ nothing.lines taken = 0 := by
  induction taken with
  | nil => exact ⟨rfl, rfl⟩
  | cons c taken ih =>
    rw [forall_mem_cons] at h
    obtain ⟨hc, htaken⟩ := h
    simp only [isInert, Bool.and_eq_true, decide_eq_true_eq] at hc
    have hnext : nothing.next c = nothing := by simp [next, start, hc]
    rw [after_cons, lines, hnext, if_neg (by simp [hc.2]), Nat.zero_add]
    exact ih htaken

theorem Inside.after_inert {taken : List Char} (h : ∀ c ∈ taken, isInert c) : nothing.after taken = nothing :=
  (inert h).1

def Trivia.inside : Trivia → Inside
  | blank => .nothing
  | lineComment => .lineComment
  | blockComment _ => .blockComment

theorem Inside.next_blank {c : Char} (h : Text.isBlank c) : nothing.next c = nothing := by
  have hother : c ≠ '/' ∧ c ≠ '"' ∧ c ≠ '\'' := by
    refine ⟨?_, ?_, ?_⟩
    all_goals
      rintro rfl
      exact absurd h (by decide)
  simp [next, start, hother]

variable {text tail rest more : List Char} {c : Char} {line next : Nat} {lexeme : Lexeme} {trivia : Trivia}

theorem append_ne_cons (hrest : ∀ tail, rest ≠ c :: tail) (hmore : more.head?.all (· ≠ c)) (tail : List Char)
    : rest ++ more ≠ c :: tail := by
  cases rest with
  | nil =>
    rintro rfl
    simp at hmore
  | cons d rest =>
    intro heq
    obtain ⟨rfl, -⟩ := List.cons.inj heq
    exact hrest rest rfl

theorem Inside.next_blockComment (h : c = '*' → ∀ rest, text ≠ '/' :: rest)
    : ((blockComment.next c).after text).isClosed = (blockComment.after text).isClosed
        ∧ (blockComment.next c).lines text = blockComment.lines text
        ∧ (blockComment.after text = nothing → (blockComment.next c).after text = nothing) := by
  by_cases hstar : c = '*'
  · cases text with
    | nil => simp [Inside.next, hstar, isClosed, lines]
    | cons d text =>
      have hd : d ≠ '/' := fun heq => h hstar text (heq ▸ rfl)
      simp [lines, Inside.next, hstar, hd, isCode]
  · simp [Inside.next, hstar]

theorem gap_of_skipTrivia (h : skipTrivia trivia line text = .ok (next, rest))
    : ∃ gap, text = gap ++ rest ∧ next = line + trivia.inside.lines gap
        ∧ (rest ≠ [] → trivia.inside.after gap = .nothing) := by
  fun_induction skipTrivia trivia line text with
  | case1 => cases h
  | case2 =>
    cases h
    exact ⟨[], rfl, rfl, fun hrest => absurd rfl hrest⟩
  | case7 =>
    cases h
    exact ⟨[], rfl, rfl, fun _ => rfl⟩
  | case3 line text ih | case8 line text ih | case10 start line text ih =>
    obtain ⟨gap, rfl, rfl, hafter⟩ := ih h
    exact ⟨'\n' :: gap, rfl, Nat.add_assoc .., hafter⟩
  | case4 line text ih =>
    obtain ⟨gap, rfl, rfl, hafter⟩ := ih h
    exact ⟨'/' :: '/' :: gap, rfl, by simp [Trivia.inside, Inside.lines, Inside.next, Inside.start], hafter⟩
  | case5 line text ih =>
    obtain ⟨gap, rfl, rfl, hafter⟩ := ih h
    exact ⟨'/' :: '*' :: gap, rfl, by simp [Trivia.inside, Inside.lines, Inside.next, Inside.start], hafter⟩
  | case11 start line text ih =>
    obtain ⟨gap, rfl, rfl, hafter⟩ := ih h
    exact ⟨'*' :: '/' :: gap, rfl, by simp [Trivia.inside, Inside.lines, Inside.next], hafter⟩
  | case6 line c text hbreak _ _ hblank ih =>
    obtain ⟨gap, rfl, rfl, hafter⟩ := ih h
    have hbreak : c ≠ '\n' := hbreak
    refine ⟨c :: gap, rfl, ?_, ?_⟩
    · simp [Trivia.inside, Inside.lines, Inside.next_blank hblank, hbreak]
    · rwa [Trivia.inside, Inside.after_cons, Inside.next_blank hblank]
  | case9 line c text hbreak ih =>
    obtain ⟨gap, rfl, rfl, hafter⟩ := ih h
    have hbreak : c ≠ '\n' := hbreak
    refine ⟨c :: gap, rfl, ?_, ?_⟩
    · simp [Trivia.inside, Inside.lines, Inside.next, hbreak]
    · rwa [Trivia.inside, Inside.after_cons, Inside.next, if_neg hbreak]
  | case12 start line c text hbreak hend ih =>
    obtain ⟨gap, rfl, rfl, hafter⟩ := ih h
    have hbreak : c ≠ '\n' := hbreak
    have hopen : c = '*' → ∀ tail, gap ≠ '/' :: tail := by
      rintro rfl tail rfl
      exact hend (tail ++ rest) rfl rfl
    have hnext := Inside.next_blockComment hopen
    refine ⟨c :: gap, rfl, ?_, fun hrest => hnext.2.2 (hafter hrest)⟩
    simp [Trivia.inside, Inside.lines, hbreak, hnext.2.1]

theorem length_le_of_skipTrivia (h : skipTrivia trivia line text = .ok (next, rest)) : rest.length ≤ text.length := by
  obtain ⟨gap, rfl, -⟩ := gap_of_skipTrivia h
  rw [length_append]
  exact Nat.le_add_left _ _

theorem noComment_of_skipTrivia (h : skipTrivia trivia line text = .ok (next, rest)) (tail : List Char)
    : rest ≠ '/' :: '/' :: tail ∧ rest ≠ '/' :: '*' :: tail := by
  fun_induction skipTrivia trivia line text with
  | case1 => cases h
  | case2 =>
    cases h
    simp
  | case7 line c text hbreak hline hblock hblank =>
    cases h
    refine ⟨fun heq => ?_, fun heq => ?_⟩
    · obtain ⟨hc, htext⟩ := List.cons.inj heq
      exact hline tail hc htext
    · obtain ⟨hc, htext⟩ := List.cons.inj heq
      exact hblock tail hc htext
  | case3 _ _ ih | case4 _ _ ih | case5 _ _ ih | case6 _ _ _ _ _ _ _ ih | case8 _ _ ih
  | case9 _ _ _ _ ih | case10 _ _ _ ih | case11 _ _ _ ih | case12 _ _ _ _ _ _ ih => exact ih h

structure Skips (trivia : Trivia) (line : Nat) (text : List Char) (next : Nat) (rest : List Char) : Prop where
  skip : skipTrivia trivia line text = .ok (next, rest)
  closed : Closed rest
  append : ∀ more, EndsOperand more → skipTrivia trivia line (text ++ more)
    = if rest = [] then skipTrivia .blank next more else .ok (next, rest ++ more)

theorem Skips.step {trivia' : Trivia} {line' : Nat}
    (h : Skips trivia' line' text next rest) (taken : List Char) (hstep : ∀ more, EndsOperand more
      → skipTrivia trivia line (taken ++ text ++ more) = skipTrivia trivia' line' (text ++ more))
    : Skips trivia line (taken ++ text) next rest where
  skip := by simpa using (hstep [] rfl).trans (by simpa using h.skip)
  closed := h.closed
  append more hmore := (hstep more hmore).trans (h.append more hmore)

theorem exists_skips (trivia : Trivia) (line : Nat) (hclosed : (trivia.inside.after text).isClosed)
    : ∃ next rest, Skips trivia line text next rest := by
  fun_induction skipTrivia trivia line text with
  | case1 => exact absurd hclosed (by simp [Trivia.inside, Inside.isClosed])
  | case2 trivia line hblock =>
    cases trivia with
    | blank => exact ⟨line, [], rfl, rfl, fun _ _ => rfl⟩
    | lineComment => exact absurd hclosed (by simp [Trivia.inside, Inside.isClosed])
    | blockComment start => exact absurd rfl (hblock start)
  | case3 line rest ih | case8 line rest ih | case10 start line rest ih =>
    obtain ⟨next, left, h⟩ := ih hclosed
    exact ⟨next, left, h.step ['\n'] fun _ _ => rfl⟩
  | case4 line rest ih =>
    obtain ⟨next, left, h⟩ := ih hclosed
    exact ⟨next, left, h.step ['/', '/'] fun _ _ => rfl⟩
  | case5 line rest ih =>
    obtain ⟨next, left, h⟩ := ih hclosed
    exact ⟨next, left, h.step ['/', '*'] fun _ _ => rfl⟩
  | case6 line c rest hbreak _ _ hblank ih =>
    rw [Inside.after_cons, Trivia.inside, Inside.next_blank hblank] at hclosed
    obtain ⟨next, left, h⟩ := ih hclosed
    refine ⟨next, left, h.step [c] fun more hmore => ?_⟩
    rw [singleton_append, cons_append, skipTrivia, if_pos hblank]
    · exact hbreak
    · rintro _ rfl
      exact absurd hblank (by decide)
    · rintro _ rfl
      exact absurd hblank (by decide)
  | case7 line c rest hbreak hline hblock hblank =>
    refine ⟨line, c :: rest, ?_, hclosed, fun more hmore => ?_⟩
    · rw [skipTrivia, if_neg hblank]
      all_goals assumption
    · have hslash := hmore.all (p := (· ≠ '/')) (by decide)
      have hstar := hmore.all (p := (· ≠ '*')) (by decide)
      rw [cons_append, skipTrivia, if_neg hblank]
      · rfl
      · exact hbreak
      · intro tail hc
        exact append_ne_cons (fun tail => hline tail hc) hslash tail
      · intro tail hc
        exact append_ne_cons (fun tail => hblock tail hc) hstar tail
  | case9 line c rest hbreak ih =>
    rw [Inside.after_cons, Trivia.inside, Inside.next, if_neg hbreak] at hclosed
    obtain ⟨next, left, h⟩ := ih hclosed
    refine ⟨next, left, h.step [c] fun more _ => ?_⟩
    rw [singleton_append, cons_append, skipTrivia]
    exact hbreak
  | case11 start line rest ih =>
    obtain ⟨next, left, h⟩ := ih hclosed
    exact ⟨next, left, h.step ['*', '/'] fun _ _ => rfl⟩
  | case12 start line c rest hbreak hend ih =>
    have hrest : (Inside.blockComment.after rest).isClosed :=
      (Inside.next_blockComment fun hc tail => hend tail hc).1.symm.trans hclosed
    obtain ⟨next, left, h⟩ := ih hrest
    refine ⟨next, left, h.step [c] fun more hmore => ?_⟩
    rw [singleton_append, cons_append, skipTrivia]
    · exact hbreak
    · intro tail hc
      exact append_ne_cons (fun tail => hend tail hc) (hmore.all (by decide)) tail

def Settles {α : Type} (scan : List Char → Except SyntaxError (α × Nat × List Char)) (text : List Char) : Prop :=
  (∃ error, ∀ more, EndsOperand more → scan (text ++ more) = .error error)
    ∨ ∃ a next rest, ∀ more, EndsOperand more → scan (text ++ more) = .ok (a, next, rest ++ more)

namespace Settles

variable {α β : Type} {scan : List Char → Except SyntaxError (α × Nat × List Char)}

theorem map {scan' : List Char → Except SyntaxError (β × Nat × List Char)} (h : Settles scan text) (taken : List Char)
    (f : α → β)
    (hstep : ∀ more, scan' (taken ++ text ++ more) = (scan (text ++ more)).map fun found => (f found.1, found.2))
    : Settles scan' (taken ++ text) := by
  obtain ⟨error, h⟩ | ⟨a, next, rest, h⟩ := h
  · refine .inl ⟨error, fun more hmore => ?_⟩
    rw [hstep, h more hmore]
    rfl
  · refine .inr ⟨f a, next, rest, fun more hmore => ?_⟩
    rw [hstep, h more hmore]
    rfl

end Settles

def StringStep.inside (quote : Char) : StringStep → Inside
  | fail => .broken
  | close => .nothing
  | go state _ _ => .string quote state

def StringStep.lines : StringStep → Nat
  | fail => 1
  | close => 0
  | go _ _ n => n

theorem Inside.next_string (quote : Char) (state : StringState) (c : Char) (text : List Char)
    : (string quote state).next c = (StringStep.of quote state c).inside quote ∧ (string quote state).lines (c :: text)
          = (StringStep.of quote state c).lines + ((string quote state).next c).lines text := by
  rw [lines]
  cases state with
  | plain | escape | code =>
    rw [Inside.next, StringStep.of]
    grind [StringStep.inside, StringStep.lines, isCode]

theorem settles_scanString {quote : Char} (startLine : Nat) {state : StringState} (line : Nat)
    (hclosed : ((Inside.string quote state).after text).isClosed)
    : Settles (scanString quote startLine state line) text := by
  induction text generalizing state line with
  | nil => exact absurd hclosed (by simp [Inside.isClosed])
  | cons c text ih =>
    rw [Inside.after_cons, (Inside.next_string quote state c text).1] at hclosed
    have hscan : ∀ more, scanString quote startLine state line (c :: text ++ more)
        = (StringStep.of quote state c).scan quote startLine line (text ++ more) :=
      fun more => scanString_cons quote startLine state line c (text ++ more)
    cases hstep : StringStep.of quote state c with
    | fail => exact .inl ⟨_, fun more _ => by rw [hscan, hstep]; rfl⟩
    | close => exact .inr ⟨[], line, text, fun more _ => by rw [hscan, hstep]; rfl⟩
    | go state' added lines =>
      rw [hstep] at hclosed
      refine (ih (line + lines) hclosed).map [c] (added ++ ·) fun more => ?_
      rw [singleton_append, hscan, hstep]
      rfl

theorem taken_of_scanString {quote : Char} {startLine : Nat} {state : StringState}
    {value : List Char} (h : scanString quote startLine state line text = .ok (value, next, rest))
    : ∃ taken, text = taken ++ rest ∧ (Inside.string quote state).after taken = .nothing
        ∧ next = line + (Inside.string quote state).lines taken := by
  induction text generalizing state line value with
  | nil => simp [scanString] at h
  | cons c text ih =>
    rw [scanString_cons] at h
    have hstring := Inside.next_string quote state c
    cases hstep : StringStep.of quote state c with
    | fail => simp [hstep, StringStep.scan] at h
    | close =>
      rw [hstep] at h hstring
      cases h
      refine ⟨[c], rfl, (hstring []).1, ?_⟩
      rw [(hstring []).2, (hstring []).1]
      rfl
    | go state' added lines =>
      rw [hstep] at h hstring
      cases hrest : scanString quote startLine state' (line + lines) text with
      | error => simp [StringStep.scan, hrest, Except.map] at h
      | ok found =>
        obtain ⟨value', next', rest'⟩ := found
        rw [StringStep.scan, hrest] at h
        cases h
        obtain ⟨taken, rfl, hafter, hnext⟩ := ih hrest
        refine ⟨c :: taken, rfl, ?_, ?_⟩
        · rw [Inside.after_cons, (hstring taken).1]
          exact hafter
        · rw [hnext, (hstring taken).2, (hstring taken).1]
          exact Nat.add_assoc ..

theorem cons_append_ne_cons {d : Char} (h : ∀ rest, c :: tail ≠ d :: rest) (rest : List Char)
    : c :: (tail ++ more) ≠ d :: rest := by
  intro heq
  obtain ⟨rfl, -⟩ := List.cons.inj heq
  exact h tail rfl

theorem scanPunct?_append (htext : text ≠ []) (hmore : EndsOperand more)
    : scanPunct? (text ++ more) = (scanPunct? text).map fun found => (found.1, found.2 ++ more) := by
  have hequal := hmore.all (p := (· ≠ '=')) (by decide)
  have hplus := hmore.all (p := (· ≠ '+')) (by decide)
  have hminus := hmore.all (p := (· ≠ '-')) (by decide)
  have hand := hmore.all (p := (· ≠ '&')) (by decide)
  have hor := hmore.all (p := (· ≠ '|')) (by decide)
  -- A mark could only go on with one of these characters.
  fun_cases scanPunct? text with
  | case16 rest hplus' hequal' =>
    rw [cons_append, scanPunct?]
    · rfl
    · exact append_ne_cons hplus' hplus
    · exact append_ne_cons hequal' hequal
  | case19 rest hminus' hequal' =>
    rw [cons_append, scanPunct?]
    · rfl
    · exact append_ne_cons hminus' hminus
    · exact append_ne_cons hequal' hequal
  | case21 rest hequal' | case24 rest hequal' =>
    rw [cons_append, cons_append, scanPunct?]
    · rfl
    · exact append_ne_cons hequal' hequal
  | case22 rest _ hequal' | case25 rest _ hequal' =>
    rw [cons_append, scanPunct?]
    · rfl
    · exact fun _ => append_ne_cons hequal' hequal _
    · exact append_ne_cons hequal' hequal
  | case27 rest hequal' | case29 rest hequal' =>
    rw [cons_append, scanPunct?]
    · rfl
    · exact append_ne_cons hequal' hequal
  | case32 =>
    rename_i hand' hor'
    obtain ⟨c, tail, rfl⟩ := exists_cons_of_ne_nil htext
    rw [cons_append, scanPunct?]
    · rfl
    case x_31 =>
      intro rest heq
      obtain ⟨hc, heq⟩ := List.cons.inj heq
      exact append_ne_cons (fun t ht => hand' t (by rw [hc, ht])) hand rest heq
    case x_32 =>
      intro rest heq
      obtain ⟨hc, heq⟩ := List.cons.inj heq
      exact append_ne_cons (fun t ht => hor' t (by rw [hc, ht])) hor rest heq
    all_goals exact fun rest => cons_append_ne_cons (by assumption) _
  | _ => rfl

theorem text_of_scanPunct? {mark : Punct} (h : scanPunct? text = some (mark, rest))
    : text = mark.text.toList ++ rest := by
  revert h
  fun_cases scanPunct? text with
  | case32 => simp
  | _ =>
    intro h
    cases h
    rfl

theorem Punct.inert_text {mark : Punct} (h : mark ≠ .slash) : ∀ c ∈ mark.text.toList, isInert c := by
  have hall : mark.text.toList.all isInert := by
    cases mark with
    | slash => exact absurd rfl h
    | _ => decide
  exact all_eq_true.mp hall

theorem isInert_of {p : Char → Bool} (hp : ['/', '"', '\'', '\n'].all fun c => !p c) (h : p c) : isInert c := by
  simp only [all_cons, all_nil, Bool.and_true, Bool.and_eq_true, Bool.not_eq_true'] at hp
  simp only [isInert, Bool.and_eq_true, decide_eq_true_eq]
  refine ⟨⟨⟨?_, ?_⟩, ?_⟩, ?_⟩
  all_goals
    rintro rfl
    exact absurd h (by simp [hp])

def InertUpTo (text rest : List Char) : Prop :=
  ∃ taken, text = taken ++ rest ∧ ∀ c ∈ taken, isInert c

theorem InertUpTo.trans {middle : List Char} (h : InertUpTo text middle) (h' : InertUpTo middle rest)
    : InertUpTo text rest := by
  obtain ⟨taken, rfl, htaken⟩ := h
  obtain ⟨taken', rfl, htaken'⟩ := h'
  exact ⟨taken ++ taken', (append_assoc ..).symm, forall_mem_append.mpr ⟨htaken, htaken'⟩⟩

theorem InertUpTo.span {p : Char → Bool} (hp : ['/', '"', '\'', '\n'].all fun c => !p c) (text : List Char)
    : InertUpTo text (text.span p).2 := by
  rw [span_eq_takeWhile_dropWhile]
  refine ⟨text.takeWhile p, (takeWhile_append_dropWhile).symm, fun c hc => isInert_of hp ?_⟩
  exact mem_takeWhile_imp hc

theorem isInert_of_startsNumber (h : startsNumber c tail) : isInert c := by
  simp only [startsNumber, Bool.or_eq_true, Bool.and_eq_true, decide_eq_true_eq] at h
  obtain hdigit | ⟨rfl, -⟩ := h
  · exact isInert_of (p := Char.isDigit) (by decide) hdigit
  · decide

theorem inert_scanNumber (h : startsNumber c tail) : InertUpTo tail (scanNumber (c :: tail)).2 := by
  have hsign : ∀ text, InertUpTo text (scanSignSpelling text).2 := by
    intro text
    fun_cases scanSignSpelling text with
    | case1 rest => exact ⟨['+'], rfl, forall_mem_singleton.mpr rfl⟩
    | case2 rest => exact ⟨['-'], rfl, forall_mem_singleton.mpr rfl⟩
    | case3 => exact ⟨[], rfl, by simp⟩
  have hexponent : ∀ text, InertUpTo text (scanExponentSpelling text).2 := by
    intro text
    unfold scanExponentSpelling
    split
    · next c rest =>
      split
      · next hc =>
        have hfirst : InertUpTo (c :: rest) rest := by
          refine ⟨[c], rfl, forall_mem_singleton.mpr ?_⟩
          obtain rfl | rfl := hc <;> rfl
        exact (hfirst.trans (hsign rest)).trans (InertUpTo.span (by decide) _)
      · exact ⟨[], rfl, by simp⟩
    · exact ⟨[], rfl, by simp⟩
  have hc : (c.isDigit || decide (c = '.')) = true := by
    simp only [startsNumber, Bool.or_eq_true, Bool.and_eq_true] at h ⊢
    exact h.imp_right And.left
  have hspan : ((c :: tail).span fun c => c.isDigit || decide (c = '.')).2
      = (tail.span fun c => c.isDigit || decide (c = '.')).2 := by
    simp [span_eq_takeWhile_dropWhile, hc]
  unfold scanNumber
  dsimp only
  rw [hspan]
  exact (InertUpTo.span (by decide) tail).trans (hexponent _)

theorem scanLexeme_mark (hquote : ¬ (c = '"' ∨ c = '\''))
    (hnumber : ¬ startsNumber c tail) (hword : ¬ isWordStart c) (line : Nat)
    : scanLexeme line c tail = (scanPunct? (c :: tail)).elim (.error (.unexpectedCharacter c line))
        fun found => .ok (.punct found.1, line, found.2) := by
  unfold scanLexeme
  rw [if_neg hquote, if_neg hnumber, if_neg hword]
  cases scanPunct? (c :: tail) with
  | none => rfl
  | some found => rfl

theorem settles_scanLexeme (line : Nat) (hclosed : Closed (c :: tail)) : Settles (scanLexeme line c) tail := by
  by_cases hquote : c = '"' ∨ c = '\''
  · have hslash : c ≠ '/' := by rcases hquote with rfl | rfl <;> decide
    rw [Closed, Inside.after_cons, Inside.next, Inside.start, if_neg hslash, if_pos hquote] at hclosed
    refine (settles_scanString line line hclosed).map [] (fun text => .str (String.ofList text)) fun more => ?_
    unfold scanLexeme
    rw [if_pos hquote]
    rfl
  by_cases hnumber : startsNumber c tail
  · refine .inr ⟨.number (scanNumber (c :: tail)).1, line, (scanNumber (c :: tail)).2, fun more hmore => ?_⟩
    have happend := scanNumber_append hmore (c :: tail)
    rw [cons_append] at happend
    unfold scanLexeme
    rw [if_neg hquote, startsNumber_append hmore, if_pos hnumber, happend]
  by_cases hword : isWordStart c
  · refine .inr ⟨.word (String.ofList (c :: (tail.span isWordPart).1)), line, (tail.span isWordPart).2,
      fun more hmore => ?_⟩
    unfold scanLexeme
    rw [if_neg hquote, startsNumber_append hmore, if_neg hnumber, if_pos hword, span_append hmore.endsWord]
  have hmark : ∀ more, EndsOperand more → scanLexeme line c (tail ++ more)
      = ((scanPunct? (c :: tail)).map fun found => (found.1, found.2 ++ more)).elim
          (.error (.unexpectedCharacter c line)) fun found => .ok (.punct found.1, line, found.2) := by
    intro more hmore
    rw [scanLexeme_mark hquote (startsNumber_append hmore c tail ▸ hnumber) hword, ← cons_append,
      scanPunct?_append (cons_ne_nil _ _) hmore]
  cases hscan : scanPunct? (c :: tail) with
  | none =>
    refine .inl ⟨.unexpectedCharacter c line, fun more hmore => ?_⟩
    rw [hmark more hmore, hscan]
    rfl
  | some found =>
    refine .inr ⟨.punct found.1, line, found.2, fun more hmore => ?_⟩
    rw [hmark more hmore, hscan]
    rfl

theorem taken_of_scanLexeme (h : scanLexeme line c tail = .ok (lexeme, next, rest))
    : ∃ taken, tail = taken ++ rest ∧ next = line + Inside.nothing.lines (c :: taken)
        ∧ (Inside.nothing.after (c :: taken) = .nothing ∨ c = '/' ∧ taken = []) := by
  by_cases hquote : c = '"' ∨ c = '\''
  · unfold scanLexeme at h
    rw [if_pos hquote] at h
    cases hstring : scanString c line .plain line tail with
    | error => cases hstring ▸ h
    | ok found =>
      rw [hstring] at h
      cases h
      obtain ⟨taken, htail, htaken, hnext⟩ := taken_of_scanString hstring
      have hstart : Inside.nothing.next c = .string c .plain ∧ c ≠ '\n' := by
        obtain rfl | rfl := hquote <;> decide
      refine ⟨taken, htail, ?_, .inl ?_⟩
      · rw [Inside.lines, hstart.1, if_neg (by simp [hstart.2]), Nat.zero_add, hnext]
      · rwa [Inside.after_cons, hstart.1]
  by_cases hnumber : startsNumber c tail
  · unfold scanLexeme at h
    rw [if_neg hquote, if_pos hnumber] at h
    cases h
    obtain ⟨taken, htail, htaken⟩ := inert_scanNumber hnumber
    have hinert := Inside.inert (forall_mem_cons.mpr ⟨isInert_of_startsNumber hnumber, htaken⟩)
    exact ⟨taken, htail, by rw [hinert.2, Nat.add_zero], .inl hinert.1⟩
  by_cases hword : isWordStart c
  · unfold scanLexeme at h
    rw [if_neg hquote, if_neg hnumber, if_pos hword] at h
    cases h
    obtain ⟨taken, htail, htaken⟩ := InertUpTo.span (p := isWordPart) (by decide) tail
    have hc : isInert c := isInert_of (p := isWordStart) (by decide) hword
    have hinert := Inside.inert (forall_mem_cons.mpr ⟨hc, htaken⟩)
    exact ⟨taken, htail, by rw [hinert.2, Nat.add_zero], .inl hinert.1⟩
  rw [scanLexeme_mark hquote hnumber hword] at h
  cases hscan : scanPunct? (c :: tail) with
  | none => cases hscan ▸ h
  | some found =>
    obtain ⟨mark, rest⟩ := found
    rw [hscan] at h
    cases h
    obtain ⟨first, others, hmark, -⟩ := mark.exists_text
    have htext := text_of_scanPunct? hscan
    rw [hmark, cons_append] at htext
    obtain ⟨rfl, rfl⟩ := List.cons.inj htext
    by_cases hslash : mark = .slash
    · subst hslash
      obtain ⟨rfl, rfl⟩ : '/' = c ∧ [] = others := List.cons.inj hmark
      exact ⟨[], rfl, rfl, .inr ⟨rfl, rfl⟩⟩
    · have hinert := Inside.inert (hmark ▸ mark.inert_text hslash)
      exact ⟨others, rfl, by rw [hinert.2, Nat.add_zero], .inl hinert.1⟩

theorem length_le_of_scanLexeme (h : scanLexeme line c tail = .ok (lexeme, next, rest))
    : rest.length ≤ tail.length := by
  obtain ⟨taken, rfl, -⟩ := taken_of_scanLexeme h
  rw [length_append]
  exact Nat.le_add_left _ _

theorem Closed.of_scanLexeme (hclosed : Closed (c :: tail)) (h : scanLexeme line c tail = .ok (lexeme, next, rest))
    (hcomment : ∀ rest, c :: tail ≠ '/' :: '/' :: rest ∧ c :: tail ≠ '/' :: '*' :: rest)
    : Closed rest := by
  obtain ⟨taken, rfl, -, htaken | ⟨rfl, rfl⟩⟩ := taken_of_scanLexeme h
  · rwa [Closed, ← cons_append, Inside.after_append, htaken] at hclosed
  · refine (Inside.isClosed_after_slash ?_).symm.trans hclosed
    cases rest with
    | nil => rfl
    | cons d rest => simpa using hcomment rest

def scanFrom (line : Nat) (text : List Char) : Except SyntaxError TokenStream :=
  scanTokens (text.length + 1) line text

theorem scanTokens_congr (line : Nat) {bound bound' : Nat} (h : text.length ≤ bound) (h' : text.length ≤ bound')
    : scanTokens bound line text = scanTokens bound' line text := by
  induction bound generalizing bound' line text with
  | zero =>
    obtain rfl := eq_nil_of_length_eq_zero (Nat.le_zero.mp h)
    cases bound' <;> rfl
  | succ bound ih =>
    cases bound' with
    | zero =>
      obtain rfl := eq_nil_of_length_eq_zero (Nat.le_zero.mp h')
      rfl
    | succ bound' =>
      rw [scanTokens, scanTokens]
      cases hskip : skipTrivia .blank line text with
      | error => rfl
      | ok found =>
        obtain ⟨next, _ | ⟨c, tail⟩⟩ := found
        · rfl
        · simp only [bind, Except.bind]
          cases hscan : scanLexeme next c tail with
          | error => rfl
          | ok found =>
            obtain ⟨lexeme, next', rest⟩ := found
            have hlength := length_le_of_skipTrivia hskip
            have hlength' := length_le_of_scanLexeme hscan
            rw [length_cons] at hlength
            have hrest : scanTokens bound next' rest = scanTokens bound' next' rest :=
              ih next' (by omega) (by omega)
            dsimp only
            rw [hrest]

def TokenStream.cons (token : Token) (stream : TokenStream) : TokenStream :=
  ⟨token :: stream.tokens, stream.endLine⟩

section ScanFrom

theorem scanFrom_congr {line' : Nat} {text' : List Char}
    (hskip : skipTrivia .blank line text = skipTrivia .blank line' text')
    : scanFrom line text = scanFrom line' text' := by
  have hbound := scanTokens_congr line (Nat.le_succ text.length)
    (show text.length ≤ text.length + text'.length + 1 by omega)
  have hbound' := scanTokens_congr line' (Nat.le_succ text'.length)
    (show text'.length ≤ text.length + text'.length + 1 by omega)
  rw [scanFrom, hbound, scanFrom, hbound', scanTokens_eq_of_skipTrivia hskip]

theorem scanFrom_of_error (hskip : skipTrivia .blank line text = .ok (next, c :: tail))
    {error : SyntaxError} (hscan : scanLexeme next c tail = .error error)
    : scanFrom line text = .error error := by
  rw [scanFrom, scanTokens, hskip]
  simp only [bind, Except.bind, hscan]

theorem scanFrom_of_token (hskip : skipTrivia .blank line text = .ok (next, c :: tail)) {next' : Nat}
    (hscan : scanLexeme next c tail = .ok (lexeme, next', rest))
    : scanFrom line text = (scanFrom next' rest).map (.cons ⟨lexeme, next⟩) := by
  have hlength := length_le_of_skipTrivia hskip
  have hlength' := length_le_of_scanLexeme hscan
  rw [length_cons] at hlength
  have hbound := scanTokens_congr next' (Nat.le_succ rest.length) (show rest.length ≤ text.length by omega)
  rw [scanFrom, scanTokens, hskip, scanFrom, hbound]
  simp only [bind, Except.bind, hscan]
  cases scanTokens text.length next' rest <;> rfl

end ScanFrom

def TokenStream.andThen (stream : TokenStream) (more : List Char) : Except SyntaxError TokenStream :=
  (scanFrom stream.endLine more).map fun rest => ⟨stream.tokens ++ rest.tokens, rest.endLine⟩

theorem scanFrom_append (hclosed : Closed text) (hmore : EndsOperand more) (line : Nat)
    : scanFrom line (text ++ more) = (scanFrom line text).bind (·.andThen more) := by
  induction hlength : text.length using Nat.strongRecOn generalizing text line with
  | ind length ih =>
    obtain ⟨next, rest, hskips⟩ := exists_skips .blank line hclosed
    have hskip := hskips.append more hmore
    cases rest with
    | nil =>
      rw [if_pos rfl] at hskip
      have hnil : scanFrom line text = .ok ⟨[], next⟩ :=
        scanFrom_congr (hskips.skip.trans (show _ = skipTrivia .blank next [] from rfl))
      rw [scanFrom_congr hskip, hnil]
      dsimp only [Except.bind, TokenStream.andThen]
      cases scanFrom next more <;> rfl
    | cons c tail =>
      rw [if_neg (cons_ne_nil _ _)] at hskip
      obtain ⟨error, hscan⟩ | ⟨lexeme, next', rest, hscan⟩ :=
        settles_scanLexeme next hskips.closed
      · have halone := hscan [] rfl
        rw [append_nil] at halone
        rw [scanFrom_of_error hskip (hscan more hmore), scanFrom_of_error hskips.skip halone]
        rfl
      · have halone := hscan [] rfl
        rw [append_nil, append_nil] at halone
        have hshorter : rest.length < length := by
          have := length_le_of_skipTrivia hskips.skip
          have := length_le_of_scanLexeme halone
          rw [length_cons] at *
          omega
        rw [scanFrom_of_token hskip (hscan more hmore), scanFrom_of_token hskips.skip halone,
          ih _ hshorter (hskips.closed.of_scanLexeme halone (noComment_of_skipTrivia hskips.skip)) next' rfl]
        cases scanFrom next' rest with
        | error => rfl
        | ok stream =>
          simp only [Except.bind, Except.map, TokenStream.andThen, TokenStream.cons]
          cases scanFrom stream.endLine more <;> rfl

def SameTokens (text text' : List Char) : Prop :=
  ∀ line, scanFrom line text = scanFrom line text'

namespace SameTokens

variable {rest' : List Char}

theorem append (h : SameTokens rest rest') (hclosed : Closed text) (hrest : EndsOperand rest)
    (hrest' : EndsOperand rest') : SameTokens (text ++ rest) (text ++ rest') := by
  intro line
  have handThen : ∀ stream : TokenStream, stream.andThen rest = stream.andThen rest' := by
    intro stream
    rw [TokenStream.andThen, h stream.endLine, TokenStream.andThen]
  rw [scanFrom_append hclosed hrest, scanFrom_append hclosed hrest']
  simp only [handThen]

theorem lineBreak (h : SameTokens rest rest') : SameTokens ('\n' :: rest) ('\n' :: rest') := by
  have hskip : ∀ rest line, scanFrom line ('\n' :: rest) = scanFrom (line + 1) rest :=
    fun rest line => scanFrom_congr rfl
  intro line
  rw [hskip, hskip]
  exact h (line + 1)

theorem spaces (n : Nat) (text : List Char) : SameTokens (List.replicate n ' ' ++ text) text := by
  induction n with
  | zero => exact fun _ => rfl
  | succ n ih =>
    intro line
    rw [← ih line]
    exact scanFrom_congr (by simp [replicate_succ, skipTrivia, show Text.isBlank ' ' = true by decide])

theorem comment {comment : List Char} (hcomment : '\n' ∉ comment) (hrest : EndsLine rest)
    : SameTokens ('/' :: '/' :: (comment ++ rest)) rest :=
  fun line => scanFrom_congr (skipTrivia_lineComment hcomment hrest line)

end SameTokens

end NodeScript.Script
