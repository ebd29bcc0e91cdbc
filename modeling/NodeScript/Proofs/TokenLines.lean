import NodeScript.Proofs.Parse.Complaints
import NodeScript.Proofs.Splicing

/-!
The lines of tokens. A token stands on the line after the line breaks in front of it, in strings and
comments too. Those in the code of a character of a string are not counted.
-/

namespace NodeScript.Script

variable {text before rest tail : List Char} {line next : Nat} {c : Char} {trivia : Trivia} {lexeme : Lexeme}
  {stream : TokenStream}

def Resumes (before text : List Char) : Prop :=
  Inside.nothing.after before = .nothing
    ∨ Inside.nothing.after before = .slash ∧ text.head?.all fun c => c ≠ '/' && c ≠ '*'

theorem Resumes.append {taken : List Char} (h : Resumes before (taken ++ rest))
    : Inside.nothing.lines (before ++ taken) = Inside.nothing.lines before + Inside.nothing.lines taken
        ∧ (taken ≠ [] → Inside.nothing.after (before ++ taken) = Inside.nothing.after taken) := by
  rw [Inside.lines_append, Inside.after_append]
  obtain h | ⟨h, hhead⟩ := h
  · rw [h]
    exact ⟨rfl, fun _ => rfl⟩
  · rw [h]
    cases taken with
    | nil => exact ⟨rfl, fun hnil => absurd rfl hnil⟩
    | cons c taken =>
      refine ⟨?_, fun htaken => Inside.after_slash htaken hhead⟩
      simp only [List.cons_append, List.head?_cons, Option.all_some, Bool.and_eq_true, decide_eq_true_eq] at hhead
      simp [Inside.lines, Inside.next, Inside.isCode, hhead]

theorem Resumes.token (h : Resumes before text) (hline : line = 1 + Inside.nothing.lines before) {start : Nat}
    (hskip : skipTrivia .blank line text = .ok (start, c :: tail))
    (hscan : scanLexeme start c tail = .ok (lexeme, next, rest))
    : ∃ taken, text = taken ++ rest ∧ Resumes (before ++ taken) rest
        ∧ next = 1 + Inside.nothing.lines (before ++ taken) := by
  obtain ⟨gap, rfl, rfl, hgap⟩ := gap_of_skipTrivia hskip
  obtain ⟨taken, rfl, rfl, hended⟩ := taken_of_scanLexeme hscan
  have hgap : Inside.nothing.after gap = .nothing := hgap (List.cons_ne_nil _ _)
  have hlist : gap ++ c :: (taken ++ rest) = (gap ++ c :: taken) ++ rest := by simp
  rw [hlist] at h
  obtain ⟨hlines, hinside⟩ := h.append
  rw [Inside.lines_append _ gap, hgap] at hlines
  rw [Inside.after_append _ gap, hgap] at hinside
  refine ⟨gap ++ c :: taken, hlist, ?_, ?_⟩
  · obtain hended | ⟨rfl, rfl⟩ := hended
    · exact .inl ((hinside (by simp)).trans hended)
    · refine .inr ⟨hinside (by simp), ?_⟩
      have hcomment := noComment_of_skipTrivia hskip
      cases rest with
      | nil => rfl
      | cons d rest => simpa using hcomment rest
  · rw [hlines, hline, Trivia.inside]
    omega

theorem scanFrom_eq_ok (h : scanFrom line text = .ok stream)
    : (∃ next, skipTrivia .blank line text = .ok (next, []) ∧ stream = ⟨[], next⟩)
        ∨ ∃ token c tail next rest stream', skipTrivia .blank line text = .ok (token.line, c :: tail)
            ∧ scanLexeme token.line c tail = .ok (token.lexeme, next, rest)
            ∧ scanFrom next rest = .ok stream' ∧ stream = stream'.cons token := by
  cases hskip : skipTrivia .blank line text with
  | error => simp [scanFrom, scanTokens, hskip, bind, Except.bind] at h
  | ok found =>
    obtain ⟨line', _ | ⟨c, tail⟩⟩ := found
    · rw [scanFrom, scanTokens, hskip] at h
      cases h
      exact .inl ⟨_, rfl, rfl⟩
    · cases hscan : scanLexeme line' c tail with
      | error => simp [scanFrom_of_error hskip hscan] at h
      | ok found =>
        obtain ⟨lexeme, next, rest⟩ := found
        rw [scanFrom_of_token hskip hscan] at h
        cases hrest : scanFrom next rest with
        | error => simp [hrest, Except.map] at h
        | ok stream' =>
          rw [hrest] at h
          cases h
          exact .inr ⟨⟨lexeme, line'⟩, c, tail, next, rest, stream', rfl, hscan, hrest, rfl⟩

/-- The text that is left where the token with the given number starts, or where the last one is over,
and its line. -/
def restAt : Nat → Nat → List Char → Except SyntaxError (Nat × List Char)
  | 0, line, text => skipTrivia .blank line text
  | i + 1, line, text => do
    match ← skipTrivia .blank line text with
    | (line, []) => .ok (line, [])
    | (line, c :: tail) =>
      let (_, next, rest) ← scanLexeme line c tail
      restAt i next rest

theorem lineAt_of_scanFrom (i : Nat) (h : scanFrom line text = .ok stream) (hi : i ≤ stream.tokens.length)
    (hbefore : Resumes before text) (hline : line = 1 + Inside.nothing.lines before)
    : ∃ taken left, text = taken ++ left ∧ restAt i line text = .ok (stream.lineAt i, left)
        ∧ stream.lineAt i = 1 + Inside.nothing.lines (before ++ taken)
        ∧ ∀ token ∈ stream.tokens[i]?, ∃ c tail next rest, left = c :: tail
            ∧ scanLexeme token.line c tail = .ok (token.lexeme, next, rest) := by
  induction i generalizing line text before stream with
  | zero =>
    obtain ⟨next, hskip, rfl⟩ | ⟨token, c, tail, next, rest, stream', hskip, hscan, -, rfl⟩ := scanFrom_eq_ok h
    · obtain ⟨gap, rfl, rfl, -⟩ := gap_of_skipTrivia hskip
      refine ⟨gap, [], rfl, hskip, ?_, by simp⟩
      rw [hbefore.append.1, ← Nat.add_assoc, ← hline]
      rfl
    · obtain ⟨gap, rfl, hnext, -⟩ := gap_of_skipTrivia hskip
      refine ⟨gap, c :: tail, rfl, hskip, ?_, ?_⟩
      · rw [hbefore.append.1, ← Nat.add_assoc, ← hline]
        exact hnext
      · rintro _ ⟨⟩
        exact ⟨c, tail, next, rest, rfl, hscan⟩
  | succ i ih =>
    obtain ⟨next, hskip, rfl⟩ | ⟨token, c, tail, next, rest, stream', hskip, hscan, hrest, rfl⟩ := scanFrom_eq_ok h
    · simp at hi
    · obtain ⟨taken, rfl, hresumes, hnext⟩ := hbefore.token hline hskip hscan
      obtain ⟨more, left, rfl, hrestAt, hlineAt, htoken⟩ :=
        ih hrest (by simpa [TokenStream.cons] using hi) hresumes hnext
      refine ⟨taken ++ more, left, (List.append_assoc ..).symm, ?_, ?_, htoken⟩
      · rw [restAt, hskip]
        simp only [bind, Except.bind, hscan]
        exact hrestAt
      · rw [← List.append_assoc]
        exact hlineAt

/-- Every token, and the end of the text, stands on the line after the line breaks in front of it that
are in no code of a character. -/
theorem TokenStream.lineAt_eq {source : String} (h : TokenStream.scan source = .ok stream) {i : Nat}
    (hi : i ≤ stream.tokens.length)
    : ∃ before left, source.toList = before ++ left ∧ restAt i 1 source.toList = .ok (stream.lineAt i, left)
        ∧ stream.lineAt i = 1 + Inside.nothing.lines before
        ∧ ∀ token ∈ stream.tokens[i]?, ∃ c tail next rest, left = c :: tail
            ∧ scanLexeme token.line c tail = .ok (token.lexeme, next, rest) := by
  have hstart : Resumes [] source.toList := .inl rfl
  exact lineAt_of_scanFrom i h hi hstart rfl

theorem TokenStream.lineAt_eq_spread
    : ∃ before left, "'a\\\nb' /*\n*/ x".toList = before ++ left ∧ restAt 1 1 "'a\\\nb' /*\n*/ x".toList = .ok (3, left)
        ∧ 3 = 1 + Inside.nothing.lines before
        ∧ ∀ token ∈ some (⟨.word "x", 3⟩ : Token), ∃ c tail next rest, left = c :: tail
            ∧ scanLexeme token.line c tail = .ok (token.lexeme, next, rest) := by
  have hscan : TokenStream.scan "'a\\\nb' /*\n*/ x" = .ok ⟨[⟨.str "ab", 1⟩, ⟨.word "x", 3⟩], 3⟩ := rfl
  exact TokenStream.lineAt_eq hscan (by decide)

theorem TokenStream.scan_code_break : TokenStream.scan "'\\u000\n' x" = .ok ⟨[⟨.str "�", 1⟩, ⟨.word "x", 1⟩], 1⟩
        ∧ "'\\u000\n' ".toList.count '\n' = 1 :=
  ⟨rfl, rfl⟩

end NodeScript.Script
