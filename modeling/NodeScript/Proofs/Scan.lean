import Mathlib.Data.List.TakeDrop
import Mathlib.Data.List.TakeWhile
import NodeScript.Script.Token.Scan

/-!
The tokens of a text, put together from its end: a blank, a comment or the text of one token in
front of a text whose tokens are known.
-/

namespace NodeScript.Text

open List

variable {c : Char}

theorem not_inRanges_of_disjoint {ranges ranges' : List (Nat × Nat)}
    (h : ∀ r ∈ ranges, ∀ r' ∈ ranges', r.2 < r'.1 ∨ r'.2 < r.1) (hc : inRanges ranges c)
    : inRanges ranges' c = false := by
  unfold inRanges at hc ⊢
  simp only [any_eq_true, Bool.and_eq_true, decide_eq_true_eq] at hc
  obtain ⟨r, hr, hlow, hhigh⟩ := hc
  rw [any_eq_false]
  intro r' hr'
  simp only [Bool.and_eq_true, decide_eq_true_eq, not_and]
  have := h r hr r' hr'
  omega

theorem isAlpha_iff : c.isAlpha ↔ (65 ≤ c.toNat ∧ c.toNat ≤ 90) ∨ (97 ≤ c.toNat ∧ c.toNat ≤ 122) := by
  delta Char.isAlpha Char.isUpper Char.isLower
  simp [UInt32.le_iff_toNat_le, ← Char.toNat_val]

theorem isDigit_iff : c.isDigit ↔ 48 ≤ c.toNat ∧ c.toNat ≤ 57 := by
  simp [Char.isDigit, UInt32.le_iff_toNat_le, ← Char.toNat_val]

theorem isBlank_eq_false_of_ascii (h : 33 ≤ c.toNat ∧ c.toNat < 128) : isBlank c = false := by
  unfold isBlank inRanges blankRanges
  simp only [any_cons, any_nil, Bool.or_false, Bool.or_eq_false_iff, Bool.and_eq_false_iff, decide_eq_false_iff_not]
  omega

theorem isBlank_eq_false_of_isLetter (h : isLetter c) : isBlank c = false := by
  unfold isLetter at h
  split at h
  · rw [isAlpha_iff] at h
    apply isBlank_eq_false_of_ascii
    omega
  · exact not_inRanges_of_disjoint (by decide +kernel) h

theorem isDigit_eq_false_of_isLetter (h : isLetter c) : c.isDigit = false := by
  rw [← Bool.not_eq_true, isDigit_iff]
  unfold isLetter at h
  split at h
  · rw [isAlpha_iff] at h
    omega
  · omega

end NodeScript.Text

namespace NodeScript.Script

open List

variable {text : String}

def Lexes (text : List Char) (lexemes : List Lexeme) : Prop :=
  ∀ bound line, text.length ≤ bound → ∃ stream, scanTokens bound line text = .ok stream
        ∧ stream.tokens.map Token.lexeme = lexemes

variable {c : Char} {tail rest left : List Char} {lexeme : Lexeme} {lexemes : List Lexeme} {line next : Nat}

theorem scanTokens_eq_of_skipTrivia {text text' : List Char} {line' : Nat}
    (h : skipTrivia .blank line text = skipTrivia .blank line' text') (bound : Nat)
    : scanTokens (bound + 1) line text = scanTokens (bound + 1) line' text' := by
  rw [scanTokens, scanTokens, h]

namespace Lexes

variable {text : List Char}

theorem nil : Lexes [] [] := by
  intro bound line _
  cases bound with
  | zero => exact ⟨⟨[], line⟩, rfl, rfl⟩
  | succ bound => exact ⟨⟨[], line⟩, rfl, rfl⟩

theorem trivia (h : Lexes rest lexemes) (hlength : rest.length ≤ text.length)
    (hskip : ∀ line, ∃ line', skipTrivia .blank line text = skipTrivia .blank line' rest)
    : Lexes text lexemes := by
  intro bound line hbound
  cases bound with
  | zero => exact h 0 line (by omega)
  | succ bound =>
    obtain ⟨line', hskip⟩ := hskip line
    obtain ⟨stream, hstream, hlexemes⟩ := h (bound + 1) line' (by omega)
    refine ⟨stream, ?_, hlexemes⟩
    rw [← hstream, scanTokens_eq_of_skipTrivia hskip]

theorem token (h : Lexes rest lexemes) (hlength : rest.length ≤ tail.length)
    (hskip : ∀ line, skipTrivia .blank line (c :: tail) = .ok (line, c :: tail))
    (hscan : ∀ line, ∃ line', scanLexeme line c tail = .ok (lexeme, line', rest))
    : Lexes (c :: tail) (lexeme :: lexemes) := by
  intro bound line hbound
  obtain ⟨line', hscan⟩ := hscan line
  rw [length_cons] at hbound
  cases bound with
  | zero => omega
  | succ bound =>
    obtain ⟨stream, hstream, hlexemes⟩ := h bound line' (by omega)
    refine ⟨⟨⟨lexeme, line⟩ :: stream.tokens, stream.endLine⟩, ?_, by simp [hlexemes]⟩
    rw [scanTokens, hskip]
    simp only [bind, Except.bind, hscan, hstream]

end Lexes

theorem skipTrivia_of_other (hbreak : c ≠ '\n') (hslash : c = '/' → rest.head?.all fun d => d ≠ '/' && d ≠ '*')
    (line : Nat)
    : skipTrivia .blank line (c :: rest) =
      if Text.isBlank c then skipTrivia .blank line rest else .ok (line, c :: rest) := by
  rw [skipTrivia]
  · simpa using hbreak
  · rintro tail rfl rfl
    simp at hslash
  · rintro tail rfl rfl
    simp at hslash

theorem skipTrivia_of_not_blank (hblank : Text.isBlank c = false) (hslash : c ≠ '/') (line : Nat) (rest : List Char)
    : skipTrivia .blank line (c :: rest) = .ok (line, c :: rest) := by
  have hbreak : c ≠ '\n' := by
    rintro rfl
    exact absurd hblank (by decide)
  rw [skipTrivia_of_other hbreak fun hc => absurd hc hslash, hblank]
  rfl

def EndsLine (rest : List Char) : Prop :=
  rest = [] ∨ ∃ tail, rest = '\n' :: tail

theorem skipTrivia_lineComment {comment : List Char} (h : '\n' ∉ comment) (hrest : EndsLine rest) (line : Nat)
    : skipTrivia .lineComment line (comment ++ rest) = skipTrivia .blank line rest := by
  induction comment with
  | nil =>
    obtain rfl | ⟨tail, rfl⟩ := hrest
    all_goals simp [skipTrivia]
  | cons c comment ih =>
    rw [mem_cons, not_or] at h
    rw [cons_append, skipTrivia, ih h.2]
    simpa using fun heq => h.1 heq.symm

namespace Lexes

theorem blank (h : Lexes rest lexemes) (hc : Text.isBlank c) : Lexes (c :: rest) lexemes := by
  apply h.trivia (by simp)
  intro line
  by_cases hbreak : c = '\n'
  · exact ⟨line + 1, by rw [hbreak]; rfl⟩
  · have hslash : c ≠ '/' := by
      rintro rfl
      exact absurd hc (by decide)
    refine ⟨line, ?_⟩
    rw [skipTrivia_of_other hbreak fun hc => absurd hc hslash, if_pos hc]

theorem space (h : Lexes rest lexemes) : Lexes (' ' :: rest) lexemes :=
  h.blank (by decide)

theorem spaces (h : Lexes rest lexemes) (n : Nat) : Lexes (List.replicate n ' ' ++ rest) lexemes := by
  induction n with
  | zero => exact h
  | succ n ih => exact ih.space

theorem lineBreak (h : Lexes rest lexemes) : Lexes ('\n' :: rest) lexemes :=
  h.blank (by decide)

theorem scan {source : String} (h : Lexes ('\n' :: source.toList) lexemes)
    : ∃ stream, TokenStream.scan source = .ok stream ∧ stream.tokens.map Token.lexeme = lexemes := by
  obtain ⟨stream, hstream, hlexemes⟩ := h (source.toList.length + 1) 0 (Nat.le_refl _)
  refine ⟨stream, ?_, hlexemes⟩
  rw [← hstream]
  exact scanTokens_eq_of_skipTrivia rfl _

theorem comment (h : Lexes rest lexemes) (hrest : EndsLine rest) {comment : List Char} (hcomment : '\n' ∉ comment)
    : Lexes ('/' :: '/' :: (comment ++ rest)) lexemes := by
  apply h.trivia
  · simp only [length_cons, length_append]
    omega
  · intro line
    exact ⟨line, skipTrivia_lineComment hcomment hrest line⟩

end Lexes

theorem Punct.exists_text (mark : Punct)
    : ∃ c tail, mark.text.toList = c :: tail ∧ Text.isBlank c = false ∧ c ≠ '"' ∧ c ≠ '\''
        ∧ c.isDigit = false ∧ isWordStart c = false ∧ (c = '.' → mark = .dot)
        ∧ (c = '/' → mark = .slash) := by
  cases mark <;> exact ⟨_, _, rfl, by decide, by decide, by decide, by decide, by decide, by decide,
    by decide⟩

def Punct.StopsBefore (mark : Punct) (rest : List Char) : Prop :=
  scanPunct? (mark.text.toList ++ rest) = some (mark, rest) ∧ (mark = .dot → rest.head?.all fun c => !c.isDigit)
    ∧ (mark = .slash → rest.head?.all fun c => c ≠ '/' && c ≠ '*')

theorem Lexes.mark (h : Lexes rest lexemes) (mark : Punct) (hstop : mark.StopsBefore rest)
    : Lexes (mark.text.toList ++ rest) (.punct mark :: lexemes) := by
  obtain ⟨hscan, hdot, hslash⟩ := hstop
  obtain ⟨c, tail, htext, hblank, hquote, hquote', hdigit, hword, hdot', hslash'⟩ := mark.exists_text
  rw [htext, cons_append] at hscan ⊢
  apply h.token (by simp)
  · intro line
    by_cases hc : c = '/'
    · -- Only a second mark would make a comment of a slash.
      obtain rfl := hslash' hc
      obtain ⟨rfl, rfl⟩ : '/' = c ∧ [] = tail := by simpa [Punct.text] using htext
      have hskip := skipTrivia_of_other (c := '/') (by decide) (fun _ => hslash rfl) line
      rwa [hblank] at hskip
    · exact skipTrivia_of_not_blank hblank hc _ _
  · intro line
    have hnumber : startsNumber c (tail ++ rest) = false := by
      unfold startsNumber
      rw [hdigit, Bool.false_or, Bool.and_eq_false_iff]
      by_cases hc : c = '.'
      · obtain rfl := hdot' hc
        obtain ⟨rfl, rfl⟩ : '.' = c ∧ [] = tail := by simpa [Punct.text] using htext
        right
        have := hdot rfl
        cases rest with
        | nil => rfl
        | cons d rest => simpa using this
      · simp [hc]
    refine ⟨line, ?_⟩
    unfold scanLexeme
    simp [hquote, hquote', hnumber, hword, hscan]

def singleMarks : List (Char × Punct) :=
  [('(', .parenOpen), (')', .parenClose), ('{', .braceOpen), ('}', .braceClose),
   ('[', .bracketOpen), (']', .bracketClose), (',', .comma), (';', .semicolon), (':', .colon)]

namespace Lexes

theorem single (h : Lexes rest lexemes) {mark : Punct} (hmark : (c, mark) ∈ singleMarks)
    : Lexes (c :: rest) (.punct mark :: lexemes) := by
  have hstop : mark.text.toList = [c] ∧ mark.StopsBefore rest := by
    simp only [singleMarks, mem_cons, Prod.mk.injEq, not_mem_nil, or_false] at hmark
    rcases hmark with ⟨rfl, rfl⟩ | ⟨rfl, rfl⟩ | ⟨rfl, rfl⟩ | ⟨rfl, rfl⟩ | ⟨rfl, rfl⟩ | ⟨rfl, rfl⟩
      | ⟨rfl, rfl⟩ | ⟨rfl, rfl⟩ | ⟨rfl, rfl⟩
    all_goals exact ⟨rfl, rfl, nofun, nofun⟩
  rw [← singleton_append, ← hstop.1]
  exact h.mark mark hstop.2

theorem spaced (h : Lexes rest lexemes) (mark : Punct)
    : Lexes (mark.text.toList ++ ' ' :: rest) (.punct mark :: lexemes) := by
  apply h.space.mark
  refine ⟨?_, ?_, ?_⟩
  · cases mark <;> rfl
  · intro _
    rfl
  · intro _
    rfl

theorem dot (h : Lexes rest lexemes) (hrest : rest.head?.all fun c => !c.isDigit)
    : Lexes ('.' :: rest) (.punct .dot :: lexemes) :=
  h.mark .dot ⟨rfl, fun _ => hrest, nofun⟩

theorem bang (h : Lexes rest lexemes) (hrest : ∃ c tail, rest = c :: tail ∧ c ≠ '=')
    : Lexes ('!' :: rest) (.punct .bang :: lexemes) := by
  obtain ⟨c, tail, rfl, hc⟩ := hrest
  apply h.mark .bang
  refine ⟨?_, nofun, nofun⟩
  change scanPunct? ('!' :: c :: tail) = _
  rw [scanPunct?]
  · intro rest heq
    exact hc (List.cons.inj heq).1
  · intro rest heq
    exact hc (List.cons.inj heq).1

end Lexes

theorem span_append {α : Type} {p : α → Bool} {rest : List α} (hrest : rest.head?.all fun a => !p a) (l : List α)
    : (l ++ rest).span p = ((l.span p).1, (l.span p).2 ++ rest) := by
  simp only [span_eq_takeWhile_dropWhile]
  induction l with
  | nil =>
    cases rest with
    | nil => rfl
    | cons a rest => simp_all
  | cons a l ih =>
    by_cases ha : p a
    · simpa [ha] using ih
    · simp [ha]

theorem span_of_all {α : Type} {p : α → Bool} {l rest : List α} (hl : ∀ a ∈ l, p a)
    (hrest : rest.head?.all fun a => !p a) : (l ++ rest).span p = (l, rest) := by
  rw [span_append hrest, span_eq_takeWhile_dropWhile, takeWhile_eq_self_iff.mpr hl,
    dropWhile_eq_nil_iff.mpr hl, nil_append]

theorem isWordStart_not_other (h : isWordStart c)
    : Text.isBlank c = false ∧ c ≠ '/' ∧ c ≠ '"' ∧ c ≠ '\'' ∧ c ≠ '.' ∧ c.isDigit = false := by
  unfold isWordStart at h
  simp only [Bool.or_eq_true, decide_eq_true_eq] at h
  obtain (h | rfl) | rfl := h
  · refine ⟨Text.isBlank_eq_false_of_isLetter h, ?_, ?_, ?_, ?_, ?_⟩
    · rintro rfl
      exact absurd h (by decide)
    · rintro rfl
      exact absurd h (by decide)
    · rintro rfl
      exact absurd h (by decide)
    · rintro rfl
      exact absurd h (by decide)
    · exact Text.isDigit_eq_false_of_isLetter h
  · decide
  · decide

def IsWord (text : String) : Prop :=
  ∃ c tail, text.toList = c :: tail ∧ isWordStart c ∧ ∀ d ∈ tail, isWordPart d

theorem isWord_iff : IsWord text ↔ text.toList.head?.any isWordStart ∧ text.toList.tail.all isWordPart := by
  unfold IsWord
  cases text.toList with
  | nil => simp
  | cons c tail => simp

instance (text : String) : Decidable (IsWord text) :=
  decidable_of_iff _ isWord_iff.symm

def EndsWord (rest : List Char) : Prop :=
  rest.head?.all fun c => !isWordPart c

theorem scanLexeme_word (hstart : isWordStart c) (htail : ∀ d ∈ tail, isWordPart d) (hrest : EndsWord rest) (line : Nat)
    : scanLexeme line c (tail ++ rest) = .ok (.word (String.ofList (c :: tail)), line, rest) := by
  obtain ⟨-, -, hquote, hquote', hdot, hdigit⟩ := isWordStart_not_other hstart
  unfold scanLexeme
  rw [if_neg (by simp [hquote, hquote']), if_neg (by simp [startsNumber, hdigit, hdot]),
    if_pos hstart, span_of_all htail hrest]

theorem scan_of_isWord (h : IsWord text) : TokenStream.scan text = .ok ⟨[⟨.word text, 1⟩], 1⟩ := by
  obtain ⟨c, tail, heq, hstart, htail⟩ := h
  obtain ⟨hblank, hslash, -⟩ := isWordStart_not_other hstart
  have hscan := scanLexeme_word hstart htail (show EndsWord [] from rfl) 1
  rw [append_nil, ← heq, String.ofList_toList] at hscan
  unfold TokenStream.scan
  rw [heq]
  simp only [length_cons, scanTokens, skipTrivia_of_not_blank hblank hslash, hscan, skipTrivia, bind, Except.bind]

theorem Lexes.word (h : Lexes rest lexemes) (htext : IsWord text) (hrest : EndsWord rest)
    : Lexes (text.toList ++ rest) (.word text :: lexemes) := by
  obtain ⟨c, tail, heq, hstart, htail⟩ := htext
  obtain ⟨hblank, hslash, -⟩ := isWordStart_not_other hstart
  have htext : String.ofList (c :: tail) = text := by rw [← heq, String.ofList_toList]
  rw [heq, cons_append]
  apply h.token (by simp)
  · intro line
    exact skipTrivia_of_not_blank hblank hslash _ _
  · intro line
    refine ⟨line, ?_⟩
    rw [scanLexeme_word hstart htail hrest, htext]

def EndsOperand (rest : List Char) : Prop :=
  rest.head?.all fun c => [' ', '\n', ')', ']', ';', ','].contains c

theorem EndsOperand.all (h : EndsOperand rest) {p : Char → Bool}
    (hp : [' ', '\n', ')', ']', ';', ','].all p) : rest.head?.all p := by
  cases rest with
  | nil => rfl
  | cons c rest =>
    simp only [EndsOperand, head?_cons, Option.all_some, contains_iff_mem] at h ⊢
    exact all_eq_true.mp hp c h

theorem EndsOperand.endsWord (h : EndsOperand rest) : EndsWord rest :=
  h.all (by decide)

theorem EndsLine.endsOperand (h : EndsLine rest) : EndsOperand rest := by
  obtain rfl | ⟨tail, rfl⟩ := h
  · rfl
  · rfl

theorem scanSignSpelling_append (hrest : EndsOperand rest) (text : List Char) : scanSignSpelling (text ++ rest) =
      ((scanSignSpelling text).1, (scanSignSpelling text).2 ++ rest) := by
  cases text with
  | nil =>
    have hsign := hrest.all (p := fun c => c ≠ '+' && c ≠ '-') (by decide)
    cases rest with
    | nil => rfl
    | cons c rest =>
      simp only [head?_cons, Option.all_some, Bool.and_eq_true, decide_eq_true_eq] at hsign
      rw [nil_append, scanSignSpelling]
      · rfl
      · simpa using hsign.1
      · simpa using hsign.2
  | cons c text =>
    by_cases hplus : c = '+'
    · subst hplus
      rfl
    · by_cases hminus : c = '-'
      · subst hminus
        rfl
      · rw [cons_append, scanSignSpelling, scanSignSpelling]
        · rfl
        all_goals simpa

theorem scanExponentSpelling_append (hrest : EndsOperand rest) (text : List Char) : scanExponentSpelling (text ++ rest)
        =
      ((scanExponentSpelling text).1, (scanExponentSpelling text).2 ++ rest) := by
  cases text with
  | nil =>
    cases rest with
    | nil => rfl
    | cons c rest =>
      have hc := hrest.all (p := fun c => c ≠ 'e' && c ≠ 'E') (by decide)
      simp_all [scanExponentSpelling]
  | cons c text =>
    unfold scanExponentSpelling
    simp only [cons_append]
    split
    · simp only [scanSignSpelling_append hrest, Decimal.scanDigits,
        span_append (p := Char.isDigit) (hrest.all (by decide))]
    · rfl

theorem scanNumber_append (hrest : EndsOperand rest) (text : List Char)
    : scanNumber (text ++ rest) = ((scanNumber text).1, (scanNumber text).2 ++ rest) := by
  unfold scanNumber
  rw [span_append (hrest.all (by decide)) text]
  dsimp only
  rw [scanExponentSpelling_append hrest]

inductive StringStep where
  | fail
  | close
  | go (state : StringState) (added : List Char) (lines : Nat)

namespace StringStep

def meaning : Char → Char
  | 'n' => '\n' | 'r' => '\r' | 't' => '\t' | '0' => '\x00'
  | c => c

def of (quote : Char) : StringState → Char → StringStep
  | .plain, c =>
    if c = '\n' then fail
    else if c = quote then close
    else if c = '\\' then go .escape [] 0
    else go .plain [c] 0
  | .escape, c =>
    if c = 'u' then go (.code []) [] 0
    else if c = '\n' then go .plain [] 1
    else go .plain [meaning c] 0
  | .code taken, c =>
    if taken.length < 3 then go (.code (c :: taken)) [] 0 else go .plain [ofCode (c :: taken).reverse] 0

def scan (quote : Char) (startLine line : Nat) (rest : List Char) :
    StringStep → Except SyntaxError (List Char × Nat × List Char)
  | fail => .error (.unterminatedString startLine)
  | close => .ok ([], line, rest)
  | go state added lines =>
    (scanString quote startLine state (line + lines) rest).map fun found => (added ++ found.1, found.2)

end StringStep

theorem scanString_cons (quote : Char) (startLine : Nat) (state : StringState) (line : Nat) (c : Char) (rest : List Char)
    : scanString quote startLine state line (c :: rest)
        = (StringStep.of quote state c).scan quote startLine line rest := by
  have hsame : ∀ result : Except SyntaxError (List Char × Nat × List Char),
      result = result.map fun found => ([] ++ found.1, found.2) := by
    rintro (_ | _) <;> rfl
  cases state with
  | plain =>
    rw [scanString, StringStep.of]
    split_ifs
    any_goals rfl
    · exact hsame _
  | escape =>
    unfold scanString
    split
    any_goals rfl
    any_goals exact hsame _
    · next c hn hr ht hzero hu hbreak =>
      rw [StringStep.of, if_neg hu, if_neg hbreak, StringStep.meaning]
      · rfl
      all_goals assumption
  | code taken =>
    rw [scanString, StringStep.of]
    split_ifs
    · exact hsame _
    · rfl

theorem scanString_append {quote : Char} {text : List Char} {state : StringState} {startLine line next : Nat}
    {value left : List Char} (h : scanString quote startLine state line text = .ok (value, next, left))
    (startLine' line' : Nat) (rest : List Char)
    : ∃ next', scanString quote startLine' state line' (text ++ rest) = .ok (value, next', left ++ rest) := by
  induction text generalizing state line value line' with
  | nil => simp [scanString] at h
  | cons c text ih =>
    rw [scanString_cons] at h
    rw [cons_append, scanString_cons]
    cases hstep : StringStep.of quote state c with
    | fail => simp [hstep, StringStep.scan] at h
    | close =>
      rw [hstep] at h
      cases h
      exact ⟨line', rfl⟩
    | go state' added lines =>
      rw [hstep, StringStep.scan] at h
      rw [StringStep.scan]
      cases hrest : scanString quote startLine state' (line + lines) text with
      | error => simp [hrest, Except.map] at h
      | ok found =>
        obtain ⟨value', next', left'⟩ := found
        rw [hrest] at h
        cases h
        obtain ⟨next', hscan⟩ := ih hrest (line' + lines)
        exact ⟨next', by rw [hscan]; rfl⟩

def Spells (text : String) (lexeme : Lexeme) : Prop :=
  ∃ c tail next, text.toList = c :: tail ∧ scanLexeme 1 c tail = .ok (lexeme, next, [])

theorem startsNumber_append (hrest : EndsOperand rest) (c : Char) (tail : List Char)
    : startsNumber c (tail ++ rest) = startsNumber c tail := by
  unfold startsNumber
  cases tail with
  | nil =>
    have := hrest.all (p := fun c => !c.isDigit) (by decide)
    cases rest with
    | nil => rfl
    | cons d rest => simp_all
  | cons d tail => rfl

section Spelled

variable (h : scanLexeme line c tail = .ok (lexeme, next, left)) (hlexeme : ∀ mark, lexeme ≠ .punct mark)

include h hlexeme

theorem scanLexeme_append (hrest : EndsOperand rest) (line' : Nat)
    : ∃ next', scanLexeme line' c (tail ++ rest) = .ok (lexeme, next', left ++ rest) := by
  unfold scanLexeme at h ⊢
  rw [startsNumber_append hrest]
  split at h
  · next hquote =>
    rw [if_pos hquote]
    cases hscan : scanString c line .plain line tail with
    | error => simp [hscan, Except.map] at h
    | ok result =>
      obtain ⟨value, next', left'⟩ := result
      simp only [hscan, Except.map, Except.ok.injEq, Prod.mk.injEq] at h
      obtain ⟨rfl, rfl, rfl⟩ := h
      obtain ⟨next'', happend⟩ := scanString_append hscan line' line' rest
      exact ⟨next'', by rw [happend]; rfl⟩
  · next hquote =>
    rw [if_neg hquote]
    split at h
    · next hstart =>
      rw [if_pos hstart]
      have happend := scanNumber_append hrest (c :: tail)
      rw [cons_append] at happend
      simp only [happend]
      simp_all
    · next hstart =>
      rw [if_neg hstart]
      split at h
      · next hword =>
        rw [if_pos hword, span_append hrest.endsWord]
        simp_all
      · split at h
        · next mark _ _ =>
          simp only [Except.ok.injEq, Prod.mk.injEq] at h
          exact absurd h.1.symm (hlexeme mark)
        · simp at h

theorem start_of_scanLexeme : c = '"' ∨ c = '\'' ∨ c.isDigit ∨ c = '.' ∨ isWordStart c := by
  unfold scanLexeme at h
  split at h
  · next hquote => exact hquote.imp_right .inl
  · split at h
    · next hstart =>
      simp only [startsNumber, Bool.or_eq_true, Bool.and_eq_true, decide_eq_true_eq] at hstart
      exact .inr (.inr (hstart.imp_right fun hdot => .inl hdot.1))
    · split at h
      · next hword => exact .inr (.inr (.inr (.inr hword)))
      · split at h
        · next mark _ _ =>
          simp only [Except.ok.injEq, Prod.mk.injEq] at h
          exact absurd h.1.symm (hlexeme mark)
        · simp at h

theorem skipTrivia_of_scanLexeme (line' : Nat) (rest : List Char)
    : skipTrivia .blank line' (c :: rest) = .ok (line', c :: rest) := by
  obtain rfl | rfl | hdigit | rfl | hword := start_of_scanLexeme h hlexeme
  · exact skipTrivia_of_not_blank (by decide) (by decide) _ _
  · exact skipTrivia_of_not_blank (by decide) (by decide) _ _
  · rw [Text.isDigit_iff] at hdigit
    apply skipTrivia_of_not_blank
    · apply Text.isBlank_eq_false_of_ascii
      omega
    · rintro rfl
      exact absurd hdigit (by decide)
  · exact skipTrivia_of_not_blank (by decide) (by decide) _ _
  · obtain ⟨hblank, hslash, -⟩ := isWordStart_not_other hword
    exact skipTrivia_of_not_blank hblank hslash _ _

end Spelled

theorem spells_word (h : IsWord text) : Spells text (.word text) := by
  obtain ⟨c, tail, heq, hstart, htail⟩ := h
  refine ⟨c, tail, 1, heq, ?_⟩
  have hscan := scanLexeme_word hstart htail (show EndsWord [] from rfl) 1
  rwa [append_nil, ← heq, String.ofList_toList] at hscan

theorem Lexes.spelled (h : Lexes rest lexemes) (htext : Spells text lexeme) (hlexeme : ∀ mark, lexeme ≠ .punct mark)
    (hrest : EndsOperand rest) : Lexes (text.toList ++ rest) (lexeme :: lexemes) := by
  obtain ⟨c, tail, next, heq, hscan⟩ := htext
  rw [heq, cons_append]
  apply h.token (by simp)
  · intro line
    exact skipTrivia_of_scanLexeme hscan hlexeme _ _
  · intro line
    exact scanLexeme_append hscan hlexeme hrest line

end NodeScript.Script
