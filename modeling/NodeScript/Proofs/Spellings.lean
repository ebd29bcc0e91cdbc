import NodeScript.Proofs.Printing

/-!
Tokens written one after the other with blanks and comments between them. Whatever stands between two
tokens, as long as it starts with a blank, the text has these tokens and no others.
-/

namespace NodeScript.Script

inductive Filler where
  | blank (c : Char) (h : Text.isBlank c)
  | lineComment (comment : List Char) (h : '\n' ∉ comment)
  | blockComment (comment : List Char) (h : ¬ ['*', '/'] <:+: comment)

def Filler.text : Filler → List Char
  | .blank c _ => [c]
  | .lineComment comment _ => '/' :: '/' :: (comment ++ ['\n'])
  | .blockComment comment _ => '/' :: '*' :: (comment ++ ['*', '/'])

structure Separator where
  blank : Char
  fillers : List Filler
  isBlank : Text.isBlank blank

def Separator.text (separator : Separator) : List Char :=
  separator.blank :: separator.fillers.flatMap Filler.text

variable {lexemes : List Lexeme} {rest : List Char}

theorem skipTrivia_blockComment {comment : List Char} (h : ¬ ['*', '/'] <:+: comment) (start line : Nat)
    (rest : List Char)
    : ∃ next, skipTrivia (.blockComment start) line (comment ++ '*' :: '/' :: rest) = skipTrivia .blank next rest := by
  induction comment generalizing line with
  | nil => exact ⟨line, by simp [skipTrivia]⟩
  | cons c comment ih =>
    have hcomment : ¬ ['*', '/'] <:+: comment := fun hends => h (hends.trans (List.suffix_cons ..).isInfix)
    by_cases hbreak : c = '\n'
    · obtain ⟨next, hnext⟩ := ih hcomment (line + 1)
      exact ⟨next, by rw [hbreak, List.cons_append, skipTrivia, hnext]⟩
    · obtain ⟨next, hnext⟩ := ih hcomment line
      refine ⟨next, ?_⟩
      rw [List.cons_append, skipTrivia, hnext]
      · simpa using hbreak
      · -- A star of the comment has no slash after it: the comment would hold both.
        rintro tail rfl htail
        cases comment with
        | nil => simp at htail
        | cons d comment =>
          obtain rfl : d = '/' := (List.cons.inj htail).1
          exact h ⟨[], comment, rfl⟩

theorem Lexes.filler (h : Lexes rest lexemes) (filler : Filler) : Lexes (filler.text ++ rest) lexemes := by
  cases filler with
  | blank c hc => exact h.blank hc
  | lineComment comment hcomment =>
    have := h.lineBreak.comment (.inr ⟨rest, rfl⟩) hcomment
    simpa [Filler.text] using this
  | blockComment comment hcomment =>
    apply h.trivia
    · simp [Filler.text]
      omega
    · intro line
      obtain ⟨next, hnext⟩ := skipTrivia_blockComment hcomment line line rest
      exact ⟨next, by simpa [Filler.text, skipTrivia] using hnext⟩

theorem Lexes.fillers (h : Lexes rest lexemes) (fillers : List Filler)
    : Lexes (fillers.flatMap Filler.text ++ rest) lexemes := by
  induction fillers with
  | nil => exact h
  | cons filler fillers ih =>
    rw [List.flatMap_cons, List.append_assoc]
    exact ih.filler filler

theorem Lexes.separator (h : Lexes rest lexemes) (separator : Separator) : Lexes (separator.text ++ rest) lexemes :=
  (h.fillers separator.fillers).blank separator.isBlank

inductive Spelling where
  | word (text : String) (h : IsWord text)
  | mark (punct : Punct)
  | number (figures : Figures)
  | string (text : List Char) (h : ∀ c ∈ text, c ∉ ['"', '\\', '\n'])

namespace Spelling

def text : Spelling → List Char
  | .word text _ => text.toList
  | .mark punct => punct.text.toList
  | .number figures => figures.text
  | .string text _ => '"' :: (text ++ ['"'])

def lexeme : Spelling → Lexeme
  | .word text _ => .word text
  | .mark punct => .punct punct
  | .number figures => .number figures.numeral.toFloat
  | .string text _ => .str (String.ofList text)

theorem scanString_plain {text : List Char} (h : ∀ c ∈ text, c ∉ ['"', '\\', '\n']) (start line : Nat)
    (rest : List Char)
    : scanString '"' start .plain line (text ++ '"' :: rest) = .ok (text, line, rest) := by
  induction text with
  | nil => simp [scanString]
  | cons c text ih =>
    have hc := h c (List.mem_cons_self ..)
    simp only [List.mem_cons, List.not_mem_nil, or_false, not_or] at hc
    rw [List.cons_append, scanString, if_neg hc.2.2, if_neg hc.1, if_neg hc.2.1,
      ih fun d hd => h d (List.mem_cons_of_mem _ hd)]
    rfl

theorem lexes (spelling : Spelling) (h : Lexes rest lexemes) (hrest : spelling.lexeme.EndsBefore rest)
    : Lexes (spelling.text ++ rest) (spelling.lexeme :: lexemes) := by
  cases spelling with
  | word text htext => exact h.word htext hrest
  | mark punct => exact h.mark punct hrest
  | number figures => exact h.figures figures hrest
  | string text htext =>
    have := Compile.lexes_string h fun line => scanString_plain htext line line rest
    simpa [Spelling.text, Spelling.lexeme] using this

def spellOut (separators : Nat → Separator) (closing : List Char) : List Spelling → List Char
  | [] => closing
  | [spelling] => spelling.text ++ closing
  | spelling :: rest =>
    spelling.text ++ ((separators rest.length).text ++ spellOut separators closing rest)

/-- Whatever stands in front of the tokens, between them and after them, they are the tokens of the
text. -/
theorem scan_spellOut (opening : List Filler) (separators : Nat → Separator) (closing : Option Separator)
    (spellings : List Spelling)
    : ∃ stream, TokenStream.scan (String.ofList
            (opening.flatMap Filler.text ++ spellOut separators (closing.elim [] Separator.text) spellings))
          = .ok stream
        ∧ stream.tokens.map Token.lexeme = spellings.map lexeme := by
  have hclosing : Lexes (closing.elim [] Separator.text) [] := by
    cases closing with
    | none => exact .nil
    | some separator => simpa using Lexes.nil.separator separator
  have hspellings : Lexes (spellOut separators (closing.elim [] Separator.text) spellings) (spellings.map lexeme) := by
    induction spellings with
    | nil => exact hclosing
    | cons spelling spellings ih =>
      cases spellings with
      | nil =>
        apply spelling.lexes hclosing
        cases closing with
        | none => exact spelling.lexeme.endsBefore_nil
        | some separator => exact spelling.lexeme.endsBefore_blank separator.isBlank _
      | cons next spellings =>
        apply spelling.lexes (ih.separator _)
        exact spelling.lexeme.endsBefore_blank (separators _).isBlank _
  apply Lexes.scan
  rw [String.toList_ofList]
  exact (hspellings.fillers opening).lineBreak

end Spelling

end NodeScript.Script
