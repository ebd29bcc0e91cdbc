import NodeScript.Proofs.Rendering

/-!
Programs as text. A tree is written as a row of lexemes, with parentheses around receivers, around
expressions that are statements, and elsewhere only where the precedence of the operators asks for
them. A `Style` says how a row of lexemes is set as text; the tokens of the text are these lexemes.
-/

namespace NodeScript.Script

open List

variable {p : Char → Bool} {sign : List Char}

def IsDigits (text : List Char) : Prop :=
  text ≠ [] ∧ ∀ c ∈ text, c.isDigit

instance (text : List Char) : Decidable (IsDigits text) :=
  decidable_of_iff (text ≠ [] ∧ text.all Char.isDigit) (by simp [IsDigits])

def signs : List (List Char) := [[], ['+'], ['-']]

/-- A decimal numeral without a sign, with its characters as they are written. -/
structure Figures where
  whole : List Char
  fraction : Option (List Char)
  exponent : Option (Char × List Char × List Char)
  isDigit : ∀ c ∈ whole ++ fraction.getD [], c.isDigit
  ne_nil : whole ++ fraction.getD [] ≠ []
  isExponent : ∀ part ∈ exponent, part.1 ∈ ['e', 'E'] ∧ part.2.1 ∈ signs ∧ IsDigits part.2.2

namespace Figures

def fractionText (figures : Figures) : List Char :=
  figures.fraction.elim [] ('.' :: ·)

def exponentText (figures : Figures) : List Char :=
  figures.exponent.elim [] fun part => part.1 :: (part.2.1 ++ part.2.2)

def text (figures : Figures) : List Char :=
  figures.whole ++ (figures.fractionText ++ figures.exponentText)

def numeral (figures : Figures) : Decimal.Numeral where
  negative := false
  whole := figures.whole
  fraction := figures.fraction.getD []
  exponent := figures.exponent.elim 0 fun part =>
    if part.2.1 = ['-'] then -(Decimal.ofDigits part.2.2 : Int) else Decimal.ofDigits part.2.2

end Figures

/-- A decimal literal, with its digits as they are written. -/
structure Literal where
  whole : List Char
  fraction : Option (List Char)
  exponent : Option (Bool × List Char)
  isDigits_whole : IsDigits whole
  isDigits_fraction : ∀ digits ∈ fraction, IsDigits digits
  isDigits_exponent : ∀ part ∈ exponent, IsDigits part.2

namespace Literal

def fractionText (literal : Literal) : List Char :=
  match literal.fraction with
  | some digits => '.' :: digits
  | none => []

def exponentText (literal : Literal) : List Char :=
  match literal.exponent with
  | some (true, digits) => 'e' :: '-' :: digits
  | some (false, digits) => 'e' :: digits
  | none => []

def text (literal : Literal) : List Char :=
  literal.whole ++ (literal.fractionText ++ literal.exponentText)

def numeral (literal : Literal) : Decimal.Numeral where
  negative := false
  whole := literal.whole
  fraction := literal.fraction.getD []
  exponent :=
    match literal.exponent with
    | some (true, digits) => -(Decimal.ofDigits digits : Int)
    | some (false, digits) => Decimal.ofDigits digits
    | none => 0

def value (literal : Literal) : Float :=
  literal.numeral.toFloat

end Literal

variable {rest digits : List Char} {c : Char}

theorem IsDigits.cons (h : IsDigits digits) : ∃ d tail, digits = d :: tail ∧ d.isDigit := by
  cases digits with
  | nil => exact absurd rfl h.1
  | cons d tail => exact ⟨d, tail, rfl, h.2 d (mem_cons_self ..)⟩

theorem ne_of_isDigit {d : Char} (hc : c.isDigit) (hd : d.isDigit = false) : c ≠ d := by
  rintro rfl
  simp [hc] at hd

theorem scanDigits_of_all (h : ∀ c ∈ digits, c.isDigit) (hrest : rest.head?.all fun c => !c.isDigit)
    : Decimal.scanDigits (digits ++ rest) = (digits, rest) :=
  span_of_all h hrest

theorem scanSign_append (hsign : sign ∈ signs) (hplus : rest.head? ≠ some '+') (hminus : rest.head? ≠ some '-')
    : Decimal.scanSign (sign ++ rest) = (decide (sign = ['-']), rest) := by
  obtain rfl | rfl | rfl : sign = [] ∨ sign = ['+'] ∨ sign = ['-'] := by simpa [signs] using hsign
  · rw [nil_append, Decimal.scanSign]
    · rfl
    · rintro _ rfl
      exact hminus rfl
    · rintro _ rfl
      exact hplus rfl
  · rfl
  · rfl

theorem IsDigits.scanSign (h : IsDigits digits) (hsign : sign ∈ signs) (rest : List Char)
    : Decimal.scanSign (sign ++ (digits ++ rest)) = (decide (sign = ['-']), digits ++ rest) := by
  obtain ⟨d, tail, rfl, hd⟩ := h.cons
  apply scanSign_append hsign <;> simpa using ne_of_isDigit hd (by decide)

theorem IsDigits.scanSignSpelling (h : IsDigits digits) (hsign : sign ∈ signs) (rest : List Char)
    : scanSignSpelling (sign ++ (digits ++ rest)) = (sign, digits ++ rest) := by
  obtain ⟨d, tail, rfl, hd⟩ := h.cons
  obtain rfl | rfl | rfl : sign = [] ∨ sign = ['+'] ∨ sign = ['-'] := by simpa [signs] using hsign
  · rw [nil_append, cons_append, Script.scanSignSpelling]
    all_goals simpa using ne_of_isDigit hd (by decide)
  · rfl
  · rfl

def EndsNumber (rest : List Char) : Prop :=
  rest.head?.all fun c => !isWordPart c && c ≠ '.'

theorem EndsNumber.all (h : EndsNumber rest) (hp : ∀ c, isWordPart c = false → c ≠ '.' → p c) : rest.head?.all p := by
  cases rest with
  | nil => rfl
  | cons c rest =>
    simp only [EndsNumber, head?_cons, Option.all_some, Bool.and_eq_true, Bool.not_eq_true', decide_eq_true_eq] at h ⊢
    exact hp c h.1 h.2

theorem isDigit_eq_false_of_not_isWordPart (h : isWordPart c = false) : c.isDigit = false := by
  rw [← Bool.not_eq_true]
  intro hdigit
  simp [Compile.isWordPart_of_isAlphanum (c := c) (by simp [Char.isAlphanum, hdigit])] at h

theorem EndsNumber.not_digit (h : EndsNumber rest) : rest.head?.all fun c => !c.isDigit :=
  h.all fun c hc _ => by simp [isDigit_eq_false_of_not_isWordPart hc]

namespace Figures

variable (figures : Figures)

theorem head?_exponentText (hlower : p 'e') (hupper : p 'E') : figures.exponentText.head?.all p := by
  unfold exponentText
  cases hexponent : figures.exponent with
  | none => rfl
  | some part =>
    obtain ⟨hletter, -⟩ := figures.isExponent part hexponent
    obtain heq | heq : part.1 = 'e' ∨ part.1 = 'E' := by simpa using hletter
    · simpa [heq] using hlower
    · simpa [heq] using hupper

theorem head?_back (hpoint : p '.') (hlower : p 'e') (hupper : p 'E')
    : (figures.fractionText ++ figures.exponentText).head?.all p := by
  unfold fractionText
  cases figures.fraction with
  | some digits => exact hpoint
  | none => exact figures.head?_exponentText hlower hupper

theorem scanFraction_text : Decimal.scanFraction (figures.fractionText ++ figures.exponentText) =
      (figures.numeral.fraction, figures.exponentText) := by
  have hdigits : ∀ c ∈ figures.fraction.getD [], c.isDigit :=
    fun c hc => figures.isDigit c (mem_append_right _ hc)
  unfold fractionText numeral
  cases hfraction : figures.fraction with
  | some digits =>
    rw [hfraction] at hdigits
    exact scanDigits_of_all hdigits (figures.head?_exponentText (by decide) (by decide))
  | none =>
    have hpoint := figures.head?_exponentText (p := (· ≠ '.')) (by decide) (by decide)
    change Decimal.scanFraction figures.exponentText = _
    rw [Decimal.scanFraction]
    · rfl
    · intro rest heq
      simp [heq] at hpoint

theorem scanExponent_text : Decimal.scanExponent figures.exponentText = (figures.numeral.exponent, []) := by
  unfold exponentText numeral
  cases hexponent : figures.exponent with
  | none => rfl
  | some part =>
    obtain ⟨letter, sign, digits⟩ := part
    obtain ⟨hletter, hsign, hdigits⟩ := figures.isExponent _ hexponent
    have hscan := scanDigits_of_all hdigits.2 (show ([] : List Char).head?.all fun c => !c.isDigit from rfl)
    have hread := hdigits.scanSign hsign []
    rw [append_nil] at hscan hread
    obtain ⟨d, tail, rfl, -⟩ := hdigits.cons
    obtain rfl | rfl : letter = 'e' ∨ letter = 'E' := by simpa using hletter
    all_goals simp [Decimal.scanExponent, hread, hscan]

theorem exists_text : ∃ c tail, figures.text = c :: tail ∧ startsNumber c tail := by
  have hdigits := figures.isDigit
  have hnonempty := figures.ne_nil
  unfold text fractionText
  cases hwhole : figures.whole with
  | cons d whole => exact ⟨d, _, rfl, by simp [startsNumber, hdigits d (by simp [hwhole])]⟩
  | nil =>
    cases hfraction : figures.fraction with
    | none => exact absurd (by simp [hwhole, hfraction]) hnonempty
    | some digits =>
      rw [hwhole, hfraction] at hdigits hnonempty
      obtain ⟨d, tail, rfl⟩ := exists_cons_of_ne_nil hnonempty
      exact ⟨'.', _, rfl, by simp [startsNumber, hdigits d (mem_cons_self ..)]⟩

theorem scanSign_text (hsign : sign ∈ signs) (rest : List Char)
    : Decimal.scanSign (sign ++ (figures.text ++ rest)) = (decide (sign = ['-']), figures.text ++ rest) := by
  obtain ⟨c, tail, htext, hstart⟩ := figures.exists_text
  rw [htext]
  apply scanSign_append hsign
  · rintro ⟨⟩
    simp [startsNumber] at hstart
  · rintro ⟨⟩
    simp [startsNumber] at hstart

theorem scan?_text (hsign : sign ∈ signs) : Decimal.Numeral.scan? (sign ++ figures.text) =
      some ({ figures.numeral with negative := decide (sign = ['-']) }, []) := by
  have hwhole : ∀ c ∈ figures.whole, c.isDigit := fun c hc => figures.isDigit c (mem_append_left _ hc)
  have hdigits := scanDigits_of_all hwhole (figures.head?_back (p := fun c => !c.isDigit) (by decide) (by decide) (by decide))
  have hscan := figures.scanSign_text hsign []
  rw [append_nil] at hscan
  unfold Decimal.Numeral.scan?
  rw [hscan, text]
  simp only [hdigits, scanFraction_text, scanExponent_text]
  rw [if_neg]
  · rfl
  · simpa [numeral] using figures.ne_nil

theorem readFloat_text : Decimal.readFloat figures.text = figures.numeral.toFloat := by
  have hscan := figures.scan?_text (show [] ∈ signs by decide)
  rw [nil_append] at hscan
  rw [Decimal.readFloat, Decimal.Numeral.read?, hscan]
  rfl

theorem scanExponentSpelling_text (hrest : EndsNumber rest)
    : scanExponentSpelling (figures.exponentText ++ rest) = (figures.exponentText, rest) := by
  unfold exponentText
  cases hexponent : figures.exponent with
  | none =>
    cases rest with
    | nil => rfl
    | cons c rest =>
      have hletter : (some c).all fun c => c ≠ 'e' && c ≠ 'E' := by
        apply hrest.all
        intro c hc _
        have hne : c ≠ 'e' ∧ c ≠ 'E' := by
          refine ⟨?_, ?_⟩
          · rintro rfl
            exact absurd hc (by decide)
          · rintro rfl
            exact absurd hc (by decide)
        simp [hne]
      simp_all [scanExponentSpelling]
  | some part =>
    obtain ⟨letter, sign, digits⟩ := part
    obtain ⟨hletter, hsign, hdigits⟩ := figures.isExponent _ hexponent
    have hscan := scanDigits_of_all hdigits.2 hrest.not_digit
    have hread := hdigits.scanSignSpelling hsign rest
    obtain rfl | rfl : letter = 'e' ∨ letter = 'E' := by simpa using hletter
    all_goals simp [scanExponentSpelling, hread, hscan]

theorem scanNumber_text (hrest : EndsNumber rest)
    : scanNumber (figures.text ++ rest) = (figures.numeral.toFloat, rest) := by
  -- Digits and points are scanned as one span, which the exponent or the rest has to end.
  have hfront : ∀ c ∈ figures.whole ++ figures.fractionText, (c.isDigit || c = '.') = true := by
    have hdigits := figures.isDigit
    unfold fractionText
    cases hfraction : figures.fraction with
    | none =>
      rw [hfraction] at hdigits
      exact fun c hc => by simp [hdigits c hc]
    | some digits =>
      rw [hfraction] at hdigits
      intro c hc
      by_cases hpoint : c = '.'
      · simp [hpoint]
      · simp [hdigits c (by simpa [hpoint] using hc)]
  have hback : (figures.exponentText ++ rest).head?.all fun c => !(c.isDigit || c = '.') := by
    cases hexponent : figures.exponentText with
    | nil => exact hrest.all fun c hc hne => by simp [isDigit_eq_false_of_not_isWordPart hc, hne]
    | cons c tail =>
      have := figures.head?_exponentText (p := fun c => !(c.isDigit || c = '.')) (by decide) (by decide)
      rwa [hexponent] at this
  have htext : figures.text ++ rest = (figures.whole ++ figures.fractionText) ++ (figures.exponentText ++ rest) := by
    simp [text]
  unfold scanNumber
  rw [htext, span_of_all hfront hback]
  dsimp only
  rw [scanExponentSpelling_text _ hrest]
  simp [← readFloat_text, text]

end Figures

theorem Lexes.figures {lexemes : List Lexeme} (h : Lexes rest lexemes) (figures : Figures) (hrest : EndsNumber rest)
    : Lexes (figures.text ++ rest) (.number figures.numeral.toFloat :: lexemes) := by
  have hscan := figures.scanNumber_text hrest
  obtain ⟨c, tail, htext, hstart⟩ := figures.exists_text
  rw [htext, cons_append] at hscan ⊢
  have hfirst : c.isDigit ∨ c = '.' := by
    simp only [startsNumber, Bool.or_eq_true, Bool.and_eq_true, decide_eq_true_eq] at hstart
    exact hstart.imp_right And.left
  have hne {d : Char} (hdigit : d.isDigit = false) (hdot : d ≠ '.') : c ≠ d := by
    rintro rfl
    simp [hdigit, hdot] at hfirst
  apply h.token (by simp)
  · intro line
    apply skipTrivia_of_not_blank
    · apply Text.isBlank_eq_false_of_ascii
      obtain hdigit | rfl := hfirst
      · rw [Text.isDigit_iff] at hdigit
        omega
      · decide
    · exact hne (by decide) (by decide)
  · intro line
    have hquote : ¬(c = '"' ∨ c = '\'') :=
      not_or.mpr ⟨hne (by decide) (by decide), hne (by decide) (by decide)⟩
    have hstart : startsNumber c (tail ++ rest) := by
      revert hstart
      cases tail <;> simp +contextual [startsNumber]
    refine ⟨line, ?_⟩
    unfold scanLexeme
    rw [if_neg hquote, if_pos hstart, hscan]

namespace Literal

variable (literal : Literal)

def figures : Figures where
  whole := literal.whole
  fraction := literal.fraction
  exponent := literal.exponent.map fun part => ('e', if part.1 then ['-'] else [], part.2)
  isDigit := by
    intro c hc
    cases hfraction : literal.fraction with
    | none =>
      rw [hfraction, Option.getD_none, List.append_nil] at hc
      exact literal.isDigits_whole.2 c hc
    | some digits =>
      rw [hfraction, Option.getD_some, List.mem_append] at hc
      exact hc.elim (literal.isDigits_whole.2 c) ((literal.isDigits_fraction digits hfraction).2 c)
  ne_nil := List.append_ne_nil_of_left_ne_nil literal.isDigits_whole.1 _
  isExponent := by
    intro part hpart
    rw [Option.mem_def, Option.map_eq_some_iff] at hpart
    obtain ⟨⟨negative, digits⟩, hexponent, rfl⟩ := hpart
    exact ⟨by simp, by cases negative <;> simp [signs], literal.isDigits_exponent _ hexponent⟩

theorem text_figures : literal.figures.text = literal.text := by
  unfold Figures.text text Figures.fractionText fractionText Figures.exponentText exponentText figures
  obtain ⟨whole, fraction, exponent, -, -, -⟩ := literal
  obtain - | ⟨- | -, digits⟩ := exponent <;> cases fraction <;> rfl

theorem numeral_figures : literal.figures.numeral = literal.numeral := by
  unfold Figures.numeral numeral figures
  obtain ⟨whole, fraction, exponent, -, -, -⟩ := literal
  obtain - | ⟨- | -, digits⟩ := exponent <;> rfl

theorem exists_text : ∃ d tail, literal.text = d :: tail ∧ d.isDigit := by
  obtain ⟨d, tail, hwhole, hd⟩ := literal.isDigits_whole.cons
  rw [text, hwhole]
  exact ⟨d, _, rfl, hd⟩

end Literal

theorem Lexes.number {lexemes : List Lexeme} (h : Lexes rest lexemes) (literal : Literal) (hrest : EndsNumber rest)
    : Lexes (literal.text ++ rest) (.number literal.value :: lexemes) := by
  have hfigures := h.figures literal.figures hrest
  rwa [literal.text_figures, literal.numeral_figures] at hfigures

def Punct.isSingle (mark : Punct) : Bool :=
  (singleMarks.map Prod.snd).contains mark

/-- Whether the texts of two lexemes could run together. -/
def Lexeme.joins : Lexeme → Lexeme → Bool
  | .punct mark, .punct mark' => !mark.isSingle && !mark'.isSingle
  | .punct mark, .number _ => mark = .dot
  | .number _, .punct mark => mark = .dot
  | .punct _, _ | _, .punct _ | .str _, _ | _, .str _ => false
  | _, _ => true

/-- How lexemes are set as text. Blanks may stand between any two of them, and do where the two would
run together. -/
structure Style where
  numeral : Float → Literal
  gap : Lexeme → Lexeme → List Char
  gap_blank : ∀ a b, ∀ c ∈ gap a b, c = ' ' ∨ c = '\n'
  gap_ne_nil : ∀ a b, a.joins b → gap a b ≠ []

namespace Style

def tight (numeral : Float → Literal) : Style where
  numeral := numeral
  gap := fun a b => if a.joins b then [' '] else []
  gap_blank := by
    intro a b c hc
    split at hc
    · exact .inl (List.mem_singleton.mp hc)
    · simp at hc
  gap_ne_nil := by
    intro a b hjoins
    simp [hjoins]

def spelling (style : Style) : Lexeme → List Char
  | .number value => (style.numeral value).text
  | .str value => (Compile.quote value).toList
  | .word text => text.toList
  | .punct mark => mark.text.toList

def typeset (style : Style) : List Lexeme → List Char
  | [] => []
  | [lexeme] => style.spelling lexeme
  | a :: b :: rest => style.spelling a ++ (style.gap a b ++ style.typeset (b :: rest))

def Spells (style : Style) : Lexeme → Prop
  | .number value => (style.numeral value).value = value
  | .word text => IsWord text
  | _ => True

end Style

def Lexeme.EndsBefore : Lexeme → List Char → Prop
  | .number _, rest => EndsNumber rest
  | .str _, _ => True
  | .word _, rest => EndsWord rest
  | .punct mark, rest => mark.StopsBefore rest

theorem Punct.stopsBefore_of_isSingle {mark : Punct} (h : mark.isSingle) (rest : List Char)
    : mark.StopsBefore rest := by
  refine ⟨?_, ?_, ?_⟩
  · cases mark <;> first | rfl | exact absurd h (by decide)
  · rintro rfl
    exact absurd h (by decide)
  · rintro rfl
    exact absurd h (by decide)

def markTails : List Char := ['+', '-', '=', '&', '|', '/', '*']

theorem Punct.stopsBefore_of_head {mark : Punct} (hc : c ∉ markTails) (hdot : mark = .dot → c.isDigit = false)
    (rest : List Char) : mark.StopsBefore (c :: rest) := by
  simp only [markTails, mem_cons, not_mem_nil, or_false, not_or] at hc
  obtain ⟨hplus, hminus, hequal, hand, hor, hslash, hstar⟩ := hc
  refine ⟨?_, ?_, ?_⟩
  · cases mark <;> simp [Punct.text, scanPunct?, *]
  · intro hmark
    simp [hdot hmark]
  · intro _
    simp [hslash, hstar]

theorem Lexeme.endsBefore_nil (lexeme : Lexeme) : lexeme.EndsBefore [] := by
  cases lexeme with
  | number => rfl
  | str => trivial
  | word => rfl
  | punct mark =>
    refine ⟨?_, fun _ => rfl, fun _ => rfl⟩
    cases mark <;> rfl

theorem isWordPart_eq_false_of_isBlank (h : Text.isBlank c) : isWordPart c = false := by
  have hletter : Text.isLetter c = false := by
    rw [← Bool.not_eq_true]
    intro hletter
    simp [Text.isBlank_eq_false_of_isLetter hletter] at h
  have hnumeric : Text.isNumeric c = false := by
    unfold Text.isNumeric
    split
    · rw [← Bool.not_eq_true, Text.isDigit_iff]
      intro hdigit
      simp [Text.isBlank_eq_false_of_ascii (c := c) (by omega)] at h
    · exact Text.not_inRanges_of_disjoint (by decide +kernel) h
  have hne {d : Char} (hd : Text.isBlank d = false) : c ≠ d := by
    rintro rfl
    simp [hd] at h
  simp [isWordPart, hletter, hnumeric, hne (d := '_') (by decide), hne (d := '$') (by decide)]

theorem Lexeme.endsBefore_blank (lexeme : Lexeme) (hc : Text.isBlank c) (rest : List Char)
    : lexeme.EndsBefore (c :: rest) := by
  have hpart := isWordPart_eq_false_of_isBlank hc
  cases lexeme with
  | number =>
    have hdot : c ≠ '.' := by
      rintro rfl
      exact absurd hc (by decide)
    simp [EndsBefore, EndsNumber, hpart, hdot]
  | word => simp [EndsBefore, EndsWord, hpart]
  | str => trivial
  | punct mark =>
    apply Punct.stopsBefore_of_head
    · intro hmem
      have hnone : markTails.all fun c => !Text.isBlank c := by decide
      simpa [hc] using all_eq_true.mp hnone c hmem
    · exact fun _ => isDigit_eq_false_of_not_isWordPart hpart

theorem not_mem_markTails_of_isDigit (h : c.isDigit) : c ∉ markTails := by
  intro hmem
  have hnone : markTails.all fun c => !c.isDigit := by decide
  simpa [h] using all_eq_true.mp hnone c hmem

theorem not_mem_markTails_of_isWordStart (h : isWordStart c) : c ∉ markTails := by
  intro hmem
  have hnone : markTails.all fun c => !isWordStart c := by decide
  simpa [h] using all_eq_true.mp hnone c hmem

theorem Punct.exists_head (mark : Punct)
    : ∃ c tail, mark.text.toList = c :: tail ∧ isWordPart c = false ∧ (c = '.' → mark = .dot)
        ∧ c.isDigit = false ∧ (mark.isSingle → c ∉ markTails) := by
  cases mark <;> exact ⟨_, _, rfl, by decide, by decide, by decide, by decide⟩

namespace Style

variable (style : Style)

theorem endsBefore_spelling {a b : Lexeme} (hb : style.Spells b) (hjoins : a.joins b = false)
    (rest : List Char) : a.EndsBefore (style.spelling b ++ rest) := by
  cases b with
  | number value =>
    obtain ⟨c, tail, heq, hc⟩ := (style.numeral value).exists_text
    rw [spelling, heq, cons_append]
    cases a with
    | number | word => simp [Lexeme.joins] at hjoins
    | str => trivial
    | punct mark =>
      apply Punct.stopsBefore_of_head (not_mem_markTails_of_isDigit hc)
      intro hmark
      simp [Lexeme.joins, hmark] at hjoins
  | str value =>
    obtain ⟨tail, heq⟩ : ∃ tail, style.spelling (.str value) = '"' :: tail := by simp [spelling, Compile.quote]
    rw [heq, cons_append]
    cases a with
    | number => rfl
    | word => rfl
    | str => trivial
    | punct mark => exact Punct.stopsBefore_of_head (by decide) (fun _ => rfl) _
  | word text =>
    obtain ⟨c, tail, heq, hc, -⟩ := hb
    rw [spelling, heq, cons_append]
    cases a with
    | number | word => simp [Lexeme.joins] at hjoins
    | str => trivial
    | punct mark =>
      apply Punct.stopsBefore_of_head (not_mem_markTails_of_isWordStart hc)
      intro _
      exact (isWordStart_not_other hc).2.2.2.2.2
  | punct mark =>
    obtain ⟨c, tail, heq, hpart, hdot, hdigit, hsingle⟩ := mark.exists_head
    rw [spelling, heq, cons_append]
    cases a with
    | number =>
      have hne : c ≠ '.' := by
        intro hc
        simp [Lexeme.joins, hdot hc] at hjoins
      simp [Lexeme.EndsBefore, EndsNumber, hpart, hne]
    | str => trivial
    | word => simp [Lexeme.EndsBefore, EndsWord, hpart]
    | punct first =>
      simp only [Lexeme.joins, Bool.and_eq_false_iff, Bool.not_eq_false'] at hjoins
      obtain hfirst | hmark := hjoins
      · exact Punct.stopsBefore_of_isSingle hfirst _
      · exact Punct.stopsBefore_of_head (hsingle hmark) (fun _ => hdigit) _

variable {lexemes : List Lexeme}

theorem lexes_spelling {lexeme : Lexeme} (hlexeme : style.Spells lexeme) (h : Lexes rest lexemes)
    (hrest : lexeme.EndsBefore rest)
    : Lexes (style.spelling lexeme ++ rest) (lexeme :: lexemes) := by
  cases lexeme with
  | number value =>
    have hnumber := h.number (style.numeral value) hrest
    rwa [show (style.numeral value).value = value from hlexeme] at hnumber
  | str value => exact Compile.lexes_quote h value
  | word text => exact h.word hlexeme hrest
  | punct mark => exact h.mark mark hrest

theorem isBlank_gap {a b : Lexeme} (hc : c ∈ style.gap a b) : Text.isBlank c := by
  obtain rfl | rfl := style.gap_blank a b c hc <;> decide

theorem lexes_gap {gap : List Char} (h : Lexes rest lexemes) (hgap : ∀ c ∈ gap, Text.isBlank c)
    : Lexes (gap ++ rest) lexemes := by
  induction gap with
  | nil => exact h
  | cons c gap ih =>
    have hrest := ih fun d hd => hgap d (mem_cons_of_mem _ hd)
    exact hrest.blank (hgap c (mem_cons_self ..))

theorem exists_typeset_cons (lexeme : Lexeme) (lexemes : List Lexeme)
    : ∃ rest, style.typeset (lexeme :: lexemes) = style.spelling lexeme ++ rest := by
  cases lexemes with
  | nil => exact ⟨[], (append_nil _).symm⟩
  | cons => exact ⟨_, rfl⟩

theorem lexes_typeset (h : ∀ lexeme ∈ lexemes, style.Spells lexeme) : Lexes (style.typeset lexemes) lexemes := by
  induction lexemes with
  | nil => exact .nil
  | cons a lexemes ih =>
    have ha := h a (mem_cons_self ..)
    specialize ih fun lexeme hmem => h lexeme (mem_cons_of_mem _ hmem)
    cases lexemes with
    | nil =>
      have := style.lexes_spelling ha .nil a.endsBefore_nil
      rwa [append_nil] at this
    | cons b lexemes =>
      -- The token of `a` ends at the gap or, if there is none, at the spelling of `b`.
      apply style.lexes_spelling ha (lexes_gap ih fun _ => style.isBlank_gap)
      cases hgap : style.gap a b with
      | nil =>
        obtain ⟨rest, hrest⟩ := style.exists_typeset_cons b lexemes
        have hjoins : a.joins b = false := by
          rw [← Bool.not_eq_true]
          intro hjoins
          exact style.gap_ne_nil a b hjoins hgap
        rw [nil_append, hrest]
        exact style.endsBefore_spelling (h b (by simp)) hjoins rest
      | cons c gap =>
        apply a.endsBefore_blank
        apply style.isBlank_gap (a := a) (b := b)
        simp [hgap]

end Style

open Parse (Connective levels commaList blockLexemes binaryMark assignMark)

def unaryMark : UnaryOp → Punct
  | .not => .bang | .negate => .minus | .plus => .plus

def Expr.level : Expr → Nat
  | .logical op _ _ => (Connective.logical op).level
  | .binary op _ _ => (Connective.binary op).level
  | .unary _ _ | .await _ => levels
  | _ => levels + 1

def parenthesized (lexemes : List Lexeme) : List Lexeme :=
  .punct .parenOpen :: (lexemes ++ [.punct .parenClose])

def guarded (due level : Nat) (lexemes : List Lexeme) : List Lexeme :=
  if level < due then parenthesized lexemes else lexemes

mutual

def Expr.lexemes : Expr → List Lexeme
  | .number value => [.number value]
  | .str value => [.str value]
  | .bool value => [.word (if value then "true" else "false")]
  | .undefined => [.word "undefined"]
  | .null => [.word "null"]
  | .identifier name => [.word name]
  | .array items => .punct .bracketOpen :: (commaList (itemLexemes items) ++ [.punct .bracketClose])
  | .object fields => .punct .braceOpen :: (commaList (entryLexemes fields) ++ [.punct .braceClose])
  | .unary op operand => .punct (unaryMark op) :: guarded levels operand.level operand.lexemes
  | .binary op left right =>
    guarded (Connective.binary op).level left.level left.lexemes ++ .punct (binaryMark op)
        :: guarded ((Connective.binary op).level + 1) right.level right.lexemes
  | .logical op left right =>
    guarded (Connective.logical op).level left.level left.lexemes ++ .punct (Connective.logical op).mark
        :: guarded ((Connective.logical op).level + 1) right.level right.lexemes
  | .member holder property => parenthesized holder.lexemes ++ [.punct .dot, .word property]
  | .index holder position =>
    parenthesized holder.lexemes ++ .punct .bracketOpen :: (position.lexemes ++ [.punct .bracketClose])
  | .call callee arguments =>
    parenthesized callee.lexemes ++ .punct .parenOpen :: (commaList (itemLexemes arguments) ++ [.punct .parenClose])
  | .await operand => .word "await" :: guarded levels operand.level operand.lexemes

def itemLexemes : List Expr → List (List Lexeme)
  | [] => []
  | item :: items => item.lexemes :: itemLexemes items

def entryLexemes : List (String × Expr) → List (List Lexeme)
  | [] => []
  | (name, value) :: fields => (.str name :: .punct .colon :: value.lexemes) :: entryLexemes fields

end

def guardedNesting (due level nesting : Nat) : Nat :=
  if level < due then nesting + 1 else nesting

mutual

/-- The levels of nesting below an expression: one for each expression inside another in parentheses,
brackets or braces, and one for each operator in front of an operand. -/
def Expr.nesting : Expr → Nat
  | .array items => itemNesting items
  | .object fields => entryNesting fields
  | .unary _ operand => guardedNesting levels operand.level operand.nesting + 1
  | .binary op left right =>
    max (guardedNesting (Connective.binary op).level left.level left.nesting)
      (guardedNesting ((Connective.binary op).level + 1) right.level right.nesting)
  | .logical op left right =>
    max (guardedNesting (Connective.logical op).level left.level left.nesting)
      (guardedNesting ((Connective.logical op).level + 1) right.level right.nesting)
  | .member holder _ => holder.nesting + 1
  | .index holder position => max (holder.nesting + 1) (position.nesting + 1)
  | .call callee arguments => max (callee.nesting + 1) (itemNesting arguments)
  | .await operand => guardedNesting levels operand.level operand.nesting + 1
  | _ => 0

def itemNesting : List Expr → Nat
  | [] => 0
  | item :: items => max (item.nesting + 1) (itemNesting items)

def entryNesting : List (String × Expr) → Nat
  | [] => 0
  | (_, value) :: fields => max (value.nesting + 1) (entryNesting fields)

end

def Target.lexemes : Target → List Lexeme
  | .variable name => [.word name]
  | .element name position =>
    .word name :: .punct .bracketOpen :: (position.lexemes ++ [.punct .bracketClose])

def Target.nesting : Target → Nat
  | .variable _ => 1
  | .element _ position => position.nesting + 2

def Stmt.clause : Stmt → List Lexeme
  | .declare name none => [.word "let", .word name]
  | .declare name (some value) => .word "let" :: .word name :: .punct .assign :: value.lexemes
  | .assign target op value => target.lexemes ++ .punct (assignMark op) :: value.lexemes
  | .expr value => parenthesized value.lexemes
  | _ => []

def Stmt.clauseNesting : Stmt → Nat
  | .declare _ none => 0
  | .declare _ (some value) => value.nesting + 1
  | .assign target _ value => max target.nesting (value.nesting + 1)
  | .expr value => value.nesting + 2
  | _ => 0

mutual

def Stmt.lexemes : Stmt → List Lexeme
  | .declare name value => (Stmt.declare name value).clause ++ [.punct .semicolon]
  | .assign target op value => (Stmt.assign target op value).clause ++ [.punct .semicolon]
  | .expr value => (Stmt.expr value).clause ++ [.punct .semicolon]
  | .ifElse cond thenBody elseBody =>
    .word "if" :: (parenthesized cond.lexemes ++ (blockLexemes (bodyLexemes thenBody) ++ elseLexemes elseBody))
  | .whileLoop cond body =>
    .word "while" :: (parenthesized cond.lexemes ++ blockLexemes (bodyLexemes body))
  | .forLoop init cond update body =>
    .word "for" :: .punct .parenOpen :: (init.elim [] Stmt.clause ++ .punct .semicolon
        :: (cond.elim [] Expr.lexemes ++ .punct .semicolon
          :: (update.elim [] Stmt.clause ++ .punct .parenClose :: blockLexemes (bodyLexemes body))))
  | .breakLoop => [.word "break", .punct .semicolon]
  | .continueLoop => [.word "continue", .punct .semicolon]
  | .returnValue value => .word "return" :: (value.elim [] Expr.lexemes ++ [.punct .semicolon])
  | .block body => blockLexemes (bodyLexemes body)
  | .function name params body =>
    .word "async" :: .word "function" :: .word name :: .punct .parenOpen
      :: (commaList (params.map fun param => [.word param])
        ++ .punct .parenClose :: blockLexemes (bodyLexemes body))

def bodyLexemes : List Stmt → List (List Lexeme)
  | [] => []
  | stmt :: body => stmt.lexemes :: bodyLexemes body

def elseLexemes : Option (List Stmt) → List Lexeme
  | none => []
  | some body => .word "else" :: blockLexemes (bodyLexemes body)

end

mutual

def Stmt.nesting : Stmt → Nat
  | .declare name value => (Stmt.declare name value).clauseNesting + 1
  | .assign target op value => (Stmt.assign target op value).clauseNesting + 1
  | .expr value => (Stmt.expr value).clauseNesting + 1
  | .ifElse cond thenBody elseBody =>
    max (cond.nesting + 1) (max (bodyNesting thenBody) (elseNesting elseBody)) + 1
  | .whileLoop cond body => max (cond.nesting + 1) (bodyNesting body) + 1
  | .forLoop init cond update body =>
    max (max (init.elim 0 Stmt.clauseNesting) (cond.elim 0 fun test => test.nesting + 1))
      (max (update.elim 0 Stmt.clauseNesting) (bodyNesting body)) + 1
  | .breakLoop => 1
  | .continueLoop => 1
  | .returnValue value => (value.elim 0 fun value => value.nesting + 1) + 1
  | .block body => bodyNesting body + 1
  | .function _ _ body => bodyNesting body + 1

def bodyNesting : List Stmt → Nat
  | [] => 0
  | stmt :: body => max stmt.nesting (bodyNesting body)

def elseNesting : Option (List Stmt) → Nat
  | none => 0
  | some body => bodyNesting body

end

def Program.print (style : Style) (program : Program) : String :=
  String.ofList (style.typeset (bodyLexemes program.body).flatten)

end NodeScript.Script
