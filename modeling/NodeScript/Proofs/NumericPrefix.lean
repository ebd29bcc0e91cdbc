import NodeScript.Proofs.Coercion
import NodeScript.Proofs.Printing
import NodeScript.Script.Builtin

/-!
The number at the start of a text is the longest numeral there, or an infinity.
-/

namespace NodeScript.Decimal

open List

open Float.Model Float.Model.UnpackedFloat

theorem isNaN_unpack_packComponents {spec : Format} {sign : Sign} {exponent : BitVec spec.exponentBits}
    {mantissa : BitVec spec.mantissaBitsWithoutImplicit} (h : exponent = -1#_ → mantissa = 0#_)
    : (UnpackedFloat.unpack spec (packComponents spec sign exponent mantissa)).isNaN = false := by
  unfold UnpackedFloat.unpack
  refine iteInduction (motive := fun f => UnpackedFloat.isNaN f = false) (fun hexponent => ?_) fun _ => ?_
  · have hzero := h (unpackExponent_packComponents.symm.trans hexponent)
    rw [if_pos (unpackMantissa_packComponents.trans hzero)]
    rfl
  · refine iteInduction (motive := fun f => UnpackedFloat.isNaN f = false) (fun _ => ?_) fun _ => rfl
    by_cases hzero : mantissa = 0#_
    · rw [dif_pos (unpackMantissa_packComponents.trans hzero)]
      rfl
    · rw [dif_neg (unpackMantissa_packComponents.trans_ne hzero)]
      rfl

theorem isNaN_pack {f : UnpackedFloat} (h : f.isNaN = false) : (Float.Model.pack f).isNaN = false := by
  change (UnpackedFloat.unpack .binary64 (UnpackedFloat.pack .binary64 f)).isNaN = false
  fun_cases UnpackedFloat.pack with
  | case1 => cases h
  | case5 s m e hm actualMantissaBits biasedExponent hfinite =>
    apply isNaN_unpack_packComponents
    intro hexponent
    have hbits : biasedExponent % 2048 = 2047 := congrArg BitVec.toNat hexponent
    change ¬ 2048 ≤ _ at hfinite
    omega
  | case6 => exact isNaN_unpack_packComponents nofun
  | _ => exact isNaN_unpack_packComponents fun _ => rfl

theorem isNaN_roundWithAccuracy (spec : Format) (sign : Sign) (mantissa : Nat) (exponent : Int) (accuracy : Accuracy)
    : (roundWithAccuracy spec sign mantissa exponent accuracy).isNaN = false := by
  fun_cases roundWithAccuracy <;> rfl

def isProper : UnpackedFloat → Bool
  | .finite .. => true
  | _ => false

theorem isNaN_mul_div {f g : UnpackedFloat} (hf : f.isNaN = false) (hg : isProper g)
    : (UnpackedFloat.mul .binary64 f g).isNaN = false ∧ (UnpackedFloat.div .binary64 f g).isNaN = false := by
  cases g with
  | finite =>
    cases f with
    | notANumber => cases hf
    | finite => exact ⟨isNaN_roundWithAccuracy .., isNaN_roundWithAccuracy ..⟩
    | _ => exact ⟨rfl, rfl⟩
  | _ => cases hg

theorem isNaN_ofScientific (m : Nat) (s : Bool) (e : Nat) : (Float.ofScientific m s e).isNaN = false := by
  unfold Float.ofScientific
  split
  · next h =>
    have hpowers : ∀ x ∈ Float.exactlyRepresentablePowersOfTen, isProper x.toModel.unpack := by decide
    have hm : m.toUInt64.toFloat.toModel.unpack.isNaN = false := by
      apply isNaN_pack
      change (UnpackedFloat.normalize _ _ _ _).isNaN = false
      unfold UnpackedFloat.normalize
      split
      any_goals apply isNaN_roundWithAccuracy
      · rfl
    dsimp only
    split
    · exact isNaN_pack (isNaN_mul_div hm (hpowers _ (Array.getElem_mem _))).2
    · exact isNaN_pack (isNaN_mul_div hm (hpowers _ (Array.getElem_mem _))).1
  · apply isNaN_pack
    fun_cases UnpackedFloat.ofScientific with
    | case4 => exact (isNaN_mul_div rfl rfl).1
    | case5 => exact (isNaN_mul_div rfl rfl).2
    | _ => rfl

theorem Numeral.isNaN_toFloat (n : Numeral) : n.toFloat.isNaN = false := by
  have hscaled (coefficient : Nat) (exponent : Int) : (scaled coefficient exponent).isNaN = false := by
    unfold scaled
    dsimp only
    split
    · exact isNaN_ofScientific ..
    · split
      · decide
      · exact isNaN_ofScientific ..
  have hneg {x : Float} (h : x.isNaN = false) : (-x).isNaN = false := by
    apply isNaN_pack
    change x.toModel.unpack.isNaN = false at h
    cases hx : x.toModel.unpack with
    | notANumber => cases hx ▸ h
    | _ => rfl
  unfold toFloat
  dsimp only
  split
  · exact hneg (hscaled ..)
  · exact hscaled ..

end NodeScript.Decimal

namespace NodeScript.Script

open List Decimal

def IsNumeral (text : List Char) : Prop :=
  ∃ sign ∈ signs, ∃ figures : Figures, text = sign ++ figures.text

def IsInfinity (text : List Char) : Prop :=
  ∃ sign ∈ signs, text = sign ++ "Infinity".toList

variable {text rest sign : List Char} {numeral : Numeral}

theorem exists_scanSign (text : List Char)
    : ∃ sign ∈ signs, text = sign ++ (scanSign text).2 ∧ (scanSign text).1 = decide (sign = ['-']) := by
  fun_cases scanSign text with
  | case1 rest => exact ⟨['-'], by decide, rfl, rfl⟩
  | case2 rest => exact ⟨['+'], by decide, rfl, rfl⟩
  | case3 => exact ⟨[], by decide, rfl, rfl⟩

theorem scanDigits_eq (text : List Char)
    : text = (scanDigits text).1 ++ (scanDigits text).2 ∧ ∀ c ∈ (scanDigits text).1, c.isDigit := by
  rw [scanDigits, span_eq_takeWhile_dropWhile]
  exact ⟨takeWhile_append_dropWhile.symm, fun c hc => mem_takeWhile_imp hc⟩

theorem exists_scanFraction (text : List Char)
    : ∃ fraction : Option (List Char), text = fraction.elim [] ('.' :: ·) ++ (scanFraction text).2
        ∧ (scanFraction text).1 = fraction.getD [] ∧ ∀ c ∈ fraction.getD [], c.isDigit := by
  fun_cases scanFraction text with
  | case1 rest => exact ⟨some (scanDigits rest).1, congrArg ('.' :: ·) (scanDigits_eq rest).1, rfl, (scanDigits_eq rest).2⟩
  | case2 => exact ⟨none, rfl, rfl, forall_mem_nil _⟩

theorem exists_scanExponent (text : List Char) : ∃ exponent : Option (Char × List Char × List Char),
        text = (exponent.elim [] fun part => part.1 :: (part.2.1 ++ part.2.2)) ++ (scanExponent text).2
        ∧ ((scanExponent text).1 = exponent.elim 0 fun part =>
          if part.2.1 = ['-'] then -(ofDigits part.2.2 : Int) else ofDigits part.2.2)
        ∧ ∀ part ∈ exponent, part.1 ∈ ['e', 'E'] ∧ part.2.1 ∈ signs ∧ IsDigits part.2.2 := by
  fun_cases scanExponent text with
  | case2 c rest hletter negative unsigned hsign digits rest' hdigits hscan =>
    obtain ⟨sign, hmem, heq, hnegative⟩ := exists_scanSign rest
    have hspan := scanDigits_eq unsigned
    rw [hsign] at heq hnegative
    rw [hscan] at hspan
    refine ⟨some (c, sign, digits), ?_, ?_, ?_⟩
    · simp [heq, hspan.1]
    · simp_all
    · rintro _ ⟨⟩
      exact ⟨by simpa using hletter, hmem, hdigits, hspan.2⟩
  | _ => exact ⟨none, rfl, rfl, by rintro _ ⟨⟩⟩

theorem exists_of_scan? (h : Numeral.scan? text = some (numeral, rest))
    : ∃ sign ∈ signs, ∃ figures : Figures, text = sign ++ figures.text ++ rest
        ∧ numeral = { figures.numeral with negative := decide (sign = ['-']) } := by
  obtain ⟨sign, hsign, htext, hnegative⟩ := exists_scanSign text
  unfold Numeral.scan? at h
  generalize scanSign text = signed at *
  obtain ⟨htext', hwhole⟩ := scanDigits_eq signed.2
  dsimp only at h
  generalize scanDigits signed.2 = whole at *
  obtain ⟨fraction, hfraction, hpart, hdigits⟩ := exists_scanFraction whole.2
  generalize scanFraction whole.2 = fractional at *
  split at h
  · cases h
  · next hempty =>
    obtain ⟨exponent, hexponent, hvalue, hvalid⟩ := exists_scanExponent fractional.2
    generalize scanExponent fractional.2 = last at *
    cases h
    refine ⟨sign, hsign, ⟨whole.1, fraction, exponent, ?_, ?_, hvalid⟩, ?_, ?_⟩
    · exact forall_mem_append.mpr ⟨hwhole, hdigits⟩
    · simpa [hpart] using hempty
    · rw [htext, htext', hfraction, hexponent]
      simp [Figures.text, Figures.fractionText, Figures.exponentText]
    · simp [Figures.numeral, hnegative, hpart, hvalue]

theorem scanDigits_of_digits {digits : List Char} (h : ∀ c ∈ digits, c.isDigit) (rest : List Char)
    : scanDigits (digits ++ rest) = (digits ++ (scanDigits rest).1, (scanDigits rest).2) := by
  simp only [scanDigits, span_eq_takeWhile_dropWhile, takeWhile_append_of_pos h, dropWhile_append_of_pos h]

theorem suffix_scanDigits (text : List Char) : (scanDigits text).2 <:+ text :=
  ⟨_, (scanDigits_eq text).1.symm⟩

theorem suffix_scanFraction (text : List Char) : (scanFraction text).2 <:+ text := by
  obtain ⟨_, heq, -⟩ := exists_scanFraction text
  exact ⟨_, heq.symm⟩

theorem suffix_scanExponent (text : List Char) : (scanExponent text).2 <:+ text := by
  obtain ⟨_, heq, -⟩ := exists_scanExponent text
  exact ⟨_, heq.symm⟩

theorem scanDigits_exponent {letter : Char} (h : letter ∈ ['e', 'E']) (rest : List Char)
    : scanDigits (letter :: rest) = ([], letter :: rest) ∧ scanFraction (letter :: rest) = ([], letter :: rest) := by
  obtain rfl | rfl : letter = 'e' ∨ letter = 'E' := by simpa using h
  all_goals exact ⟨rfl, rfl⟩

theorem Figures.suffix_scanExponent_text (figures : Figures) (rest : List Char)
    : (scanExponent (scanDigits (figures.exponentText ++ rest)).2).2 <:+ rest
        ∧ (scanExponent (scanFraction (scanDigits (figures.exponentText ++ rest)).2).2).2 <:+ rest := by
  unfold exponentText
  cases hexponent : figures.exponent with
  | none =>
    have hdigits := suffix_scanDigits rest
    exact ⟨(suffix_scanExponent _).trans hdigits, (suffix_scanExponent _).trans ((suffix_scanFraction _).trans hdigits)⟩
  | some part =>
    obtain ⟨letter, sign, digits⟩ := part
    obtain ⟨hletter, hsign, hdigits⟩ := figures.isExponent _ hexponent
    have hend : (scanExponent (letter :: (sign ++ digits) ++ rest)).2 <:+ rest := by
      have hread := hdigits.scanSign hsign rest
      have hscan := scanDigits_of_digits hdigits.2 rest
      obtain ⟨d, tail, rfl, -⟩ := hdigits.cons
      have heq : (scanExponent (letter :: (sign ++ d :: tail) ++ rest)).2 = (scanDigits rest).2 := by
        simp_all [scanExponent]
      rw [heq]
      exact suffix_scanDigits rest
    have hback := scanDigits_exponent hletter (sign ++ digits ++ rest)
    dsimp only [Option.elim_some, cons_append] at hend ⊢
    rw [hback.1, hback.2]
    exact ⟨hend, hend⟩

theorem Figures.scan?_append (figures : Figures) (hsign : sign ∈ signs) (rest : List Char)
    : ∃ numeral rest', Numeral.scan? (sign ++ figures.text ++ rest) = some (numeral, rest') ∧ rest' <:+ rest := by
  obtain ⟨hwhole, hfraction⟩ := forall_mem_append.mp figures.isDigit
  obtain ⟨hback, hback'⟩ := figures.suffix_scanExponent_text rest
  have hnonempty := figures.ne_nil
  unfold Numeral.scan?
  rw [append_assoc, figures.scanSign_text hsign rest]
  simp only [text, fractionText, append_assoc, scanDigits_of_digits hwhole]
  cases heq : figures.fraction with
  | none =>
    rw [heq, Option.getD_none] at hnonempty
    refine ⟨_, _, if_neg ?_, hback'⟩
    simp_all
  | some digits =>
    rw [heq, Option.getD_some] at hnonempty hfraction
    have hpoint : scanDigits ('.' :: (digits ++ (figures.exponentText ++ rest)))
        = ([], '.' :: (digits ++ (figures.exponentText ++ rest))) := rfl
    simp only [Option.elim_some, cons_append, hpoint, scanFraction, scanDigits_of_digits hfraction]
    refine ⟨_, _, if_neg ?_, hback⟩
    simp_all

def IsNumeric (text : List Char) : Prop :=
  IsInfinity text ∨ IsNumeral text

structure IsLongestNumeric (text start : List Char) : Prop where
  isPrefix : start <+: text
  isNumeric : IsNumeric start
  longest : ∀ other, other <+: text → IsNumeric other → other.length ≤ start.length

theorem IsInfinity.scanSign (h : IsInfinity text) (rest : List Char)
    : (Decimal.scanSign (text ++ rest)).2 = "Infinity".toList ++ rest := by
  obtain ⟨sign, hsign, rfl⟩ := h
  rw [append_assoc, scanSign_append hsign]
  · simp
  · simp

theorem length_le_of_suffix {text' rest' : List Char} (h : text ++ rest = text' ++ rest') (hrest : rest' <:+ rest)
    : text.length ≤ text'.length := by
  have hlength := congrArg List.length h
  have hle := hrest.length_le
  simp only [length_append] at hlength
  omega

theorem IsNumeric.utf8Size (h : text ∈ signs ∨ IsNumeric text) : ∀ c ∈ text, c.utf8Size = 1 := by
  have hchars {chars : List Char} (h : chars.all (·.utf8Size == 1)) : ∀ c ∈ chars, c.utf8Size = 1 :=
    fun c hc => eq_of_beq (all_eq_true.mp h c hc)
  have hsigns : ∀ sign ∈ signs, ∀ c ∈ sign, c.utf8Size = 1 := by
    have hall : signs.all (·.all (·.utf8Size == 1)) := by decide
    exact fun sign hsign => hchars (all_eq_true.mp hall sign hsign)
  have hdigit {c : Char} (h : c.isDigit) : c.utf8Size = 1 := by
    have hle : c.val ≤ 57 := by simp_all [Char.isDigit]
    exact if_pos (UInt32.le_trans hle (by decide))
  obtain h | ⟨sign, hsign, rfl⟩ | ⟨sign, hsign, figures, rfl⟩ := h
  · exact hsigns text h
  · exact forall_mem_append.mpr ⟨hsigns sign hsign, hchars (by decide)⟩
  · obtain ⟨hwhole, hfraction⟩ := forall_mem_append.mp figures.isDigit
    refine forall_mem_append.mpr ⟨hsigns sign hsign, ?_⟩
    unfold Figures.text Figures.fractionText Figures.exponentText
    simp only [forall_mem_append]
    refine ⟨fun c hc => hdigit (hwhole c hc), ?_, ?_⟩
    · cases h : figures.fraction with
      | none => exact forall_mem_nil _
      | some digits =>
        rw [h] at hfraction
        exact forall_mem_cons.mpr ⟨by decide, fun c hc => hdigit (hfraction c hc)⟩
    · cases h : figures.exponent with
      | none => exact forall_mem_nil _
      | some part =>
        obtain ⟨hletter, hsign, hdigits⟩ := figures.isExponent part h
        refine forall_mem_cons.mpr ⟨hchars (by decide) _ hletter, forall_mem_append.mpr ⟨hsigns _ hsign, ?_⟩⟩
        exact fun c hc => hdigit (hdigits.2 c hc)

theorem rawEndPos_ofList (h : ∀ c ∈ text, c.utf8Size = 1) : (String.ofList text).rawEndPos = ⟨text.length⟩ := by
  induction text with
  | nil => rfl
  | cons c text ih =>
    rw [forall_mem_cons] at h
    have htext := congrArg String.Pos.Raw.byteIdx (ih h.2)
    rw [String.byteIdx_rawEndPos] at htext
    ext
    simp [String.ofList_cons, htext, h.1, Nat.add_comm]

/-- What is read at the start of a text, blanks apart, is the longest numeral there or the word for infinity. If there
is neither, the result is not a number. The text is cut only where a character ends, although bytes are counted. -/
theorem Builtin.parseFloat_longest (text : String)
    : ((∃ start, IsLongestNumeric (Text.trimLeft text.toList) start ∧ (parseFloat text).isNaN = false
          ∧ (IsInfinity start ∧ parseFloat text = (if start.head? = some '-' then -1.0 / 0.0 else 1.0 / 0.0)
            ∨ IsNumeral start ∧ ∃ numeral, Numeral.read? start = some numeral ∧ parseFloat text = numeral.toFloat))
        ∨ (∀ start, start <+: Text.trimLeft text.toList → ¬ IsNumeric start) ∧ (parseFloat text).isNaN)
      ∧ ∀ start, start <+: Text.trimLeft text.toList → start ∈ signs ∨ IsNumeric start
        → (String.Pos.Raw.mk start.length).IsValid (String.ofList (Text.trimLeft text.toList)) := by
  unfold parseFloat
  generalize Text.trimLeft text.toList = text
  constructor
  · dsimp only
    split
    · next hinfinity =>
      obtain ⟨sign, hsign, htext, hnegative⟩ := exists_scanSign text
      obtain ⟨rest, hrest⟩ := isPrefixOf_iff_prefix.mp hinfinity
      rw [← hrest, ← append_assoc] at htext
      refine .inl ⟨sign ++ "Infinity".toList, ⟨⟨rest, htext.symm⟩, .inl ⟨sign, hsign, rfl⟩, ?_⟩, ?_, .inl ⟨⟨sign, hsign, rfl⟩, ?_⟩⟩
      · rintro other ⟨rest', rfl⟩ (h | ⟨sign', hsign', figures, rfl⟩)
        · rw [h.scanSign, append_cancel_left_eq] at hrest
          exact length_le_of_suffix htext (hrest ▸ suffix_rfl)
        · rw [append_assoc, figures.scanSign_text hsign'] at hrest
          obtain ⟨c, tail, hfigures, hstart⟩ := figures.exists_text
          rw [hfigures] at hrest
          obtain rfl : 'I' = c := (List.cons.inj hrest).1
          simp [startsNumber] at hstart
      · split <;> decide
      · rw [hnegative]
        obtain rfl | rfl | rfl : sign = [] ∨ sign = ['+'] ∨ sign = ['-'] := by simpa [signs] using hsign
        all_goals rfl
    · next hfinite =>
      have hnumeral {start rest : List Char} (h : IsNumeric start) (htext : start ++ rest = text)
          : ∃ numeral rest', Numeral.scan? text = some (numeral, rest') ∧ rest' <:+ rest := by
        obtain h | ⟨sign, hsign, figures, rfl⟩ := h
        · rw [← htext, h.scanSign rest] at hfinite
          exact absurd (by simp) hfinite
        · exact htext ▸ figures.scan?_append hsign rest
      cases hscan : Numeral.scan? text with
      | none =>
        refine .inr ⟨?_, by decide⟩
        rintro start ⟨rest, htext⟩ h
        obtain ⟨_, _, hsome, -⟩ := hnumeral h htext
        cases hscan.symm.trans hsome
      | some scanned =>
        obtain ⟨numeral, rest⟩ := scanned
        obtain ⟨sign, hsign, figures, htext, rfl⟩ := exists_of_scan? hscan
        refine .inl ⟨sign ++ figures.text, ⟨⟨rest, htext.symm⟩, .inr ⟨sign, hsign, figures, rfl⟩, ?_⟩,
          Numeral.isNaN_toFloat _, .inr ⟨⟨sign, hsign, figures, rfl⟩, _, ?_, rfl⟩⟩
        · rintro other ⟨rest', htext'⟩ h
          obtain ⟨_, _, hsome, hsuffix⟩ := hnumeral h htext'
          cases hscan.symm.trans hsome
          exact length_le_of_suffix (htext'.trans htext) hsuffix
        · rw [Numeral.read?, figures.scan?_text hsign]
  · rintro start ⟨rest, rfl⟩ h
    rw [String.ofList_append, ← rawEndPos_ofList (IsNumeric.utf8Size h)]
    exact String.Pos.Raw.isValid_rawEndPos.append_right _

end NodeScript.Script
