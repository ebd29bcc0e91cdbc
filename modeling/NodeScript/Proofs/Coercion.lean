import Mathlib.Data.List.TakeDrop
import Mathlib.Data.List.TakeWhile
import NodeScript.Script.Value

/-!
Arrays as numbers. An array stands for the number that its text denotes, unless its only item is
missing.
-/

namespace NodeScript

variable {text : List Char} {c : Char}

theorem mem_dropWhile {p : Char → Bool} (hc : p c = false) (h : c ∈ text) : c ∈ text.dropWhile p := by
  rw [← List.takeWhile_append_dropWhile (p := p) (l := text), List.mem_append] at h
  exact h.resolve_left fun hmem => by simp [List.mem_takeWhile_imp hmem] at hc

theorem Text.mem_trim (hc : isBlank c = false) (h : c ∈ text) : c ∈ trim text := by
  have hleft : c ∈ trimLeft text := mem_dropWhile hc h
  have hright : c ∈ trimLeft (trimLeft text).reverse := mem_dropWhile hc (List.mem_reverse.mpr hleft)
  exact List.mem_reverse.mpr hright

namespace Decimal

theorem comma_scanSign (h : ',' ∈ text) : ',' ∈ (scanSign text).2 := by
  fun_cases scanSign text <;> simpa [scanSign] using h

theorem comma_scanDigits (h : ',' ∈ text) : ',' ∈ (scanDigits text).2 := by
  rw [scanDigits, List.span_eq_takeWhile_dropWhile]
  exact mem_dropWhile (by decide) h

theorem comma_scanFraction (h : ',' ∈ text) : ',' ∈ (scanFraction text).2 := by
  fun_cases scanFraction text with
  | case1 rest => exact comma_scanDigits (by simpa using h)
  | case2 => exact h

theorem comma_scanExponent (h : ',' ∈ text) : ',' ∈ (scanExponent text).2 := by
  fun_cases scanExponent text with
  | case1 c rest hc negative rest' hsign _ hdigits => exact h
  | case2 c rest hc negative rest' hsign digits rest'' hnonempty hdigits =>
    have hrest : ',' ∈ rest := by
      obtain rfl | rfl := hc <;> simpa using h
    have hcomma := comma_scanDigits (comma_scanSign hrest)
    rwa [hsign, hdigits] at hcomma
  | case3 => exact h
  | case4 => exact h

theorem readFloat_of_comma (h : ',' ∈ text) : readFloat text = 0.0 / 0.0 := by
  have hrest := comma_scanFraction (comma_scanDigits (comma_scanSign h))
  have hread : Numeral.read? text = none := by
    unfold Numeral.read? Numeral.scan?
    dsimp only
    split_ifs
    · rfl
    · cases hend : (scanExponent (scanFraction (scanDigits (scanSign text).2).2).2).2 with
      | nil => simpa [hend] using comma_scanExponent hrest
      | cons => rfl
  rw [readFloat, hread]

end Decimal

namespace Script.Value

theorem textToNumber_of_comma {text : String} (h : ',' ∈ text.toList) : textToNumber text = 0.0 / 0.0 := by
  have hmem := Text.mem_trim (by decide) h
  unfold textToNumber
  have hne {word : String} (hword : ',' ∉ word.toList) : String.ofList (Text.trim text.toList) ≠ word := by
    rintro rfl
    exact hword (by rwa [String.toList_ofList])
  split
  any_goals exact absurd ‹_› (hne (by decide))
  · exact Decimal.readFloat_of_comma (by rwa [String.toList_ofList])

/-- An array is converted through its text, unless its only item is missing. -/
theorem toNumber_array (items : List Value) : (array items).toNumber =
      if items.length = 1 ∧ items.all isNullish then 0.0 / 0.0 else (str (array items).text).toNumber := by
  obtain _ | ⟨first, _ | ⟨second, rest⟩⟩ := items
  · rfl
  · by_cases hnull : first.isNullish
    · rw [if_pos (by simp [hnull]), toNumber]
      cases first with
      | undefined | null => rfl
      | _ => cases hnull
    · rw [if_neg (by simp [hnull])]
      simp [toNumber, text, itemTexts, hnull]
  · rw [if_neg (by simp)]
    exact (textToNumber_of_comma (by simp [text, itemTexts])).symm

theorem toNumber_array_null : (array [null]).toNumber = 0.0 / 0.0 ∧ (str (array [null]).text).toNumber = 0 := by
  exact ⟨rfl, rfl⟩

end Script.Value

end NodeScript
