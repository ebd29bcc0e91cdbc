import NodeScript.Compile.Naming
import NodeScript.Proofs.Scan
import NodeScript.Proofs.Tables
import NodeScript.Script.Grammar

/-!
The names in generated code are words and no keywords.
-/

namespace NodeScript.Compile

open List Script

structure IsName (text : String) : Prop where
  word : IsWord text
  notKeyword : Parse.isKeyword text = false

theorem not_isKeyword_of_mem {text : String} {c : Char} (hmem : c ∈ text.toList)
    (hc : ∀ word ∈ Parse.keywords, c ∉ word.toList) : Parse.isKeyword text = false := by
  unfold Parse.isKeyword
  rw [← Bool.not_eq_true, contains_iff_mem]
  intro hkeyword
  exact hc text hkeyword hmem

theorem isWordPart_of_isAlphanum {c : Char} (h : c.isAlphanum) : isWordPart c := by
  unfold Char.isAlphanum at h
  rw [Bool.or_eq_true] at h
  unfold isWordPart Text.isLetter Text.isNumeric
  obtain h | h := h
  · have hlt : c.toNat < 128 := by
      rw [Text.isAlpha_iff] at h
      omega
    simp [hlt, h]
  · have hlt : c.toNat < 128 := by
      rw [Text.isDigit_iff] at h
      omega
    simp [hlt, h]

theorem isWordStart_of_isWordPart {c : Char} (h : isWordPart c) (hascii : c.toNat < 128)
    (hdigit : c.isDigit = false) : isWordStart c := by
  unfold isWordPart Text.isNumeric at h
  unfold isWordStart
  simpa [hascii, hdigit] using h

theorem isWordPart_sanitizeChar (c : Char) : isWordPart (sanitizeChar c) := by
  unfold sanitizeChar
  split
  · next h =>
    simp only [Bool.or_eq_true, decide_eq_true_eq] at h
    obtain (h | rfl) | rfl := h
    · exact isWordPart_of_isAlphanum h
    · decide
    · decide
  · decide

theorem sanitizeChar_lt (c : Char) : (sanitizeChar c).toNat < 128 := by
  unfold sanitizeChar
  split
  · next h =>
    simp only [Char.isAlphanum, Bool.or_eq_true, decide_eq_true_eq, Text.isAlpha_iff, Text.isDigit_iff] at h
    obtain (h | rfl) | rfl := h
    · omega
    · decide
    · decide
  · decide

theorem isBlank_sanitizeChar (c : Char) : Text.isBlank (sanitizeChar c) = false := by
  apply Text.isBlank_eq_false_of_ascii ⟨?_, sanitizeChar_lt c⟩
  unfold sanitizeChar
  split
  · next h =>
    simp only [Char.isAlphanum, Bool.or_eq_true, decide_eq_true_eq, Text.isAlpha_iff, Text.isDigit_iff] at h
    obtain (h | rfl) | rfl := h
    · omega
    · decide
    · decide
  · decide

theorem sanitizeChar_sanitizeChar (c : Char) : sanitizeChar (sanitizeChar c) = sanitizeChar c := by
  by_cases h : c.isAlphanum || c = '_' || c = '$'
  · have heq : sanitizeChar c = c := if_pos h
    rw [heq, heq]
  · have heq : sanitizeChar c = '_' := if_neg h
    rw [heq]
    rfl

structure Sanitized (text : String) : Prop where
  fixed : ∀ c ∈ text.toList, sanitizeChar c = c
  nonempty : text.toList ≠ []
  notDigit : text.toList.head?.any Char.isDigit = false
  notReserved : text ∉ reservedWords

theorem sanitized_sanitize (raw : String) : Sanitized (sanitize raw) := by
  unfold sanitize
  generalize hname : (Text.trim raw.toList).map sanitizeChar = name
  have hfixed : ∀ c ∈ name, sanitizeChar c = c := by
    rw [← hname]
    intro c hc
    obtain ⟨d, -, rfl⟩ := mem_map.mp hc
    exact sanitizeChar_sanitizeChar d
  dsimp only
  split
  · exact ⟨by simp [show sanitizeChar '_' = '_' from rfl], by decide, by decide, by decide⟩
  · next hempty =>
    split
    · refine ⟨?_, by simp, by simp, ?_⟩
      · simpa [show sanitizeChar '_' = '_' from rfl] using hfixed
      · -- No reserved word starts with an underscore.
        intro hmem
        have hstart : reservedWords.all (fun word => word.toList.head? ≠ some '_') := by decide
        simpa using all_eq_true.mp hstart _ hmem
    · next hplain =>
      simp only [Bool.or_eq_true, not_or, Bool.not_eq_true] at hplain
      obtain ⟨hdigit, hreserved⟩ := hplain
      refine ⟨by simpa using hfixed, by simpa using hempty, by simpa using hdigit, ?_⟩
      intro hmem
      rw [contains_iff_mem.mpr hmem] at hreserved
      exact Bool.noConfusion hreserved

namespace Sanitized

variable {text : String} (h : Sanitized text)
include h

theorem isWordPart : ∀ c ∈ text.toList, isWordPart c := by
  intro c hc
  rw [← h.fixed c hc]
  exact isWordPart_sanitizeChar c

theorem isName : IsName text := by
  obtain ⟨c, tail, heq⟩ := exists_cons_of_ne_nil h.nonempty
  have hmem : c ∈ text.toList := heq ▸ mem_cons_self
  refine ⟨⟨c, tail, heq, ?_, fun d hd => h.isWordPart d (heq ▸ mem_cons_of_mem _ hd)⟩, ?_⟩
  · refine isWordStart_of_isWordPart (h.isWordPart c hmem) ?_ (by simpa [heq] using h.notDigit)
    rw [← h.fixed c hmem]
    exact sanitizeChar_lt c
  · -- Every keyword is reserved.
    have hkeywords : ∀ word ∈ Parse.keywords, word ∈ reservedWords := by decide
    unfold Parse.isKeyword
    rw [← Bool.not_eq_true, contains_iff_mem]
    exact fun hkeyword => h.notReserved (hkeywords _ hkeyword)

theorem trim_eq : Text.trim text.toList = text.toList := by
  have hblank : ∀ c ∈ text.toList, Text.isBlank c = false := by
    intro c hc
    rw [← h.fixed c hc]
    exact isBlank_sanitizeChar c
  have htrim : ∀ cs : List Char, (∀ c ∈ cs, Text.isBlank c = false) → Text.trimLeft cs = cs := by
    intro cs hcs
    cases cs with
    | nil => rfl
    | cons c cs => simp [Text.trimLeft, hcs c mem_cons_self]
  unfold Text.trim
  rw [htrim _ hblank, htrim _ (by simpa using hblank), reverse_reverse]

theorem sanitize_eq : sanitize text = text := by
  have hmap : (Text.trim text.toList).map sanitizeChar = text.toList := by
    rw [h.trim_eq]
    exact (map_congr_left h.fixed).trans (map_id' _)
  unfold sanitize
  simp only [hmap, String.ofList_toList, h.notDigit, Bool.false_or, List.isEmpty_iff, h.nonempty, if_false,
    List.contains_iff_mem, h.notReserved]

end Sanitized

theorem isName_sanitize (raw : String) : IsName (sanitize raw) :=
  (sanitized_sanitize raw).isName

/-- Every text becomes a single word that is neither a keyword nor reserved, and that stays as it is from then on. -/
theorem scan_sanitize (raw : String) : TokenStream.scan (sanitize raw) = .ok ⟨[⟨.word (sanitize raw), 1⟩], 1⟩
        ∧ Parse.isKeyword (sanitize raw) = false
        ∧ sanitize raw ∉ reservedWords
        ∧ sanitize (sanitize raw) = sanitize raw := by
  have h := sanitized_sanitize raw
  exact ⟨scan_of_isWord h.isName.word, h.isName.notKeyword, h.notReserved, h.sanitize_eq⟩

theorem isName_numbered {base : String} (h : IsName base) (n : Nat) : IsName (base ++ "_" ++ Nat.repr n) := by
  obtain ⟨⟨c, tail, heq, hstart, htail⟩, -⟩ := h
  have htext : (base ++ "_" ++ Nat.repr n).toList = c :: (tail ++ '_' :: Nat.toDigits 10 n) := by
    simp [heq]
  refine ⟨⟨c, _, htext, hstart, ?_⟩, ?_⟩
  · intro d hd
    simp only [mem_append, mem_cons] at hd
    obtain hd | rfl | hd := hd
    · exact htail d hd
    · decide
    · have hdigit := Nat.isDigit_of_mem_toDigits (by decide) (by decide) hd
      exact isWordPart_of_isAlphanum (by simp [Char.isAlphanum, hdigit])
  · exact not_isKeyword_of_mem (c := '_') (by rw [htext]; simp) (by decide)

theorem isName_claim {taken : List String} {base : String} (h : IsName base) : IsName (claim taken base) := by
  unfold claim
  split
  · exact isName_numbered h _
  · exact h

theorem forall_mem_claimAll {p : String → Prop} (h : ∀ taken text, p (claim taken (sanitize text))) {texts : List String}
    : ∀ name ∈ claimAll texts, p name := by
  unfold claimAll
  apply foldlRecOn texts (motive := fun names => ∀ name ∈ names, p name)
  · simp
  · intro names hnames text _ name hname
    rw [mem_append, mem_singleton] at hname
    obtain hname | rfl := hname
    · exact hnames name hname
    · exact h names text

theorem isName_of_mem_claimAll {texts : List String} : ∀ name ∈ claimAll texts, IsName name :=
  forall_mem_claimAll fun _ text => isName_claim (isName_sanitize text)

structure Signature.Named (sig : Signature) : Prop where
  name : IsName sig.name
  params : ∀ param ∈ sig.params, IsName param
  returns : ∀ field ∈ sig.returns, IsName field

theorem Signatures.ofGraph_induction {graph : Graph} {motive : Signatures → Prop}
    (hbindings : motive ⟨[], bindingNames graph⟩)
    (hadd : ∀ signatures, motive signatures → ∀ entry ∈ graph.functions.entries, motive (signatures.add entry.1 entry.2))
    : motive (ofGraph graph) := by
  refine foldlRecOn graph.functions.sorted.entries _ hbindings fun signatures h entry hentry => ?_
  exact hadd signatures h entry (graph.functions.perm_sorted.mem_iff.mp hentry)

theorem Signatures.named_ofGraph (graph : Graph) : ∀ sig ∈ (Signatures.ofGraph graph).list, sig.Named := by
  apply ofGraph_induction (motive := fun signatures : Signatures => ∀ sig ∈ signatures.list, sig.Named)
  · simp
  · rintro signatures hsignatures ⟨key, function⟩ _ sig hmem
    simp only [add, mem_append, mem_singleton] at hmem
    obtain hmem | rfl := hmem
    · exact hsignatures sig hmem
    · exact ⟨isName_claim (isName_sanitize _), isName_of_mem_claimAll, isName_of_mem_claimAll⟩

theorem Signatures.mem_of_get?_eq_some {signatures : Signatures} {key : String}
    {sig : Signature} (h : signatures.get? key = some sig) : sig ∈ signatures.list :=
  mem_of_find?_eq_some h

end NodeScript.Compile
