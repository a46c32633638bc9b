import Combinatory.Rendering
import Mathlib.Data.List.Basic

/-!
# Symbols of a text

The text of a term is a row of symbols: names, parentheses and arrows. Capitals and other signs are
symbols of their own, while small letters, digits and underscores make up words that go on as far as
they can (`tokens_word`). Whether a text counts as a capital, a word or a number decides how it is
written as a part of an application; a text of several symbols counts as none of them
(`length_tokens_le_one`).
-/

namespace Combinatory

namespace Rendering

/-! ### Symbols of a text -/

/-- The characters that a word may go on with. -/
def isInner (c : Char) : Bool := isSmall c || c = '_' || isDigit c

/-- A single capital, or a small letter followed by small letters, digits and underscores. -/
def isIdentifier (s : String) : Bool :=
  match s.toList with
  | [] => false
  | c :: cs => (isCapital c && cs.isEmpty) || (isSmall c && cs.all isInner)

/-- The symbols of a written term. -/
inductive Token where
  | name (s : String)
  | opening
  | closing
  | arrow
deriving DecidableEq, Repr

/-- The symbol of the word that has been read, if any. -/
def flush : List Char → List Token
  | [] => []
  | c :: cs => [.name (String.ofList (c :: cs))]

/-- The symbols of a text after a word that may go on. A dash belongs to the tip of its arrow. -/
def tokens (word : List Char) : List Char → List Token
  | [] => flush word
  | c :: cs =>
    if isInner c then tokens (word ++ [c]) cs
    else flush word ++
      if c = ' ' ∨ c = '-' ∨ c = '\n' then tokens [] cs
      else if c = '(' then .opening :: tokens [] cs
      else if c = ')' then .closing :: tokens [] cs
      else if c = '>' then .arrow :: tokens [] cs
      else .name (String.ofList [c]) :: tokens [] cs

/-- No word goes on with a text. -/
def Parted (rest : List Char) : Prop := ∀ c ∈ rest.head?, isInner c = false

variable {word cs rest : List Char} {c : Char} {s : String}

theorem parted_nil : Parted [] := nofun

theorem parted_cons (hc : isInner c = false) : Parted (c :: cs) := by
  rintro d ⟨⟩
  exact hc

/-- A word ends where the text does not go on with it. -/
theorem tokens_of_parted (h : Parted rest) : tokens word rest = flush word ++ tokens [] rest := by
  cases rest with
  | nil => simp [tokens, flush]
  | cons c cs =>
    have hc := h c rfl
    simp [tokens, flush, hc]

/-- A row of inner characters belongs to the word. -/
theorem tokens_inner_append (h : cs.all isInner = true) :
    tokens word (cs ++ rest) = tokens (word ++ cs) rest := by
  induction cs generalizing word with
  | nil => simp
  | cons c cs ih =>
    obtain ⟨hc, hcs⟩ := Bool.and_eq_true_iff.mp h
    rw [List.cons_append, tokens, if_pos hc, ih hcs, List.append_assoc]
    rfl

/-- A word is one symbol. -/
theorem tokens_word (hne : s.toList ≠ []) (h : s.toList.all isInner = true) (hrest : Parted rest) :
    tokens [] (s.toList ++ rest) = .name s :: tokens [] rest := by
  rw [tokens_inner_append h, List.nil_append, tokens_of_parted hrest]
  obtain ⟨c, cs, heq⟩ := List.exists_cons_of_ne_nil hne
  rw [heq, flush, ← heq, String.ofList_toList]
  rfl

/-- A line break at the end of a text is no symbol. -/
theorem tokens_append_break : tokens word (cs ++ ['\n']) = tokens word cs := by
  induction cs generalizing word with
  | nil => simp [tokens, flush, show isInner '\n' = false from by decide]
  | cons c cs ih => simp only [List.cons_append, tokens, ih]

theorem tokens_dropFinalBreak : tokens word (dropFinalBreak cs) = tokens word cs := by
  unfold dropFinalBreak
  split
  · next h =>
    have hcs : cs = cs.dropLast ++ ['\n'] := by
      rw [← List.dropLast_append_getLast? _ h]
      simp
    conv_rhs => rw [hcs]
    rw [tokens_append_break]
  · rfl

/-- The symbols of a text that is a single one, if it is a capital, a word or a number. -/
theorem length_tokens_le_one
    (h : isUpper s = true ∨ isLower s = true ∨ isNumber s = true) :
    (tokens [] s.toList).length ≤ 1 := by
  have single {cs : List Char} (hcs : cs.all isInner = true) : (tokens [] cs).length ≤ 1 := by
    rw [← List.append_nil cs, tokens_inner_append hcs, List.nil_append, tokens]
    cases cs <;> simp [flush]
  rw [← tokens_dropFinalBreak]
  unfold isUpper isLower isNumber at h
  generalize dropFinalBreak s.toList = cs at h ⊢
  obtain h | h | h := h
  · split at h
    · next c =>
      simp only [tokens]
      split_ifs <;> simp [flush]
    · cases h
  · split at h
    · cases h
    · next c cs =>
      obtain ⟨hc, hcs⟩ := Bool.and_eq_true_iff.mp h
      exact single (by simpa [isInner, hc] using hcs)
  · split at h
    · cases h
    · exact single (List.all_eq_true.mpr fun c hc => by
        simp [isInner, List.all_eq_true.mp h c hc])

/-! ### Names -/

theorem isInner_of_isDigit (h : c.isDigit = true) : isInner c = true := by
  have : isDigit c = true := h
  simp [isInner, this]

/-- A capital is no inner character. -/
theorem isInner_eq_false_of_isCapital (h : isCapital c = true) : isInner c = false := by
  obtain ⟨hA, hZ⟩ : 'A' ≤ c ∧ c ≤ 'Z' := by simpa [isCapital] using h
  have hA : 65 ≤ c.toNat := hA
  have hZ : c.toNat ≤ 90 := hZ
  have small : ¬ 'a' ≤ c := fun h => absurd (show 97 ≤ c.toNat from h) (by omega)
  have digit : ¬ c ≤ '9' := fun h => absurd (show c.toNat ≤ 57 from h) (by omega)
  have line : c ≠ '_' := by
    rintro rfl
    exact absurd hZ (by decide)
  simp [isInner, isSmall, isDigit, small, digit, line]

theorem isInner_of_isSmall (h : isSmall c = true) : isInner c = true := by
  simp [isInner, h]

/-- A text of inner characters does not end with a line break. -/
theorem dropFinalBreak_of_inner (h : cs.all isInner = true) : dropFinalBreak cs = cs := by
  unfold dropFinalBreak
  split
  · next hlast =>
    have := List.all_eq_true.mp h _ (List.mem_of_getLast? hlast)
    exact absurd this (by decide)
  · rfl

/-- A text of inner characters is no capital. -/
theorem isUpper_of_inner (h : s.toList.all isInner = true) : isUpper s = false := by
  unfold isUpper
  rw [dropFinalBreak_of_inner h]
  split
  · next c heq =>
    rw [heq] at h
    by_contra hc
    have := isInner_eq_false_of_isCapital (Bool.not_eq_false _ ▸ hc)
    simp [this] at h
  · rfl

/-- A name is a capital or a word, and a word is written as one. -/
theorem isIdentifier_cases (h : isIdentifier s = true) :
    (isUpper s = true ∧ ∃ c, s.toList = [c] ∧ isCapital c = true) ∨
    (isLower s = true ∧ s.toList ≠ [] ∧ s.toList.all isInner = true) := by
  unfold isIdentifier at h
  split at h
  · cases h
  · next c cs heq =>
    rw [Bool.or_eq_true, Bool.and_eq_true, Bool.and_eq_true] at h
    obtain ⟨hc, hcs⟩ | ⟨hc, hcs⟩ := h
    · obtain rfl := List.isEmpty_iff.mp hcs
      have hbreak : c ≠ '\n' := by
        rintro rfl
        cases hc
      refine .inl ⟨?_, c, heq, hc⟩
      simpa [isUpper, dropFinalBreak, heq, hbreak] using hc
    · have inner : s.toList.all isInner = true := by
        rw [heq, List.all_cons, isInner_of_isSmall hc, hcs]
        rfl
      refine .inr ⟨?_, by simp [heq], inner⟩
      unfold isLower
      rw [dropFinalBreak_of_inner inner, heq]
      exact Bool.and_eq_true_iff.mpr ⟨hc, hcs⟩

/-- A number is written as a row of digits. -/
theorem isNumber_toString (n : Nat) : isNumber (toString n) = true ∧ (toString n).toList ≠ [] ∧
    (toString n).toList.all isInner = true := by
  rw [Nat.toString_eq_ofList_toDigits]
  have digits : (Nat.toDigits 10 n).all isDigit = true := List.all_eq_true.mpr fun c hc =>
    Nat.isDigit_of_mem_toDigits (by decide) (by decide) hc
  have inner : (Nat.toDigits 10 n).all isInner = true := List.all_eq_true.mpr fun c hc =>
    isInner_of_isDigit (List.all_eq_true.mp digits c hc)
  have hne : Nat.toDigits 10 n ≠ [] := Nat.toDigits_ne_nil
  rw [isNumber, String.toList_ofList, dropFinalBreak_of_inner inner]
  refine ⟨?_, hne, inner⟩
  split
  · next heq => exact absurd heq hne
  · exact digits

end Rendering

end Combinatory
