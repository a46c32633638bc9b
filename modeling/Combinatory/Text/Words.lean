import Combinatory.Text.Integer

/-!
# Words of a text

The words of a text are the longest runs of characters between its gaps. Gaps are the blanks of all
scripts and the four separators.
-/

namespace Combinatory.Text

/-- Whether a character divides words. -/
def isGap (c : Char) : Bool := isBlank c || (0x1c ≤ c.toNat && c.toNat ≤ 0x1f)

/-- The words of a row of characters; `word` holds those before it that belong to its first word, in
reverse. -/
def wordsAfter (word : List Char) : List Char → List (List Char)
  | [] => if word.isEmpty then [] else [word.reverse]
  | c :: cs =>
    if isGap c then
      if word.isEmpty then wordsAfter [] cs else word.reverse :: wordsAfter [] cs
    else wordsAfter (c :: word) cs

/-- The words of a text. -/
def words (s : String) : List String := (wordsAfter [] s.toList).map String.ofList

end Combinatory.Text
