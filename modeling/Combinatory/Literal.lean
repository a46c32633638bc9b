import Combinatory.Text.Quoted
import Combinatory.Text.Shortest

/-!
# Literals

Values that are not terms. They reach the engine where a caller hands over something else than a
term, and are shown in the messages that refuse them. Literals that look alike are not the same
object, unless there is only one copy of them.
-/

namespace Combinatory

/-- A value that is not a term. -/
inductive Literal where
  | null
  | bool (b : Bool)
  | int (n : Int)
  | decimal (d : Text.Decimal)
  /-- The decimal that is no number. -/
  | nan
  | string (s : String)
  | list (items : List Literal)
  | record (fields : List (String × Literal))
deriving Repr

namespace Literal

instance : Inhabited Literal := ⟨null⟩

mutual

/-- Whether two literals look alike in every part. -/
def alike : Literal → Literal → Bool
  | null, null => true
  | bool a, bool b => a = b
  | int m, int n => m = n
  | decimal d, decimal e => d = e
  | nan, nan => true
  | string s, string t => s = t
  | list xs, list ys => allAlike xs ys
  | record xs, record ys => fieldsAlike xs ys
  | _, _ => false

/-- Whether two lists look alike. -/
def allAlike : List Literal → List Literal → Bool
  | [], [] => true
  | x :: xs, y :: ys => alike x y && allAlike xs ys
  | _, _ => false

/-- Whether two lists of fields look alike. -/
def fieldsAlike : List (String × Literal) → List (String × Literal) → Bool
  | [], [] => true
  | (k, x) :: xs, (l, y) :: ys => k = l && alike x y && fieldsAlike xs ys
  | _, _ => false

end

mutual

/-- Literals that look alike are equal. -/
theorem eq_of_alike : ∀ {x y : Literal}, alike x y = true → x = y
  | null, y, h => by cases y <;> simp_all [alike]
  | bool a, y, h => by cases y <;> simp_all [alike]
  | int n, y, h => by cases y <;> simp_all [alike]
  | decimal d, y, h => by cases y <;> simp_all [alike]
  | nan, y, h => by cases y <;> simp_all [alike]
  | string s, y, h => by cases y <;> simp_all [alike]
  | list xs, y, h => by
    cases y <;> simp_all [alike]
    exact eq_of_allAlike h
  | record xs, y, h => by
    cases y <;> simp_all [alike]
    exact eq_of_fieldsAlike h

/-- Lists that look alike are equal. -/
theorem eq_of_allAlike : ∀ {xs ys : List Literal}, allAlike xs ys = true → xs = ys
  | [], ys, h => by cases ys <;> simp_all [allAlike]
  | x :: xs, ys, h => by
    cases ys <;> simp_all [allAlike]
    exact ⟨eq_of_alike h.1, eq_of_allAlike h.2⟩

/-- Lists of fields that look alike are equal. -/
theorem eq_of_fieldsAlike :
    ∀ {xs ys : List (String × Literal)}, fieldsAlike xs ys = true → xs = ys
  | [], ys, h => by cases ys <;> simp_all [fieldsAlike]
  | (k, x) :: xs, [], h => by simp_all [fieldsAlike]
  | (k, x) :: xs, (l, y) :: ys, h => by
    simp only [fieldsAlike, Bool.and_eq_true, decide_eq_true_eq] at h
    rw [h.1.1, eq_of_alike h.1.2, eq_of_fieldsAlike h.2]

end

mutual

/-- A literal looks like itself. -/
theorem alike_self : ∀ x : Literal, alike x x = true
  | null => rfl
  | bool a => by simp [alike]
  | int n => by simp [alike]
  | decimal d => by simp [alike]
  | nan => rfl
  | string s => by simp [alike]
  | list xs => by simp [alike, allAlike_self xs]
  | record xs => by simp [alike, fieldsAlike_self xs]

/-- A list looks like itself. -/
theorem allAlike_self : ∀ xs : List Literal, allAlike xs xs = true
  | [] => rfl
  | x :: xs => by simp [allAlike, alike_self x, allAlike_self xs]

/-- A list of fields looks like itself. -/
theorem fieldsAlike_self : ∀ xs : List (String × Literal), fieldsAlike xs xs = true
  | [] => rfl
  | (k, x) :: xs => by simp [fieldsAlike, alike_self x, fieldsAlike_self xs]

end

instance : DecidableEq Literal := fun x y =>
  decidable_of_iff (alike x y = true) ⟨eq_of_alike, fun h => h ▸ alike_self x⟩

mutual

/-- The literal as it is written in a message. -/
def shown : Literal → String
  | null => "None"
  | bool true => "True"
  | bool false => "False"
  | int n => toString n
  | decimal d => d.text
  | nan => "nan"
  | string s => Text.quoted s
  | list items => "[" ++ ", ".intercalate (shownAll items) ++ "]"
  | record fields => "\x7b" ++ ", ".intercalate (shownFields fields) ++ "\x7d"

/-- Each literal of a list as it is written in a message. -/
def shownAll : List Literal → List String
  | [] => []
  | x :: xs => shown x :: shownAll xs

/-- Each field of a record as it is written in a message. -/
def shownFields : List (String × Literal) → List String
  | [] => []
  | (k, x) :: xs => (Text.quoted k ++ ": " ++ shown x) :: shownFields xs

end

/-- The literal as bare text: a string without quotes. -/
def text : Literal → String
  | string s => s
  | l => l.shown

/-- The word for the type of a literal. -/
def typeName : Literal → String
  | null => "NoneType"
  | bool _ => "bool"
  | int _ => "int"
  | decimal _ => "float"
  | nan => "float"
  | string _ => "str"
  | list _ => "list"
  | record _ => "dict"

/-- Whether a text is at most one character long, and that one below 256. -/
def isTiny (s : String) : Bool :=
  match s.toList with
  | [] => true
  | [c] => c.toNat < 256
  | _ => false

/-- Whether there is only one copy of a literal. This holds of constants, small integers and tiny
texts. -/
def isShared : Literal → Bool
  | null => true
  | bool _ => true
  | int n => -5 ≤ n && n ≤ 256
  | decimal d => d.isInfinite
  | nan => true
  | string s => isTiny s
  | list _ => false
  | record _ => false

/-- Whether a literal is a text. -/
def isText : Literal → Bool
  | string _ => true
  | _ => false

/-- Whether a literal can be counted. Lists and records cannot. -/
def isCountable : Literal → Bool
  | list _ => false
  | record _ => false
  | _ => true

/-- Whether a literal stands for yes: everything does but nulls, zeros and what is empty. -/
def isTrue : Literal → Bool
  | null => false
  | bool b => b
  | int n => n ≠ 0
  | decimal d => d.digits ≠ 0
  | nan => true
  | string s => !s.isEmpty
  | list items => !items.isEmpty
  | record fields => !fields.isEmpty

end Literal

/-- A literal that stands where a term could stand. Its identity tells it from others that look
alike. -/
structure Foreign where
  ident : Nat
  literal : Literal
deriving DecidableEq, Repr, Inhabited

namespace Foreign

/-- Whether two literals are one and the same object. -/
def isSame (x y : Foreign) : Bool :=
  x = y || (x.literal.isShared && x.literal = y.literal)

end Foreign

end Combinatory
