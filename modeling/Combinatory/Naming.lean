import Combinatory.Canonical

/-!
# Names for terms

A name stands for a term. The search for the canonical form of the term tells how many arguments
the name waits for: a proper term of arity `n` waits for `n`, any other for none. A proper name is
terminal unless the caller says otherwise.
-/

namespace Combinatory

/-- A name as it may be given to an object: a text that is not empty. -/
def properName : Literal → Except Failure String
  | .string s => if s.isEmpty then .error (.improperName (.string s)) else .ok s
  | l => .error (.improperName l)

/-- A new name, what it stands for, and the canonical form found for it. -/
structure Naming where
  info : NameInfo
  definition : Term
  canonical : Option Term

namespace Naming

/-- The named term. -/
def term (n : Naming) : Term := .named n.info n.definition

/-- A name just as the caller describes it. -/
def new (name : Literal) (definition : Term) (arity : Amount) (proper terminal : Literal)
    (canonical : Option Term) (note : Literal) : Engine Naming := do
  match properName name with
  | .error e => throw e
  | .ok name =>
    let ident ← Engine.freshNode
    return ⟨⟨ident, name, arity, proper, terminal, note⟩, definition, canonical⟩

/-- A name for a term. Without a search it waits for no arguments and is not proper. Where nothing
is said about it, a proper name is terminal. -/
def ofTerm (R : Rules) (budget : Budget) (name : Literal) (t : Term) (terminal : Option Literal)
    (canonize : Bool) (note : Literal) : Engine Naming := do
  if canonize then
    let c ← t.canonicalize R budget false
    let (proper, arity) : Bool × Nat := match c with
      | .found form _ => (form.proper, if form.proper then form.arity else 0)
      | .notFound _ _ => (false, 0)
    new name t (.number arity) (.bool proper) (terminal.getD (.bool proper)) c.canonical note
  else new name t (.number 0) (.bool false) (terminal.getD (.bool false)) none note

end Naming

end Combinatory
