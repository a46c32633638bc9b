import Combinatory.LambdaForm

/-!
# Reports

The texts that show a reduction, a canonical form or a search for lambda forms, as they are printed.
A report is printed line by line up to the first line that fails, because a term in it cannot be
written or because the computation that it shows has failed. Nothing is computed before the line
that shows it is due.
-/

namespace Combinatory

/-- What was printed, and the failure that ended it, if one did. -/
structure Printout where
  text : String
  failure : Option Failure
deriving Repr

namespace Report

/-- A line of a report, or the failure to give it. -/
abbrev Line := Except Failure String

/-- The lines before the first that fails, each with its end, and that failure. -/
def printable : List Line → List String × Option Failure
  | [] => ([], none)
  | .error e :: _ => ([], some e)
  | .ok s :: lines =>
    let (texts, failure) := printable lines
    ((s ++ "\n") :: texts, failure)

/-- The lines printed one by one, up to the first that fails. -/
def print (lines : List Line) : Printout :=
  let (texts, failure) := printable lines
  ⟨String.join texts, failure⟩

/-- The line above and below a title. -/
def rule : String := String.ofList (List.replicate 60 '=')

/-- The heading of a report. -/
def heading (title : Line) : List Line := [.ok ("\n" ++ rule), title, .ok rule]

/-- A report whose body is computed only once its heading is printed. -/
def under (title : Line) (body : Engine (List Line)) : Engine Printout := do
  let top := print (heading title)
  if top.failure.isSome then return top
  let rest := print (← body)
  return { rest with text := top.text ++ rest.text }

/-- The word for a truth value. -/
def truth (b : Bool) : String := if b then "True" else "False"

/-- A list of places. -/
def places (ns : List Nat) : String := "[" ++ ", ".intercalate (ns.map toString) ++ "]"

/-- The line that lists the places of some arguments, if there are any. -/
def placesLine (which : String) (ns : List Nat) : List Line :=
  if ns.isEmpty then [] else [.ok ("  " ++ which ++ " arguments: " ++ places ns)]

/-- The beginning of the line of something that took a number of steps. -/
def stepped (steps : Nat) : String := "  [" ++ toString steps ++ "] "

/-- The lines of a listing, the last of which fails if a failure cut it short. -/
def linesOf (l : Listing String) : List Line := l.items.map .ok ++ l.failure.toList.map .error

/-- The text of what must be a term, not even a literal on its own. -/
def termText (terse : Bool) (t : Term) : Line := do (← t.capable "render").written terse

/-- The line of a term on a walk, and whether it is the last one. -/
def walkLine (terse : Bool) (r : Run) : Except Failure (String × Bool) := do
  return (stepped r.steps ++ (← termText terse r.term), r.final)

/-- Every term of a walk, and a remark if it was given up. A term is printed before the walk goes on
from it. -/
def walk (R : Rules) (terse : Bool) (budget : Option Amount) (t : Term) : Engine Printout :=
  under ((termText terse t).map ("Reducing " ++ ·)) do
    let l ← t.trace R budget (walkLine terse)
    let gaveUp : List Line := match l.items.getLast?, budget with
      | some (_, false), some n => [.ok ("  ... gave up after " ++ n.text ++ " steps")]
      | _, _ => []
    return linesOf ⟨l.items.map (·.1), l.failure⟩ ++ gaveUp

/-- What is known of the canonical form of a term. -/
def canonical (terse : Bool) (t : Term) (c : Canonicalization) : Printout :=
  let body : List Line := match c with
    | .notFound none steps => [.ok ("  not found after " ++ toString steps ++ " steps")]
    | .notFound (some guess) steps =>
      [(guess.written terse).map fun s =>
        "  not found after " ++ toString steps ++ " steps (best guess: " ++ s ++ ")"]
    | .found form steps =>
      [(form.term.written terse).map ("  canonical: " ++ ·),
        .ok ("  arity: " ++ toString form.arity ++ "  proper: " ++ truth form.proper
          ++ "  linear: " ++ truth form.linear)]
      ++ placesLine "unused" form.unused ++ placesLine "duplicated" form.repeated
      ++ [.ok ("  steps: " ++ toString steps)]
  print (heading ((t.written terse).map ("Canonical form of " ++ ·)) ++ body)

/-- The line of a form found by a search. -/
def formLine (terse : Bool) (c : Candidate) : Line := do
  return stepped c.steps ++ (← c.term.written terse) ++ "  // " ++ c.origin.remark ++ "; weight "
    ++ toString c.term.weight

/-- The forms found for a term, with their weights, as many as the limit allows. A form is printed
before the search goes on. -/
def lambdaForms (R : Rules) (terse : Bool) (budget : Budget) (limit : Option Amount) (t : Term) :
    Engine Printout :=
  under ((t.written terse).map ("Lambdify " ++ ·)) do
    match limit.mapM Listing.limit with
    | .error e => return [.error e]
    | .ok limit => return linesOf (← t.lambdaForms R budget limit (formLine terse))

/-- The remark on a drawing that was written to a path. -/
def exported (path : String) : String := "Graph exported to " ++ path ++ "\n"

end Report

end Combinatory
