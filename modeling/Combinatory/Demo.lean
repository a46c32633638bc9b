import Combinatory.Bracket
import Combinatory.Dot
import Combinatory.Expression
import Combinatory.LambdaForm
import Combinatory.Numeral
import Combinatory.Report
import Combinatory.Session

/-!
# Demonstrations

Short tours of the engine. Each gives a result, and a text to print unless it is to be quiet.
-/

namespace Combinatory

/-- The demonstrations. -/
inductive Demo where
  | reduce
  | canonize
  | bracket
  | lambdify
  | numerals
deriving DecidableEq, Repr

namespace Demo

/-- All demonstrations. -/
def all : List Demo := [reduce, canonize, bracket, lambdify, numerals]

/-- The name of a demonstration. -/
def name : Demo → String
  | reduce => "reduce"
  | canonize => "canonize"
  | bracket => "bracket"
  | lambdify => "lambdify"
  | numerals => "numerals"

/-- The demonstration of a name. -/
def ofName? (s : String) : Option Demo := all.find? (·.name = s)

/-- What a demonstration ends with. -/
inductive Result where
  | term (t : Term)
  | forms (cs : List Canonicalization)
  | number (n : Nat)

/-- A result and the text printed on the way. -/
structure Outcome where
  text : String
  result : Result

/-- The text of a report that was printed to its end. -/
def wholeText (p : Printout) : Engine String :=
  match p.failure with
  | some e => throw e
  | none => pure p.text

/-- The text of a walk of at most a hundred steps. -/
def walkText (R : Rules) (s : Settings) (t : Term) : Engine String := do
  wholeText (← Report.walk R s.isTerse (some (.number 100)) t)

/-- The text of a search for at most thirty lambda forms. -/
def lambdaText (R : Rules) (s : Settings) (t : Term) : Engine String := do
  wholeText (← Report.lambdaForms R s.isTerse (s.budget none none) (some (.number 30)) t)

/-- Reduces `S K K x`, and shows the numeral three at work. -/
def runReduce (R : Rules) (s : Settings) (quiet : Bool) : Engine Outcome := do
  let x ← Engine.freshVariable "x"
  let y ← Engine.freshVariable "y"
  let t ← Term.apply R (.native .S) [.native .K, .native .K, .var x]
  let text ← if quiet then pure ""
    else do
      let first ← walkText R s t
      let three ← Term.apply R (.numeral 3) [.var x, .var y]
      pure (first ++ (← walkText R s three))
  return ⟨text, .term (← t.run R s.maxSteps [] false).term⟩

/-- Canonical forms of six terms. -/
def runCanonize (R : Rules) (s : Settings) (quiet : Bool) : Engine Outcome := do
  let x ← Engine.freshVariable "x"
  let y ← Engine.freshVariable "y"
  let flip ← Term.apply R (.native .C) [.native .I]
  let twice ← Term.apply R (.native .S) [.native .I, .native .I]
  let endless ← Term.apply R (.native .S) [.native .I, .native .I, twice]
  let swapped ← Term.abstractAll R [x, y] (← Term.apply R (.var y) [.var x, .var x])
  let cases := [.native .I, .native .K, .native .S, flip, endless, swapped]
  let outcomes ← cases.mapM fun t => do return (t, ← t.canonicalize R (s.budget none none) false)
  let texts ← if quiet then pure []
    else outcomes.mapM fun (t, c) => wholeText (Report.canonical s.isTerse t c)
  return ⟨String.join texts, .forms (outcomes.map (·.2))⟩

/-- The text of a term that may be missing. -/
def optionalText (terse : Bool) : Option Term → String
  | some t => t.render terse
  | none => "None"

/-- Compiles an abstraction, and the canonical forms of `B`, `C` and `W`. -/
def runBracket (R : Rules) (s : Settings) (quiet : Bool) : Engine Outcome := do
  let limits := s.budget none none
  let x ← Engine.freshVariable "x"
  let y ← Engine.freshVariable "y"
  let t ← Term.abstractAll R [x, y] (← Term.apply R (.var y) [.var x])
  let out ← t.bracketForm R limits s.maxSteps
  if quiet then return ⟨"", .term out⟩
  let lines ← [Native.B, .C, .W].mapM fun c => do
    let form ← Term.canonical R limits (.native c)
    let compiled ← form.mapM (·.bracketForm R limits s.maxSteps)
    return c.name ++ " = " ++ optionalText s.isTerse form ++ "  =>  "
      ++ optionalText s.isTerse compiled ++ "\n"
  let first := t.render s.isTerse ++ "  =>  " ++ out.render s.isTerse ++ "\n"
  return ⟨first ++ String.join lines, .term out⟩

/-- Lambda forms of two terms. -/
def runLambdify (R : Rules) (s : Settings) (quiet : Bool) : Engine Outcome := do
  let twice ← Term.apply R (.native .S) [.native .I, .native .I]
  let named ← Naming.ofTerm R (s.budget none none) (.string "M") twice none true .null
  let flip ← Term.apply R (.native .C) [.native .I]
  let t ← Term.apply R (.native .B) [.native .C, flip]
  let text ← if quiet then pure ""
    else do
      let first ← lambdaText R s t
      pure (first ++ (← lambdaText R s (← named.term.apply R [named.term])))
  return ⟨text, .term t⟩

/-- Two to the power of three, as numerals. -/
def runNumerals (R : Rules) (quiet : Bool) : Engine Outcome := do
  let n ← (← Term.apply R (.numeral 3) [.numeral 2]).toNumber R none
  return ⟨if quiet then "" else "3 2 = " ++ toString n ++ "\n", .number n⟩

/-- Runs a demonstration. -/
def run (R : Rules) (s : Settings) (quiet : Bool) : Demo → Engine Outcome
  | reduce => runReduce R s quiet
  | canonize => runCanonize R s quiet
  | bracket => runBracket R s quiet
  | lambdify => runLambdify R s quiet
  | numerals => runNumerals R quiet

end Demo

end Combinatory
