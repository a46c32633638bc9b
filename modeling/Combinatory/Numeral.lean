import Combinatory.Run

/-!
# Numerals

A term stands for the number that its run on the successor and zero ends with. The successor turns
a numeral into the next one while it is applied, so a term that is a numeral collapses to a literal.
-/

namespace Combinatory

namespace Numeral

/-- The steps allowed where the caller sets no budget. -/
def defaultSteps : Amount := .number 1000000

end Numeral

namespace Term

/-- The number, if the term is the literal of one. -/
def numeral? : Term → Option Nat
  | native (.numeral n) => some n
  | _ => none

/-- The number that a term stands for. A budget spent anywhere below is reported as this term's. -/
def toNumber (R : Rules) (maxSteps : Option Amount) (t : Term) : Engine Nat := do
  let budget := maxSteps.getD Numeral.defaultSteps
  let out ← fun s =>
    match run R budget t [native .successor, numeral 0] true s with
    | .ok out s => .ok out s
    | .error e s => .error (if e.isBudget then .numeralOutOfSteps t budget else e) s
  match out.term.numeral? with
  | some n => return n
  | none => throw (.notANumeral t)

end Term

/-- The rules of a world without user combinators, in which terms are evaluated to numerals up to a
depth of nested evaluations. -/
def Rules.plain : Nat → Rules
  | 0 =>
    { replacement := fun _ _ => pure none
      contract := fun _ _ => throw .tooDeep
      evaluate := fun _ => throw .tooDeep
      hookless := true
      replacement_none := fun _ _ _ => rfl }
  | depth + 1 =>
    { replacement := fun _ _ => pure none
      contract := fun _ _ => throw .tooDeep
      evaluate := fun t => do return .numeral (← t.toNumber (Rules.plain depth) none)
      hookless := true
      replacement_none := fun _ _ _ => rfl }

end Combinatory
