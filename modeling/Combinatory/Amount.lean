import Combinatory.Literal

/-!
# Amounts

A number as a caller gives it. It is a whole number as a rule; a truth value counts as one or zero.
Any other literal is kept as it is, and refused where the number is needed for the first time, if it
is none. An amount keeps its spelling.
-/

namespace Combinatory

namespace Text.Decimal

/-- The least whole number that is not below a decimal. -/
def ceiling (d : Decimal) : Int :=
  let length : Int := (toString d.digits).length + d.exponent
  let magnitude : Nat × Nat :=
    if length > 400 then (Nat.pow 10 400, 1)
    else if length < -400 then (0, 1)
    else Shortest.scale 10 d.digits 1 d.exponent
  let (num, den) := magnitude
  if d.negative then -((num / den : Nat) : Int) else ((num + den - 1) / den : Nat)

/-- The greatest whole number that is not above a decimal. -/
def floor (d : Decimal) : Int := -{ d with negative := !d.negative : Decimal }.ceiling

/-- The number after a decimal: the binary fraction nearest to one more. What lies beyond all
numbers stays there. -/
def next (d : Decimal) : Decimal :=
  match d.rounded? with
  | none => d
  | some d =>
    let unit := min d.exponent 0
    let parts : Int := d.digits * (Nat.pow 10 (d.exponent - unit).toNat : Nat)
    let sum := (if d.negative then -parts else parts) + (Nat.pow 10 (-unit).toNat : Nat)
    let d : Decimal := ⟨sum < 0, sum.natAbs, unit⟩
    d.rounded?.getD d

/-- A decimal and those after it. -/
def countFrom (d : Decimal) : Nat → List Decimal
  | 0 => []
  | n + 1 => d :: countFrom d.next n

end Text.Decimal

/-- A number as a caller gives it. -/
inductive Amount where
  | number (n : Int)
  | truth (b : Bool)
  /-- A literal in the place of a whole number. -/
  | other (l : Literal)
deriving DecidableEq, Repr

namespace Amount

/-- The amount as a literal. -/
def literal : Amount → Literal
  | number n => .int n
  | truth b => .bool b
  | other l => l

/-- A literal as an amount. -/
def ofLiteral : Literal → Amount
  | .int n => number n
  | .bool b => truth b
  | l => other l

/-- The amount that a literal gives, unless it stands for none. -/
def ofLiteral? : Literal → Option Amount
  | .null => none
  | l => some (ofLiteral l)

/-- The amount as it is spelled. -/
def text (a : Amount) : String := a.literal.text

/-- The word for the type of an amount. -/
def typeName (a : Amount) : String := a.literal.typeName

/-- The whole number that an amount counts as. -/
def whole? : Amount → Option Int
  | number n => some n
  | truth b => some (if b then 1 else 0)
  | other _ => none

/-- The whole number above the same natural numbers as the amount, if it can be compared with
numbers at all. -/
def bound? : Amount → Option Int
  | other (.decimal d) => some d.ceiling
  | other .nan => some 0
  | a => a.whole?

/-- More than anything is ever counted to. -/
def unreachable : Int := (Nat.pow 10 400 : Nat)

/-- The whole number that is reached by the same natural numbers as the amount, if it can be
compared with numbers at all. Nothing reaches what is no number. -/
def goal? : Amount → Option Int
  | other .nan => some unreachable
  | a => a.bound?

/-- Whether an amount equals zero. -/
def isZero : Amount → Bool
  | other (.decimal d) => d.digits = 0
  | a => a.whole? = some 0

/-- The numbers counted from an amount on, so many of them, if the amount is a number. -/
def countFrom? (a : Amount) (n : Nat) : Option (List Amount) :=
  match a with
  | other (.decimal d) => some ((d.countFrom n).map fun d => other (.decimal d))
  | other .nan => some (List.replicate n a)
  | _ => a.whole?.map fun m => (List.range n).map fun (k : Nat) => number (m + k)

end Amount

end Combinatory
