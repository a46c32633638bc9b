import Combinatory.Term

/-!
# Rendering

The verbose form puts every argument in parentheses: `S(K)(K)(x)`. The terse form leaves out a
separator where two neighbours cannot run together: `S(KI)K`, `x(y z)`, `SKx`. A lambda is written
`x->body` in both, and needs parentheses wherever something follows or precedes it. A literal can be
written on its own, but has no written form inside a term.
-/

namespace Combinatory

namespace Rendering

/-- What a written part looks like to its neighbours. -/
inductive Shape where
  | unknown
  | parens
  | upper
  | lower
deriving DecidableEq, Repr

/-- Which two shapes may stand side by side without a space. -/
def Shape.lumps : Shape → Shape → Bool
  | .parens, .parens => true
  | .parens, .upper => true
  | .upper, .parens => true
  | .upper, .upper => true
  | .upper, .lower => true
  | .lower, .parens => true
  | .unknown, .parens => true
  | _, _ => false

/-- `A` to `Z`. -/
def isCapital (c : Char) : Bool := 'A' ≤ c && c ≤ 'Z'

/-- `a` to `z`. -/
def isSmall (c : Char) : Bool := 'a' ≤ c && c ≤ 'z'

/-- `0` to `9`. -/
def isDigit (c : Char) : Bool := '0' ≤ c && c ≤ '9'

/-- One line break at the very end of a text does not change its shape. -/
def dropFinalBreak (cs : List Char) : List Char :=
  if cs.getLast? = some '\n' then cs.dropLast else cs

/-- The text is a single capital. -/
def isUpper (s : String) : Bool :=
  match dropFinalBreak s.toList with
  | [c] => isCapital c
  | _ => false

/-- The text is a small letter followed by small letters, digits and underscores. -/
def isLower (s : String) : Bool :=
  match dropFinalBreak s.toList with
  | [] => false
  | c :: cs => isSmall c && cs.all fun d => isSmall d || d = '_' || isDigit d

/-- The text is a row of digits. -/
def isNumber (s : String) : Bool :=
  match dropFinalBreak s.toList with
  | [] => false
  | cs => cs.all isDigit

end Rendering

namespace Term

open Rendering

/-- A lambda is the only term that must be parenthesized in front of its arguments. -/
def needsParens : Term → Bool
  | lam _ _ => true
  | _ => false

/-- Whether a term is a variable. -/
def isVar : Term → Bool
  | var _ => true
  | _ => false

/-- The written part of an application and its shape. `text` is the rendering of `t`, and `first`
says that `t` is the head. -/
def part (first : Bool) (t : Term) (text : String) : String × Shape :=
  if isUpper text then (text, .upper)
  else if t.isVar || isLower text then (text, .lower)
  else if isNumber text then (text, .unknown)
  else if !first || t.needsParens then ("(" ++ text ++ ")", .parens)
  else (text, .unknown)

mutual

/-- The text of a term. -/
def render (terse : Bool) : Term → String
  | var v => v.name
  | native c => c.name
  | foreign x => x.literal.text
  | named info _ => info.name
  | lam v b => v.name ++ "->" ++ render terse b
  | app _ h as =>
    let text := render terse h
    if terse then
      let (s, shape) := part true h text
      s ++ renderTerse shape as
    else
      (if h.needsParens then "(" ++ text ++ ")" else text) ++ renderVerbose as

/-- The arguments of an application in terse form, after a part of the given shape. -/
def renderTerse (before : Shape) : List Term → String
  | [] => ""
  | a :: as =>
    let (s, shape) := part false a (render true a)
    (if before.lumps shape then s else " " ++ s) ++ renderTerse shape as

/-- The arguments of an application in verbose form. -/
def renderVerbose : List Term → String
  | [] => ""
  | a :: as => "(" ++ render false a ++ ")" ++ renderVerbose as

end

mutual

/-- The first literal of some kind that is met when a term is written. -/
def strayThat? (p : Literal → Bool) : Term → Option Literal
  | var _ => none
  | native _ => none
  | foreign x => if p x.literal then some x.literal else none
  | named _ _ => none
  | lam _ b => strayThat? p b
  | app _ h as => (strayThat? p h).or (strayAmong p as)

/-- The first literal of some kind that is met when a list of terms is written. -/
def strayAmong (p : Literal → Bool) : List Term → Option Literal
  | [] => none
  | a :: as => (strayThat? p a).or (strayAmong p as)

end

/-- The first literal that is met when a term is written. -/
def stray? (t : Term) : Option Literal := t.strayThat? fun _ => true

/-- The literal inside a term that keeps it from being written. A literal on its own is no
obstacle. -/
def obstacle? : Term → Option Literal
  | foreign _ => none
  | t => t.stray?

/-- A term as a message names it: with its variant and terse rendering. -/
def shown : Term → String
  | foreign x => x.literal.shown
  | t => t.kind ++ "(" ++ Text.quoted (t.render true) ++ ")"

end Term

end Combinatory
