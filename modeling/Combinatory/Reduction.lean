import Combinatory.Substitution

/-!
# Reduction

One step contracts the leftmost outermost redex: the rule of the head if it has enough arguments,
else a step of the head, else a step of the first argument that has one. A bare name that waits for
nothing is replaced by its definition, which is a change but costs no step. Bodies of lambdas are
left alone. Applications found to be in normal form are remembered and not looked into again. A rule
may drop a literal that it is given, but must not end with one.
-/

namespace Combinatory

namespace Native

/-- `f` applied `n` times to `x`, one application around the other. -/
def iterate (R : Rules) (f x : Term) : Nat → Engine Term
  | 0 => pure x
  | n + 1 => do iterate R f (← Term.apply R f [x]) n

/-- Fails at the first literal among the parts that a rule is about to apply. -/
def demandTerms (parts : List Term) : Engine Unit :=
  match Term.firstLiteral parts with
  | some l => throw (.notCapable l.typeName "apply")
  | none => pure ()

/-- The result of a combinator on its arguments, or `none` if they are too few. -/
def contract (R : Rules) (c : Native) (args : List Term) : Engine (Option Term) :=
  match c, args with
  | I, x :: _ => return some x
  | K, x :: _ :: _ => return some x
  | S, x :: y :: z :: _ => do
    demandTerms [x, y]
    let yz ← y.apply R [z]
    return some (← x.apply R [z, yz])
  | B, x :: y :: z :: _ => do
    demandTerms [x, y]
    let yz ← y.apply R [z]
    return some (← x.apply R [yz])
  | C, x :: y :: z :: _ => do
    demandTerms [x]
    return some (← x.apply R [z, y])
  | W, x :: y :: _ => do
    demandTerms [x]
    return some (← x.apply R [y, y])
  | successor, n :: f :: x :: _ => do
    demandTerms [f, n]
    let nfx ← n.apply R [f, x]
    return some (← f.apply R [nfx])
  | numeral n, f :: x :: _ => return some (← iterate R f x n)
  | toNumeral, x :: _ => return some (← R.evaluate x)
  | lambdaMark, x :: _ => return some x
  | user u, args =>
    if args.length < u.arity then return none
    else return some (← R.contract u (args.take u.arity))
  | _, _ => return none

end Native

namespace Term

/-- Fires the rule of a head on its arguments, or answers `none` if it has none. -/
def reduce (R : Rules) (head : Term) (args : List Term) : Engine (Option Term) :=
  match head with
  | native c => do
    match ← c.contract R args with
    | some (foreign x) => throw (.ruleGaveNonTerm c.name x.literal)
    | some t => return some (← apply R t (args.drop c.arity))
    | none => return none
  | lam v b =>
    match args with
    | [] => return none
    | a :: as => do return some (← apply R (← instantiate R v b a) as)
  | named info d => do
    if (args.length : Int) < (← Engine.bound info.arity) then return none
    else return some (← apply R d args)
  | _ => return none

/-- Whether a term is an application known to be in normal form. -/
def isSettled : Term → Engine Bool
  | app n _ _ => Engine.isSettled n
  | _ => pure false

/-- The term after a step, and what the step cost. -/
structure Stepped where
  term : Term
  cost : Nat
deriving Repr

/-- A list in which one term has taken a step, and what the step cost. -/
structure SteppedAmong where
  terms : List Term
  cost : Nat
deriving Repr

mutual

/-- One step, or `none` if the term is in normal form. -/
def step (R : Rules) : Term → Engine (Option Stepped)
  | named info d => pure (if info.isOpen then some ⟨d, 0⟩ else none)
  | app n h as => do
    if ← Engine.isSettled n then return none
    match ← reduce R h as with
    | some t => return some ⟨t, 1⟩
    | none =>
      match ← step R h with
      | some h' => return some ⟨← apply R h'.term as, h'.cost⟩
      | none =>
        match ← stepAmong R as with
        | some as' => return some ⟨← apply R h as'.terms, as'.cost⟩
        | none =>
          Engine.settle n
          return none
  | _ => pure none

/-- One step of the first term that has one. -/
def stepAmong (R : Rules) : List Term → Engine (Option SteppedAmong)
  | [] => pure none
  | a :: as => do
    match ← step R a with
    | some a' => return some ⟨a'.term :: as, a'.cost⟩
    | none =>
      match ← stepAmong R as with
      | some as' => return some ⟨a :: as'.terms, as'.cost⟩
      | none => return none

end

end Term

end Combinatory
