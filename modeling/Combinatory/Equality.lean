import Combinatory.Identity
import Combinatory.Substitution

/-!
# Equality of terms

Two terms are equal when they coincide up to the names of bound variables, with every name that is
not terminal read as its definition, in place. Two lambdas are equal when they are the same object,
or when their bodies are equal with the same fresh variable in both. Applications must have the same
number of arguments; free variables, combinators, terminal names and literals are equal only to
themselves.
-/

namespace Combinatory

namespace Term

/-- The term with names that are not terminal looked through. -/
def unwrapped : Term → Term
  | named info d => if info.isTerminal then named info d else unwrapped d
  | t => t

mutual

/-- Equality of terms; `under` compares two lambdas, given their binders and bodies. A term is equal
to itself, and then nothing below it is looked at. -/
def equalBy (under : Variable → Term → Variable → Term → Engine Bool) (t u : Term) : Engine Bool :=
  if t = u then pure true
  else
    match t with
    | foreign x =>
      match u.unwrapped with
      | foreign y => pure (x.isSame y)
      | _ => pure false
    | named info d =>
      if info.isTerminal then pure (named info d = u.unwrapped) else equalBy under d u
    | lam v b =>
      match u.unwrapped with
      | lam w c => if lam v b = lam w c then pure true else under v b w c
      | _ => pure false
    | app _ h as =>
      match u.unwrapped with
      | app _ g bs => do
        if as.length ≠ bs.length then return false
        if ← equalBy under h g then equalAllBy under as bs else return false
      | _ => pure false
    | leaf => pure (leaf = u.unwrapped)

/-- Equality, place by place, of two lists of the same length. -/
def equalAllBy (under : Variable → Term → Variable → Term → Engine Bool) :
    List Term → List Term → Engine Bool
  | [], [] => pure true
  | a :: as, b :: bs => do
    if ← equalBy under a b then equalAllBy under as bs else return false
  | _, _ => pure false

end

/-- Equality of the bodies of two lambdas, in which lambdas nest up to `depth` deep. -/
def equalWithin (R : Rules) : Nat → Variable → Term → Variable → Term → Engine Bool
  | 0, _, _, _, _ => throw .tooDeep
  | depth + 1, v, b, w, c => do
    let probe ← Engine.freshVariable "t"
    let b' ← instantiate R v b (var probe)
    let c' ← instantiate R w c (var probe)
    equalBy (equalWithin R depth) b' c'

/-- Equality of the bodies of two lambdas. -/
def equalUnder (R : Rules) (v : Variable) (b : Term) (w : Variable) (c : Term) : Engine Bool :=
  equalWithin R (b.rebuildDepth + 1) v b w c

/-- Equality up to the names of bound variables and the names of terms. -/
def equal (R : Rules) (t u : Term) : Engine Bool := equalBy (equalUnder R) t u

mutual

/-- Whether some part of a term, definitions included, is equal to another term. -/
def contains (R : Rules) (t other : Term) : Engine Bool := do
  if ← equal R t other then return true
  match t with
  | var _ => return false
  | native _ => return false
  | foreign _ => return false
  | named _ d => contains R d other
  | lam _ b => contains R b other
  | app _ h as => if ← contains R h other then return true else anyContains R as other

/-- Whether some part of one of the terms is equal to another term. -/
def anyContains (R : Rules) (ts : List Term) (other : Term) : Engine Bool :=
  match ts with
  | [] => pure false
  | t :: ts => do if ← contains R t other then return true else anyContains R ts other

end

end Term

end Combinatory
