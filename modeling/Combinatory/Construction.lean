import Combinatory.Substitution

/-!
# Building with anything

A caller may hand over a literal where a term is expected. Abstraction refuses what is not a
variable or not a term, and says what stood in the way. An application can also be kept as it is;
this is how a literal gets into a term.
-/

namespace Combinatory.Term

/-- The application of a head to at least one argument, kept as it is. -/
def application (head : Term) (args : List Term) : Engine Term :=
  if args.isEmpty then throw (.noArguments head) else Engine.node head args

/-- The abstraction of a body over what should be a variable. -/
def lambda (R : Rules) (binder body : Term) : Engine Term :=
  match binder with
  | var v => abstract R v body
  | other => throw (.binderNotVariable other)

/-- The variables of a list, whose names must differ. -/
def distinctBinders (seen : List String) : List Term → Except Failure (List Variable)
  | [] => .ok []
  | var v :: ts =>
    if seen.contains v.name then .error (.repeatedBinder v.name)
    else do return v :: (← distinctBinders (v.name :: seen) ts)
  | other :: _ => .error (.listedBinderNotVariable other)

/-- The abstraction of a body over what should be a list of variables, the first outermost. -/
def lambdas (R : Rules) (binders : List Term) (body : Term) : Engine Term := do
  if binders.isEmpty then throw .noBinders
  abstractAll R (← MonadExcept.ofExcept (distinctBinders [] binders)) body

/-- The abstraction over binders that were written as a list, or over a single binder. A literal
list is a list of binders too. -/
def lambdaOver (R : Rules) (listed : Bool) (binders : List Term) (body : Term) : Engine Term :=
  match listed, binders with
  | false, [t] =>
    match t.items? with
    | some ts => lambdas R ts body
    | none => lambda R t body
  | _, ts => lambdas R ts body

/-- A term below a number of lambdas of new variables. -/
def nestLambda (R : Rules) (t : Term) : Nat → Engine Term
  | 0 => pure t
  | n + 1 => do
    let v ← Engine.freshVariable "v"
    nestLambda R (← abstract R v t) n

/-- A term with another applied to it a number of times. -/
def nest (R : Rules) (f t : Term) : Nat → Engine Term
  | 0 => pure t
  | n + 1 => do nest R f (← f.apply R [t]) n

end Combinatory.Term
