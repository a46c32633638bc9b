import Combinatory.Construction
import Combinatory.Naming

/-!
# Expressions

An expression describes how a term is put together: names are looked up in the scope, then among
the declared names, then among the standard combinators. Parts are built from left to right, before
the whole, and the first failure ends the construction.
-/

namespace Combinatory

/-- A description of a term. -/
inductive Expr where
  | name (n : String)
  /-- The numeral of a number; anything else is refused. -/
  | numeral (given : Literal)
  | literal (x : Foreign)
  /-- A head applied to arguments. -/
  | apply (head : Expr) (args : List Expr)
  /-- A head and arguments, kept as they are. -/
  | application (head : Expr) (args : List Expr)
  /-- An abstraction over new variables; `listed` tells a list of one from a single variable. -/
  | lambda (listed : Bool) (names : List Literal) (body : Expr)
  /-- An abstraction over existing variables. -/
  | abstraction (listed : Bool) (binders : List Expr) (body : Expr)
  /-- The abstraction over one existing variable. -/
  | close (binder : Expr) (body : Expr)
  /-- `x` with `f` applied to it `n` times. -/
  | nest (n : Amount) (f x : Expr)
  /-- `x` below `n` lambdas of new variables. -/
  | nestLambda (n : Amount) (x : Expr)
  /-- `f` applied to `n` times `x`. -/
  | chain (n : Amount) (f x : Expr)
deriving Repr

instance : Inhabited Expr := ⟨.literal default⟩

/-- The names that every expression may use. -/
def standardNames : List (String × Term) :=
  Native.standard.map fun c => (c.name, .native c)

/-- A new variable of a given name. -/
def newVariable (name : Literal) : Engine Variable :=
  match properName name with
  | .ok s => Engine.freshVariable s
  | .error e => throw e

/-- The numeral of a given number. -/
def numeralOf : Literal → Engine Term
  | .int (.ofNat n) => pure (.numeral n)
  | l => throw (.improperNumeral l)

namespace Expr

/-- The term of a name. -/
def lookup (scope names : List (String × Term)) (n : String) : Engine Term :=
  match ((scope.lookup n).or (names.lookup n)).or (standardNames.lookup n) with
  | some t => pure t
  | none => throw (.unknownName n)

mutual

/-- The term that an expression describes, given the terms in scope and the declared names. -/
def build (R : Rules) (names scope : List (String × Term)) : Expr → Engine Term
  | name n => lookup scope names n
  | numeral l => numeralOf l
  | literal x => pure (.foreign x)
  | apply head args => do
    let head ← build R names scope head
    head.apply R (← buildAll R names scope args)
  | application head args => do
    let head ← build R names scope head
    head.application (← buildAll R names scope args)
  | lambda listed vs body => do
    let vs ← vs.mapM newVariable
    let inner := (vs.map fun v => (v.name, Term.var v)).reverse ++ scope
    let body ← build R names inner body
    Term.lambdaOver R listed (vs.map .var) body
  | abstraction listed binders body => do
    let binders ← buildAll R names scope binders
    let body ← build R names scope body
    Term.lambdaOver R listed binders body
  | close binder body => do
    let binder ← build R names scope binder
    binder.lambda R (← build R names scope body)
  | nest n f x => do
    let f ← build R names scope f
    let x ← build R names scope x
    f.nest R x (← Engine.whole n).toNat
  | nestLambda n x => do
    let x ← build R names scope x
    x.nestLambda R (← Engine.whole n).toNat
  | chain n f x => do
    let f ← build R names scope f
    let x ← build R names scope x
    match n.whole? with
    | some n => f.apply R (List.replicate n.toNat x)
    | none => throw (.notRepeatable n.typeName)

/-- The terms that a list of expressions describes, from left to right. -/
def buildAll (R : Rules) (names scope : List (String × Term)) : List Expr → Engine (List Term)
  | [] => pure []
  | e :: es => do
    let t ← build R names scope e
    return t :: (← buildAll R names scope es)

end

end Expr

end Combinatory
