import Combinatory.Application

/-!
# Substitution and abstraction

Putting a term in place of a variable rebuilds every application and every lambda in which the
variable occurs. Applications are rebuilt by applying, so an application at the head of another is
merged into it, one level at a time. Lambdas are closed again over a fresh variable, which is itself
a substitution in the new body; so no two lambdas share a binder even when they were built from the
same variable, and the body of an inner lambda is rebuilt more than once. The answer is `none` where
nothing occurs, so that callers keep the old term.
-/

namespace Combinatory

namespace Term

mutual

/-- Puts a value in place of the free occurrences of a variable; `reclose` abstracts the new body of
a lambda over its old binder. A name whose definition mentions the variable gives way to its
definition. The empty literal counts as no value. -/
def replace (R : Rules) (reclose : Variable → Term → Engine Term) (t : Term) (v : Variable)
    (value : Term) : Engine (Option Term) :=
  match t with
  | var w => pure (if w = v && !value.isNull then some value else none)
  | native _ => pure none
  | foreign _ => pure none
  | named _ d => replace R reclose d v value
  | lam w b =>
    if w = v then pure none
    else do
      match ← replace R reclose b v value with
      | some b' => return some (← reclose w b')
      | none => return none
  | app _ h as => do
    let h' ← replace R reclose h v value
    let as' ← replaceAll R reclose as v value
    if h'.isNone && as'.all (·.2.isNone) then return none
    else return some (← apply R (h'.getD h) (as'.map fun p => p.2.getD p.1))

/-- The terms of a list, each with what replacing makes of it. -/
def replaceAll (R : Rules) (reclose : Variable → Term → Engine Term) (ts : List Term) (v : Variable)
    (value : Term) : Engine (List (Term × Option Term)) :=
  match ts with
  | [] => pure []
  | t :: ts => do
    let t' ← replace R reclose t v value
    return (t, t') :: (← replaceAll R reclose ts v value)

end

/-- Where nothing is replaced, the terms stay. -/
theorem map_getD_of_isNone {ps : List (Term × Option Term)}
    (h : ps.all (·.2.isNone) = true) : ps.map (fun p => p.2.getD p.1) = ps.map Prod.fst := by
  refine List.map_congr_left fun p hp => ?_
  rw [Option.isNone_iff_eq_none.mp (List.all_eq_true.mp h p hp), Option.getD_none]

/-- The binder and body of the abstraction of a term over a variable. The binder is fresh. Lambdas
may nest up to `depth` deep in the body. -/
def closeWithin (R : Rules) : Nat → Variable → Term → Engine (Variable × Term)
  | _, _, foreign x => throw (.bodyNotTerm x.literal)
  | 0, v, body => do
    let w ← Engine.freshVariable v.name
    return (w, (← replace R (fun _ _ => throw .tooDeep) body v (var w)).getD body)
  | depth + 1, v, body => do
    let w ← Engine.freshVariable v.name
    let reclose (u : Variable) (b : Term) : Engine Term := do
      let (u', b') ← closeWithin R depth u b
      return lam u' b'
    return (w, (← replace R reclose body v (var w)).getD body)

/-- How deep lambdas may nest while a term is rebuilt. Only user hooks can put in more than the term
holds. -/
def rebuildDepth (t : Term) : Nat := t.lambdaDepth + Rules.hookDepth

/-- The binder and body of the abstraction of a term over a variable. The binder is fresh. -/
def close (R : Rules) (v : Variable) (body : Term) : Engine (Variable × Term) :=
  closeWithin R body.rebuildDepth v body

/-- The abstraction of a term over a variable. -/
def abstract (R : Rules) (v : Variable) (body : Term) : Engine Term := do
  let (w, b) ← close R v body
  return lam w b

/-- The abstraction of a term over several variables, the first outermost. -/
def abstractAll (R : Rules) : List Variable → Term → Engine Term
  | [], body => pure body
  | v :: vs, body => do abstract R v (← abstractAll R vs body)

/-- The term with a value in place of the free occurrences of a variable. -/
def subst (R : Rules) (t : Term) (v : Variable) (value : Term) : Engine (Option Term) :=
  replace R (abstract R) t v value

/-- The body of an abstraction with its variable replaced by an argument. -/
def instantiate (R : Rules) (v : Variable) (body arg : Term) : Engine Term := do
  return (← subst R body v arg).getD body

/-- The term with every name replaced by its definition. Nothing is computed. -/
def expand (R : Rules) : Term → Engine Term
  | named _ d => expand R d
  | lam v b => do abstract R v (← expand R b)
  | app _ h as => do
    let h ← expand R h
    apply R h (← expandAll R as)
  | t => pure t
where
  /-- Each term of a list with every name replaced by its definition. -/
  expandAll (R : Rules) : List Term → Engine (List Term)
    | [] => pure []
    | a :: as => do
      let a ← expand R a
      return a :: (← expandAll R as)

end Term

end Combinatory
