import Combinatory.Canonical

/-!
# Bracket abstraction

Lambdas are compiled to `S`, `K` and `I`. With the body of `λ v` compiled first, the rules are:

* `v` itself gives `I`;
* a body that does not mention `v` gives `K body`;
* `front v`, where `front` does not mention `v`, gives `front`;
* `front last` gives `S [λ v, front] [λ v, last]`.

Other combinators are replaced by their canonical forms and compiled in turn; one met again inside
its own expansion stays. Eliminations are counted, and when the budget is spent the lambdas that
remain are left in place.
-/

namespace Combinatory

/-- A compiled term, and what is left of a budget. -/
structure Compiled (α : Type) (budget : Nat) where
  value : α
  left : Nat
  left_le : left ≤ budget

namespace Compiled

/-- A value that cost nothing. -/
def free {α : Type} {budget : Nat} (value : α) : Compiled α budget := ⟨value, budget, Nat.le_refl _⟩

/-- The same value against a budget that was larger at first. -/
def widen {α : Type} {small large : Nat} (c : Compiled α small) (h : small ≤ large) :
    Compiled α large :=
  ⟨c.value, c.left, Nat.le_trans c.left_le h⟩

end Compiled

/-- A call spends nothing more than its caller had, and looks at a smaller term. -/
private theorem lex_of_le {a b x y i j : Nat} (hab : a ≤ b) (hxy : x < y) :
    Prod.Lex (· < ·) (Prod.Lex (· < ·) (· < ·)) (a, x, i) (b, y, j) := by
  rcases Nat.lt_or_eq_of_le hab with h | h
  · exact Prod.Lex.left _ _ h
  · exact h ▸ Prod.Lex.right _ (Prod.Lex.left _ _ hxy)

namespace Native

/-- The combinators that compilation leaves alone. -/
def isBase : Native → Bool
  | I => true
  | K => true
  | S => true
  | _ => false

end Native

namespace Term

/-- Whether the last part of a body is a variable that the front part does not mention. -/
def endsIn (v : Variable) (front : Term) : Term → Engine Bool
  | var w => do if w = v then return !(← mentions v front) else return false
  | _ => return false

mutual

/-- Compiles a term; `expanding` holds the combinators whose expansion is being compiled. -/
def compile (R : Rules) (limits : Budget) (expanding : List Native) (budget : Nat) (t : Term) :
    Engine (Compiled Term budget) := do
  match t with
  | var _ => return .free t
  | foreign _ => return .free t
  | native c =>
    if c.isBase || expanding.contains c then return .free t
    else
      match h : budget with
      | 0 => return .free t
      | left + 1 =>
        match ← canonical R limits (native c) with
        | none => return .free t
        | some form =>
          let out ← compile R limits (c :: expanding) left form
          return out.widen (h ▸ Nat.le_succ left)
  | named _ d => compile R limits expanding budget d
  | lam v b => eliminate R limits expanding budget v b
  | app _ h as =>
    if budget = 0 then return .free t
    else
      let h ← compile R limits expanding budget h
      let as ← compileAll R limits expanding h.left as
      return ⟨← apply R h.value as.value, as.left, Nat.le_trans as.left_le h.left_le⟩
termination_by (budget, t.size, 0)
decreasing_by
  · exact Prod.Lex.left _ _ (Nat.lt_succ_self _)
  · exact lex_of_le (Nat.le_refl _) (by simp [size])
  · exact lex_of_le (Nat.le_refl _) (by simp [size])
  · have := sizeAll_pos as
    exact lex_of_le (Nat.le_refl _) (by simp only [size]; omega)
  · rename_i head _
    have := head.size_pos
    exact lex_of_le h.left_le (by simp only [size]; omega)

/-- Compiles the terms of a list from left to right. -/
def compileAll (R : Rules) (limits : Budget) (expanding : List Native) (budget : Nat)
    (ts : List Term) : Engine (Compiled (List Term) budget) := do
  match ts with
  | [] => return .free []
  | t :: ts =>
    let t ← compile R limits expanding budget t
    let ts ← compileAll R limits expanding t.left ts
    return ⟨t.value :: ts.value, ts.left, Nat.le_trans ts.left_le t.left_le⟩
termination_by (budget, sizeAll ts, 1)
decreasing_by
  · have := sizeAll_pos ts
    exact lex_of_le (Nat.le_refl _) (by simp only [sizeAll]; omega)
  · rename_i first
    have := first.size_pos
    exact lex_of_le t.left_le (by simp only [sizeAll]; omega)

/-- Compiles the abstraction of a body over a variable. -/
def eliminate (R : Rules) (limits : Budget) (expanding : List Native) (budget : Nat) (v : Variable)
    (body : Term) : Engine (Compiled Term budget) := do
  let body ← compile R limits expanding budget body
  match h : body.left with
  | 0 => return ⟨← abstract R v body.value, 0, Nat.zero_le _⟩
  | left + 1 =>
    have hl : left < budget := Nat.lt_of_lt_of_le (h ▸ Nat.lt_succ_self left) body.left_le
    match body.value with
    | var w =>
      if w = v then return ⟨native .I, left, Nat.le_of_lt hl⟩
      else return ⟨← apply R (native .K) [body.value], left, Nat.le_of_lt hl⟩
    | app _ hd as =>
      if !(← mentions v body.value) then
        return ⟨← apply R (native .K) [body.value], left, Nat.le_of_lt hl⟩
      else
        let (front, last) ← split R hd as
        if ← endsIn v front last then
          return (← compile R limits expanding left front).widen (Nat.le_of_lt hl)
        else
          let (v₁, front) ← close R v front
          let front ← eliminate R limits expanding left v₁ front
          let (v₂, last) ← close R v last
          let last ← eliminate R limits expanding front.left v₂ last
          return ⟨← apply R (native .S) [front.value, last.value], last.left,
            Nat.le_trans last.left_le (Nat.le_trans front.left_le (Nat.le_of_lt hl))⟩
    | rest =>
      if !(← mentions v rest) then return ⟨← apply R (native .K) [rest], left, Nat.le_of_lt hl⟩
      else return ⟨← abstract R v rest, left, Nat.le_of_lt hl⟩
termination_by (budget, body.size, 2)
decreasing_by
  · exact Prod.Lex.right _ (Prod.Lex.right _ (by decide))
  · exact Prod.Lex.left _ _ hl
  · exact Prod.Lex.left _ _ hl
  · exact Prod.Lex.left _ _ (Nat.lt_of_le_of_lt front.left_le hl)

end

/-- Whether the compilation of a term looks at its budget at all. -/
def isBudgeted : Term → Bool
  | var _ => false
  | foreign _ => false
  | native c => !c.isBase
  | named _ d => isBudgeted d
  | lam _ _ => true
  | app _ _ _ => true

/-- The compiled term, and the number of eliminations, of which there are at most `budget`. -/
def compileWithin (R : Rules) (limits : Budget) (budget : Amount) (t : Term) :
    Engine (Term × Nat) := do
  let allowed := (← if t.isBudgeted then Engine.goal budget else pure 0).toNat
  let out ← compile R limits [] allowed t
  return (out.value, allowed - out.left)

/-- The term compiled to `S`, `K`, `I` and free variables with at most `maxSteps` eliminations. -/
def bracketForm (R : Rules) (limits : Budget) (maxSteps : Amount) (t : Term) : Engine Term := do
  return (← compileWithin R limits maxSteps t).1

end Term

/-- Where a gradual compilation stands. -/
structure Compilation where
  term : Term
  steps : Nat
  finished : Bool

namespace Compilation

/-- The next snapshot; it is final when nothing was left to eliminate. Up to `perStep` eliminations
lie between one snapshot and the next. -/
def next (R : Rules) (limits : Budget) (perStep : Amount) (c : Compilation) :
    Engine (Option (Run × Compilation)) := do
  if c.finished then return none
  let (compiled, spent) ← c.term.compileWithin R limits perStep
  return some (⟨c.term, c.steps, spent = 0⟩, ⟨compiled, c.steps + spent, spent = 0⟩)

end Compilation

namespace Term

/-- The first `limit` snapshots of a gradual compilation, each as `view` shows it. -/
def bracketForms {β : Type} (R : Rules) (limits : Budget) (perStep : Amount) (limit : Nat)
    (view : Run → Except Failure β) (t : Term) : Engine (Listing β) :=
  Listing.unfold (Compilation.next R limits perStep) view limit ⟨t, 0, false⟩

end Term

end Combinatory
