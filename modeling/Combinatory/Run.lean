import Combinatory.Progress

/-!
# Runs and walks

A run takes steps until the term is in normal form or the budget of paid steps is spent. A walk
shows every term on the way. Free steps need no budget; where user hooks could make them endless,
`patience` bounds them.
-/

namespace Combinatory

/-- A term reached by reduction, the steps paid for it, and whether it is known to be final. -/
structure Run where
  term : Term
  steps : Nat
  final : Bool
deriving Repr, Inhabited

namespace Term

/-- How many free steps a run may take, and how often a term may be taken apart, when user hooks can
put new parts in. -/
def patience : Nat := 1000000

/-- Steps until normal form or until the budget is spent; the last term is final when it has no
step left, whatever the budget. -/
def runFrom (R : Rules) (budget : Int) (t : Term) (steps patience : Nat) (s : Store) :
    EStateM.Result Failure Store Run :=
  if (steps : Int) < budget then
    match _h : step R t s with
    | .error e s => .error e s
    | .ok none s => .ok ⟨t, steps, true⟩ s
    | .ok (some r) s =>
      if _hc : r.cost = 0 then
        if _hg : R.goesOn patience t = true then runFrom R budget r.term steps (patience - 1) s
        else .error .tooDeep s
      else runFrom R budget r.term (steps + r.cost) patience s
  else
    match step R t s with
    | .error e s => .error e s
    | .ok r s => .ok ⟨t, steps, r.isNone⟩ s
termination_by ((budget - steps).toNat, patience, pending t)
decreasing_by
  · exact .right _ (Rules.goesOn_lt _hg fun hq => (pending_step t hq _h _hc).2)
  · apply Prod.Lex.left
    omega

/-- Runs the term on arguments. A strict run fails when the budget is spent before a normal form is
reached. -/
def run (R : Rules) (budget : Amount) (t : Term) (args : List Term) (strict : Bool) :
    Engine Run := do
  let start ← apply R t args
  let bound ← Engine.bound budget
  let out ← fun s => runFrom R bound start 0 patience s
  if strict && !out.final then throw (.runOutOfSteps t budget)
  return out

end Term

/-- Where a walk stands: the next term to show, the steps paid so far, and whether the last term has
been shown. -/
structure Walk where
  term : Term
  steps : Nat
  finished : Bool

namespace Walk

/-- Whether a budget, if there is one, allows another term to be shown. -/
def allows (budget : Option Amount) (steps : Nat) : Engine Bool :=
  match budget with
  | none => pure true
  | some n => return (steps : Int) < (← Engine.bound n)

/-- The next term to show. It is final when it has no step left. -/
def next (R : Rules) (budget : Option Amount) (w : Walk) : Engine (Option (Run × Walk)) := do
  if w.finished then return none
  if !(← allows budget w.steps) then return none
  match ← w.term.step R with
  | none => return some (⟨w.term, w.steps, true⟩, { w with finished := true })
  | some r => return some (⟨w.term, w.steps, false⟩, ⟨r.term, w.steps + r.cost, false⟩)

end Walk

namespace Term

/-- The first `limit` terms of a walk, each as `view` shows it. -/
def walk {β : Type} (R : Rules) (budget : Option Amount) (limit : Nat)
    (view : Run → Except Failure β) (t : Term) : Engine (Listing β) :=
  Listing.unfold (Walk.next R budget) view limit ⟨t, 0, false⟩

/-- All terms of a walk within a budget, each as `view` shows it. A term that cannot be shown ends
the walk. -/
def traceFrom {β : Type} (R : Rules) (view : Run → Except Failure β) (budget : Int) (t : Term)
    (steps patience : Nat) (s : Store) : Listing β × Store :=
  if (steps : Int) < budget then
    match _h : step R t s with
    | .error e s => (⟨[], some e⟩, s)
    | .ok none s =>
      match view ⟨t, steps, true⟩ with
      | .error e => (⟨[], some e⟩, s)
      | .ok y => (⟨[y], none⟩, s)
    | .ok (some r) s =>
      match view ⟨t, steps, false⟩ with
      | .error e => (⟨[], some e⟩, s)
      | .ok y =>
        let shown (rest : Listing β × Store) : Listing β × Store :=
          (⟨y :: rest.1.items, rest.1.failure⟩, rest.2)
        if _hc : r.cost = 0 then
          if _hg : R.goesOn patience t = true then
            shown (traceFrom R view budget r.term steps (patience - 1) s)
          else (⟨[y], some .tooDeep⟩, s)
        else shown (traceFrom R view budget r.term (steps + r.cost) patience s)
  else (⟨[], none⟩, s)
termination_by ((budget - steps).toNat, patience, pending t)
decreasing_by
  · exact .right _ (Rules.goesOn_lt _hg fun hq => (pending_step t hq _h _hc).2)
  · apply Prod.Lex.left
    omega

/-- All terms of a walk within a budget, if there is one, each as `view` shows it, and the failure
that cut it short, if one did. -/
def trace {β : Type} (R : Rules) (budget : Option Amount) (view : Run → Except Failure β)
    (t : Term) : Engine (Listing β) := fun s =>
  match Engine.bound (budget.getD (.number Amount.unreachable)) s with
  | .error e s => .ok ⟨[], some e⟩ s
  | .ok bound s =>
    let (l, s) := traceFrom R view bound t 0 patience s
    .ok l s

end Term

end Combinatory
