import Combinatory.Canonical

/-!
# Light lambda forms

The naive lambda form of a term has every combinator replaced by its canonical form and every name
by its definition. The search for lighter forms works from the leaves up: it simplifies the front of
an application, then its last argument, then tries the canonical form of the whole, and visits each
form that is lighter than all before it. Nothing is computed beyond the last form asked for, or the
first that cannot be shown.
-/

namespace Combinatory

namespace Term

mutual

/-- The term with combinators replaced by canonical forms and names by definitions. -/
def naiveForm (R : Rules) (budget : Budget) : Term → Engine Term
  | app _ h as => do
    let h ← naiveForm R budget h
    apply R h (← naiveForms R budget as)
  | lam v b => do abstract R v (← naiveForm R budget b)
  | named _ d => naiveForm R budget d
  | native c => canonicalOrFail (native c)
  | foreign x => canonicalOrFail (foreign x)
  | var v => canonicalOrFail (var v)
where
  /-- The canonical form of a leaf. -/
  canonicalOrFail (t : Term) : Engine Term := do
    match ← canonical R budget t with
    | some form => return form
    | none => throw (.noCanonicalForm t)

/-- The naive forms of a list of terms. -/
def naiveForms (R : Rules) (budget : Budget) : List Term → Engine (List Term)
  | [] => pure []
  | a :: as => do
    let a ← naiveForm R budget a
    return a :: (← naiveForms R budget as)

end

end Term

/-- Where a form was found. -/
inductive Origin where
  | freeVariables
  | canonical
  | inApplication (inner : Origin)
  | inLambda (inner : Origin)
deriving Repr, DecidableEq

namespace Origin

/-- The remark on where a form was found, the innermost place first. -/
def remark : Origin → String
  | freeVariables => "only free vars"
  | canonical => "canonical"
  | inApplication o => o.remark ++ "(app)"
  | inLambda o => o.remark ++ "(lambda)"

end Origin

/-- A form found by the search, and the steps spent on it. -/
structure Candidate where
  term : Term
  steps : Nat
  origin : Origin
deriving Repr

/-- Why a search stops before its end. -/
inductive Halt where
  | enough
  | failed (cause : Failure)

/-- The state of a search: the store, the forms found so far, as they are shown, and how many more
may be found, if there is a limit. -/
structure SearchState (β : Type) where
  store : Store
  found : Array β
  room : Option Nat

/-- A search over the store that can be stopped from within. -/
abbrev Search (β : Type) := EStateM Halt (SearchState β)

namespace Search

/-- A computation of the engine as part of a search. -/
def lift {α β : Type} (x : Engine α) : Search β α := fun s =>
  let store := s.store
  let s := { s with store := default }
  match x store with
  | .ok a store => .ok a { s with store }
  | .error e store => .error (.failed e) { s with store }

/-- Notes a form as `view` shows it, and stops the search when no more are wanted. A form that
cannot be shown stops it too. -/
def note {β : Type} (view : Candidate → Except Failure β) (c : Candidate) :
    Search β Unit := fun s =>
  match view c with
  | .error e => .error (.failed e) s
  | .ok y =>
    let s := { s with found := s.found.push y, room := s.room.map (· - 1) }
    if s.room = some 0 then .error .enough s else .ok () s

/-- The forms noted by a search, or the first of them if there is a limit. -/
def collect {β : Type} (limit : Option Nat) (x : Search β Unit) : Engine (Listing β) := fun store =>
  if limit = some 0 then .ok ⟨[], none⟩ store
  else
    match x ⟨store, #[], limit⟩ with
    | .ok _ s => .ok ⟨s.found.toList, none⟩ s.store
    | .error .enough s => .ok ⟨s.found.toList, none⟩ s.store
    | .error (.failed e) s => .ok ⟨s.found.toList, some e⟩ s.store

end Search

/-- The weight that the forms of a term must stay below. -/
inductive Ceiling where
  /-- All weights are allowed. -/
  | infinite
  | below (weight : Int)
  /-- A literal in the place of a weight. It is refused as soon as the ceiling matters. -/
  | improper (typeName : String)
deriving DecidableEq, Repr

namespace Ceiling

/-- The ceiling that an amount stands for. -/
def ofAmount (a : Amount) : Ceiling :=
  match a.bound? with
  | some n => below n
  | none => improper a.typeName

/-- Whether a weight is allowed. -/
def admits (weight : Nat) : Ceiling → Except Failure Bool
  | infinite => .ok true
  | below n => .ok ((weight : Int) < n)
  | improper typeName => .error (.notComparable "<" "int" typeName)

/-- The ceiling for a part of a term that weighs one more as a whole. -/
def lowered : Ceiling → Except Failure Ceiling
  | infinite => .ok infinite
  | below n => .ok (below (n - 1))
  | improper typeName => .error (.notSubtractable typeName)

end Ceiling

namespace Search

/-- Whether a term is light enough for a ceiling. -/
def admits {β : Type} (c : Ceiling) (t : Term) : Search β Bool :=
  match c.admits t.weight with
  | .ok b => pure b
  | .error e => throw (.failed e)

/-- The ceiling for a part of a term. -/
def lowered {β : Type} (c : Ceiling) : Search β Ceiling :=
  match c.lowered with
  | .ok c => pure c
  | .error e => throw (.failed e)

end Search

/-- Where the search below a term stands: the weight to beat, the lightest front found for an
application, the steps spent on the forms visited, and what the visitor has made of them. -/
structure Best (σ : Type) where
  ceiling : Ceiling
  front : Term
  steps : Nat
  seen : σ

namespace Best

/-- Visits a candidate if it beats the best so far. -/
def improve {β σ : Type} (b : Best σ) (candidate : Term) (found : Candidate) (origin : Origin)
    (front : Term) (visit : σ → Candidate → Search β σ) : Search β (Best σ) := do
  if ← Search.admits b.ceiling candidate then
    let steps := b.steps + found.steps
    let seen ← visit b.seen ⟨candidate, steps, origin⟩
    return ⟨.below candidate.weight, front, steps, seen⟩
  else return b

end Best

namespace Term

/-- How far below a term the search may take it apart. Only user hooks can put in more than the
term's own `halvings`. -/
def splitDepth (t : Term) : Nat := t.halvings + Rules.hookDepth

/-- Visits forms of a term lighter than a ceiling, each lighter than the one before. `depth` bounds
how far the term is taken apart. -/
def forms {β : Type} (R : Rules) (budget : Budget) : Nat → {σ : Type} → Term → Ceiling → σ →
    (σ → Candidate → Search β σ) → Search β σ
  | 0, _, _, _, _, _ => throw (.failed .tooDeep)
  | depth + 1, σ, t, ceiling, seen, visit => do
    if ← Search.lift t.variablesOnly then
      if ← Search.admits ceiling t then visit seen ⟨t, 0, .freeVariables⟩
      else return seen
    else
      let best : Best σ ← match t with
        | app _ h as => do
          let (front, last) ← Search.lift (split R h as)
          let start : Best σ := ⟨ceiling, front, 0, seen⟩
          let best ← forms R budget depth front (← Search.lowered ceiling) start
            fun best found => do
              let candidate ← Search.lift (apply R found.term [last])
              best.improve candidate found (.inApplication found.origin) found.term visit
          forms R budget depth last (← Search.lowered best.ceiling) best
            fun best found => do
              let candidate ← Search.lift (apply R best.front [found.term])
              best.improve candidate found (.inApplication found.origin) best.front visit
        | lam v b => do
          let start : Best σ := ⟨ceiling, b, 0, seen⟩
          forms R budget depth b (← Search.lowered ceiling) start
            fun best found => do
              let candidate ← Search.lift (abstract R v found.term)
              best.improve candidate found (.inLambda found.origin) best.front visit
        | _ => pure ⟨ceiling, t, 0, seen⟩
      let outcome ← Search.lift (canonicalize R budget t false)
      match outcome.canonical with
      | some form =>
        if ← Search.admits best.ceiling form then
          visit best.seen ⟨form, best.steps + outcome.steps, .canonical⟩
        else return best.seen
      | none => return best.seen

/-- The forms of a term lighter than a ceiling, each lighter than the one before, as many as the
limit allows, each as `view` shows it. -/
def lighterForms {β : Type} (R : Rules) (budget : Budget) (ceiling : Ceiling) (limit : Option Nat)
    (view : Candidate → Except Failure β) (t : Term) : Engine (Listing β) :=
  Search.collect limit fun s =>
    forms R budget t.splitDepth t ceiling () (fun _ c => Search.note view c) s

/-- The lambda forms of a term, beginning with the naive one, as many as the limit allows, each as
`view` shows it. -/
def lambdaForms {β : Type} (R : Rules) (budget : Budget) (limit : Option Nat)
    (view : Candidate → Except Failure β) (t : Term) : Engine (Listing β) :=
  Search.collect limit do
    let naive ← Search.lift (naiveForm R budget t)
    forms R budget naive.splitDepth naive .infinite () fun _ c => Search.note view c

end Term

end Combinatory
