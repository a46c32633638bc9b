import Combinatory.Run
import Combinatory.Splitting
import Combinatory.Symbols

/-!
# Canonical forms

A term is fed fresh probes one at a time, and run after each, until it is headed by a variable. The
number of probes is its arity, and the abstraction of the result over the probes is its canonical
form. Where that fails, an application may still be put together from the canonical forms of its
halves.
-/

namespace Combinatory

/-- The limits of a computation: steps for each run, and arguments to try. -/
structure Budget where
  steps : Amount
  args : Amount
deriving Repr, DecidableEq

/-- What is known of a term that was found to end under probes. -/
structure CanonicalForm where
  /-- The abstraction of the result over the probes. -/
  term : Term
  arity : Nat
  /-- Only probes occur in the result. -/
  proper : Bool
  /-- Proper, and every probe occurs exactly once. -/
  linear : Bool
  /-- The places of the probes that do not occur in the result. -/
  unused : List Nat
  /-- The places of the probes that occur at least twice in the result. -/
  repeated : List Nat
deriving Repr

/-- The outcome of a search for a canonical form. -/
inductive Canonicalization where
  | found (form : CanonicalForm) (steps : Nat)
  | notFound (guess : Option Term) (steps : Nat)
deriving Repr

namespace Canonicalization

/-- The canonical form, or else the best guess. -/
def canonical : Canonicalization → Option Term
  | found form _ => some form.term
  | notFound guess _ => guess

/-- The steps spent by the runs of the search. -/
def steps : Canonicalization → Nat
  | found _ n => n
  | notFound _ n => n

/-- The form, if one was found. -/
def form? : Canonicalization → Option CanonicalForm
  | found form _ => some form
  | notFound _ _ => none

end Canonicalization

namespace Probe

/-- The names of the first probes. -/
def letters : List String := ["a", "b", "c", "d", "e", "f", "g", "h"]

/-- The name of a probe: a letter, or `x` and its number. -/
def name (i : Nat) : String := letters[i]?.getD ("x" ++ toString i)

/-- Whether a number can be an index at all: it fits into 64 bits. -/
def isIndex (i : Int) : Bool := -9223372036854775808 ≤ i && i < 9223372036854775808

/-- The name of a probe given by any amount. A negative number counts the letters from the end, and
a fraction is no position among them. -/
def name? (a : Amount) : Except Failure String :=
  match a, a.whole? with
  | _, some i =>
    if i < 0 && !isIndex i then .error .indexTooLarge
    else if i < -8 then .error (.indexOutOfRange "string")
    else if i < 0 then .ok (name (i + 8).toNat)
    else .ok (name i.toNat)
  | .other (.decimal d), none =>
    if d.floor < 8 then .error (.improperPosition a.typeName) else .ok ("x" ++ d.text)
  | .other .nan, none => .ok ("x" ++ a.text)
  | _, none => .error (.notComparable "<" a.typeName "int")

/-- The place that an index stands for among `size` places; a negative one counts from the end. -/
def place? (size : Nat) (a : Amount) : Except Failure Nat :=
  match a.whole? with
  | none => .error (.improperPlace a.typeName)
  | some i =>
    let j := if i < 0 then i + size else i
    if !isIndex i then .error .indexTooLarge
    else if 0 ≤ j && j < size then .ok j.toNat
    else .error (.indexOutOfRange "list")

/-- A whole number that is zero, or more than one, exactly when an amount is. -/
def count? (a : Amount) : Except Failure Int :=
  if a.isZero then .ok 0
  else
    match a with
    | .other (.decimal d) => .ok (if d.ceiling = 0 then 1 else d.ceiling)
    | .other .nan => .ok 1
    | _ =>
      match a.whole? with
      | some n => .ok n
      | none => .error (.notComparable ">" a.typeName "int")

/-- The counts of `size` places, given as pairs of an index and a count. The last pair for a place
holds, and a place without a pair counts zero. -/
def counts (size : Nat) (pairs : List (Amount × Amount)) : Except Failure (List Int) := do
  let placed ← pairs.mapM fun (i, n) => do return (← place? size i, n)
  (List.range size).mapM fun i => count? ((placed.reverse.lookup i).getD (.number 0))

/-- The places whose count meets a condition, in order. -/
def places (counts : List Int) (condition : Int → Bool) : List Nat :=
  counts.zipIdx.filterMap fun (n, i) => if condition n then some i else none

/-- A place is listed exactly when its count meets the condition. -/
theorem mem_places {counts : List Int} {condition : Int → Bool} {i : Nat} :
    i ∈ places counts condition ↔ ∃ n, counts[i]? = some n ∧ condition n = true := by
  simp only [places, List.mem_filterMap, Prod.exists, List.mem_zipIdx_iff_getElem?]
  constructor
  · rintro ⟨n, j, hn, h⟩
    split at h
    · next hc =>
      cases h
      exact ⟨n, hn, hc⟩
    · cases h
  · rintro ⟨n, hn, hc⟩
    exact ⟨n, i, hn, by simp [hc]⟩

/-- The places of the probes that are absent. -/
def unused (counts : List Int) : List Nat := places counts (· = 0)

/-- The places of the probes that are seen twice or more. -/
def repeated (counts : List Int) : List Nat := places counts (1 < ·)

end Probe

namespace Term

/-- The canonical form given by a result and the probes it was fed. -/
def closeProbes (R : Rules) (probes : List Variable) (result : Term) : Engine CanonicalForm := do
  let symbols ← result.counted
  let counts : List Int := probes.map fun p => symbols.count (.var p)
  let unused := Probe.unused counts
  let repeated := Probe.repeated counts
  let proper := symbols.all fun
    | .var v => probes.contains v
    | _ => false
  return ⟨← abstractAll R probes result, probes.length, proper,
    proper && unused.isEmpty && repeated.isEmpty, unused, repeated⟩

/-- Runs a term on up to `left` more probes after those it was fed already. -/
def searchFrom (R : Rules) (maxSteps : Amount) (t : Term) (probes : List Variable) (spent : Nat) :
    Nat → Engine (Option CanonicalForm × Nat)
  | 0 => return (none, spent)
  | left + 1 => do
    let out ← run R maxSteps t [] false
    let spent := spent + out.steps
    if !out.final then return (none, spent)
    if !out.term.awaitsArgs then return (some (← closeProbes R probes out.term), spent)
    let probe ← Engine.freshVariable (Probe.name probes.length)
    searchFrom R maxSteps (← apply R out.term [var probe]) (probes ++ [probe]) spent left

/-- The canonical form within a budget, and the steps spent. -/
def search (R : Rules) (budget : Budget) (t : Term) : Engine (Option CanonicalForm × Nat) := do
  let args ← Engine.whole budget.args
  searchFrom R budget.steps t [] 0 args.toNat

/-- The canonical form of a term, or else what `guess` makes of it. -/
def best (R : Rules) (budget : Budget) (t : Term) (guess : Engine (Option Term)) :
    Engine (Option Term) := do
  match ← search R budget t with
  | (some form, _) => return some form.term
  | (none, _) => guess

/-- Two halves put back together, if there are both. -/
def join (R : Rules) (front last : Option Term) : Engine (Option Term) := do
  match front, last with
  | some f, some a => return some (← apply R f [a])
  | _, _ => return none

/-- The canonical forms of both halves of an application, put back together. -/
def guess (R : Rules) (budget : Budget) (t : Term) (patience : Nat) : Engine (Option Term) :=
  match t with
  | app _ h as => fun s =>
    match _e : split R h as s with
    | .error e s => .error e s
    | .ok (front, last) s =>
      let halves : Engine (Option Term) :=
        if _hg : R.goesOn patience h = true then do
          let f ← best R budget front (guess R budget front (patience - 1))
          let a ← best R budget last (guess R budget last (patience - 1))
          join R f a
        else throw .tooDeep
      halves s
  | _ => pure none
termination_by (patience, t.size)
decreasing_by
  · exact Rules.goesOn_lt _hg fun hq => (size_split hq _e).1
  · exact Rules.goesOn_lt _hg fun hq => (size_split hq _e).2

/-- A guess at an application looks at both halves. -/
theorem guess_app (R : Rules) (budget : Budget) (n : Nat) (h : Term) (as : List Term)
    (patience : Nat) :
    guess R budget (app n h as) patience = (do
      let (front, last) ← split R h as
      if R.goesOn patience h = true then
        let f ← best R budget front (guess R budget front (patience - 1))
        let a ← best R budget last (guess R budget last (patience - 1))
        join R f a
      else throw .tooDeep) := by
  conv => lhs; unfold guess
  funext s
  change _ = EStateM.bind (split R h as) _ s
  unfold EStateM.bind
  dsimp only
  split
  · next hsplit => rw [hsplit]
  · next front last s₁ hsplit =>
    rw [hsplit]
    dsimp only
    by_cases hg : R.goesOn patience h = true
    · rw [dif_pos hg, if_pos hg]
    · rw [dif_neg hg, if_neg hg]

/-- The arity, properness and linearity of a term. A strict search fails when nothing is found. -/
def canonicalize (R : Rules) (budget : Budget) (t : Term) (strict : Bool) :
    Engine Canonicalization := do
  match ← search R budget t with
  | (some form, steps) => return .found form steps
  | (none, steps) =>
    if strict then throw (.canonicalNotFound t budget.args budget.steps)
    return .notFound (← guess R budget t patience) steps

/-- The canonical form of a term or a guess at it. -/
def canonical (R : Rules) (budget : Budget) (t : Term) : Engine (Option Term) := do
  return (← canonicalize R budget t false).canonical

end Term

end Combinatory
