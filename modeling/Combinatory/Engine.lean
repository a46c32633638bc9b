import Combinatory.Failure
import Std.Data.HashSet

/-!
# The engine's store

Operations that mint identities or remember normal forms run over a `Store`. Identities are never
given out twice, and a failed operation keeps what it has minted and remembered so far.
-/

namespace Combinatory

/-- The next identities to give out, and the applications known to be in normal form. -/
structure Store where
  nextVariable : Int := 1
  nextNode : Nat := 0
  settled : Std.HashSet Nat := ∅

instance : Inhabited Store := ⟨⟨1, 0, ∅⟩⟩

/-- A computation over the store that may fail. -/
abbrev Engine := EStateM Failure Store

namespace Engine

/-- A new variable. Its identity is fresh, whatever its name. -/
def freshVariable (name : String) : Engine Variable := fun s =>
  .ok ⟨name, s.nextVariable⟩ { s with nextVariable := s.nextVariable + 1 }

/-- A fresh identity for an application, a name or a user combinator. -/
def freshNode : Engine Nat := fun s =>
  .ok s.nextNode { s with nextNode := s.nextNode + 1 }

/-- Whether an application is known to be in normal form. -/
def isSettled (node : Nat) : Engine Bool := fun s =>
  .ok (s.settled.contains node) s

/-- Remembers that an application is in normal form. -/
def settle (node : Nat) : Engine Unit := fun s =>
  .ok () { s with settled := s.settled.insert node }

/-- The whole number that an amount counts as. -/
def whole (a : Amount) : Engine Int :=
  match a.whole? with
  | some n => pure n
  | none => throw (.notWhole a.typeName)

/-- The whole number above the natural numbers that are less than an amount. -/
def bound (a : Amount) : Engine Int :=
  match a.bound? with
  | some n => pure n
  | none => throw (.notComparable "<" "int" a.typeName)

/-- The whole number that the natural numbers reach when they reach an amount. -/
def goal (a : Amount) : Engine Int :=
  match a.goal? with
  | some n => pure n
  | none => throw (.notComparable ">=" "int" a.typeName)

/-- An application of a head to arguments, as it stands. -/
def node (head : Term) (args : List Term) : Engine Term := fun s =>
  .ok (.app s.nextNode head args) { s with nextNode := s.nextNode + 1 }

/-- A sequence of two computations gives a result exactly when both do, the second over the store
that the first leaves. -/
theorem bind_ok_iff {α β : Type} {x : Engine α} {f : α → Engine β} {s s' : Store} {b : β} :
    (x >>= f) s = .ok b s' ↔ ∃ a s₁, x s = .ok a s₁ ∧ f a s₁ = .ok b s' := by
  change EStateM.bind x f s = _ ↔ _
  unfold EStateM.bind
  cases h : x s with
  | ok a s₁ =>
    constructor
    · intro hf
      exact ⟨a, s₁, rfl, hf⟩
    · rintro ⟨a', s₁', ha, hf⟩
      cases ha
      exact hf
  | error e s₁ => simp

/-- A constant computation gives its constant and leaves the store as it is. -/
theorem pure_ok_iff {α : Type} {a b : α} {s s' : Store} :
    (pure a : Engine α) s = .ok b s' ↔ a = b ∧ s = s' := by
  change EStateM.Result.ok a s = _ ↔ _
  simp

end Engine

/-- The items of a sequence computed one by one, and the failure that ended it, if one did. -/
structure Listing (α : Type) where
  items : List α
  failure : Option Failure

namespace Listing

/-- The number of items that an amount asks for. -/
def limit (a : Amount) : Except Failure Nat :=
  match a.whole? with
  | none => .error (.improperLimit false)
  | some n =>
    if 0 ≤ n && n < 9223372036854775808 then .ok n.toNat
    else .error (.improperLimit (-9223372036854775808 ≤ n && n < -1))

/-- The first `limit` items of the sequence that `next` unfolds from a seed, each as `view` shows
it. An item is shown before the next one is computed, nothing is computed beyond the last item asked
for, and a failure keeps the items before it. -/
def unfold {α β σ : Type} (next : σ → Engine (Option (α × σ))) (view : α → Except Failure β) :
    Nat → σ → Engine (Listing β)
  | 0, _ => pure ⟨[], none⟩
  | limit + 1, seed => fun s =>
    match next seed s with
    | .error e s => .ok ⟨[], some e⟩ s
    | .ok none s => .ok ⟨[], none⟩ s
    | .ok (some (x, seed)) s =>
      match view x with
      | .error e => .ok ⟨[], some e⟩ s
      | .ok y =>
        match unfold next view limit seed s with
        | .error e s => .error e s
        | .ok rest s => .ok ⟨y :: rest.items, rest.failure⟩ s

end Listing

end Combinatory
