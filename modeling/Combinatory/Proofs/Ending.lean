import Combinatory.Proofs.Guarantee

/-!
# Computations that end as they should

Over any store, such a computation ends with a result that meets a condition, or it fails for one of
the causes that are to be expected. Neither the condition nor the causes depend on the store.
-/

namespace Combinatory

namespace Engine

variable {α β : Type}

/-- Whatever the store, a computation has a result that meets a condition, or it fails for one of
some causes. -/
def Ends (x : Engine α) (E : Failure → Prop) (Q : α → Prop) : Prop :=
  ∀ s, match x s with
    | .ok a _ => Q a
    | .error e _ => E e

namespace Ends

variable {x : Engine α} {E E' : Failure → Prop} {P Q Q' : α → Prop} {s s' : Store}

/-- A result meets the condition. -/
theorem of_ok (hx : Ends x E Q) {a : α} (h : x s = .ok a s') : Q a := by
  have := hx s
  rwa [h] at this

/-- A failure has one of the causes. -/
theorem of_error (hx : Ends x E Q) {e : Failure} (h : x s = .error e s') : E e := by
  have := hx s
  rwa [h] at this

/-- Without any cause to fail there is a result. -/
theorem exists_ok (hx : Ends x E Q) (hE : ∀ e, ¬ E e) (s : Store) :
    ∃ a s', x s = .ok a s' ∧ Q a := by
  cases h : x s with
  | ok a s' => exact ⟨a, s', rfl, hx.of_ok h⟩
  | error e s' => exact absurd (hx.of_error h) (hE e)

/-- There may be more causes, and a weaker condition. -/
theorem mono (hx : Ends x E Q) (hE : ∀ e, E e → E' e) (hQ : ∀ a, Q a → Q' a) : Ends x E' Q' := by
  intro s
  cases h : x s with
  | ok a s' => exact hQ a (hx.of_ok h)
  | error e s' => exact hE e (hx.of_error h)

/-- A weaker condition is met too. -/
theorem imp (hx : Ends x E Q) (hQ : ∀ a, Q a → Q' a) : Ends x E Q' :=
  hx.mono (fun _ he => he) hQ

/-- There may be more causes. -/
theorem widen (hx : Ends x E Q) (hE : ∀ e, E e → E' e) : Ends x E' Q :=
  hx.mono hE fun _ ha => ha

/-- A result is the one of the computation. -/
theorem traced (hx : Ends x E Q) : Ends x E fun a => Q a ∧ ∃ s s', x s = .ok a s' := by
  intro s
  cases h : x s with
  | ok a s' => exact ⟨hx.of_ok h, s, s', h⟩
  | error e s' => exact hx.of_error h

/-- What is met twice is met together. -/
protected theorem and (hx : Ends x E P) (hq : Ends x E' Q) : Ends x E fun a => P a ∧ Q a :=
  hx.traced.imp fun _ ⟨hp, _, _, h⟩ => ⟨hp, hq.of_ok h⟩

/-- A constant is its result. -/
protected theorem pure {a : α} (h : Q a) : Ends (Pure.pure a) E Q := fun _ => h

/-- A failure is one for its cause. -/
protected theorem throw {e : Failure} (h : E e) : Ends (MonadExcept.throw e) E Q := fun _ => h

/-- A sequence ends as its second part does after the first. -/
protected theorem bind {f : α → Engine β} {Q : β → Prop} (hx : Ends x E P)
    (hf : ∀ a, P a → Ends (f a) E Q) : Ends (x >>= f) E Q := by
  intro s
  cases h : x s with
  | ok a s₁ =>
    rw [bind_of_ok h]
    exact hf a (hx.of_ok h) s₁
  | error e s₁ =>
    rw [bind_of_error h]
    exact hx.of_error h

end Ends

variable {E : Failure → Prop}

/-- An application is made as it stands. -/
theorem ends_node (h : Term) (as : List Term) : Ends (node h as) E fun t => ∃ n, t = .app n h as :=
  fun _ => ⟨_, rfl⟩

theorem ends_freshVariable (name : String) : Ends (freshVariable name) E fun _ => True :=
  fun _ => trivial

theorem ends_isSettled (n : Nat) : Ends (isSettled n) E fun _ => True := fun _ => trivial

theorem ends_settle (n : Nat) : Ends (settle n) E fun _ => True := fun _ => trivial

/-- A number can be compared with what is counted. -/
theorem bound_eq_pure {a : Amount} {m : Int} (h : a.bound? = some m) : bound a = pure m := by
  rw [bound, h]

theorem ends_bound {a : Amount} {m : Int} (h : a.bound? = some m) :
    Ends (bound a) E fun n => n = m := by
  rw [bound_eq_pure h]
  exact .pure rfl

/-- A whole number counts as itself. -/
theorem ends_whole {a : Amount} {m : Int} (h : a.whole? = some m) :
    Ends (whole a) E fun n => n = m := by
  unfold whole
  rw [h]
  exact .pure rfl

end Engine

end Combinatory
