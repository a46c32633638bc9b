import Combinatory.Canonical
import Combinatory.Proofs.Outcome
import Combinatory.Proofs.Skeleton

/-!
# Computing with skeletons

What the engine does to terms without names is defined here once more, on skeletons: there are no
identities to give out, no binders to mint and no table of settled applications, so that all of it
is a function. The engine computes the value of such a function if it has a result exactly when the
function has one, and the two results belong together; where the function fails, the engine fails
for the same cause. Two computations of one value cannot be told apart by what they give.
-/

namespace Combinatory

namespace Skeleton

/-! ### Building -/

/-- A skeleton applied to others. Only the successor looks at what it is applied to. -/
def apply : Skeleton → List Skeleton → Except Failure Skeleton
  | x, [] => pure x
  | app h bs, a :: as => pure (app h (bs ++ a :: as))
  | native .successor, native (.numeral n) :: as =>
    if n + 1 < Native.numeralBound then apply (numeral (n + 1)) as else throw .numeralTooLong
  | x, a :: as => pure (app x (a :: as))

/-- Where the successor has met no numeral, an application is put together as it stands. -/
theorem apply_of_unmet {h a : Skeleton} {as : List Skeleton} (flat : ∀ g bs, h ≠ app g bs)
    (unmet : h = native .successor → ∀ n, a ≠ numeral n) :
    apply h (a :: as) = pure (app h (a :: as)) := by
  unfold apply
  split <;> simp_all

/-- Whether an application of a head to some arguments can stand as it is. -/
def bears : Skeleton → List Skeleton → Bool
  | app _ _, _ => false
  | native .successor, native (.numeral _) :: _ => false
  | _, _ => true

mutual

/-- Whether every application in a skeleton can stand as it is. -/
def stands : Skeleton → Bool
  | lam b => stands b
  | app h as => h.bears as && stands h && standsAll as
  | _ => true

/-- Whether this holds of all skeletons of a list. -/
def standsAll : List Skeleton → Bool
  | [] => true
  | a :: as => stands a && standsAll as

end

theorem standsAll_append (as bs : List Skeleton) :
    standsAll (as ++ bs) = (standsAll as && standsAll bs) := by
  induction as with
  | nil => rfl
  | cons a as ih => rw [List.cons_append, standsAll, standsAll, ih, Bool.and_assoc]

theorem bears_iff {h : Skeleton} {as : List Skeleton} : h.bears as = true ↔
    (∀ g bs, h ≠ app g bs) ∧ (h = native .successor → ∀ n, as.head? ≠ some (numeral n)) := by
  unfold bears
  split
  · simp
  · simp
  · next flat unmet =>
    refine iff_of_true rfl ⟨fun g bs hh => flat g bs hh, fun hh n hn => ?_⟩
    obtain ⟨as, rfl⟩ := List.head?_eq_some_iff.mp hn
    exact unmet n as hh rfl

/-- What can stand as it is is put together so. -/
theorem apply_of_bears {h a : Skeleton} {as : List Skeleton} (hb : h.bears (a :: as) = true) :
    apply h (a :: as) = pure (app h (a :: as)) := by
  obtain ⟨flat, unmet⟩ := bears_iff.mp hb
  exact apply_of_unmet flat fun hsucc n ha => unmet hsucc n (congrArg some ha)

/-- To apply to all arguments at once is to apply twice. -/
theorem apply_append (y : Skeleton) (as bs : List Skeleton) :
    y.apply (as ++ bs) = y.apply as >>= (·.apply bs) := by
  fun_induction apply y as with
  | case1 y => rfl
  | case2 h cs a as =>
    cases bs <;> simp [apply]
  | case3 n as hn ih => simp [apply, hn, ih]
  | case4 n as hn =>
    rw [List.cons_append, apply, if_neg hn]
    rfl
  | case5 y a as flat unmet =>
    have stands : y.apply (a :: (as ++ bs)) = pure (app y (a :: (as ++ bs))) :=
      apply_of_unmet flat fun hy n => unmet n hy
    rw [List.cons_append, stands]
    cases bs <;> simp [apply]

/-- What is applied to something cannot be built only because of a numeral that is too long. -/
theorem eq_of_apply_eq_error {y : Skeleton} {as : List Skeleton} {e : Failure}
    (h : y.apply as = .error e) : e = .numeralTooLong := by
  fun_induction apply y as with
  | case3 n as hn ih => exact ih h
  | case4 n as hn =>
    cases h
    rfl
  | _ => cases h

/-- What stands at the places below one more lambda. -/
def under (σ : Place → Skeleton) : Place → Skeleton
  | .bound 0 => var (.bound 0)
  | .bound (i + 1) => (σ (.bound i)).lift
  | .free v => (σ (.free v)).lift

@[simp] theorem under_bound_zero (σ : Place → Skeleton) :
    under σ (.bound 0) = var (.bound 0) := rfl

@[simp] theorem under_lift (σ : Place → Skeleton) (p : Place) : under σ p.lift = (σ p).lift := by
  cases p <;> rfl

mutual

/-- Puts skeletons at the places of variables. Applications are built again by applying. -/
def put (σ : Place → Skeleton) : Skeleton → Except Failure Skeleton
  | var p => pure (σ p)
  | lam b => do return lam (← put (under σ) b)
  | app h as => do
    let h ← put σ h
    apply h (← putAll σ as)
  | x => pure x

/-- Puts skeletons at the places of the variables of all skeletons of a list. -/
def putAll (σ : Place → Skeleton) : List Skeleton → Except Failure (List Skeleton)
  | [] => pure []
  | a :: as => do
    let a ← put σ a
    return a :: (← putAll σ as)

end

/-- What stands at the places of the body of a lambda that is applied to an argument. -/
def passing (a : Skeleton) : Place → Skeleton
  | .bound 0 => a
  | .bound (i + 1) => var (.bound i)
  | .free v => var (.free v)

/-! ### Reduction -/

/-- `f` applied `n` times to `x`, one application around the other. -/
def iterate (f x : Skeleton) : Nat → Except Failure Skeleton
  | 0 => pure x
  | n + 1 => do iterate f (← f.apply [x]) n

/-- The result of a combinator on its arguments, or `none` if they are too few. -/
def contract (c : Native) (args : List Skeleton) : Except Failure (Option Skeleton) :=
  match c, args with
  | .I, x :: _ => return some x
  | .K, x :: _ :: _ => return some x
  | .S, x :: y :: z :: _ => do
    let yz ← y.apply [z]
    return some (← x.apply [z, yz])
  | .B, x :: y :: z :: _ => do
    let yz ← y.apply [z]
    return some (← x.apply [yz])
  | .C, x :: y :: z :: _ => do return some (← x.apply [z, y])
  | .W, x :: y :: _ => do return some (← x.apply [y, y])
  | .successor, n :: f :: x :: _ => do
    let nfx ← n.apply [f, x]
    return some (← f.apply [nfx])
  | .numeral n, f :: x :: _ => do return some (← iterate f x n)
  | _, _ => return none

/-- Fires the rule of a head on its arguments, or answers `none` if it has none. -/
def reduce (head : Skeleton) (args : List Skeleton) : Except Failure (Option Skeleton) :=
  match head with
  | native c => do
    match ← contract c args with
    | some x => return some (← x.apply (args.drop c.arity))
    | none => return none
  | lam b =>
    match args with
    | [] => return none
    | a :: as => do
      let x ← b.put (passing a)
      return some (← x.apply as)
  | _ => return none

mutual

/-- One step, or `none` if there is none. -/
def step : Skeleton → Except Failure (Option Skeleton)
  | app h as => do
    match ← reduce h as with
    | some x => return some x
    | none =>
      match ← step h with
      | some h' => return some (← h'.apply as)
      | none =>
        match ← stepAmong as with
        | some as' => return some (← h.apply as')
        | none => return none
  | _ => pure none

/-- One step of the first skeleton that has one. -/
def stepAmong : List Skeleton → Except Failure (Option (List Skeleton))
  | [] => pure none
  | a :: as => do
    match ← step a with
    | some a' => return some (a' :: as)
    | none =>
      match ← stepAmong as with
      | some as' => return some (a :: as')
      | none => return none

end

/-- What a run ends with, the steps that it took, and whether no step is left. -/
structure Course where
  result : Skeleton
  steps : Nat
  final : Bool

/-- Takes up to `left` more steps after those that were taken before. -/
def runFrom (x : Skeleton) (steps : Nat) : Nat → Except Failure Course
  | 0 => do return ⟨x, steps, (← x.step).isNone⟩
  | left + 1 => do
    match ← x.step with
    | none => return ⟨x, steps, true⟩
    | some y => runFrom y (steps + 1) left

/-- Steps until there is none, or until a budget is spent. -/
def run (budget : Amount) (x : Skeleton) : Except Failure Course :=
  match budget.bound? with
  | some n => x.runFrom 0 n.toNat
  | none => throw (.notComparable "<" "int" budget.typeName)

/-! ### Canonical forms -/

/-- Whether feeding one more argument could make the skeleton do something. -/
def awaitsArgs : Skeleton → Bool
  | var _ => false
  | app h _ => awaitsArgs h
  | _ => true

mutual

/-- How often a place is taken. -/
def count (p : Place) : Skeleton → Nat
  | var q => if q = p then 1 else 0
  | lam b => count p.lift b
  | app h as => count p h + countAll p as
  | _ => 0

/-- How often a place is taken in some skeletons. -/
def countAll (p : Place) : List Skeleton → Nat
  | [] => 0
  | a :: as => count p a + countAll p as

end

mutual

/-- Whether a skeleton consists of applications and of variables of the innermost `k` lambdas. -/
def within (k : Nat) : Skeleton → Bool
  | var (.bound i) => i < k
  | app h as => within k h && withinAll k as
  | _ => false

/-- Whether all skeletons of a list consist of applications and of such variables. -/
def withinAll (k : Nat) : List Skeleton → Bool
  | [] => true
  | a :: as => within k a && withinAll k as

end

/-- How often each of the innermost `k` lambdas is referred to, the outermost first. -/
def counts (k : Nat) (x : Skeleton) : List Int :=
  (List.range k).map fun i => x.count (.bound (k - 1 - i))

/-- A skeleton below some more lambdas. -/
def close : Nat → Skeleton → Skeleton
  | 0, x => x
  | k + 1, x => lam (close k x)

/-- Feeds up to `left` arguments after `fed` others. What is found is the skeleton below the lambdas
of all that was fed, and how many they are. -/
def searchFrom (maxSteps : Amount) (x : Skeleton) (fed spent : Nat) :
    Nat → Except Failure (Option (Skeleton × Nat) × Nat)
  | 0 => pure (none, spent)
  | left + 1 => do
    let out ← run maxSteps x
    let spent := spent + out.steps
    if !out.final then return (none, spent)
    if !out.result.awaitsArgs then return (some (out.result, fed), spent)
    searchFrom maxSteps (← out.result.lift.apply [var (.bound 0)]) (fed + 1) spent left

/-- What is found by feeding arguments within a budget, and the steps spent. -/
def search (budget : Budget) (x : Skeleton) : Except Failure (Option (Skeleton × Nat) × Nat) :=
  match budget.args.whole? with
  | some n => x.searchFrom budget.steps 0 0 n.toNat
  | none => throw (.notWhole budget.args.typeName)

/-- What is found, closed, or else what `guess` makes of it. -/
def best (budget : Budget) (x : Skeleton) (guess : Except Failure (Option Skeleton)) :
    Except Failure (Option Skeleton) := do
  match ← search budget x with
  | (some (y, k), _) => return some (close k y)
  | (none, _) => guess

/-- All but the last argument, and the last argument. -/
def split (h : Skeleton) (as : List Skeleton) : Except Failure (Skeleton × Skeleton) :=
  match as.getLast? with
  | some last => do return (← h.apply as.dropLast, last)
  | none => return (h, h)

/-- Two halves put back together, if there are both. -/
def join (front last : Option Skeleton) : Except Failure (Option Skeleton) := do
  match front, last with
  | some f, some a => return some (← f.apply [a])
  | _, _ => return none

/-- What is made of both halves of an application, taken apart up to `patience` deep. -/
def guess (budget : Budget) : Nat → Skeleton → Except Failure (Option Skeleton)
  | 0, app h as => do
    let _ ← split h as
    throw .tooDeep
  | patience + 1, app h as => do
    let (front, last) ← split h as
    let f ← best budget front (guess budget patience front)
    let a ← best budget last (guess budget patience last)
    join f a
  | _, _ => pure none

/-- The outcome of a search for a canonical form: what was found below how many lambdas, or else a
guess, and the steps spent. -/
inductive Finding where
  | found (x : Skeleton) (fed steps : Nat)
  | notFound (guess : Option Skeleton) (steps : Nat)

namespace Finding

/-- What was found, closed, or else the guess. -/
def canonical : Finding → Option Skeleton
  | found x fed _ => some (close fed x)
  | notFound guess _ => guess

/-- The steps spent. -/
def steps : Finding → Nat
  | found _ _ n => n
  | notFound _ n => n

end Finding

/-- What is found by feeding arguments, or else a guess. -/
def canonicalize (budget : Budget) (patience : Nat) (x : Skeleton) : Except Failure Finding := do
  match ← search budget x with
  | (some (y, fed), steps) => return .found y fed steps
  | (none, steps) => return .notFound (← guess budget patience x) steps

end Skeleton

/-! ### What the engine computes -/

namespace Engine

variable {α β γ δ : Type}

/-- A computation of the engine has a result if `r` is one, and the two belong together; if `r` is a
failure, the computation fails for the same cause. -/
def Computes (x : Engine α) (s : Store) (r : Except Failure β) (Q : β → α → Store → Prop) : Prop :=
  match r with
  | .ok b => ∃ a s', x s = .ok a s' ∧ s ≤ s' ∧ Q b a s'
  | .error e => ∃ s', x s = .error e s'

namespace Computes

variable {x : Engine α} {s : Store} {r : Except Failure β} {Q : β → α → Store → Prop}

/-- Results may belong together less closely. -/
theorem imp {Q' : β → α → Store → Prop} (hx : Computes x s r Q)
    (h : ∀ b a s', s ≤ s' → Q b a s' → Q' b a s') : Computes x s r Q' := by
  cases r with
  | ok b =>
    obtain ⟨a, s', hr, hle, hq⟩ := hx
    exact ⟨a, s', hr, hle, h b a s' hle hq⟩
  | error e => exact hx

/-- A constant computes a constant. -/
protected theorem pure {a : α} {b : β} (h : Q b a s) : Computes (Pure.pure a) s (Pure.pure b) Q :=
  ⟨a, s, rfl, s.le_refl, h⟩

/-- What always has a result computes a constant. -/
theorem of_gives {b : β} (hx : Gives x s (Q b)) : Computes x s (Pure.pure b) Q := by
  obtain ⟨a, s', hr, hle, -, -, hq⟩ := hx
  exact ⟨a, s', hr, hle, hq⟩

/-- A failure computes the same failure. -/
protected theorem throw {e : Failure} :
    Computes (MonadExcept.throw e : Engine α) s (MonadExcept.throw e) Q :=
  ⟨s, rfl⟩

/-- What comes after a computation that always has a result computes what the whole does. -/
theorem after {x : Engine γ} {P : γ → Store → Prop} {f : γ → Engine α} (hx : Gives x s P)
    (hf : ∀ a s₁, s ≤ s₁ → P a s₁ → Computes (f a) s₁ r Q) : Computes (x >>= f) s r Q := by
  obtain ⟨c, s₁, h₁, hle, -, -, hp⟩ := hx
  cases r with
  | ok b =>
    obtain ⟨a, s₂, h₂, hle', hq⟩ := hf c s₁ hle hp
    exact ⟨a, s₂, (bind_of_ok h₁).trans h₂, Store.le_trans hle hle', hq⟩
  | error e =>
    obtain ⟨s₂, h₂⟩ := hf c s₁ hle hp
    exact ⟨s₂, (bind_of_ok h₁).trans h₂⟩

/-- Sequences compute sequences, part by part. -/
protected theorem bind {f : α → Engine γ} {g : β → Except Failure δ} {P : β → α → Store → Prop}
    {Q : δ → γ → Store → Prop} (hx : Computes x s r P)
    (hf : ∀ b a s₁, s ≤ s₁ → P b a s₁ → Computes (f a) s₁ (g b) Q) :
    Computes (x >>= f) s (r >>= g) Q := by
  cases r with
  | ok b =>
    obtain ⟨a, s₁, h₁, hle, hp⟩ := hx
    have rest := hf b a s₁ hle hp
    change Computes (x >>= f) s (g b) Q
    cases hg : g b with
    | ok d =>
      rw [hg] at rest
      obtain ⟨c, s₂, h₂, hle', hq⟩ := rest
      exact ⟨c, s₂, (bind_of_ok h₁).trans h₂, Store.le_trans hle hle', hq⟩
    | error e =>
      rw [hg] at rest
      obtain ⟨s₂, h₂⟩ := rest
      exact ⟨s₂, (bind_of_ok h₁).trans h₂⟩
  | error e =>
    obtain ⟨s₁, h₁⟩ := hx
    exact ⟨s₁, bind_of_error h₁⟩

/-- A result may be put into another form. -/
theorem map {f : α → γ} {Q : β → γ → Store → Prop}
    (hx : Computes x s r fun b a s' => Q b (f a) s') : Computes (do return f (← x)) s r Q := by
  cases r with
  | ok b =>
    obtain ⟨a, s₁, h₁, hle, hq⟩ := hx
    exact ⟨f a, s₁, bind_of_ok h₁, hle, hq⟩
  | error e =>
    obtain ⟨s₁, h₁⟩ := hx
    exact ⟨s₁, bind_of_error h₁⟩

/-- A result is the one of the computation. -/
theorem traced (hx : Computes x s r Q) :
    Computes x s r fun b a s' => Q b a s' ∧ x s = .ok a s' := by
  cases r with
  | ok b =>
    obtain ⟨a, s', hr, hle, hq⟩ := hx
    exact ⟨a, s', hr, hle, hq, hr⟩
  | error e => exact hx

/-- What has a result computes one. -/
theorem of_ok (hx : Computes x s r Q) {a : α} {s' : Store} (h : x s = .ok a s') :
    ∃ b, r = .ok b ∧ Q b a s' := by
  cases r with
  | ok b =>
    obtain ⟨a', s₁, hr, -, hq⟩ := hx
    rw [h] at hr
    cases hr
    exact ⟨b, rfl, hq⟩
  | error e =>
    obtain ⟨s₁, hr⟩ := hx
    rw [h] at hr
    cases hr

/-- A result meets what is guaranteed of it. -/
theorem ensured {P : α → Store → Prop} (hx : Computes x s r Q) (hp : Ensures x s P) :
    Computes x s r fun b a s' => Q b a s' ∧ P a s' := by
  cases r with
  | ok b =>
    obtain ⟨a, s', hr, hle, hq⟩ := hx
    exact ⟨a, s', hr, hle, hq, (hp a s' hr).2⟩
  | error e => exact hx

/-- A computation that is alike to one over the other twin computes what that one does. -/
theorem of_alike {y : Engine α} {p : Twins} {P : α → Twins → Prop} (h : Alike x y p P)
    (hy : Computes y p.right r Q) :
    Computes x p.left r fun b a s' => ∃ p', p ≤ p' ∧ p'.left = s' ∧ Q b a p'.right ∧ P a p' := by
  cases r with
  | ok b =>
    obtain ⟨a, s', hr, -, hq⟩ := hy
    cases h with
    | ok a' p' hx hy' later post =>
      rw [hr] at hy'
      cases hy'
      exact ⟨a, p'.left, hx, later.nextVariable, p', later, rfl, hq, post⟩
    | error e p' _ hy' _ =>
      rw [hr] at hy'
      cases hy'
  | error e =>
    obtain ⟨s', hr⟩ := hy
    cases h with
    | ok a' p' _ hy' _ _ =>
      rw [hr] at hy'
      cases hy'
    | error e' p' hx hy' _ =>
      rw [hr] at hy'
      cases hy'
      exact ⟨p'.left, hx⟩

/-- What is known of a computation over both twins is known of its result. -/
theorem and_alike {y : Engine α} {p : Twins} {P : α → Twins → Prop} (hx : Computes x p.left r Q)
    (h : Alike x y p P) :
    Computes x p.left r fun b a s' => Q b a s' ∧ ∃ p', p ≤ p' ∧ p'.left = s' ∧ P a p' := by
  cases r with
  | ok b =>
    obtain ⟨a, s', hr, hle, hq⟩ := hx
    exact ⟨a, s', hr, hle, hq, h.exists_of_ok hr⟩
  | error e => exact hx

/-- What comes after a computation that always has a result, over the twins that it leaves. -/
theorem after_alike {x y : Engine γ} {p : Twins} {P : γ → Store → Prop} {S : γ → Twins → Prop}
    {f : γ → Engine α} (hx : Gives x p.left P) (h : Alike x y p S)
    (hf : ∀ c p₁, p ≤ p₁ → P c p₁.left → Computes (f c) p₁.left r Q) :
    Computes (x >>= f) p.left r Q := by
  have first : Computes x p.left (Pure.pure ()) fun _ => P := of_gives hx
  refine (first.and_alike h).bind (g := fun _ => r) ?_
  rintro _ c _ - ⟨hc, p₁, hp, rfl, -⟩
  exact hf c p₁ hp hc

end Computes

end Engine

end Combinatory
