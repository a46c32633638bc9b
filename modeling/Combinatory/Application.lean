import Combinatory.Engine

/-!
# Application

Applying a term extends an application instead of nesting it, and computes nothing, except that a
hooked combinator may first replace itself and its first argument. The successor does so with a
numeral: `+ 2` is the numeral `3`. What user combinators do is given by `Rules`. The arguments must
all be terms, which is seen to before anything else.
-/

namespace Combinatory

/-- What the engine has to be told from outside: the hooks and rules of user combinators, and how a
term is evaluated to a numeral. -/
structure Rules where
  /-- What a hooked user combinator puts in place of itself and its first argument, if anything. -/
  replacement : UserNative → Term → Engine (Option Term)
  /-- The result of a user combinator on as many arguments as its arity says. -/
  contract : UserNative → List Term → Engine Term
  /-- The numeral that a term stands for. -/
  evaluate : Term → Engine Term
  /-- Whether no hook of a user combinator ever replaces anything. -/
  hookless : Bool
  replacement_none : hookless = true → ∀ u a, replacement u a = pure none

/-- Whether no hook of a user combinator can replace anything while a term is computed with. -/
def Rules.quiet (R : Rules) (t : Term) : Bool := R.hookless || t.hookless

/-- Whether no hook of a user combinator can replace anything in some terms. -/
def Rules.quietAll (R : Rules) (ts : List Term) : Bool := R.hookless || Term.hooklessAll ts

/-- Whether free steps, or the splitting of a term, may go on: user hooks cannot make them endless,
or there is patience left. -/
def Rules.goesOn (R : Rules) (patience : Nat) (t : Term) : Bool := patience != 0 || R.quiet t

/-- How much deeper user hooks may make a term while it is taken apart and rebuilt. -/
def Rules.hookDepth : Nat := 1000

namespace Rules

open Term

variable (R : Rules)

theorem quiet_app (n : Nat) (h : Term) (as : List Term) :
    R.quiet (app n h as) = (R.quiet h && R.quietAll as) := by
  simp only [quiet, quietAll, Term.hookless, Bool.or_and_distrib_left]

theorem quietAll_cons (a : Term) (as : List Term) :
    R.quietAll (a :: as) = (R.quiet a && R.quietAll as) := by
  simp only [quiet, quietAll, hooklessAll, Bool.or_and_distrib_left]

theorem quietAll_append (as bs : List Term) :
    R.quietAll (as ++ bs) = (R.quietAll as && R.quietAll bs) := by
  simp only [quietAll, hooklessAll_append, Bool.or_and_distrib_left]

/-- What goes on comes to an end: patience runs out, or else another measure decreases. -/
theorem goesOn_lt {R : Rules} {patience m n : Nat} {t : Term} (h : R.goesOn patience t = true)
    (hlt : R.quiet t = true → m < n) :
    Prod.Lex (· < ·) (· < ·) (patience - 1, m) (patience, n) := by
  cases patience with
  | zero => exact .right _ (hlt (by simpa [goesOn] using h))
  | succ patience => exact .left _ _ (Nat.lt_succ_self _)

end Rules

namespace Native

/-- The least number that is too long to be a numeral: it has more than 4300 digits. -/
@[irreducible] def numeralBound : Nat := Nat.pow 10 4300

theorem numeralBound_pos : 0 < numeralBound := by
  unfold numeralBound
  exact Nat.pow_pos (by decide)

/-- What a combinator puts in place of itself and its first argument while an application is being
built, if anything. -/
def replacement (R : Rules) (c : Native) (arg : Term) : Engine (Option Term) :=
  match c with
  | successor =>
    match arg with
    | .native (numeral n) =>
      if n + 1 < numeralBound then pure (some (.numeral (n + 1))) else throw .numeralTooLong
    | _ => pure none
  | lambdaMark => throw .lambdaMarkUsed
  | user u => if u.hooked then R.replacement u arg else pure none
  | _ => pure none

/-- A combinator without a hook replaces nothing. -/
theorem replacement_eq_none (R : Rules) {c : Native} (h : c.hooked = false) (arg : Term) :
    c.replacement R arg = pure none := by
  cases c <;> simp_all [hooked, replacement]

/-- Where no user hook can, only the successor replaces anything, namely a numeral by the next. -/
theorem numeral_of_replacement {R : Rules} {c : Native} (hq : R.quiet (.native c) = true)
    {a r : Term} {s s' : Store} (h : c.replacement R a s = .ok (some r) s') :
    ∃ n, r = .numeral n := by
  unfold replacement at h
  split at h
  · split at h
    · next n =>
      split at h
      · cases h
        exact ⟨n + 1, rfl⟩
      · cases h
    · cases h
  · cases h
  · next u =>
    split at h
    · next hu =>
      -- the hook is there, so it must be one that never replaces anything
      have hR : R.hookless = true := by simpa [Rules.quiet, Term.hookless, hu] using hq
      rw [R.replacement_none hR] at h
      cases h
    · cases h
  · cases h

end Native

namespace Term

/-- The term applied to arguments that are terms. A replacement made by a hook is applied to the
arguments left. -/
def extend (R : Rules) (t : Term) : List Term → Engine Term
  | [] => pure t
  | a :: as =>
    match t with
    | app _ h bs => Engine.node h (bs ++ a :: as)
    | native c => do
      match ← c.replacement R a with
      | some r => extend R r as
      | none => Engine.node t (a :: as)
    | _ => Engine.node t (a :: as)

/-- The term applied to arguments, the first of which that is no term is refused. -/
def apply (R : Rules) (t : Term) (args : List Term) : Engine Term :=
  match firstLiteral args with
  | some l => throw (.applyToNonTerm t l)
  | none => extend R t args

/-- Terms are applied to without further ado. -/
theorem apply_eq_extend (R : Rules) (t : Term) {args : List Term} (h : firstLiteral args = none) :
    apply R t args = extend R t args := by
  simp [apply, h]

/-- Applying a term to nothing gives the term. -/
theorem apply_nil (R : Rules) (t : Term) : apply R t [] = pure t := by
  simp [apply, firstLiteral, extend]

/-- Applying an application extends it. -/
theorem extend_app (R : Rules) (n : Nat) (h : Term) (bs : List Term) (a : Term) (as : List Term) :
    extend R (app n h bs) (a :: as) = Engine.node h (bs ++ a :: as) := by
  simp [extend]

/-- Applying a variable puts it at the head. -/
theorem extend_var (R : Rules) (v : Variable) (a : Term) (as : List Term) :
    extend R (var v) (a :: as) = Engine.node (var v) (a :: as) := by
  simp [extend]

/-- Applying a lambda puts it at the head. -/
theorem extend_lam (R : Rules) (v : Variable) (b a : Term) (as : List Term) :
    extend R (lam v b) (a :: as) = Engine.node (lam v b) (a :: as) := by
  simp [extend]

/-- A combinator without a hook is put at the head. -/
theorem extend_native (R : Rules) {c : Native} (h : c.hooked = false) (a : Term) (as : List Term) :
    extend R (native c) (a :: as) = Engine.node (native c) (a :: as) := by
  simp [extend, Native.replacement_eq_none R h]

/-- The successor of a numeral is the next numeral at once. -/
theorem extend_successor_numeral (R : Rules) {n : Nat} (h : n + 1 < Native.numeralBound)
    (as : List Term) :
    extend R (native .successor) (numeral n :: as) = extend R (numeral (n + 1)) as := by
  simp [extend, Native.replacement, h]

/-- The successor of the longest numeral cannot be built. -/
theorem apply_successor_tooLong (R : Rules) {n : Nat} (h : ¬ n + 1 < Native.numeralBound)
    (s : Store) : apply R (native .successor) [numeral n] s = .error .numeralTooLong s := by
  rw [apply_eq_extend R _ rfl, extend, Native.replacement, if_neg h]
  rfl

/-- Where no user hook can replace anything, none can after applying a term to terms. -/
theorem quiet_extend {R : Rules} : ∀ (as : List Term) {t u : Term} {s s' : Store},
    R.quiet t = true → R.quietAll as = true → extend R t as s = .ok u s' → R.quiet u = true
  | [], t, u, s, s', ht, _, h => by
    unfold extend at h
    cases h
    exact ht
  | a :: as, t, u, s, s', ht, has, h => by
    unfold extend at h
    split at h
    · cases h
      rw [R.quiet_app, Bool.and_eq_true] at ht ⊢
      rw [R.quietAll_append, Bool.and_eq_true]
      exact ⟨ht.1, ht.2, has⟩
    · obtain ⟨r, s₁, hr, h⟩ := Engine.bind_ok_iff.mp h
      cases r with
      | some r =>
        obtain ⟨n, rfl⟩ := Native.numeral_of_replacement ht hr
        rw [R.quietAll_cons, Bool.and_eq_true] at has
        exact quiet_extend as (by simp [Rules.quiet, hookless]) has.2 h
      | none =>
        cases h
        rw [R.quiet_app, Bool.and_eq_true]
        exact ⟨ht, has⟩
    · cases h
      rw [R.quiet_app, Bool.and_eq_true]
      exact ⟨ht, has⟩

/-- Where no user hook can replace anything, none can after applying a term. -/
theorem quiet_apply {R : Rules} (as : List Term) {t u : Term} {s s' : Store}
    (ht : R.quiet t = true) (has : R.quietAll as = true) (h : apply R t as s = .ok u s') :
    R.quiet u = true := by
  unfold apply at h
  cases hl : firstLiteral as with
  | some l =>
    rw [hl] at h
    cases h
  | none =>
    rw [hl] at h
    exact quiet_extend as ht has h

end Term

end Combinatory
