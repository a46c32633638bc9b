import Combinatory.Term

/-!
# Terms of the pure lambda calculus

Bound variables are counted from the innermost lambda, so terms that differ in the names of bound
variables only are the same. Free variables keep their identity. All substitutions are cases of one:
an assignment says what becomes of every bound and every free variable. Two in a row are one
(`subst_subst`), and only what occurs matters (`subst_congr`); the laws of abstraction follow.
-/

namespace Combinatory

/-- A term of the pure lambda calculus. -/
inductive LambdaTerm where
  | free (v : Variable)
  /-- The variable of the lambda that has `i` others between itself and the variable. -/
  | bound (i : Nat)
  | lam (body : LambdaTerm)
  | app (f a : LambdaTerm)
deriving DecidableEq, Repr

namespace LambdaTerm

/-- A renaming of bound variables below one more lambda. -/
def liftRenaming (r : Nat → Nat) : Nat → Nat
  | 0 => 0
  | i + 1 => r i + 1

/-- The term with its unbound indices renamed. -/
def rename (r : Nat → Nat) : LambdaTerm → LambdaTerm
  | free v => free v
  | bound i => bound (r i)
  | lam b => lam (b.rename (liftRenaming r))
  | app f a => app (f.rename r) (a.rename r)

/-- The term as it is written below one more lambda. -/
def shift (t : LambdaTerm) : LambdaTerm := t.rename (· + 1)

/-- What is put in place of every variable. -/
@[ext] structure Assignment where
  bound : Nat → LambdaTerm
  free : Variable → LambdaTerm

namespace Assignment

/-- Every variable stays. -/
def identity : Assignment := ⟨LambdaTerm.bound, LambdaTerm.free⟩

/-- The assignment below one more lambda. -/
def under (σ : Assignment) : Assignment where
  bound
    | 0 => LambdaTerm.bound 0
    | i + 1 => (σ.bound i).shift
  free v := (σ.free v).shift

/-- Puts an argument in place of the innermost bound variable, whose lambda goes away. -/
def argument (a : LambdaTerm) : Assignment where
  bound
    | 0 => a
    | i + 1 => LambdaTerm.bound i
  free := LambdaTerm.free

/-- Binds a free variable by a new innermost lambda. -/
def capture (v : Variable) : Assignment where
  bound i := LambdaTerm.bound (i + 1)
  free w := if w = v then LambdaTerm.bound 0 else LambdaTerm.free w

/-- Puts a term in place of one free variable. -/
def single (v : Variable) (u : LambdaTerm) : Assignment where
  bound := LambdaTerm.bound
  free w := if w = v then u else LambdaTerm.free w

end Assignment

/-- The term with everything put in place that an assignment says. -/
def subst (σ : Assignment) : LambdaTerm → LambdaTerm
  | free v => σ.free v
  | bound i => σ.bound i
  | lam b => lam (b.subst σ.under)
  | app f a => app (f.subst σ) (a.subst σ)

/-- The body of a lambda with an argument in place of its variable. -/
def instantiate (body a : LambdaTerm) : LambdaTerm := body.subst (.argument a)

/-- The abstraction of a term over a free variable. -/
def abs (v : Variable) (t : LambdaTerm) : LambdaTerm := lam (t.subst (.capture v))

/-- The abstraction of a term over several free variables, the first outermost. -/
def absAll (vs : List Variable) (t : LambdaTerm) : LambdaTerm := vs.foldr abs t

/-- The term with another in place of a free variable. -/
def replace (t : LambdaTerm) (v : Variable) (u : LambdaTerm) : LambdaTerm := t.subst (.single v u)

/-- The term applied to arguments, one after another. -/
def apps (t : LambdaTerm) (as : List LambdaTerm) : LambdaTerm := as.foldl app t

/-- Whether a free variable occurs. -/
def Mentions (v : Variable) : LambdaTerm → Prop
  | free w => v = w
  | bound _ => False
  | lam b => b.Mentions v
  | app f a => f.Mentions v ∨ a.Mentions v

@[simp] theorem apps_cons (t a : LambdaTerm) (as : List LambdaTerm) :
    t.apps (a :: as) = (app t a).apps as := rfl

/-- Abstracting over one variable more is abstracting over it first. -/
theorem absAll_append (vs : List Variable) (v : Variable) (t : LambdaTerm) :
    t.absAll (vs ++ [v]) = (t.abs v).absAll vs := by
  rw [absAll, List.foldr_append]
  rfl

/-- Applying to arguments and then to more is applying to all of them. -/
theorem apps_append (t : LambdaTerm) (as bs : List LambdaTerm) :
    t.apps (as ++ bs) = (t.apps as).apps bs := by
  rw [apps, List.foldl_append]
  rfl

/-! ### One assignment after another -/

private theorem lift_comp (r q : Nat → Nat) :
    (fun i => liftRenaming q (liftRenaming r i)) = liftRenaming fun i => q (r i) := by
  funext i
  cases i <;> rfl

/-- Two renamings are one. -/
theorem rename_rename (t : LambdaTerm) (r q : Nat → Nat) :
    (t.rename r).rename q = t.rename fun i => q (r i) := by
  induction t generalizing r q with
  | free v => rfl
  | bound i => rfl
  | lam b ih => rw [rename, rename, rename, ih, lift_comp]
  | app f a ihf iha => rw [rename, rename, rename, ihf, iha]

private theorem under_lift (σ : Assignment) (r : Nat → Nat) :
    (⟨fun i => σ.under.bound (liftRenaming r i), σ.under.free⟩ : Assignment) =
      Assignment.under ⟨fun i => σ.bound (r i), σ.free⟩ := by
  ext i
  · cases i <;> rfl
  · rfl

/-- An assignment after a renaming is an assignment. -/
theorem subst_rename (t : LambdaTerm) (r : Nat → Nat) (σ : Assignment) :
    (t.rename r).subst σ = t.subst ⟨fun i => σ.bound (r i), σ.free⟩ := by
  induction t generalizing r σ with
  | free v => rfl
  | bound i => rfl
  | lam b ih => rw [rename, subst, subst, ih, under_lift]
  | app f a ihf iha => rw [rename, subst, subst, ihf, iha]

/-- An assignment to a shifted term leaves the innermost variable alone. -/
theorem subst_shift (t : LambdaTerm) (σ : Assignment) :
    t.shift.subst σ = t.subst ⟨fun i => σ.bound (i + 1), σ.free⟩ :=
  subst_rename t (· + 1) σ

private theorem lift_under (σ : Assignment) (r : Nat → Nat) :
    (⟨fun i => (σ.under.bound i).rename (liftRenaming r),
      fun v => (σ.under.free v).rename (liftRenaming r)⟩ : Assignment) =
      Assignment.under ⟨fun i => (σ.bound i).rename r, fun v => (σ.free v).rename r⟩ := by
  have commute (u : LambdaTerm) : u.shift.rename (liftRenaming r) = (u.rename r).shift := by
    rw [shift, shift, rename_rename, rename_rename]
    rfl
  ext i
  · cases i with
    | zero => rfl
    | succ i => exact commute _
  · exact commute _

/-- A renaming after an assignment is an assignment. -/
theorem rename_subst (t : LambdaTerm) (σ : Assignment) (r : Nat → Nat) :
    (t.subst σ).rename r =
      t.subst ⟨fun i => (σ.bound i).rename r, fun v => (σ.free v).rename r⟩ := by
  induction t generalizing σ r with
  | free v => rfl
  | bound i => rfl
  | lam b ih => rw [subst, rename, subst, ih, lift_under]
  | app f a ihf iha => rw [subst, rename, subst, ihf, iha]

/-- An assignment is shifted by going below a lambda. -/
theorem shift_subst (t : LambdaTerm) (σ : Assignment) :
    t.shift.subst σ.under = (t.subst σ).shift := by
  rw [subst_shift, shift, rename_subst]
  rfl

namespace Assignment

/-- One assignment after another. -/
def andThen (σ τ : Assignment) : Assignment :=
  ⟨fun i => (σ.bound i).subst τ, fun v => (σ.free v).subst τ⟩

/-- Going below a lambda respects the order of assignments. -/
theorem under_andThen (σ τ : Assignment) : σ.under.andThen τ.under = (σ.andThen τ).under := by
  ext i
  · cases i with
    | zero => rfl
    | succ i => exact shift_subst _ _
  · exact shift_subst _ _

end Assignment

/-- Two assignments in a row are one. -/
theorem subst_subst (t : LambdaTerm) (σ τ : Assignment) :
    (t.subst σ).subst τ = t.subst (σ.andThen τ) := by
  induction t generalizing σ τ with
  | free v => rfl
  | bound i => rfl
  | lam b ih => rw [subst, subst, subst, ih, Assignment.under_andThen]
  | app f a ihf iha => rw [subst, subst, subst, ihf, iha]

private theorem under_identity : Assignment.identity.under = Assignment.identity := by
  ext i
  · cases i <;> rfl
  · rfl

/-- Where every variable stays, the term stays. -/
@[simp] theorem subst_identity (t : LambdaTerm) : t.subst .identity = t := by
  induction t with
  | free v => rfl
  | bound i => rfl
  | lam b ih => rw [subst, under_identity, ih]
  | app f a ihf iha => rw [subst, ihf, iha]

/-! ### What occurs -/

/-- Shifting is the assignment that moves the bound variables up. -/
theorem shift_eq_subst (t : LambdaTerm) :
    t.shift = t.subst ⟨fun i => bound (i + 1), free⟩ := by
  have h := subst_shift t .identity
  rw [subst_identity] at h
  exact h

/-- Renaming bound variables keeps the free ones. -/
theorem mentions_rename {v : Variable} (t : LambdaTerm) (r : Nat → Nat) :
    (t.rename r).Mentions v ↔ t.Mentions v := by
  induction t generalizing r with
  | free w => exact Iff.rfl
  | bound i => exact Iff.rfl
  | lam b ih => exact ih _
  | app f a ihf iha => exact or_congr (ihf r) (iha r)

/-- A variable that occurs after an assignment comes from what is put in. -/
theorem mentions_subst {v : Variable} {t : LambdaTerm} {σ : Assignment}
    (h : (t.subst σ).Mentions v) :
    (∃ i, (σ.bound i).Mentions v) ∨ ∃ w, t.Mentions w ∧ (σ.free w).Mentions v := by
  induction t generalizing σ with
  | free w => exact Or.inr ⟨w, rfl, h⟩
  | bound i => exact Or.inl ⟨i, h⟩
  | lam b ih =>
    rcases ih h with ⟨i, hi⟩ | ⟨w, hw, hv⟩
    · cases i with
      | zero => exact hi.elim
      | succ i => exact Or.inl ⟨i, (mentions_rename _ _).mp hi⟩
    · exact Or.inr ⟨w, hw, (mentions_rename _ _).mp hv⟩
  | app f a ihf iha =>
    rcases h with h | h
    · exact (ihf h).imp_right fun ⟨w, hw, hv⟩ => ⟨w, Or.inl hw, hv⟩
    · exact (iha h).imp_right fun ⟨w, hw, hv⟩ => ⟨w, Or.inr hw, hv⟩

/-- A variable that occurs in an abstraction occurs in its body, and is not the one abstracted. -/
theorem mentions_abs {v w : Variable} {t : LambdaTerm} (h : (t.abs v).Mentions w) :
    w ≠ v ∧ t.Mentions w := by
  rcases mentions_subst h with ⟨i, hi⟩ | ⟨x, hx, hw⟩
  · exact hi.elim
  · simp only [Assignment.capture] at hw
    split at hw
    · exact hw.elim
    · next hxv =>
      cases hw
      exact ⟨hxv, hx⟩

/-- Only what is put in place of the variables that occur matters. -/
theorem subst_congr {t : LambdaTerm} {σ τ : Assignment} (hb : ∀ i, σ.bound i = τ.bound i)
    (hf : ∀ v, t.Mentions v → σ.free v = τ.free v) : t.subst σ = t.subst τ := by
  induction t generalizing σ τ with
  | free v => exact hf v rfl
  | bound i => exact hb i
  | lam b ih =>
    rw [subst, subst]
    congr 1
    apply ih
    · intro i
      cases i with
      | zero => rfl
      | succ i => exact congrArg shift (hb i)
    · intro v hv
      exact congrArg shift (hf v hv)
  | app f a ihf iha =>
    rw [subst, subst, ihf hb fun v hv => hf v (Or.inl hv), iha hb fun v hv => hf v (Or.inr hv)]

/-! ### Abstraction -/

/-- Going below a lambda and putting an argument in its place changes nothing. -/
@[simp] theorem instantiate_shift (t a : LambdaTerm) : t.shift.subst (.argument a) = t := by
  rw [subst_shift]
  exact subst_identity t

/-- An argument in place of an abstracted variable replaces it. -/
theorem instantiate_capture (v : Variable) (t a : LambdaTerm) :
    (t.subst (.capture v)).instantiate a = t.replace v a := by
  rw [instantiate, replace, subst_subst]
  congr 1
  ext w
  · rfl
  · simp only [Assignment.andThen, Assignment.capture, Assignment.single]
    split <;> rfl

/-- Replacing what does not occur changes nothing. -/
theorem replace_eq_self {v : Variable} {t : LambdaTerm} (h : ¬ t.Mentions v) (u : LambdaTerm) :
    t.replace v u = t := by
  have same : t.subst (.single v u) = t.subst .identity := by
    apply subst_congr
    · intro i
      rfl
    · intro w hw
      have hwv : w ≠ v := by
        rintro rfl
        exact h hw
      exact if_neg hwv
  rw [replace, same, subst_identity]

/-- Abstracting over what does not occur only goes below a lambda. -/
theorem subst_capture_eq_shift {v : Variable} {t : LambdaTerm} (h : ¬ t.Mentions v) :
    t.subst (.capture v) = t.shift := by
  rw [shift_eq_subst]
  apply subst_congr
  · intro i
    rfl
  · intro w hw
    have hwv : w ≠ v := by
      rintro rfl
      exact h hw
    exact if_neg hwv

/-- An abstracted variable is not replaced. -/
theorem replace_abs_self (v : Variable) (t u : LambdaTerm) :
    (t.abs v).replace v u = t.abs v := by
  apply replace_eq_self
  intro h
  exact (mentions_abs h).1 rfl

/-- Replacing goes below an abstraction over another variable that the value does not mention. -/
theorem replace_abs {v w : Variable} (hwv : w ≠ v) {u : LambdaTerm} (hu : ¬ u.Mentions w)
    (t : LambdaTerm) : (t.abs w).replace v u = (t.replace v u).abs w := by
  rw [abs, abs, replace, replace, subst, subst_subst, subst_subst]
  congr 2
  ext x
  · rfl
  · simp only [Assignment.andThen, Assignment.capture, Assignment.single]
    by_cases hxw : x = w
    · subst x
      rw [if_pos rfl, if_neg hwv]
      exact (if_pos rfl).symm
    · rw [if_neg hxw]
      simp only [subst, Assignment.under]
      by_cases hxv : x = v
      · rw [if_pos hxv]
        exact (subst_capture_eq_shift hu).symm
      · rw [if_neg hxv]
        exact (if_neg hxw).symm

/-- An abstracted variable may be renamed to one that does not occur. -/
theorem abs_replace_free {v w : Variable} {t : LambdaTerm} (h : t.Mentions w → w = v) :
    (t.replace v (free w)).abs w = t.abs v := by
  rw [abs, abs, replace, subst_subst]
  congr 1
  apply subst_congr
  · intro i
    rfl
  · intro x hx
    simp only [Assignment.andThen, Assignment.capture, Assignment.single]
    by_cases hxv : x = v
    · rw [if_pos hxv, if_pos hxv]
      exact if_pos rfl
    · have hxw : x ≠ w := by
        rintro rfl
        exact hxv (h hx)
      rw [if_neg hxv, if_neg hxv]
      exact if_neg hxw

end LambdaTerm

end Combinatory
