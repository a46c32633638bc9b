import Combinatory.Proofs.Calculus
import Mathlib.Data.List.Forall2

/-!
# Conversion in the lambda calculus

Convertible terms are those that beta steps, taken forwards and backwards anywhere in a term, lead
to one another; where functions count as their behaviour, eta steps are allowed too. Conversion is
kept by assignments (`Converts.subst`), and so by abstraction.
-/

namespace Combinatory.LambdaTerm

/-- Conversion: the least congruence with the beta rule, and with the eta rule where `η` holds. -/
inductive Converts (η : Prop) : LambdaTerm → LambdaTerm → Prop where
  | refl (t : LambdaTerm) : Converts η t t
  | symm {t u : LambdaTerm} (h : Converts η t u) : Converts η u t
  | trans {t u w : LambdaTerm} (h : Converts η t u) (h' : Converts η u w) : Converts η t w
  | app {f g a b : LambdaTerm} (hf : Converts η f g) (ha : Converts η a b) :
      Converts η (app f a) (app g b)
  | lam {b c : LambdaTerm} (h : Converts η b c) : Converts η (lam b) (lam c)
  | beta (b a : LambdaTerm) : Converts η (.app (.lam b) a) (b.instantiate a)
  | eta (h : η) (t : LambdaTerm) : Converts η (.lam (.app t.shift (bound 0))) t

/-- Beta convertibility. -/
abbrev BetaEq : LambdaTerm → LambdaTerm → Prop := Converts False

/-- Beta-eta convertibility. -/
abbrev BetaEtaEq : LambdaTerm → LambdaTerm → Prop := Converts True

variable {η : Prop}

/-- Equal terms are convertible. -/
theorem Converts.of_eq {t u : LambdaTerm} (h : t = u) : Converts η t u := by
  subst h
  exact .refl t

/-- Convertible functions on convertible arguments give convertible terms. -/
theorem Converts.apps {t u : LambdaTerm} (h : Converts η t u) {as bs : List LambdaTerm}
    (has : List.Forall₂ (Converts η) as bs) : Converts η (t.apps as) (u.apps bs) := by
  induction has generalizing t u with
  | nil => exact h
  | cons ha _ ih => exact ih (h.app ha)

/-- Convertible functions stay so on the same arguments. -/
theorem Converts.apps_left {t u : LambdaTerm} (h : Converts η t u) (as : List LambdaTerm) :
    Converts η (t.apps as) (u.apps as) :=
  h.apps (List.forall₂_same.mpr fun a _ => .refl a)

/-! ### Assignments -/

private theorem subst_instantiate (b a : LambdaTerm) (σ : Assignment) :
    (b.instantiate a).subst σ = (b.subst σ.under).instantiate (a.subst σ) := by
  rw [instantiate, instantiate, subst_subst, subst_subst]
  congr 1
  ext i
  · cases i with
    | zero => rfl
    | succ i => exact (instantiate_shift _ _).symm
  · exact (instantiate_shift _ _).symm

/-- Convertible terms stay so under an assignment. -/
theorem Converts.subst {t u : LambdaTerm} (h : Converts η t u) (σ : Assignment) :
    Converts η (t.subst σ) (u.subst σ) := by
  induction h generalizing σ with
  | refl t => exact .refl _
  | symm _ ih => exact (ih σ).symm
  | trans _ _ ih ih' => exact (ih σ).trans (ih' σ)
  | app _ _ ihf iha => exact (ihf σ).app (iha σ)
  | lam _ ih => exact (ih σ.under).lam
  | beta b a =>
    rw [subst_instantiate]
    exact .beta _ _
  | eta h t =>
    rw [LambdaTerm.subst, LambdaTerm.subst, shift_subst]
    exact .eta h _

/-- Abstractions of convertible terms are convertible. -/
theorem Converts.abs {t u : LambdaTerm} (h : Converts η t u) (v : Variable) :
    Converts η (t.abs v) (u.abs v) :=
  (h.subst _).lam

/-- Convertible terms stay so when abstracted over several variables. -/
theorem Converts.absAll {t u : LambdaTerm} (h : Converts η t u) (vs : List Variable) :
    Converts η (t.absAll vs) (u.absAll vs) := by
  induction vs with
  | nil => exact h
  | cons v vs ih => exact ih.abs v

/-! ### Abstraction -/

/-- An abstraction applied to an argument is its body with the variable replaced. -/
theorem Converts.abs_app (v : Variable) (t a : LambdaTerm) :
    Converts η (.app (t.abs v) a) (t.replace v a) := by
  rw [← instantiate_capture]
  exact .beta _ _

/-- Abstracting over an argument that does not occur otherwise gives the function back. -/
theorem Converts.abs_app_free (hη : η) {v : Variable} {t : LambdaTerm} (h : ¬ t.Mentions v) :
    Converts η ((LambdaTerm.app t (free v)).abs v) t := by
  have body : (LambdaTerm.app t (free v)).abs v = .lam (.app t.shift (bound 0)) := by
    rw [LambdaTerm.abs, LambdaTerm.subst, subst_capture_eq_shift h]
    congr 2
    exact if_pos rfl
  rw [body]
  exact .eta hη t

/-- An abstraction below one more lambda, applied to the variable of that lambda, is its body. -/
theorem Converts.shift_lam_app (b : LambdaTerm) :
    Converts η (.app (LambdaTerm.lam b).shift (bound 0)) b := by
  have same : (b.rename (liftRenaming (· + 1))).instantiate (bound 0) = b := by
    have unchanged : (⟨fun i => (Assignment.argument (bound 0)).bound (liftRenaming (· + 1) i),
        (Assignment.argument (bound 0)).free⟩ : Assignment) = .identity := by
      ext i
      · cases i <;> rfl
      · rfl
    rw [instantiate, subst_rename, unchanged, subst_identity]
  exact (Converts.beta _ _).trans (.of_eq same)

end Combinatory.LambdaTerm
