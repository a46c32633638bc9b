import Combinatory.Application
import Combinatory.Text.Words

/-!
# The binary view of applications

An application of several arguments can be viewed as a front, which is applied to the last argument.
Without user hooks both halves are smaller than the whole: this is why taking a term apart ends.
-/

namespace Combinatory

namespace Term

/-- The binary view of an application: all but the last argument, and the last argument. -/
def split (R : Rules) (head : Term) (args : List Term) : Engine (Term × Term) :=
  match args.getLast? with
  | some last => do return (← apply R head args.dropLast, last)
  | none => return (head, head)

/-- The binary view of what should be an application. A text has words instead, and there must be
two of them. -/
def halves (R : Rules) : Term → Engine (Term × Term)
  | app _ h as => split R h as
  | foreign ⟨i, .string s⟩ =>
    match Text.words s with
    | [a, b] => return (foreign ⟨i, .string a⟩, foreign ⟨i, .string b⟩)
    | ws => throw (.improperHalves ws.length)
  | t => throw (.notCapable t.kind "split")

theorem sizeAll_append (as bs : List Term) :
    sizeAll (as ++ bs) + 1 = sizeAll as + sizeAll bs := by
  induction as with
  | nil => simp [sizeAll, Nat.add_comm]
  | cons a as ih =>
    simp only [List.cons_append, sizeAll]
    omega

/-- Without user hooks, applying a term to terms makes nothing larger than its parts. -/
theorem size_extend {R : Rules} :
    ∀ (as : List Term) {t u : Term} {s s' : Store}, R.quiet t = true →
      extend R t as s = .ok u s' → size u ≤ size t + sizeAll as
  | [], t, u, s, s', _, h => by
    unfold extend at h
    cases h
    exact Nat.le_add_right _ _
  | a :: as, t, u, s, s', ht, h => by
    unfold extend at h
    split at h
    · next bs =>
      cases h
      have := sizeAll_append bs (a :: as)
      simp only [size]
      omega
    · next c =>
      obtain ⟨r, s₁, hr, h⟩ := Engine.bind_ok_iff.mp h
      cases r with
      | some r =>
        obtain ⟨n, rfl⟩ := Native.numeral_of_replacement ht hr
        have := size_extend as (by simp [Rules.quiet, hookless]) h
        have := size_pos a
        simp only [size, sizeAll] at *
        omega
      | none =>
        cases h
        exact Nat.le_refl _
    · cases h
      exact Nat.le_refl _

/-- Without user hooks, both halves of an application are smaller than the whole. -/
theorem size_split {R : Rules} {h : Term} {as : List Term} (hq : R.quiet h = true)
    {front last : Term} {n : Nat} {s s' : Store} (e : split R h as s = .ok (front, last) s') :
    size front < size (app n h as) ∧ size last < size (app n h as) := by
  rw [size]
  have hh := size_pos h
  unfold split at e
  cases hl : as.getLast? with
  | none =>
    rw [hl] at e
    cases e
    have := sizeAll_pos as
    omega
  | some a =>
    rw [hl] at e
    obtain ⟨u, s₁, hu, e⟩ := Engine.bind_ok_iff.mp e
    cases e
    obtain ⟨bs, rfl⟩ := List.getLast?_eq_some_iff.mp hl
    have ha := size_pos last
    have hs := sizeAll_append bs [last]
    rw [List.dropLast_concat] at hu
    have hb := sizeAll_pos bs
    unfold apply at hu
    cases hf : firstLiteral bs with
    | some l =>
      rw [hf] at hu
      cases hu
    | none =>
      rw [hf] at hu
      have := size_extend bs hq hu
      simp only [sizeAll] at hs
      omega

end Term

end Combinatory
