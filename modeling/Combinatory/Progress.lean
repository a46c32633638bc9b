import Combinatory.Reduction

/-!
# Progress of free steps

A step that costs nothing opens a name, and so lowers the number of names that could still be
opened, as long as no hook of a user combinator puts new names in. This is why a run ends.
-/

namespace Combinatory

namespace Term

/-- Without user hooks, applying a term to terms puts no names in. -/
theorem pending_extend {R : Rules} :
    ∀ (as : List Term) {t u : Term} {s s' : Store}, R.quiet t = true →
      extend R t as s = .ok u s' → pending u ≤ pending t + pendingAll as
  | [], t, u, s, s', _, h => by
    unfold extend at h
    cases h
    exact Nat.le_add_right _ _
  | a :: as, t, u, s, s', ht, h => by
    unfold extend at h
    split at h
    · cases h
      simp only [pending, pendingAll_append]
      omega
    · obtain ⟨r, s₁, hr, h⟩ := Engine.bind_ok_iff.mp h
      cases r with
      | some r =>
        obtain ⟨n, rfl⟩ := Native.numeral_of_replacement ht hr
        have := pending_extend as (by simp [Rules.quiet, hookless]) h
        simp only [pending, pendingAll] at this ⊢
        omega
      | none =>
        cases h
        simp [pending, pendingAll]
    · cases h
      simp [pending, pendingAll]

/-- Without user hooks, applying a term puts no names in. -/
theorem pending_apply {R : Rules} (as : List Term) {t u : Term} {s s' : Store}
    (ht : R.quiet t = true) (h : apply R t as s = .ok u s') :
    pending u ≤ pending t + pendingAll as := by
  unfold apply at h
  cases hl : firstLiteral as with
  | some l =>
    rw [hl] at h
    cases h
  | none =>
    rw [hl] at h
    exact pending_extend as ht h

mutual

/-- Without user hooks, a step that costs nothing lowers the number of names to open, and puts no
hook in. -/
theorem pending_step {R : Rules} :
    ∀ (t : Term) {r : Stepped} {s s' : Store}, R.quiet t = true →
      step R t s = .ok (some r) s' → r.cost = 0 →
      R.quiet r.term = true ∧ pending r.term < pending t
  | .var v, r, s, s', _, h, _ => by
    unfold step at h
    cases h
  | .native c, r, s, s', _, h, _ => by
    unfold step at h
    cases h
  | .foreign x, r, s, s', _, h, _ => by
    unfold step at h
    cases h
  | .lam v b, r, s, s', _, h, _ => by
    unfold step at h
    cases h
  | .named info d, r, s, s', ht, h, _ => by
    unfold step at h
    split at h
    · cases h
      exact ⟨ht, Nat.lt_succ_self _⟩
    · cases h
  | .app n hd as, r, s, s', ht, h, hc => by
    rw [R.quiet_app, Bool.and_eq_true] at ht
    unfold step at h
    obtain ⟨known, s₁, _, h⟩ := Engine.bind_ok_iff.mp h
    cases known with
    | true => cases h
    | false =>
      obtain ⟨red, s₂, _, h⟩ := Engine.bind_ok_iff.mp h
      cases red with
      | some t =>
        cases h
        cases hc
      | none =>
        obtain ⟨hd', s₃, hs, h⟩ := Engine.bind_ok_iff.mp h
        cases hd' with
        | some hd' =>
          obtain ⟨t, s₄, ha, h⟩ := Engine.bind_ok_iff.mp h
          cases h
          obtain ⟨hq, h₁⟩ := pending_step hd ht.1 hs hc
          have h₂ := pending_apply as hq ha
          refine ⟨quiet_apply as hq ht.2 ha, ?_⟩
          simp only [pending]
          omega
        | none =>
          obtain ⟨as', s₄, hs, h⟩ := Engine.bind_ok_iff.mp h
          cases as' with
          | some as' =>
            obtain ⟨t, s₅, ha, h⟩ := Engine.bind_ok_iff.mp h
            cases h
            obtain ⟨hq, h₁⟩ := pending_stepAmong as ht.2 hs hc
            have h₂ := pending_apply as'.terms ht.1 ha
            refine ⟨quiet_apply as'.terms ht.1 hq ha, ?_⟩
            simp only [pending]
            omega
          | none =>
            obtain ⟨_, _, _, h⟩ := Engine.bind_ok_iff.mp h
            cases h

/-- Without user hooks, a free step in a list lowers the number of names to open, and puts no hook
in. -/
theorem pending_stepAmong {R : Rules} :
    ∀ (as : List Term) {r : SteppedAmong} {s s' : Store}, R.quietAll as = true →
      stepAmong R as s = .ok (some r) s' → r.cost = 0 →
      R.quietAll r.terms = true ∧ pendingAll r.terms < pendingAll as
  | [], r, s, s', _, h, _ => by
    unfold stepAmong at h
    cases h
  | a :: as, r, s, s', hq, h, hc => by
    rw [R.quietAll_cons, Bool.and_eq_true] at hq
    unfold stepAmong at h
    obtain ⟨a', s₁, hs, h⟩ := Engine.bind_ok_iff.mp h
    cases a' with
    | some a' =>
      cases h
      obtain ⟨ha, hp⟩ := pending_step a hq.1 hs hc
      simp only [pendingAll, R.quietAll_cons, Bool.and_eq_true]
      exact ⟨⟨ha, hq.2⟩, by omega⟩
    | none =>
      obtain ⟨as', s₂, hs, h⟩ := Engine.bind_ok_iff.mp h
      cases as' with
      | some as' =>
        cases h
        obtain ⟨has, hp⟩ := pending_stepAmong as hq.2 hs hc
        simp only [pendingAll, R.quietAll_cons, Bool.and_eq_true]
        exact ⟨⟨hq.1, has⟩, by omega⟩
      | none => cases h

end

end Term

end Combinatory
