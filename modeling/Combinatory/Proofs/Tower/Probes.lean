import Combinatory.Canonical
import Combinatory.Proofs.Combination.Symbols
import Combinatory.Proofs.Tower
import Mathlib.Data.List.Nodup

/-!
# Probes

A search runs a term and feeds it distinct new variables, one after another, until what a run ends
with awaits no more (`searchFrom_found_iff`). This is closed over the variables, which makes a tower
that takes an argument for each.
-/

namespace Combinatory

open Engine (Yields)

/-- Distinct variables that have been minted. -/
structure Probes (s : Store) (vs : List Variable) : Prop where
  minted : ∀ v ∈ vs, s.Minted v
  nodup : vs.Nodup

namespace Probes

variable {s s' : Store} {vs : List Variable} {v : Variable}

theorem nil : Probes s [] := ⟨fun _ hv => (List.not_mem_nil hv).elim, .nil⟩

theorem later (h : Probes s vs) (hs : s ≤ s') : Probes s' vs :=
  ⟨fun v hv => (h.minted v hv).mono hs, h.nodup⟩

/-- A new variable is one more probe. -/
theorem concat (h : Probes s vs) (hs : s ≤ s') (hv : ¬ s.Minted v) (hm : s'.Minted v) :
    Probes s' (vs ++ [v]) where
  minted w hw := by
    rcases List.mem_append.mp hw with hw | hw
    · exact (h.minted w hw).mono hs
    · rw [List.mem_singleton.mp hw]
      exact hm
  nodup := by
    refine List.nodup_append.mpr ⟨h.nodup, List.nodup_singleton v, fun w hw x hx => ?_⟩
    rw [List.mem_singleton.mp hx]
    rintro rfl
    exact hv (h.minted w hw)

end Probes

namespace Term

variable {Γ : Scope} {s : Store} {R : Rules}

/-- A search feeds as many probes as are allowed. -/
theorem search_ok_iff {budget : Budget} {t : Term} {r : Option CanonicalForm × Nat}
    {s s' : Store} : search R budget t s = .ok r s' ↔ ∃ n, budget.args.whole? = some n ∧
      searchFrom R budget.steps t [] 0 n.toNat s = .ok r s' := by
  unfold search Engine.whole
  cases budget.args.whole? with
  | none => exact ⟨nofun, nofun⟩
  | some m => simp

/-- A canonical form is found exactly when feeding as many probes as are allowed comes to it. -/
theorem canonicalize_found_iff {budget : Budget} {t : Term} {strict : Bool} {form : CanonicalForm}
    {k : Nat} {s s' : Store} :
    canonicalize R budget t strict s = .ok (.found form k) s' ↔
      ∃ n, budget.args.whole? = some n ∧
        searchFrom R budget.steps t [] 0 n.toNat s = .ok (some form, k) s' := by
  rw [← search_ok_iff]
  unfold canonicalize
  constructor
  · intro h
    obtain ⟨⟨_ | form', k'⟩, s₁, hs, h⟩ := Engine.bind_ok_iff.mp h
    · -- a failed search is answered with a guess
      dsimp only at h
      split at h
      · cases h
      · obtain ⟨guess, s₂, -, h⟩ := Engine.bind_ok_iff.mp h
        cases h
    · cases h
      exact hs
  · intro hs
    exact Engine.bind_ok_iff.mpr ⟨_, s', hs, rfl⟩

/-- A search finds a form exactly when a run of the term ends, and either what it ends with awaits
no arguments and is closed over the probes, or the form is found after one more probe. -/
theorem searchFrom_found_iff {maxSteps : Amount} {t : Term} {vs : List Variable}
    {spent left k : Nat} {form : CanonicalForm} {s s' : Store} :
    searchFrom R maxSteps t vs spent (left + 1) s = .ok (some form, k) s' ↔
      ∃ u n s₁, run R maxSteps t [] false s = .ok ⟨u, n, true⟩ s₁ ∧
        (u.awaitsArgs = false ∧ closeProbes R vs u s₁ = .ok form s' ∧ spent + n = k ∨
          u.awaitsArgs = true ∧ ∃ v s₂ w s₃,
            Engine.freshVariable (Probe.name vs.length) s₁ = .ok v s₂ ∧
            apply R u [var v] s₂ = .ok w s₃ ∧
            searchFrom R maxSteps w (vs ++ [v]) (spent + n) left s₃ = .ok (some form, k) s') := by
  conv => lhs; unfold searchFrom
  constructor
  · intro h
    obtain ⟨⟨u, n, final⟩, s₁, hrun, h⟩ := Engine.bind_ok_iff.mp h
    cases final with
    | false => cases h
    | true =>
      refine ⟨u, n, s₁, hrun, ?_⟩
      cases hawaits : u.awaitsArgs with
      | false =>
        rw [hawaits] at h
        obtain ⟨form', s₂, hclose, h⟩ := Engine.bind_ok_iff.mp h
        cases h
        exact .inl ⟨rfl, hclose, rfl⟩
      | true =>
        rw [hawaits] at h
        obtain ⟨v, s₂, hv, h⟩ := Engine.bind_ok_iff.mp h
        obtain ⟨w, s₃, hw, h⟩ := Engine.bind_ok_iff.mp h
        exact .inr ⟨rfl, v, s₂, w, s₃, hv, hw, h⟩
  · rintro ⟨u, n, s₁, hrun, h⟩
    refine Engine.bind_ok_iff.mpr ⟨_, s₁, hrun, ?_⟩
    rcases h with ⟨done, hclose, rfl⟩ | ⟨awaits, v, s₂, w, s₃, hv, hw, h⟩
    · simp only [done, Bool.not_true, Bool.false_eq_true, if_false, Bool.not_false, if_true]
      exact Engine.bind_ok_iff.mpr ⟨form, s', hclose, rfl⟩
    · simp only [awaits, Bool.not_true, Bool.false_eq_true, if_false]
      exact Engine.bind_ok_iff.mpr ⟨v, s₂, hv, Engine.bind_ok_iff.mpr ⟨w, s₃, hw, h⟩⟩

/-- The arity of a form is the number of its probes. -/
theorem arity_of_closeProbes {vs : List Variable} {t : Term} {form : CanonicalForm} {s s' : Store}
    (h : closeProbes R vs t s = .ok form s') : form.arity = vs.length := by
  unfold closeProbes at h
  obtain ⟨symbols, s₁, -, h⟩ := Engine.bind_ok_iff.mp h
  obtain ⟨u, s₂, -, h⟩ := Engine.bind_ok_iff.mp h
  cases h
  rfl

/-- What the closure of a result over probes is: a tower that gives the result with arguments in
place of the probes. -/
structure ClosedOver (Γ : Scope) (s : Store) (vs : List Variable) (r : Combination)
    (form : CanonicalForm) : Prop where
  arity : form.arity = vs.length
  tower : form.term.IsTower vs.length
  fits : form.term.Fits Γ s
  applied : ∀ σ xs, vs.length ≤ xs.length → form.term.applied σ xs =
    (r.subst (passed σ vs xs)).apps (xs.drop vs.length)

/-- A result is closed over the probes. -/
theorem yields_closeProbes {vs : List Variable} {t : Term} (hΓ : Γ.Minted s) (hvs : Probes s vs)
    (hfits : t.Fits (Γ.seeAll vs) s) (ht : t.IsCombination) :
    Yields (closeProbes R vs t) s fun form s' => ClosedOver Γ s' vs t.combination form := by
  unfold closeProbes
  rw [ht.counted_eq, pure_bind]
  have closed := (yields_abstractAll vs hΓ hvs.minted hfits ht).ensured
    (ensures_abstractAll (η := True) R vs hΓ hvs.minted (.self hfits))
  apply closed.bind
  rintro u s₁ - ⟨⟨htower, happlied⟩, hmeant⟩
  exact .pure ⟨rfl, htower, hmeant.fits, happlied⟩

end Term

end Combinatory
