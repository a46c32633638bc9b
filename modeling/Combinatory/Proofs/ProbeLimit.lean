import Combinatory.Proofs.Irrelevance

/-!
# How many probes a search may feed

A search that may feed `m` probes makes at most `m` runs, the first of them before any probe is fed.
So it never runs the term on its last probe, and finds exactly the forms of an arity below `m`: one
more probe must be allowed than the term needs (`Term.canonicalize_found_iff_arity_lt`).
-/

namespace Combinatory

variable {R : Rules} {s s' : Store} {t : Term} {form : CanonicalForm} {k : Nat}

namespace Term

section

variable {maxSteps : Amount} {left : Nat} {vs : List Variable} {spent : Nat}

/-- A form has the probes that were fed before, and is found before the last one that may be fed. -/
theorem arity_of_searchFrom
    (found : t.searchFrom R maxSteps vs spent left s = .ok (some form, k) s') :
    vs.length ≤ form.arity ∧ form.arity < vs.length + left := by
  induction left generalizing t vs spent s with
  | zero => cases found
  | succ left ih =>
    obtain ⟨u, n, s₁, -, ⟨-, hclose, -⟩ | ⟨-, v, s₂, u', s₃, -, -, rest⟩⟩ :=
      searchFrom_found_iff.mp found
    · rw [arity_of_closeProbes hclose]
      omega
    · have later := ih rest
      rw [List.length_append, List.length_singleton] at later
      omega

/-- With any limit above its arity the same form is found. -/
private theorem searchFrom_of_arity_lt
    (found : t.searchFrom R maxSteps vs spent left s = .ok (some form, k) s') {left' : Nat}
    (hlt : form.arity < vs.length + left') :
    t.searchFrom R maxSteps vs spent left' s = .ok (some form, k) s' := by
  induction left generalizing t vs spent s left' with
  | zero => cases found
  | succ left ih =>
    obtain ⟨left', rfl⟩ : ∃ m, left' = m + 1 :=
      ⟨left' - 1, by have := (arity_of_searchFrom found).1; omega⟩
    obtain ⟨u, n, s₁, hrun, next⟩ := searchFrom_found_iff.mp found
    refine searchFrom_found_iff.mpr ⟨u, n, s₁, hrun, ?_⟩
    refine next.imp id fun ⟨awaits, v, s₂, u', s₃, hv, hu', rest⟩ => ?_
    refine ⟨awaits, v, s₂, u', s₃, hv, hu', ih rest ?_⟩
    rw [List.length_append, List.length_singleton]
    omega

end

/-- A form is found with a limit above its arity, and is then always the same. -/
private theorem canonicalize_of_arity_lt {budget : Budget} {strict : Bool}
    (found : t.canonicalize R budget strict s = .ok (.found form k) s') {args : Amount} {m : Int}
    (hm : args.whole? = some m) (hlt : (form.arity : Int) < m) (strict' : Bool) :
    t.canonicalize R ⟨budget.steps, args⟩ strict' s = .ok (.found form k) s' := by
  obtain ⟨n, -, hsearch⟩ := canonicalize_found_iff.mp found
  refine canonicalize_found_iff.mpr ⟨m, hm, searchFrom_of_arity_lt hsearch ?_⟩
  rw [List.length_nil]
  omega

/-- The arity of a form that is found is below the limit. -/
theorem arity_lt_of_canonicalize {budget : Budget} {strict : Bool}
    (found : t.canonicalize R budget strict s = .ok (.found form k) s') {m : Int}
    (hm : budget.args.whole? = some m) : (form.arity : Int) < m := by
  obtain ⟨_, hm', hsearch⟩ := canonicalize_found_iff.mp found
  obtain rfl : m = _ := Option.some.inj (hm.symm.trans hm')
  have below := (arity_of_searchFrom hsearch).2
  rw [List.length_nil] at below
  omega

/-- Where a form is found with some limit of probes, a search with another limit finds one exactly
when the limit is above the arity of that form, and then finds the same: as many probes as the term
needs are not enough. -/
theorem canonicalize_found_iff_arity_lt {budget : Budget} {strict : Bool}
    (found : t.canonicalize R budget strict s = .ok (.found form k) s') (args : Amount) {m : Int}
    (hm : args.whole? = some m) (strict' : Bool) (form' : CanonicalForm) (k' : Nat) (s'' : Store) :
    t.canonicalize R ⟨budget.steps, args⟩ strict' s = .ok (.found form' k') s'' ↔
      (form.arity : Int) < m ∧ form' = form ∧ k' = k ∧ s'' = s' := by
  constructor
  · intro found'
    obtain ⟨n, hn, -⟩ := canonicalize_found_iff.mp found
    have below := arity_lt_of_canonicalize found hn
    have below' := arity_lt_of_canonicalize found' hm
    -- with the larger of the two limits both forms are found
    have largest : (Amount.number (max m n)).whole? = some (max m n) := rfl
    have both := canonicalize_of_arity_lt found largest (by omega) true
    have both' := canonicalize_of_arity_lt found' largest (by omega) true
    rw [both] at both'
    cases both'
    exact ⟨below', rfl, rfl, rfl⟩
  · rintro ⟨hlt, rfl, rfl, rfl⟩
    exact canonicalize_of_arity_lt found hm hlt strict'

end Term

namespace Workspace

/-- The combinator that drops the second of two arguments needs two probes, and is found with nine,
but not with two. -/
theorem canonicalize_found_iff_arity_lt_dropping :
    (∃ s, (Term.native .K).canonicalize Rules.undeclared ⟨.number 1, .number 9⟩ true
      Dropping.workspace.store = .ok (.found Dropping.form 1) s) ∧
    ∀ form k s, (Term.native .K).canonicalize Rules.undeclared ⟨.number 1, .number 2⟩ true
      Dropping.workspace.store ≠ .ok (.found form k) s := by
  constructor
  · exact ⟨_, (Term.canonicalize_found_iff_arity_lt Dropping.found (.number 9) rfl true
      _ _ _).mpr ⟨by decide, rfl, rfl, rfl⟩⟩
  · intro form k s found
    exact absurd ((Term.canonicalize_found_iff_arity_lt Dropping.found (.number 2) rfl true
      _ _ _).mp found).1 (by decide)

/-- The identity needs one probe, and a search that may feed one probe does not find it: the only
run is made before the probe is fed. -/
theorem not_found_with_arity :
    Identity.form.arity = 1 ∧
    (Term.native .I).canonicalize Rules.undeclared ⟨.number 1, .number 2⟩ true
        Identity.workspace.store = .ok (.found Identity.form 1) Identity.searched.store ∧
      ∀ strict form k s, (Term.native .I).canonicalize Rules.undeclared ⟨.number 1, .number 1⟩
        strict Identity.workspace.store ≠ .ok (.found form k) s := by
  refine ⟨rfl, Identity.found, fun strict form k s found => ?_⟩
  obtain ⟨_, ⟨⟩, hsearch⟩ := Term.canonicalize_found_iff.mp found
  obtain ⟨u, n, s₁, hrun, next⟩ := Term.searchFrom_found_iff.mp hsearch
  have first : (Term.native .I).run Rules.undeclared (.number 1) [] false
      Identity.workspace.store = .ok ⟨.native .I, 0, true⟩ Identity.workspace.store :=
    Term.run_nil_ok_iff.mpr ⟨1, rfl, Term.runFrom_of_normal rfl, nofun⟩
  rw [first] at hrun
  cases hrun
  rcases next with ⟨done, -⟩ | ⟨-, v, s₂, w, s₃, -, -, rest⟩
  · cases done
  · cases rest

end Workspace

end Combinatory
