import Combinatory.Proofs.Assembly
import Combinatory.Proofs.Completeness
import Combinatory.Proofs.Nameless.Canonical

/-!
# Equal terms cannot be told apart

Two terms without names that are equal have the same skeleton, and what the engine does to either is
the computation of that skeleton. So runs of the two take as many steps and end alike, and searches
for their canonical forms find the same, for all budgets, whatever a caller has done before either.
The terms may differ in all identities that the engine has given out, and it may remember much of
the one and nothing of the other.
-/

namespace Combinatory

open Relation (ReflTransGen)
open Engine (Computes)

/-! ### Outcomes of two computations -/

/-- Two failures that differ at most in which of two terms they report. -/
inductive Failure.Matches (t u : Term) : Failure → Failure → Prop where
  | same (e : Failure) : Matches t u e e
  | run (budget : Amount) : Matches t u (.runOutOfSteps t budget) (.runOutOfSteps u budget)
  | canonical (args steps : Amount) :
    Matches t u (.canonicalNotFound t args steps) (.canonicalNotFound u args steps)

/-- Two computations both have a result, and the results belong together, or both fail for the same
cause, which may report either term. -/
inductive Engine.SameOutcome {α : Type} (t u : Term) (Q : α → Store → α → Store → Prop) :
    EStateM.Result Failure Store α → EStateM.Result Failure Store α → Prop where
  | ok {a b : α} {s s' : Store} (h : Q a s b s') : SameOutcome t u Q (.ok a s) (.ok b s')
  | error {e e' : Failure} {s s' : Store} (h : e.Matches t u e') :
    SameOutcome t u Q (.error e s) (.error e' s')

/-- Two terms are equal whenever that is asked, from two moments on. -/
def Term.EqualFrom (t : Term) (s : Store) (u : Term) (s' : Store) : Prop :=
  ∀ R s₁, s ≤ s₁ → s' ≤ s₁ → ∃ s₂, t.equal R u s₁ = .ok true s₂

/-- Two runs end after as many steps, with equal terms, both final or neither. -/
structure Run.Agrees (out : Run) (s : Store) (out' : Run) (s' : Store) : Prop where
  steps : out.steps = out'.steps
  final : out.final = out'.final
  term : out.term.EqualFrom s out'.term s'

/-- Two searches for a canonical form spend as many steps. If one finds a form, so does the other,
and the same is told of both; the forms or guesses are equal, if there are any. -/
structure Canonicalization.Agrees (c : Canonicalization) (s : Store) (c' : Canonicalization)
    (s' : Store) : Prop where
  steps : c.steps = c'.steps
  traits : c.form?.map CanonicalForm.traits = c'.form?.map CanonicalForm.traits
  canonical : Option.Rel (fun u u' => u.EqualFrom s u' s') c.canonical c'.canonical

variable {α β γ : Type} {t u : Term} {s s' : Store}

/-- Two computations of one value have the same outcome. -/
theorem Engine.Computes.sameOutcome {x y : Engine α} {r : Except Failure β}
    {P Q : β → α → Store → Prop} {S : α → Store → α → Store → Prop} (hx : Computes x s r P)
    (hy : Computes y s' r Q) (h : ∀ b a s₁ a' s₂, P b a s₁ → Q b a' s₂ → S a s₁ a' s₂) :
    SameOutcome t u S (x s) (y s') := by
  cases r with
  | ok b =>
    obtain ⟨a, s₁, hx, -, hp⟩ := hx
    obtain ⟨a', s₂, hy, -, hq⟩ := hy
    rw [hx, hy]
    exact .ok (h b a s₁ a' s₂ hp hq)
  | error e =>
    obtain ⟨s₁, hx⟩ := hx
    obtain ⟨s₂, hy⟩ := hy
    rw [hx, hy]
    exact .error (.same e)

/-- Sequences have the same outcome, part by part. -/
theorem Engine.SameOutcome.bind {x y : Engine α} {f g : α → Engine γ}
    {S : α → Store → α → Store → Prop} {Q : γ → Store → γ → Store → Prop}
    (h : SameOutcome t u S (x s) (y s'))
    (hf : ∀ a s₁ a' s₂, S a s₁ a' s₂ → SameOutcome t u Q (f a s₁) (g a' s₂)) :
    SameOutcome t u Q ((x >>= f) s) ((y >>= g) s') := by
  generalize hx : x s = r at h
  generalize hy : y s' = r' at h
  cases h with
  | ok h =>
    rw [Engine.bind_of_ok hx, Engine.bind_of_ok hy]
    exact hf _ _ _ _ h
  | error h =>
    rw [Engine.bind_of_error hx, Engine.bind_of_error hy]
    exact .error h

/-! ### Terms of one skeleton -/

namespace Term

/-- Regular terms are equal from then on if they have the same skeleton. -/
theorem Regular.equalFrom {U : Prop} (ht : t.Regular U ∅ s) (hu : u.Regular U ∅ s')
    (same : t.SameSkeleton u) : t.EqualFrom s u s' := by
  intro R s₁ hs hs'
  obtain ⟨answer, s₂, hr, -, -, -, hanswer⟩ := gives_equal (R := R) (ht.later hs) (hu.later hs')
  exact ⟨s₂, hanswer.mpr same ▸ hr⟩

theorem Shaped.equalFrom {x : Skeleton} (ht : Shaped .free x t s) (hu : Shaped .free x u s') :
    t.EqualFrom s u s' :=
  ht.plain.equalFrom hu.plain (ht.skeleton.trans hu.skeleton.symm)

theorem Shaped.equalFrom_any {o : Option Skeleton} {a b : Option Term}
    (ha : ShapedAny .free o a s) (hb : ShapedAny .free o b s') :
    Option.Rel (fun u u' => EqualFrom u s u' s') a b := by
  cases ha with
  | none =>
    cases hb
    exact .none
  | some ha =>
    cases hb with
    | some hb => exact .some (ha.equalFrom hb)

variable {R : Rules} {Γ Δ : Scope} {x : Skeleton} {p q : Twins}

/-- A run that is to be strict is a run whose outcome is examined. -/
theorem run_strict (R : Rules) (budget : Amount) (t : Term) (args : List Term) :
    run R budget t args true = run R budget t args false >>= fun out =>
      if out.final then pure out else throw (.runOutOfSteps t budget) := by
  have examined (x : Engine Run) : (do
      let out ← x
      if true && !out.final then throw (Failure.runOutOfSteps t budget)
      return out : Engine Run) = x >>= fun out =>
        if out.final then pure out else throw (.runOutOfSteps t budget) := by
    refine bind_congr fun out => ?_
    cases out.final <;> rfl
  have unexamined (x : Engine Run) : (do
      let out ← x
      if false && !out.final then throw (Failure.runOutOfSteps t budget)
      return out : Engine Run) = x := by
    simp
  unfold run
  rw [bind_assoc]
  refine bind_congr fun start => ?_
  rw [bind_assoc]
  refine bind_congr fun bound => (examined _).trans ?_
  exact congrArg (· >>= _) (unexamined _).symm

/-- Runs of terms of one skeleton have the same outcome. -/
theorem Held.sameOutcome_run (ht : Held Γ .free x t p) (hu : Held Δ .free x u q) (budget : Amount)
    (strict : Bool) :
    Engine.SameOutcome t u Run.Agrees (run R budget t [] strict p.left)
      (run R budget u [] strict q.left) := by
  have lenient : Engine.SameOutcome t u Run.Agrees (run R budget t [] false p.left)
      (run R budget u [] false q.left) := by
    refine (computes_run budget ht).sameOutcome (computes_run budget hu) ?_
    rintro c out _ out' _ ⟨p', -, rfl, hend⟩ ⟨q', -, rfl, hend'⟩
    exact ⟨hend.steps.trans hend'.steps.symm, hend.final.trans hend'.final.symm,
      hend.term.shaped.equalFrom hend'.term.shaped⟩
  cases strict with
  | false => exact lenient
  | true =>
    rw [run_strict, run_strict]
    apply lenient.bind
    intro out s₁ out' s₂ h
    rw [h.final]
    split
    · exact .ok h
    · exact .error (.run budget)

/-- Searches for the canonical forms of terms of one skeleton have the same outcome. -/
theorem Held.sameOutcome_canonicalize (ht : Held Γ .free x t p) (hu : Held Δ .free x u q)
    (budget : Budget) (strict : Bool) :
    Engine.SameOutcome t u Canonicalization.Agrees (canonicalize R budget t strict p.left)
      (canonicalize R budget u strict q.left) := by
  cases strict with
  | false =>
    refine (computes_canonicalize budget (Nat.le_max_left t.size u.size) ht).sameOutcome
      (computes_canonicalize budget (Nat.le_max_right t.size u.size) hu) fun f c s₁ c' s₂ h h' => ?_
    cases h with
    | found h =>
      cases h' with
      | found h' =>
        exact ⟨rfl, congrArg some (h.traits.trans h'.traits.symm), .some (h.term.equalFrom h'.term)⟩
    | notFound h =>
      cases h' with
      | notFound h' => exact ⟨rfl, rfl, Shaped.equalFrom_any h h'⟩
  | true =>
    let S : Option CanonicalForm × Nat → Store → Option CanonicalForm × Nat → Store → Prop :=
      fun o s o' s' => ∃ r, Finds .free r o s ∧ Finds .free r o' s'
    have searched : Engine.SameOutcome t u S (search R budget t p.left)
        (search R budget u q.left) := by
      refine (computes_search budget ht).sameOutcome (computes_search budget hu) ?_
      rintro r o _ o' _ ⟨_, -, rfl, h⟩ ⟨_, -, rfl, h'⟩
      exact ⟨r, h, h'⟩
    unfold canonicalize
    apply searched.bind
    rintro ⟨o, n⟩ s₁ ⟨o', n'⟩ s₂ ⟨⟨r, m⟩, found, found'⟩
    obtain ⟨h, hn⟩ := found
    obtain ⟨h', hn'⟩ := found'
    dsimp only at h hn h' hn'
    cases h with
    | none =>
      cases h'
      exact .error (.canonical budget.args budget.steps)
    | some h =>
      cases h' with
      | some h' =>
        exact .ok ⟨hn.trans hn'.symm, congrArg some (h.traits.trans h'.traits.symm),
          .some (h.term.equalFrom h'.term)⟩

end Term

namespace Workspace

variable {w w' : Workspace} {ts : List Term} {p : Twins}

/-- A term without names that was built is at hand. -/
theorem Mirrors.holds (hp : Mirrors p w) (hts : Builds w.store ts) (ht : t ∈ ts)
    (hmem : t ∈ w.terms) (plain : t.pending = 0) :
    t.Held (.ofFree { v | t.occurs v = true }) .free (t.skeleton .free) p := by
  have fits := hts.fits ht
  have known := Term.recordedAll_iff.mp hp.known t hmem
  refine ⟨?_, ⟨?_, rfl⟩, ?_, known.isPure_of_fits fits⟩ <;> rw [hp.left]
  · exact hts.sealed ht
  · exact hts.regular ht plain
  · exact fits

/-- It stays at hand whatever a caller does next. -/
theorem Mirrors.held (hp : Mirrors p w) (hts : Builds w.store ts) (ht : t ∈ ts)
    (hmem : t ∈ w.terms) (plain : t.pending = 0) (hm : ReflTransGen Move w w') :
    ∃ p', p'.left = w'.store ∧
      t.Held (.ofFree { v | t.occurs v = true }) .free (t.skeleton .free) p' := by
  obtain ⟨p', hpp', hp'⟩ := hp.moves hm
  exact ⟨p', hp'.left, (hp.holds hts ht hmem plain).later hpp'⟩

/-- Equal terms without names cannot be told apart. Whatever a caller does before either, a run of
the one ends as a run of the other does, and so does a search for its canonical form: after as many
steps, with the same findings and with terms that are equal, or else with the same failure. -/
theorem Reachable.sameOutcome_of_equal {w₁ w₂ : Workspace} {R₀ : Rules} (h : w.Reachable)
    (hts : Builds w.store ts) (ht : t ∈ ts) (hu : u ∈ ts) (htw : t ∈ w.terms) (huw : u ∈ w.terms)
    (ht₀ : t.pending = 0) (hu₀ : u.pending = 0) (hs : w.store ≤ s)
    (equal : t.equal R₀ u s = .ok true s') (h₁ : ReflTransGen Move w w₁)
    (h₂ : ReflTransGen Move w w₂) (R : Rules) (strict : Bool) :
    (∀ budget : Amount, Engine.SameOutcome t u Run.Agrees (t.run R budget [] strict w₁.store)
        (u.run R budget [] strict w₂.store)) ∧
      ∀ budget : Budget, Engine.SameOutcome t u Canonicalization.Agrees
        (t.canonicalize R budget strict w₁.store) (u.canonicalize R budget strict w₂.store) := by
  have same : t.skeleton .free = u.skeleton .free := by
    obtain ⟨answer, s₁, hr, -, -, -, hanswer⟩ := Term.gives_equal (R := R₀)
      ((hts.regular ht ht₀).later hs) ((hts.regular hu hu₀).later hs)
    rw [equal] at hr
    cases hr
    exact hanswer.mp rfl
  obtain ⟨p, hp⟩ := h.exists_twins
  obtain ⟨p₁, left, held₁⟩ := hp.held hts ht htw ht₀ h₁
  obtain ⟨p₂, right, held₂⟩ := hp.held hts hu huw hu₀ h₂
  rw [← same] at held₂
  rw [← left, ← right]
  exact ⟨fun budget => held₁.sameOutcome_run held₂ budget strict,
    fun budget => held₁.sameOutcome_canonicalize held₂ budget strict⟩

end Workspace

/-! ### A lambda that was made twice -/

namespace Passing

/-- The lambda `λ x, x B`, made once more. -/
def again : Term := .lam ⟨"x", 3⟩ (.app 2 (.var ⟨"x", 3⟩) [.native .B])

/-- What is at hand after it was made twice. -/
def both : Workspace := ⟨⟨4, 3, ∅⟩, [x], again :: workspace.terms⟩

theorem abstracted_again : Term.lambdaOver Rules.undeclared true [.var x] body workspace.store =
    .ok again both.store := rfl

theorem builds_both : Builds both.store both.terms :=
  .lambda builds (by simp [workspace]) (by simp [workspace]) abstracted_again

theorem reachable_both : both.Reachable :=
  reachable.lambda (Rules.steadyOver_undeclared _) (by simp [workspace]) abstracted_again

/-- The two are found equal. -/
theorem equal_again : ∃ s, term.equal Rules.undeclared again both.store = .ok true s := by
  obtain ⟨answer, s, hr, -, -, -, hanswer⟩ := Term.gives_equal (R := Rules.undeclared)
    (builds_both.regular (t := term) (by simp [both, workspace]) rfl)
    (builds_both.regular (t := again) (by simp [both]) rfl)
  have same : term.SameSkeleton again := rfl
  exact ⟨s, hanswer.mpr same ▸ hr⟩

/-- The store when `x B` has been found to be in normal form. -/
def knowing : Store := { both.store with settled := both.store.settled.insert 0 }

theorem run_body (R : Rules) :
    body.run R (.number 3) [] false both.store = .ok ⟨body, 0, true⟩ knowing := by
  have normal : body.step R both.store = .ok none knowing := by
    simp [Term.step, Term.stepAmong, Term.reduce, body, knowing, both, Engine.isSettled,
      Engine.settle, bind, EStateM.bind, pure, EStateM.pure]
  exact Term.run_nil_ok_iff.mpr ⟨3, rfl, Term.runFrom_of_normal normal, fun h => by cases h⟩

/-- The application is run after both lambdas were made. -/
theorem move_both : Workspace.Move both ⟨knowing, [x], body :: both.terms⟩ := by
  refine .call (c := .run (.number 3) body [] false) (Rules.steadyOver_undeclared _) ?_
    (Engine.bind_ok_iff.mpr ⟨_, _, run_body _, rfl⟩)
  simp [Call.inputs, both, workspace]

end Passing

/-- The first lambda behaves right away as the second one does when more is known of normal
forms. -/
theorem sameOutcome_of_equal_sample :
    Passing.both.Reachable ∧ Builds Passing.both.store Passing.both.terms ∧
      (∃ s, Passing.term.equal Rules.undeclared Passing.again Passing.both.store = .ok true s) ∧
      Engine.SameOutcome Passing.term Passing.again Run.Agrees
        (Passing.term.run Rules.undeclared (.number 3) [] false Passing.both.store)
        (Passing.again.run Rules.undeclared (.number 3) [] false Passing.knowing) ∧
      Engine.SameOutcome Passing.term Passing.again Canonicalization.Agrees
        (Passing.term.canonicalize Rules.undeclared ⟨.number 3, .number 4⟩ false
          Passing.both.store)
        (Passing.again.canonicalize Rules.undeclared ⟨.number 3, .number 4⟩ false
          Passing.knowing) := by
  have mem : Passing.term ∈ Passing.both.terms := by simp [Passing.both, Passing.workspace]
  obtain ⟨s, equal⟩ := Passing.equal_again
  have alike := Passing.reachable_both.sameOutcome_of_equal Passing.builds_both mem
    List.mem_cons_self mem List.mem_cons_self rfl rfl (Store.le_refl _) equal .refl
    (.single Passing.move_both) Rules.undeclared false
  exact ⟨Passing.reachable_both, Passing.builds_both, ⟨s, equal⟩, alike.1 _, alike.2 _⟩

end Combinatory
