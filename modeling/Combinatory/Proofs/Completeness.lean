import Combinatory.Proofs.Building
import Combinatory.Proofs.Compilation
import Combinatory.Proofs.Workspace

/-!
# Compilation is complete

Every term that was built is compiled, by all budgets that are large enough, to the same combination
of `S`, `K`, `I` and its own free variables. It does not matter what the engine has done since then,
as long as only idle applications are remembered, which is so whatever calls are made
(`Workspace.Reachable.sane`) and stays so after every compilation.
-/

namespace Combinatory

open LambdaTerm (BetaEtaEq)

/-- Whatever a caller has done, only idle applications are remembered. -/
theorem Workspace.Reachable.sane {w : Workspace} (h : w.Reachable) : w.store.Sane := by
  obtain ⟨p, hp⟩ := h.exists_twins
  exact hp.left ▸ .left p

/-- A term that was built has one combination of `S`, `K`, `I` and its free variables that it is
compiled to by every budget from some budget on, if one step and four arguments may be tried for a
canonical form; and the combination is beta-eta convertible to the term. -/
theorem Builds.bracketForm_complete {s : Store} {ts : List Term} {t : Term} (h : Builds s ts)
    (ht : t ∈ ts) :
    ∃ (N : Nat) (x : Combination), (x.Uses fun c => c.isBase = true) ∧
      (∀ v, x.Mentions v → t.occurs v = true) ∧
      ∀ s₁, s ≤ s₁ → s₁.Sane → ∀ (R : Rules) (limits : Budget), limits.Ample →
        ∀ (maxSteps : Amount) (b : Int), maxSteps.goal? = some b → N ≤ b →
          ∃ u s₂, t.bracketForm R limits maxSteps s₁ = .ok u s₂ ∧ s₁ ≤ s₂ ∧ s₂.Sane ∧
            u.Forms x ∧ t.KeepsMeaning BetaEtaEq u := by
  refine ⟨t.effort + 1, t.ski, (h.fits ht).isBasic_ski, fun v => Term.occurs_of_mentions_ski, ?_⟩
  intro s₁ hs₁ hsane R limits hl maxSteps b hb hle
  have scope := (h.sealed ht).later hs₁
  have fits := (h.fits ht).later hs₁
  obtain ⟨u, s₂, hu, hsane₂, hs₂, hform⟩ :=
    Term.yields_bracketForm (R := R) hl scope.minted fits hb (by omega) hsane
  obtain ⟨-, means⟩ :=
    Term.ensures_bracketForm (η := True) R trivial limits maxSteps scope fits u s₂ hu
  exact ⟨u, s₂, hu, hs₂, hsane₂, hform, means.keepsMeaning⟩

/-! ### A lambda that passes a combinator on -/

namespace Passing

/-- A variable that was asked for. -/
def x : Variable := ⟨"x", 1⟩

/-- The application `x B`. -/
def body : Term := .app 0 (.var x) [.native .B]

/-- The lambda `λ x, x B`. -/
def term : Term := .lam ⟨"x", 2⟩ (.app 1 (.var ⟨"x", 2⟩) [.native .B])

/-- What is at hand after the lambda was made. -/
def workspace : Workspace := ⟨⟨3, 2, ∅⟩, [x], [term, body, .native .B, .var x]⟩

theorem applied : (Term.var x).apply Rules.undeclared [.native .B] ⟨2, 0, ∅⟩ =
    .ok body ⟨2, 1, ∅⟩ := rfl

theorem abstracted : Term.lambdaOver Rules.undeclared true [.var x] body ⟨2, 1, ∅⟩ =
    .ok term ⟨3, 2, ∅⟩ := by
  cbv

theorem builds : Builds workspace.store workspace.terms := by
  have minted : Builds ⟨2, 0, ∅⟩ [.native .B, .var x] := .native (.mint .start rfl) rfl
  have whole : Builds ⟨2, 1, ∅⟩ [body, .native .B, .var x] :=
    .apply minted (by simp) (by simp) applied
  exact .lambda whole (by simp) (by simp) abstracted

theorem reachable : workspace.Reachable := by
  have minted : Workspace.Reachable ⟨⟨2, 0, ∅⟩, [x], [.native .B, .var x]⟩ :=
    (Relation.ReflTransGen.single (.mint (v := x) rfl)).tail (.native .B)
  have whole := minted.apply (Rules.steadyOver_undeclared _) (by simp) applied
  exact whole.lambda (Rules.steadyOver_undeclared _) (by simp) abstracted

/-- One step and four arguments are enough. -/
theorem ample : Budget.Ample ⟨.number 1, .number 4⟩ :=
  ⟨⟨1, rfl, Int.le_refl 1⟩, ⟨4, rfl, Int.le_refl 4⟩⟩

end Passing

/-- The lambda is compiled to one closed combination of `S`, `K` and `I`, once and once more. -/
theorem bracketForm_complete_sample :
    Builds Passing.workspace.store Passing.workspace.terms ∧ Passing.workspace.store.Sane ∧
      ∃ (N : Nat) (x : Combination), (x.Uses fun c => c.isBase = true) ∧ (∀ v, ¬ x.Mentions v) ∧
        ∃ u s u' s', Passing.term.bracketForm Rules.undeclared ⟨.number 1, .number 4⟩ (.number N)
            Passing.workspace.store = .ok u s ∧
          Passing.term.bracketForm Rules.undeclared ⟨.number 1, .number 4⟩ (.number (N + 1)) s =
            .ok u' s' ∧ u.Forms x ∧ u'.Forms x := by
  have sane := Passing.reachable.sane
  have mem : Passing.term ∈ Passing.workspace.terms := List.mem_cons_self
  obtain ⟨N, x, hx, hv, hN⟩ := Passing.builds.bracketForm_complete mem
  obtain ⟨u, s, hu, hs, sane', hform, -⟩ := hN _ (Store.le_refl _) sane Rules.undeclared _
    Passing.ample (.number N) N rfl (Int.le_refl _)
  obtain ⟨u', s', hu', -, -, hform', -⟩ := hN s hs sane' Rules.undeclared _ Passing.ample
    (.number (N + 1)) (N + 1) rfl (by omega)
  refine ⟨Passing.builds, sane, N, x, hx, fun v hmem => ?_, u, s, u', s', hu, hu', hform, hform'⟩
  simpa [Passing.term, Term.occurs, Term.occursAny] using hv v hmem

end Combinatory
