import Combinatory.Numeral
import Combinatory.Proofs.Building
import Combinatory.Proofs.Meaning.Bracket
import Combinatory.Proofs.Meaning.LambdaForm
import Mathlib

/-!
# What every computation keeps

Whatever has been built, and whatever the budgets: running a term, walking through its reduction,
compiling it, and searching for its canonical form or for lighter lambda forms gives terms that are
convertible to it and have no free variables beside its own. Reduction needs no eta steps for this.
The theorems are about all histories of constructions, and each is shown at work on `(λ x y, x) y`,
where a substitution that captured variables would give the identity.
-/

namespace Combinatory

open LambdaTerm (BetaEq BetaEtaEq)

/-! ### A term with a variable to capture -/

namespace Sample

/-- The variable that must stay free. -/
def y : Variable := ⟨"y", 2⟩

/-- The lambda `λ x y, x`. -/
def constant : Term := .lam ⟨"x", 4⟩ (.lam ⟨"y", 5⟩ (.var ⟨"x", 4⟩))

/-- The application `(λ x y, x) y` to a free variable. -/
def term : Term := .app 0 constant [.var y]

/-- The store that the engine has reached when the term is built. -/
def store : Store := ⟨6, 1, ∅⟩

/-- What the sample runs to, applied to a probe. -/
def fed : Term := .app 1 (.lam ⟨"y", 6⟩ (.var y)) [.var ⟨"a", 7⟩]

/-- All terms built on the way. -/
def built : List Term := [term, constant, .var y, .var ⟨"x", 1⟩]

/-- The limits of the computations shown. -/
def limits : Budget := ⟨.number 5, .number 2⟩

/-- The sample is built like any other term, and the abstraction mints its binders. -/
theorem builds : Builds store built := by
  have free : Builds ⟨3, 0, ∅⟩ [.var y, .var ⟨"x", 1⟩] := .mint (.mint .start rfl) rfl
  have abstracted : Term.lambdaOver (.plain 0) true [.var ⟨"x", 1⟩, .var y] (.var ⟨"x", 1⟩)
      ⟨3, 0, ∅⟩ = .ok constant ⟨6, 0, ∅⟩ := by
    simp [y, constant, Term.lambdaOver, Term.lambdas, Term.distinctBinders, Term.abstractAll,
      Term.abstract, Term.close, Term.rebuildDepth, Term.lambdaDepth, Term.closeWithin,
      Rules.hookDepth, Term.replace, Term.isNull, Term.literal?, Engine.freshVariable, bind,
      EStateM.bind, Except.bind, pure, EStateM.pure, Except.pure, MonadExcept.ofExcept]
  have lambda : Builds ⟨6, 0, ∅⟩ [constant, .var y, .var ⟨"x", 1⟩] :=
    .lambda free (by simp) (by simp) abstracted
  have applied : constant.apply (.plain 0) [.var y] ⟨6, 0, ∅⟩ = .ok term store := rfl
  exact .apply lambda (by simp) (by simp) applied

/-- An application that fires once and is normal then is run to what it gives. -/
private theorem run_eq {h u : Term} {as : List Term} {n m : Nat} {i i' : Int} {s : Store}
    (hu : Term.reduce (.plain 0) h as ⟨i, m, ∅⟩ = .ok (some u) ⟨i', m, ∅⟩)
    (hn : Term.step (.plain 0) u ⟨i', m, ∅⟩ = .ok none s) :
    Term.run (.plain 0) limits.steps (.app n h as) [] false ⟨i, m, ∅⟩ = .ok ⟨u, 1, true⟩ s := by
  have step : Term.step (.plain 0) (.app n h as) ⟨i, m, ∅⟩ = .ok (some ⟨u, 1⟩) ⟨i', m, ∅⟩ := by
    simp [Term.step, bind, EStateM.bind, Engine.isSettled, hu, pure, EStateM.pure]
  have ran : Term.runFrom (.plain 0) 5 (.app n h as) 0 Term.patience ⟨i, m, ∅⟩ =
      .ok ⟨u, 1, true⟩ s := by
    rw [Term.runFrom_of_step (by decide) step Nat.one_ne_zero, Term.runFrom_of_normal hn]
    rfl
  simp [Term.run, Term.apply_nil, bind, EStateM.bind, pure, EStateM.pure, limits, Engine.bound,
    Amount.bound?, Amount.whole?, ran]

/-- The argument is not captured. -/
private theorem run_term : Term.run (.plain 0) limits.steps term [] false store =
    .ok ⟨.lam ⟨"y", 6⟩ (.var y), 1, true⟩ ⟨7, 1, ∅⟩ := by
  have fired : Term.reduce (.plain 0) constant [.var y] store =
      .ok (some (.lam ⟨"y", 6⟩ (.var y))) ⟨7, 1, ∅⟩ := by cbv
  exact run_eq fired rfl

end Sample

/-! ### Reduction -/

variable {s s' : Store} {ts : List Term} {t : Term}

/-- Reduction keeps the meaning and captures no variable: what a run ends with is beta convertible
to the term and has no free variables beside those of the term, and so is every term of a walk,
whether the walk is listed up to a limit or as a whole. -/
theorem Builds.keepsMeaning_reduction (h : Builds s ts) (ht : t ∈ ts) (R : Rules) :
    (∀ budget strict out s', t.run R budget [] strict s = .ok out s' →
      t.KeepsMeaning BetaEq out.term) ∧
    (∀ budget limit l s', t.walk R budget limit .ok s = .ok l s' →
      ∀ r ∈ l.items, t.KeepsMeaning BetaEq r.term) ∧
    ∀ budget l s', t.trace R budget .ok s = .ok l s' →
      ∀ r ∈ l.items, t.KeepsMeaning BetaEq r.term := by
  have scope := h.sealed ht
  have means := Means.self (η := False) (h.fits ht)
  refine ⟨?_, ?_, ?_⟩
  · intro budget strict out s' hrun
    obtain ⟨-, hout⟩ := Term.ensures_run R budget strict scope means .nil out s' hrun
    exact hout.keepsMeaning
  · intro budget limit l s' hwalk r hr
    obtain ⟨r, s₀, ⟨⟩, hr⟩ := Term.shows_of_mem_walk scope means hwalk hr
    exact hr.keepsMeaning
  · intro budget l s' htrace r hr
    obtain ⟨r, s₀, ⟨⟩, hr⟩ := Term.shows_of_mem_trace scope means htrace hr
    exact hr.keepsMeaning

/-- The sample runs to a lambda over another variable. -/
theorem keepsMeaning_reduction_sample :
    Builds Sample.store Sample.built ∧ Sample.term ∈ Sample.built ∧
      Sample.term.KeepsMeaning BetaEq (.lam ⟨"y", 6⟩ (.var Sample.y)) := by
  have mem : Sample.term ∈ Sample.built := List.mem_cons_self
  have kept := Sample.builds.keepsMeaning_reduction mem (.plain 0)
  exact ⟨Sample.builds, mem, kept.1 _ _ _ _ Sample.run_term⟩

/-! ### Conversions -/

/-- The bracket form of a term is beta-eta convertible to it and has no free variables beside those
of the term, at every budget and with all limits. -/
theorem Builds.keepsMeaning_bracketForm (h : Builds s ts) (ht : t ∈ ts) {R : Rules}
    {limits : Budget} {maxSteps : Amount} {u : Term}
    (hu : t.bracketForm R limits maxSteps s = .ok u s') : t.KeepsMeaning BetaEtaEq u := by
  have ensured := Term.ensures_bracketForm (η := True) R trivial limits maxSteps (h.sealed ht)
    (h.fits ht)
  exact (ensured u s' hu).2.keepsMeaning

/-- Compilation of the sample stops in the middle after one elimination. -/
theorem keepsMeaning_bracketForm_sample :
    Builds Sample.store Sample.built ∧ Sample.term ∈ Sample.built ∧
      Sample.term.KeepsMeaning BetaEtaEq
        (.app 3 (.lam ⟨"x", 6⟩ (.app 2 (.native .K) [.var ⟨"x", 6⟩])) [.var Sample.y]) := by
  have mem : Sample.term ∈ Sample.built := List.mem_cons_self
  have compiled : Sample.term.bracketForm (.plain 0) Sample.limits (.number 1) Sample.store =
      .ok (.app 3 (.lam ⟨"x", 6⟩ (.app 2 (.native .K) [.var ⟨"x", 6⟩])) [.var Sample.y])
        ⟨7, 4, ∅⟩ := by cbv
  exact ⟨Sample.builds, mem, Sample.builds.keepsMeaning_bracketForm mem compiled⟩

/-- The canonical form of a term, or else the guess at it, is beta-eta convertible to the term and
has no free variables beside those of the term. -/
theorem Builds.keepsMeaning_canonical (h : Builds s ts) (ht : t ∈ ts) {R : Rules}
    {budget : Budget} {strict : Bool} {c : Canonicalization}
    (hc : t.canonicalize R budget strict s = .ok c s') {u : Term} (hu : c.canonical = some u) :
    t.KeepsMeaning BetaEtaEq u := by
  have ensured := Term.ensures_canonicalize (η := True) R trivial budget strict (h.sealed ht)
    (h.fits ht)
  exact ((ensured c s' hc).2 u hu).keepsMeaning

/-- The canonical form of the sample is a lambda over a probe. -/
theorem keepsMeaning_canonical_sample :
    Builds Sample.store Sample.built ∧ Sample.term ∈ Sample.built ∧
      Sample.term.KeepsMeaning BetaEtaEq (.lam ⟨"a", 8⟩ (.var Sample.y)) := by
  have mem : Sample.term ∈ Sample.built := List.mem_cons_self
  have two : Engine.whole Sample.limits.args Sample.store = .ok 2 Sample.store := rfl
  have probed : Engine.freshVariable "a" ⟨7, 1, ∅⟩ = .ok ⟨"a", 7⟩ ⟨8, 1, ∅⟩ := rfl
  have applied : Term.apply (.plain 0) (.lam ⟨"y", 6⟩ (.var Sample.y)) [.var ⟨"a", 7⟩]
      ⟨8, 1, ∅⟩ = .ok Sample.fed ⟨8, 2, ∅⟩ := rfl
  have fired : Term.reduce (.plain 0) (.lam ⟨"y", 6⟩ (.var Sample.y)) [.var ⟨"a", 7⟩]
      ⟨8, 2, ∅⟩ = .ok (some (.var Sample.y)) ⟨8, 2, ∅⟩ := by cbv
  have ran : Sample.fed.run (.plain 0) Sample.limits.steps [] false ⟨8, 2, ∅⟩ =
      .ok ⟨.var Sample.y, 1, true⟩ ⟨8, 2, ∅⟩ := Sample.run_eq fired rfl
  have closed : Term.closeProbes (.plain 0) [⟨"a", 7⟩] (.var Sample.y) ⟨8, 2, ∅⟩ =
      .ok ⟨.lam ⟨"a", 8⟩ (.var Sample.y), 1, false, false, [0], []⟩ ⟨9, 2, ∅⟩ := by cbv
  have found : Sample.term.canonicalize (.plain 0) Sample.limits true Sample.store =
      .ok (.found ⟨.lam ⟨"a", 8⟩ (.var Sample.y), 1, false, false, [0], []⟩ 2) ⟨9, 2, ∅⟩ := by
    simp [Term.canonicalize, Term.search, Term.searchFrom, bind, EStateM.bind, two,
      Sample.run_term, Probe.name, Probe.letters, probed, applied, ran, closed, Term.awaitsArgs,
      pure, EStateM.pure]
  exact ⟨Sample.builds, mem, Sample.builds.keepsMeaning_canonical mem found rfl⟩

/-- Every lambda form listed for a term is beta-eta convertible to it and has no free variables
beside those of the term. -/
theorem Builds.keepsMeaning_lambdaForms (h : Builds s ts) (ht : t ∈ ts) {R : Rules}
    {budget : Budget} {limit : Option Nat} {l : Listing Candidate}
    (hl : t.lambdaForms R budget limit .ok s = .ok l s') {c : Candidate} (hc : c ∈ l.items) :
    t.KeepsMeaning BetaEtaEq c.term := by
  obtain ⟨c, s₀, ⟨⟩, hc⟩ := Term.shows_of_mem_lambdaForms (η := True) trivial (h.sealed ht)
    (h.fits ht) hl c hc
  exact hc.keepsMeaning

/-- The first lambda form of the sample is a copy with other binders. -/
theorem keepsMeaning_lambdaForms_sample :
    Builds Sample.store Sample.built ∧ Sample.term ∈ Sample.built ∧
      Sample.term.KeepsMeaning BetaEtaEq
        (.app 2 (.lam ⟨"x", 10⟩ (.lam ⟨"y", 11⟩ (.var ⟨"x", 10⟩))) [.var Sample.y]) := by
  have mem : Sample.term ∈ Sample.built := List.mem_cons_self
  have found : Sample.term.lambdaForms (.plain 0) Sample.limits (some 1) .ok Sample.store =
      .ok ⟨[⟨.app 2 (.lam ⟨"x", 10⟩ (.lam ⟨"y", 11⟩ (.var ⟨"x", 10⟩))) [.var Sample.y], 0,
        .inApplication (.inLambda (.inLambda .freeVariables))⟩], none⟩ ⟨12, 3, ∅⟩ := by cbv
  exact ⟨Sample.builds, mem,
    Sample.builds.keepsMeaning_lambdaForms mem found List.mem_cons_self⟩

end Combinatory
