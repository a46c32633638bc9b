import Combinatory.Proofs.Irrelevance
import Combinatory.Proofs.Repetition

/-!
# Answers outlast their budgets

A final run goes along a trail to a stage that has no step, and a larger budget pays for the same
trail. So over one store a final run is the same with any larger budget (`Term.run_mono`), and so is
a search that finds a form, all of whose runs are final (`Term.search_mono`). Made again later, with
budgets that are at least as large, either gives the same answer
(`Workspace.Reachable.agrees_of_le`).
-/

namespace Combinatory

open Relation (ReflTransGen)

variable {R R' : Rules} {s s' : Store} {t : Term}

namespace Term

/-! ### Over one store -/

/-- A trail to a term without a step is what a run goes along. -/
theorem run_of_trail_of_normal (made : t.MadeOf .pure) {budget : Amount} {n : Int}
    (hn : budget.bound? = some n) {l : List Run} {u : Term} {k : Nat} {s₁ : Store}
    (trail : Trail R n ⟨t, 0, s⟩ l ⟨u, k, s₁⟩) (normal : u.step R s₁ = .ok none s')
    (strict : Bool) : t.run R budget [] strict s = .ok ⟨u, k, true⟩ s' := by
  have last : Stage.Last R n ⟨u, k, s₁⟩ := fun r s' hstep => by
    rw [normal] at hstep
    cases hstep
  have ran := run_of_trail (Kinds.closed_pure R) made trail last normal
  obtain ⟨_, ⟨⟩, hfrom, -⟩ := run_nil_ok_iff.mp ran
  exact run_nil_ok_iff.mpr ⟨n, hn, hfrom, fun _ => rfl⟩

/-- A final run is the same with a larger budget. -/
theorem run_mono (made : t.MadeOf .pure) {budget budget' : Amount} {strict strict' : Bool}
    {n n' : Int} (hn : budget.bound? = some n) (hn' : budget'.bound? = some n') (hle : n ≤ n')
    {out : Run} (hrun : t.run R budget [] strict s = .ok out s') (final : out.final = true) :
    t.run R budget' [] strict' s = .ok out s' := by
  obtain ⟨_, l, s₁, hb, trail, normal⟩ :=
    exists_trail_of_final (Kinds.closed_pure R) made hrun final
  obtain rfl : n = _ := Option.some.inj (hn.symm.trans hb)
  obtain ⟨u, k, _⟩ := out
  cases final
  exact run_of_trail_of_normal made hn' (trail.mono hle) normal strict'

/-- What a run ends with is made of the same after it has been fed a probe. -/
theorem madeOf_of_fed (made : t.MadeOf .pure) {maxSteps : Amount} {n : Int}
    (hn : maxSteps.bound? = some n) {out : Run} {s₁ s₂ s₃ : Store}
    (hrun : t.run R maxSteps [] false s = .ok out s₁) {v : Variable} {w : Term}
    (hw : out.term.apply R [var v] s₂ = .ok w s₃) : w.MadeOf .pure := by
  have ended : out.term.MadeOf .pure :=
    (ends_run_lenient (Kinds.closed_pure R) hn made .nil).of_ok hrun
  have probe : MadeOfAll .pure [var v] := .cons (t := var v) trivial .nil
  exact (ends_apply_madeOf (Kinds.closed_pure R) ended probe).of_ok hw

private theorem searchFrom_mono {maxSteps maxSteps' : Amount} {n n' : Int}
    (hn : maxSteps.bound? = some n) (hn' : maxSteps'.bound? = some n') (hle : n ≤ n')
    {left left' : Nat} (hleft : left ≤ left') {vs : List Variable} {spent k : Nat}
    {form : CanonicalForm} (made : t.MadeOf .pure)
    (found : t.searchFrom R maxSteps vs spent left s = .ok (some form, k) s') :
    t.searchFrom R maxSteps' vs spent left' s = .ok (some form, k) s' := by
  induction left generalizing t vs spent left' s with
  | zero => cases found
  | succ left ih =>
    obtain ⟨left', rfl⟩ : ∃ m, left' = m + 1 := ⟨left' - 1, by omega⟩
    obtain ⟨u, i, s₁, hrun, next⟩ := searchFrom_found_iff.mp found
    refine searchFrom_found_iff.mpr ⟨u, i, s₁, run_mono made hn hn' hle hrun rfl, ?_⟩
    refine next.imp id fun ⟨awaits, v, s₂, w, s₃, hv, hw, rest⟩ => ?_
    have fed : w.MadeOf .pure := madeOf_of_fed made hn hrun hw
    exact ⟨awaits, v, s₂, w, s₃, hv, hw, ih (Nat.le_of_succ_le_succ hleft) fed rest⟩

/-- A search that finds a form is the same with larger limits. -/
theorem search_mono (made : t.MadeOf .pure) {budget budget' : Budget} {n n' m m' : Int}
    (hn : budget.steps.bound? = some n) (hn' : budget'.steps.bound? = some n') (hle : n ≤ n')
    (hm : budget.args.whole? = some m) (hm' : budget'.args.whole? = some m') (hargs : m ≤ m')
    {form : CanonicalForm} {k : Nat} (found : t.search R budget s = .ok (some form, k) s') :
    t.search R budget' s = .ok (some form, k) s' := by
  obtain ⟨_, hwhole, found⟩ := search_ok_iff.mp found
  obtain rfl : m = _ := Option.some.inj (hm.symm.trans hwhole)
  exact search_ok_iff.mpr ⟨m', hm',
    searchFrom_mono hn hn' hle (Int.toNat_le_toNat hargs) made found⟩

end Term

/-! ### In later workspaces -/

/-- Two forms are the same up to the identities in them, and the same is told of both. -/
structure CanonicalForm.Agrees (form : CanonicalForm) (s : Store) (form' : CanonicalForm)
    (s' : Store) : Prop where
  traits : form'.traits = form.traits
  left : form.term.Regular True ∅ s
  right : form'.term.Regular True ∅ s'
  same : form.term.SameSkeleton form'.term

namespace CanonicalForm.Agrees

variable {form form' form'' : CanonicalForm} {s₁ s₂ s₃ : Store}

theorem trans (h : form.Agrees s₁ form' s₂) (h' : form'.Agrees s₂ form'' s₃) :
    form.Agrees s₁ form'' s₃ :=
  ⟨h'.traits.trans h.traits, h.left, h'.right, h.same.trans h'.same⟩

/-- Such forms are equal. -/
theorem equalFrom (h : form.Agrees s₁ form' s₂) : form.term.EqualFrom s₁ form'.term s₂ :=
  h.left.equalFrom h.right h.same

end CanonicalForm.Agrees

namespace Workspace

variable {w w₁ w₂ : Workspace} {ts : List Term} {R₁ R₂ : Rules} {n n' : Int} {s₁ : Store}

section

variable (h : w.Reachable) (hts : Builds w.store ts) (ht : t ∈ ts) (hmem : t ∈ w.terms)
  (h₁ : ReflTransGen Move w w₁) (h₂ : ReflTransGen Move w w₂)

include h hts ht hmem h₁ h₂

/-- A final run, made at another time with a budget that is at least as large, agrees with it. -/
theorem Reachable.run_again {steps steps' : Amount} {strict₁ : Bool}
    (hn : steps.bound? = some n) (hn' : steps'.bound? = some n') (hle : n ≤ n') {out : Run}
    (hrun : t.run R₁ steps [] strict₁ w₁.store = .ok out s₁) (final : out.final = true)
    (R₂ : Rules) (strict₂ : Bool) :
    ∃ out' s₂, t.run R₂ steps' [] strict₂ w₂.store = .ok out' s₂ ∧ out.Agrees s₁ out' s₂ := by
  obtain ⟨b, ⟨ρ₁, q₁, hq₁, kept₁⟩, ρ₂, q₂, hq₂, kept₂⟩ := h.exists_kept hts ht hmem h₁ h₂
  have made := kept₁.made
  obtain ⟨out₀, s₀, hrun₀, rfl⟩ :=
    (kept₁.repeats_run R₁ R₁ steps strict₁).exists_base out s₁ (hq₁ ▸ hrun)
  rw [Run.final_renumber] at final
  have hrun₀' : t.run R₁ steps' [] strict₂ b = .ok out₀ s₀ :=
    Term.run_mono made hn hn' hle hrun₀ final
  obtain ⟨_, s₂, hrun₂, rfl⟩ := (kept₂.repeats_run R₁ R₂ steps' strict₂).exists_later _ _ hrun₀'
  rw [hq₂] at hrun₂
  obtain ⟨p₁, hp₁, in₁⟩ := h.exists_searchedIn hts ht hmem h₁
  obtain ⟨p₂, hp₂, in₂⟩ := h.exists_searchedIn hts ht hmem h₂
  refine ⟨_, s₂, hrun₂, rfl, rfl, ?_⟩
  rw [← hp₁] at hrun
  rw [← hp₂] at hrun₂
  have regular₁ := in₁.regular_of_run hrun final
  have regular₂ := in₂.regular_of_run hrun₂ final
  refine regular₁.equalFrom regular₂ ?_
  exact (kept₁.sameSkeleton_run hrun₀).trans (kept₂.sameSkeleton_run hrun₀).symm

/-- A form that is found is found at another time too, with limits that are at least as large. -/
theorem Reachable.canonicalize_again (budget budget' : Budget) {strict₁ : Bool} {m m' : Int}
    (hn : budget.steps.bound? = some n) (hn' : budget'.steps.bound? = some n') (hle : n ≤ n')
    (hm : budget.args.whole? = some m) (hm' : budget'.args.whole? = some m') (hargs : m ≤ m')
    {form : CanonicalForm} {k : Nat}
    (found : t.canonicalize R₁ budget strict₁ w₁.store = .ok (.found form k) s₁) (R₂ : Rules)
    (strict₂ : Bool) :
    ∃ form' s₂, t.canonicalize R₂ budget' strict₂ w₂.store = .ok (.found form' k) s₂ ∧
      form.Agrees s₁ form' s₂ := by
  obtain ⟨b, ⟨ρ₁, q₁, hq₁, kept₁⟩, ρ₂, q₂, hq₂, kept₂⟩ := h.exists_kept hts ht hmem h₁ h₂
  rw [Term.canonicalize_found_iff, ← Term.search_ok_iff] at found
  obtain ⟨⟨o, k₀⟩, s₀, found₀, same⟩ :=
    (kept₁.repeats_search R₁ R₁ budget).exists_base _ s₁ (hq₁ ▸ found)
  obtain ⟨ho, rfl⟩ := Prod.mk.inj same
  obtain ⟨form₀, rfl, rfl⟩ := Option.map_eq_some_iff.mp ho.symm
  have found₀' := Term.search_mono kept₁.made hn hn' hle hm hm' hargs found₀
  obtain ⟨_, s₂, found₂, rfl⟩ := (kept₂.repeats_search R₁ R₂ budget').exists_later _ _ found₀'
  rw [hq₂] at found₂
  obtain ⟨p₁, hp₁, in₁⟩ := h.exists_searchedIn hts ht hmem h₁
  obtain ⟨p₂, hp₂, in₂⟩ := h.exists_searchedIn hts ht hmem h₂
  have regular₁ := in₁.regular_of_search (hp₁.symm ▸ found)
  have regular₂ := in₂.regular_of_search (hp₂.symm ▸ found₂)
  have same := (kept₁.sameSkeleton_search found₀).trans (kept₂.sameSkeleton_search found₀).symm
  refine ⟨form₀.renumber ρ₂, s₂, ?_, rfl, regular₁, regular₂, same⟩
  rw [Term.canonicalize_found_iff, ← Term.search_ok_iff]
  exact found₂

end

/-- Larger budgets never change an answer that was found: whatever a caller has done before either
time, a final run ends with an equal term after as many steps, and a canonical form that is found is
found again, in as many steps, with the same told of an equal form. -/
theorem Reachable.agrees_of_le (h : w.Reachable) (hts : Builds w.store ts) (ht : t ∈ ts)
    (hmem : t ∈ w.terms) (h₁ : ReflTransGen Move w w₁) (h₂ : ReflTransGen Move w w₂)
    (budget budget' : Budget) {n n' m m' : Int} (hn : budget.steps.bound? = some n)
    (hn' : budget'.steps.bound? = some n') (hle : n ≤ n') (hm : budget.args.whole? = some m)
    (hm' : budget'.args.whole? = some m') (hargs : m ≤ m') (R₁ R₂ : Rules)
    (strict₁ strict₂ : Bool) :
    (∀ out s₁, t.run R₁ budget.steps [] strict₁ w₁.store = .ok out s₁ → out.final = true →
      ∃ out' s₂, t.run R₂ budget'.steps [] strict₂ w₂.store = .ok out' s₂ ∧
        out.Agrees s₁ out' s₂) ∧
    ∀ form k s₁, t.canonicalize R₁ budget strict₁ w₁.store = .ok (.found form k) s₁ →
      ∃ form' s₂, t.canonicalize R₂ budget' strict₂ w₂.store = .ok (.found form' k) s₂ ∧
        form'.traits = form.traits ∧ form.term.EqualFrom s₁ form'.term s₂ := by
  refine ⟨fun out s₁ hrun final => h.run_again hts ht hmem h₁ h₂ hn hn' hle hrun final R₂ strict₂,
    fun form k s₁ found => ?_⟩
  obtain ⟨form', s₂, found', agrees⟩ :=
    h.canonicalize_again hts ht hmem h₁ h₂ budget budget' hn hn' hle hm hm' hargs found R₂ strict₂
  exact ⟨form', s₂, found', agrees.traits, agrees.equalFrom⟩

/-- The terms of the sample were built. -/
theorem Dropping.builds : Builds workspace.store workspace.terms :=
  .native (.mint .start rfl) rfl

/-- After the search the caller has the form that was found. -/
theorem Dropping.moves : ReflTransGen Move workspace searched := by
  have performed : Call.perform Rules.undeclared
      (.canonicalize ⟨.number 1, .number 3⟩ (.native .K) true) workspace.store =
        .ok [form.term] searched.store := Engine.bind_ok_iff.mpr ⟨_, _, found, rfl⟩
  exact .single (.call (Rules.steadyOver_undeclared _) (by simp [Call.inputs, workspace]) performed)

/-- The form that is found of the combinator that drops an argument, with one step for each run and
three probes, is found again with nine steps for each run and seven probes. -/
theorem agrees_of_le_dropping :
    Dropping.workspace.Reachable ∧ Builds Dropping.workspace.store Dropping.workspace.terms ∧
      ∃ form s, (Term.native .K).canonicalize Rules.undeclared ⟨.number 9, .number 7⟩ true
          Dropping.searched.store = .ok (.found form 1) s ∧
        form.traits = ⟨2, true, false, [1], []⟩ ∧
        Dropping.form.term.EqualFrom Dropping.searched.store form.term s :=
  ⟨Dropping.reachable, Dropping.builds, (Dropping.reachable.agrees_of_le Dropping.builds
    (t := .native .K) List.mem_cons_self List.mem_cons_self .refl Dropping.moves
    ⟨.number 1, .number 3⟩ ⟨.number 9, .number 7⟩ rfl rfl (by decide) rfl rfl (by decide)
    Rules.undeclared Rules.undeclared true true).2 _ _ _ Dropping.found⟩

end Workspace

end Combinatory
