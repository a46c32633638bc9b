import Combinatory.Proofs.Compilation
import Combinatory.Proofs.Nameless.Visiting
import Combinatory.Proofs.Workspace

/-!
# Naive lambda forms of skeletons

The naive form is defined here once more, on skeletons: every combinator gives way to its canonical
form and every name to its definition, and applications are put together again by applying. The
engine computes this (`computes_naiveForm`). Within ample limits there is a naive form of every term
that fits a scope, and nothing is left in it but lambdas, applications and variables
(`makes_naive`).
-/

namespace Combinatory

open Engine (Computes)

variable {R : Rules} {limits : Budget} {Γ : Scope} {e : Places} {p p' : Twins} {s : Store}

namespace Term

/-- The canonical form of a leaf. -/
def canonicalLeaf (limits : Budget) (t : Term) (e : Places) : Except Failure Skeleton := do
  match (← (t.skeleton e).canonicalize limits (t.skeleton e).size).canonical with
  | some y => return y
  | none => throw (.noCanonicalForm t)

mutual

/-- The skeleton of the naive form of a term. -/
def naive (limits : Budget) : Term → Places → Except Failure Skeleton
  | app _ h as, e => do
    let y ← naive limits h e
    y.apply (← naiveAll limits as e)
  | lam v b, e => do return .lam (← naive limits b (e.bind v))
  | named _ d, e => naive limits d e
  | native c, e => canonicalLeaf limits (native c) e
  | foreign x, e => canonicalLeaf limits (foreign x) e
  | var v, e => canonicalLeaf limits (var v) e

/-- The skeletons of the naive forms of some terms. -/
def naiveAll (limits : Budget) : List Term → Places → Except Failure (List Skeleton)
  | [], _ => pure []
  | t :: ts, e => do
    let y ← naive limits t e
    return y :: (← naiveAll limits ts e)

end

/-! ### What the engine computes -/

/-- Whether what is given has a skeleton and is at hand after all that. -/
abbrev GivenHeld (Γ : Scope) (e : Places) (p : Twins) (y : Skeleton) (u : Term) (s : Store) :
    Prop :=
  ∃ p', p ≤ p' ∧ p'.left = s ∧ u.Held Γ e y p'

private theorem computes_canonicalOrFail {t : Term} (ht : t.Held Γ e (t.skeleton e) p) :
    Computes (naiveForm.canonicalOrFail R limits t) p.left (t.canonicalLeaf limits e)
      (GivenHeld Γ e p) := by
  unfold naiveForm.canonicalOrFail canonical canonicalLeaf
  rw [bind_assoc]
  apply (ht.computes_finding (R := R)).bind
  rintro f c _ - ⟨p', hp, rfl, -, hrel⟩
  rw [pure_bind]
  generalize f.canonical = o at hrel
  generalize c.canonical = o' at hrel
  cases hrel with
  | none => exact .throw
  | some h => exact .pure ⟨p', hp, rfl, h⟩

mutual

/-- The naive form of a term is computed as its skeleton is. -/
theorem computes_naiveForm : ∀ (t : Term) {Γ : Scope} {e : Places} {p : Twins}, Γ.Sealed p.left →
    t.Fits Γ p.left →
      Computes (naiveForm R limits t) p.left (t.naive limits e) (GivenHeld Γ e p)
  | app _ h as, Γ, e, p, hΓ, ht => by
    unfold naiveForm naive
    apply (computes_naiveForm h hΓ ht.2.1).bind
    rintro y u _ - ⟨p₁, hp₁, rfl, hu⟩
    apply (computes_naiveForms as hu.scope (ht.2.2.later hp₁.nextVariable)).bind
    rintro ys us _ - ⟨p₂, hp₂, rfl, rfl, hus⟩
    apply ((hu.later hp₂).computes_apply hus).imp
    rintro z w _ - ⟨p₃, hp₃, rfl, hw⟩
    exact ⟨p₃, Twins.le_trans hp₁ (Twins.le_trans hp₂ hp₃), rfl, hw⟩
  | lam v b, Γ, e, p, hΓ, ht => by
    unfold naiveForm naive
    apply (computes_naiveForm b (hΓ.bind ht.2.1) ht.2.2).bind
    rintro y u _ - ⟨p₁, hp₁, rfl, hu⟩
    apply (hu.computes_abstract (hΓ.later hp₁.nextVariable)).imp
    rintro z w _ - ⟨p₂, hp₂, rfl, hw⟩
    exact ⟨p₂, Twins.le_trans hp₁ hp₂, rfl, hw⟩
  | named _ d, Γ, e, p, hΓ, ht => by
    unfold naiveForm naive
    exact computes_naiveForm d hΓ ht.2
  | native c, Γ, e, p, hΓ, ht => by
    unfold naiveForm naive
    exact computes_canonicalOrFail ⟨hΓ, ⟨regular_native ht, rfl⟩, ht, ht⟩
  | foreign x, Γ, e, p, hΓ, ht => ht.elim
  | var v, Γ, e, p, hΓ, ht => by
    unfold naiveForm naive
    exact computes_canonicalOrFail ⟨hΓ, ⟨hΓ.minted.visible v ht, rfl⟩, ht, trivial⟩

theorem computes_naiveForms : ∀ (ts : List Term) {Γ : Scope} {e : Places} {p : Twins},
    Γ.Sealed p.left → FitsAll Γ p.left ts →
      Computes (naiveForms R limits ts) p.left (naiveAll limits ts e) fun ys us s' =>
        ∃ p', p ≤ p' ∧ p'.left = s' ∧ ys = skeletons e us ∧
          ∀ u ∈ us, u.Held Γ e (u.skeleton e) p'
  | [], Γ, e, p, _, _ => by
    unfold naiveForms naiveAll
    exact .pure ⟨p, p.le_refl, rfl, rfl, nofun⟩
  | t :: ts, Γ, e, p, hΓ, hts => by
    unfold naiveForms naiveAll
    apply (computes_naiveForm t hΓ hts.1).bind
    rintro y u _ - ⟨p₁, hp₁, rfl, hu⟩
    apply (computes_naiveForms ts hu.scope (hts.2.later hp₁.nextVariable)).bind
    rintro ys us _ - ⟨p₂, hp₂, rfl, rfl, hus⟩
    refine .pure ⟨p₂, Twins.le_trans hp₁ hp₂, rfl, by rw [skeletons, hu.shaped.skeleton], ?_⟩
    exact List.forall_mem_cons.mpr ⟨hu.shaped.skeleton ▸ hu.later hp₂, hus⟩

end

/-! ### Within ample limits -/

mutual

/-- A combination without combinators is made of variables. -/
private theorem IsCombination.madeOf_lambda : ∀ {t : Term}, t.IsCombination →
    t.combination.Uses (fun _ => False) → t.MadeOf .lambda
  | var _, _, _ => trivial
  | native _, _, hu => hu.elim
  | foreign _, ht, _ => ht.elim
  | named _ _, ht, _ => ht.elim
  | lam _ _, ht, _ => ht.elim
  | app _ h as, ⟨hh, _, has⟩, hu => by
    rw [combination, Combination.uses_apps] at hu
    refine ⟨fun happ => ?_, hh.isCombination.madeOf_lambda hu.1, has.madeOf_lambda hu.2⟩
    obtain ⟨n, g, bs, rfl⟩ := eq_app_of_isApp happ
    exact hh.elim

private theorem AreCombinations.madeOf_lambda : ∀ {ts : List Term}, AreCombinations ts →
    (∀ a ∈ combinations ts, a.Uses fun _ => False) → MadeOfAll .lambda ts
  | [], _, _ => trivial
  | _ :: _, ⟨ht, hts⟩, hu => by
    rw [combinations, List.forall_mem_cons] at hu
    exact ⟨ht.madeOf_lambda hu.1, hts.madeOf_lambda hu.2⟩

end

/-- A tower that gives no combinators on its arguments is made of lambdas and variables. -/
private theorem IsTower.madeOf_lambda {n : Nat} {t : Term} (ht : t.IsTower n)
    {σ : Variable → Combination} {xs : List Combination} (hlen : xs.length = n)
    (hu : (t.applied σ xs).Uses fun _ => False) : t.MadeOf .lambda := by
  induction n generalizing t σ xs with
  | zero =>
    have comb : t.IsCombination := ht
    rw [comb.applied_eq, Combination.uses_apps] at hu
    exact comb.madeOf_lambda hu.1.of_subst
  | succ n ih =>
    obtain ⟨v, b, rfl, hb⟩ := ht.exists_lam
    obtain ⟨x, xs, rfl⟩ := List.exists_cons_of_length_eq_add_one hlen
    exact ih (t := b) hb (Nat.succ.inj hlen) hu

/-- What fills the template of a combinator is made of lambdas and variables. -/
private theorem Fills.madeOf_lambda {c : Native} {r : Template} {u : Term}
    (h : Fills r c.arity s u) (hr : c.template = some r) : u.MadeOf .lambda := by
  have hlen : (c.places.map Combination.var).length = c.arity := by
    rw [List.length_map, Native.length_places]
  refine h.tower.madeOf_lambda (σ := .var) hlen ?_
  rw [h.applied _ _ hlen]
  exact Template.uses_fill_vars hr c.length_places

end Term

namespace Skeleton

/-- A variable is its own canonical form. -/
theorem canonicalize_var (hl : limits.Ample) (q : Place) (patience : Nat) :
    (var q).canonicalize limits patience = .ok (.found (var q) 0 0) := by
  obtain ⟨k, hk, -⟩ := hl.steps
  obtain ⟨n, hn, hfour⟩ := hl.args
  obtain ⟨left, hleft⟩ : ∃ m, n.toNat = m + 1 := ⟨n.toNat - 1, by omega⟩
  have idle : (var q).step = .ok none := by
    unfold step
    rfl
  have ran : (var q).run limits.steps = .ok ⟨var q, 0, true⟩ := by
    unfold run
    rw [hk]
    dsimp only
    generalize k.toNat = m
    cases m with
    | zero => rfl
    | succ m =>
      rw [runFrom, idle]
      rfl
  simp [canonicalize, search, hn, hleft, searchFrom, ran, awaitsArgs, bind, Except.bind, pure,
    Except.pure]

/-- The canonical form of a combinator is found, and it is bare. -/
theorem makes_canonicalize_native (hl : limits.Ample) {c : Native} (hc : c.isPure = true) :
    Makes ((native c).canonicalize limits (native c).size) fun f =>
      ∃ y, f.canonical = some y ∧ y.Bare := by
  obtain ⟨r, hr⟩ := Native.exists_template_of_isPure hc
  have empty : (Scope.ofFree ∅).Sealed Twins.start.left := ⟨nofun, nofun⟩
  have held : (Term.native c).Held (.ofFree ∅) .free (native c) .start :=
    ⟨empty, ⟨Term.regular_native hc, rfl⟩, hc, hc⟩
  -- the engine finds the form, and what it finds is what it computes
  obtain ⟨_, s, hcan, -, -, u, rfl, hfills⟩ :=
    Term.yields_canonical (R := .undeclared) hl hc hr Twins.start.left (.left _)
  obtain ⟨out, s₁, hout, hform⟩ := Engine.bind_ok_iff.mp hcan
  obtain ⟨found, rfl⟩ := Engine.pure_ok_iff.mp hform
  obtain ⟨f, hf, p', -, rfl, -, hrel⟩ := held.computes_finding.of_ok hout
  rw [found] at hrel
  generalize hy : f.canonical = o at hrel
  cases hrel with
  | @some y _ h =>
    refine ⟨f, hf, y, hy, ?_⟩
    have bare := (hfills.madeOf_lambda hr).bare .free h.shaped.plain
    rwa [h.shaped.skeleton] at bare

end Skeleton

namespace Term

mutual

/-- Within ample limits a term that fits a scope has a naive form, of lambdas and variables. -/
theorem makes_naive (hl : limits.Ample) : ∀ (t : Term) {Γ : Scope} {e : Places}, t.Fits Γ s →
    Makes (t.naive limits e) Skeleton.Bare
  | app _ h as, _, _, ht => by
    unfold naive
    apply (makes_naive hl h ht.2.1).bind
    intro y hy
    apply (makes_naiveAll hl as ht.2.2).bind
    intro ys hys
    exact Skeleton.makes_apply_bare hy hys
  | lam _ b, _, _, ht => by
    unfold naive
    apply (makes_naive hl b ht.2.2).bind
    intro y hy
    exact .pure hy
  | named _ d, _, _, ht => by
    unfold naive
    exact makes_naive hl d ht.2
  | native c, _, e, ht => by
    unfold naive canonicalLeaf
    apply (Skeleton.makes_canonicalize_native hl ht).bind
    rintro f ⟨y, hy, bare⟩
    rw [hy]
    exact .pure bare
  | foreign _, _, _, ht => ht.elim
  | var v, _, e, _ => by
    unfold naive canonicalLeaf
    rw [skeleton, Skeleton.canonicalize_var hl]
    exact .pure trivial

theorem makes_naiveAll (hl : limits.Ample) : ∀ (ts : List Term) {Γ : Scope} {e : Places},
    FitsAll Γ s ts → Makes (naiveAll limits ts e) Skeleton.BareAll
  | [], _, _, _ => by
    unfold naiveAll
    exact .pure trivial
  | t :: ts, _, _, hts => by
    unfold naiveAll
    apply (makes_naive hl t hts.1).bind
    intro y hy
    apply (makes_naiveAll hl ts hts.2).bind
    intro ys hys
    exact .pure ⟨hy, hys⟩

end

end Term

end Combinatory
