import Combinatory.Proofs.Indistinguishable
import Combinatory.Proofs.Nameless.NaiveForm

/-!
# Light lambda forms improve on the naive one

Every term that was built has a naive lambda form, if one step and four arguments may be tried for a
canonical form. The search for light forms begins with it: the first form listed is equal to it, and
each form is lighter than the one before (`Builds.lambdaForms_improve`). It does not matter what the
engine has done in between.
-/

namespace Combinatory

variable {R : Rules} {limits : Budget} {s s' s₁ : Store} {t u : Term} {cs : List Candidate}

theorem Budget.Ample.numeric (h : limits.Ample) : limits.Numeric := by
  obtain ⟨⟨k, hk, -⟩, n, hn, -⟩ := h
  exact ⟨⟨k, hk⟩, n, hn⟩

/-! ### The forms of a skeleton that stands as it is -/

namespace Skeleton

/-- What is told of the forms that a search lists: the first is the skeleton itself, each is lighter
than those before it, and no steps are taken back. -/
structure Improves (x : Skeleton) (l : List Form) : Prop where
  first : ∃ f, l.head? = some f ∧ f.skeleton = x
  few : l.length ≤ x.weight + 1
  lighter : l.Pairwise fun f g => g.skeleton.weight < f.skeleton.weight
  steps : l.Pairwise fun f g => f.steps ≤ g.steps

/-- The forms of a bare skeleton improve on it if its applications can stand as they are. -/
theorem makes_improving_forms (hl : limits.Numeric) {x : Skeleton} (hx : x.Bare)
    (hst : x.stands = true) : Makes (x.forms limits (x.size + 1) .infinite) x.Improves := by
  have hsize : x.size ≤ x.size + 1 := Nat.le_succ _
  have high : High .infinite x := trivial
  obtain ⟨l, hforms, descends, -⟩ := makes_forms hl _ hx hsize .infinite
  obtain ⟨-, f, hf, light, same⟩ := forms_of_high hl _ hx hsize high hforms
  obtain ⟨rest, rfl⟩ := List.head?_eq_some_iff.mp hf
  refine ⟨_, hforms, ⟨f, hf, same hst⟩, ?_, descends.pairwise, forms_pairwise_steps hx hforms⟩
  rw [← light]
  exact Nat.succ_le_succ descends.2.length_le

end Skeleton

/-! ### The candidates for a light form -/

namespace Term

/-- What is told of the candidates for a light form of a term, listed up to some moment, and of a
naive form made up to another: they begin with the naive form, each is lighter than those before it,
no steps are taken back, and there is nothing in them but lambdas, bound variables and free
variables of the term. -/
structure Improves (t u : Term) (s : Store) (cs : List Candidate) (s' : Store) : Prop where
  first : ∃ c, cs.head? = some c ∧ c.term.EqualFrom s' u s
  few : cs.length ≤ u.weight + 1
  lighter : cs.Pairwise fun a b => b.term.weight < a.term.weight
  steps : cs.Pairwise fun a b => a.steps ≤ b.steps
  bare : ∀ a ∈ cs, a.term.MadeOf .lambda
  free : ∀ a ∈ cs, ∀ v, a.term.occurs v = true → t.occurs v = true

/-- The search for light forms is a search for forms lighter than the naive one. -/
theorem lambdaForms_eq_lighterForms {β : Type} {view : Candidate → Except Failure β}
    (h : t.naiveForm R limits s = .ok u s₁) :
    t.lambdaForms R limits none view s = u.lighterForms R limits .infinite none view s₁ := by
  unfold lambdaForms lighterForms Search.collect
  rw [if_neg nofun, if_neg nofun]
  have lifted : Search.lift (naiveForm R limits t) ⟨s, (#[] : Array β), none⟩ =
      .ok u ⟨s₁, #[], none⟩ := by
    unfold Search.lift
    dsimp only
    rw [h]
  simp only [bind, EStateM.bind, lifted]

variable {Γ : Scope} {e : Places} {p p' : Twins} {x : Skeleton} {l : List Skeleton.Form}

/-- What a candidate tells is the same of the form it depicts, and so it is for all of them. -/
private theorem map_eq_of_depicts {α : Type} {f : Skeleton.Form → α} {g : Candidate → α}
    (hcs : List.Forall₂ (Depicts Γ e · · p) l cs) (h : ∀ y c, Depicts Γ e y c p → f y = g c) :
    l.map f = cs.map g := by
  rw [← List.forall₂_eq_eq_eq, List.forall₂_map_left_iff, List.forall₂_map_right_iff]
  exact hcs.imp h

/-- Every candidate depicts a form. -/
private theorem exists_depicts (hcs : List.Forall₂ (Depicts Γ e · · p) l cs) {c : Candidate}
    (hc : c ∈ cs) : ∃ f, Depicts Γ e f c p := by
  induction hcs with
  | nil => cases hc
  | @cons f _ _ _ h _ ih =>
    rcases List.mem_cons.mp hc with rfl | hc
    · exact ⟨f, h⟩
    · exact ih hc

/-- Candidates that depict forms improve on a naive form as the forms do on its skeleton. -/
theorem Held.improves (hu : u.Held (.ofFree { v | t.occurs v = true }) .free x p)
    (h : x.Improves l)
    (hcs : List.Forall₂ (Depicts (.ofFree { v | t.occurs v = true }) .free · · p') l cs) :
    t.Improves u p.left cs p'.left := by
  have weights : l.map (·.skeleton.weight) = cs.map (·.term.weight) := by
    refine map_eq_of_depicts hcs fun f c hc => ?_
    rw [← hc.term.shaped.skeleton, weight_skeleton]
  have steps : l.map (·.steps) = cs.map (·.steps) :=
    map_eq_of_depicts hcs fun f c hc => hc.steps.symm
  have weighs : x.weight = u.weight := by rw [← hu.shaped.skeleton, weight_skeleton]
  refine ⟨?_, ?_, ?_, ?_, fun a ha => ?_, fun a ha v hv => ?_⟩
  · obtain ⟨f, hf, rfl⟩ := h.first
    obtain ⟨rest, rfl⟩ := List.head?_eq_some_iff.mp hf
    obtain ⟨c, _, hc, -, rfl⟩ := List.forall₂_cons_left_iff.mp hcs
    exact ⟨c, rfl, hc.term.shaped.equalFrom hu.shaped⟩
  · rw [← hcs.length_eq, ← weighs]
    exact h.few
  · have lighter : (l.map (·.skeleton.weight)).Pairwise (fun m n => n < m) :=
      List.pairwise_map.mpr h.lighter
    rw [weights] at lighter
    exact List.pairwise_map.mp lighter
  · have ascends : (l.map (·.steps)).Pairwise (· ≤ ·) := List.pairwise_map.mpr h.steps
    rw [steps] at ascends
    exact List.pairwise_map.mp ascends
  · obtain ⟨f, hf⟩ := exists_depicts hcs ha
    exact hf.term.shaped.plain.madeOf_lambda (hf.term.shaped.skeleton ▸ hf.bare)
  · obtain ⟨f, hf⟩ := exists_depicts hcs ha
    exact hf.term.fits.visible hv

end Term

namespace Builds

variable {ts : List Term}

/-- A term that was built has a naive form of one bare skeleton, whenever it is asked for. -/
private theorem exists_naive (h : Builds s ts) (ht : t ∈ ts) (hl : limits.Ample) :
    ∃ y : Skeleton, y.Bare ∧ ∀ s₁, s ≤ s₁ → s₁.Sane → ∀ R : Rules, ∃ u p,
      t.naiveForm R limits s₁ = .ok u p.left ∧ s₁ ≤ p.left ∧
        u.Held (.ofFree { v | t.occurs v = true }) .free y p := by
  obtain ⟨y, hy, bare⟩ := Term.makes_naive (e := .free) hl t (h.fits ht)
  refine ⟨y, bare, fun s₁ hs₁ sane R => ?_⟩
  obtain ⟨p, rfl, -⟩ := sane.exists_twins
  have computed : Engine.Computes (t.naiveForm R limits) p.left (t.naive limits .free)
      (Term.GivenHeld (.ofFree { v | t.occurs v = true }) .free p) :=
    Term.computes_naiveForm t ((h.sealed ht).later hs₁) ((h.fits ht).later hs₁)
  rw [hy] at computed
  obtain ⟨u, _, hu, -, p', hp, rfl, held⟩ := computed
  exact ⟨u, p', hu, hp.nextVariable, held⟩

/-- A term that was built has a naive lambda form, of lambdas and variables, if one step and four
arguments may be tried for a canonical form. Whenever its light lambda forms are listed, without a
limit, they improve on the naive one. -/
theorem lambdaForms_improve (h : Builds s ts) (ht : t ∈ ts) (hl : limits.Ample) (hs₁ : s ≤ s₁)
    (sane : s₁.Sane) (R : Rules) :
    ∃ u s₂, t.naiveForm R limits s₁ = .ok u s₂ ∧ s₁ ≤ s₂ ∧ s₂.Sane ∧ u.MadeOf .lambda ∧
      ∀ s₃, s ≤ s₃ → s₃.Sane → ∀ R' : Rules, ∃ cs s₄,
        t.lambdaForms R' limits none .ok s₃ = .ok ⟨cs, none⟩ s₄ ∧ s₃ ≤ s₄ ∧ s₄.Sane ∧
          t.Improves u s₂ cs s₄ := by
  obtain ⟨y, bare, naive⟩ := h.exists_naive ht hl
  obtain ⟨u, p, hu, hp, held⟩ := naive _ hs₁ sane R
  have made : u.MadeOf .lambda :=
    held.shaped.plain.madeOf_lambda (held.shaped.skeleton ▸ bare)
  have stands : y.stands = true := by
    rw [← held.shaped.skeleton]
    exact held.shaped.plain.stands (made.pending_eq_zero fun _ => id)
  obtain ⟨l, hforms, improves⟩ := Skeleton.makes_improving_forms hl.numeric bare stands
  refine ⟨u, p.left, hu, hp, .left p, made, fun s₃ hs₃ sane₃ R' => ?_⟩
  -- the search makes the naive form once more, and lists the forms of the same skeleton
  obtain ⟨u', p', hu', hp', held'⟩ := naive s₃ hs₃ sane₃ R'
  have unbounded : Ceiling.infinite.Proper := trivial
  obtain ⟨cs, p'', later, hlisted, hcs⟩ := (held'.lists_forms (R := R') hl.numeric bare
    (Nat.le_succ _) unbounded).of_ok hforms
  refine ⟨cs, p''.left, ?_, Int.le_trans hp' later.nextVariable, .left p'', ?_⟩
  · rw [Term.lambdaForms_eq_lighterForms hu', hlisted]
  · exact held.improves improves hcs

end Builds

/-- The light lambda forms of `λ x, x B`, listed after its naive form was made, are made of lambdas
and their bound variables. -/
theorem lambdaForms_improve_sample :
    Builds Passing.workspace.store Passing.workspace.terms ∧ Passing.workspace.store.Sane ∧
      ∃ u s cs s', Passing.term.naiveForm Rules.undeclared ⟨.number 1, .number 4⟩
          Passing.workspace.store = .ok u s ∧ u.MadeOf .lambda ∧
        Passing.term.lambdaForms Rules.undeclared ⟨.number 1, .number 4⟩ none .ok s =
          .ok ⟨cs, none⟩ s' ∧
        Passing.term.Improves u s cs s' ∧ ∀ a ∈ cs, ∀ v, a.term.occurs v = false := by
  have sane := Passing.reachable.sane
  obtain ⟨u, s, hu, hs, sane', made, listed⟩ := Passing.builds.lambdaForms_improve
    List.mem_cons_self Passing.ample (Store.le_refl _) sane Rules.undeclared
  obtain ⟨cs, s', hcs, -, -, improves⟩ := listed s hs sane' Rules.undeclared
  refine ⟨Passing.builds, sane, u, s, cs, s', hu, made, hcs, improves, fun a ha v => ?_⟩
  rw [Bool.eq_false_iff]
  intro hv
  simpa [Passing.term, Term.occurs, Term.occursAny] using improves.free a ha v hv

end Combinatory
