import Combinatory.Proofs.Indistinguishable
import Combinatory.Proofs.Nameless.Visiting

/-!
# The lightest forms of an application and of its halves

The search for lighter forms of an application looks for lighter forms of its front first, and then
for forms of the last argument that beat the lightest front with it. As the search of a part goes on
below a ceiling that is one lower, it misses what saves no more than that. So the application is in
the end no heavier than its lightest front with the last argument as it is. With the lightest form
of the last argument it may be lighter still, and the search finds it so if the front weighs enough
(`Workspace.Reachable.weight_lightest_le`). A front of variables weighs nothing, and there a lighter
argument can be missed (`weight_lightest_missed`).
-/

namespace Combinatory

open Relation (ReflTransGen)

variable {R : Rules} {limits : Budget} {Γ : Scope} {e : Places} {p : Twins}

namespace Term

/-- The search for lighter forms, without a ceiling and without a limit, ends with a form. -/
def Lightest (R : Rules) (limits : Budget) (t : Term) (s : Store) (c : Candidate) : Prop :=
  ∃ cs s', lighterForms R limits .infinite none .ok t s = .ok ⟨cs ++ [c], none⟩ s'

variable {s : Store} {t : Term} {x : Skeleton} {c c' : Candidate}

/-- The search ends with one form only. -/
theorem Lightest.unique (h : t.Lightest R limits s c) (h' : t.Lightest R limits s c') : c = c' := by
  obtain ⟨cs, s₁, h⟩ := h
  obtain ⟨cs', s₂, h'⟩ := h'
  obtain ⟨listing, -⟩ := EStateM.Result.ok.inj (h.symm.trans h')
  exact (List.append_singleton_inj.mp (Listing.mk.inj listing).1).2

/-- The search for lighter forms of a term at hand ends with the last form of its skeleton. -/
theorem Held.exists_lightest (hl : limits.Numeric) {depth : Nat} (ht : Held Γ e x t p)
    (hx : x.Bare) (hsize : x.size ≤ depth) {l : List Skeleton.Form} {f : Skeleton.Form}
    (hforms : x.forms limits depth .infinite = .ok (l ++ [f])) :
    ∃ c, Lightest R limits t p.left c ∧ c.term.weight = f.skeleton.weight := by
  have unbounded : Ceiling.infinite.Proper := trivial
  obtain ⟨cs, p', -, hlisted, hcs⟩ :=
    (ht.lists_forms (R := R) hl hx hsize unbounded).of_ok hforms
  have backwards := List.forall₂_reverse_iff.mpr hcs
  rw [List.reverse_append, List.reverse_singleton, List.singleton_append,
    List.forall₂_cons_left_iff] at backwards
  obtain ⟨c, before, hc, -, hlast⟩ := backwards
  rw [List.reverse_eq_cons_iff] at hlast
  subst hlast
  refine ⟨c, ⟨_, _, hlisted⟩, ?_⟩
  rw [← hc.term.shaped.skeleton, weight_skeleton]

end Term

namespace Workspace

variable {w w₁ w₂ w₃ : Workspace} {ts : List Term} {R₀ : Rules} {n : Nat} {t g front last : Term}
  {as : List Term} {s : Store}

/-- The search for lighter forms of a term of lambdas and variables at hand ends with the last form
of its skeleton. -/
theorem Reachable.exists_lightest (h : w.Reachable) (hts : Builds w.store ts) (ht : t ∈ ts)
    (htw : t ∈ w.terms) (made : t.MadeOf .lambda) (hl : limits.Numeric) (R : Rules) {depth : Nat}
    (hsize : (t.skeleton .free).size ≤ depth) {l : List Skeleton.Form} {f : Skeleton.Form}
    (hforms : (t.skeleton .free).forms limits depth .infinite = .ok (l ++ [f])) :
    ∃ c, t.Lightest R limits w.store c ∧ c.term.weight = f.skeleton.weight := by
  obtain ⟨p, hp⟩ := h.exists_twins
  have held := hp.holds hts ht htw (made.pending_eq_zero fun _ => id)
  rw [← hp.left]
  exact held.exists_lightest hl (made.bare .free held.shaped.plain) hsize hforms

/-- Both halves of an application at hand are at hand when a caller has taken it apart. -/
private theorem Mirrors.exists_halves (hp : Mirrors p w) {x : Skeleton}
    (held : (Term.app n g as).Held Γ e x p)
    (hsplit : Term.split R₀ g as w.store = .ok (front, last) s) :
    ∃ y z p', Mirrors p' ⟨s, w.free, front :: last :: w.terms⟩ ∧ p ≤ p' ∧
      Skeleton.split (g.skeleton e) (Term.skeletons e as) = .ok (y, z) ∧
      front.Held Γ e y p' ∧ last.Held Γ e z p' := by
  have records := Term.records_split (.of_pure R₀ p) held.recorded.2.1 held.recorded.2.2
  obtain ⟨p', later, hleft, hright, hf, hl⟩ := (hp.outcome records).1 _ _ hsplit
  rw [← hp.left] at hsplit
  obtain ⟨⟨y, z⟩, hyz, p₁, -, hp₁, hfront, hlast⟩ := (Term.computes_split held).of_ok hsplit
  have left : p₁.left = p'.left := hp₁.trans hleft.symm
  refine ⟨y, z, p', ⟨hleft, hright, ?_⟩, later, hyz, ?_, ?_⟩
  · exact ⟨hf.imp fun _ _ => trivial, hl.imp fun _ _ => trivial, hp.known.later later⟩
  · exact ⟨left ▸ hfront.scope, left ▸ hfront.shaped, left ▸ hfront.fits, hf⟩
  · exact ⟨left ▸ hlast.scope, left ▸ hlast.shaped, left ▸ hlast.fits, hl⟩

/-- An application of lambdas and variables is in the end no heavier than the lightest form of its
front with the last argument, and where that front weighs more than the applications on the way down
the last argument and one, no heavier than the lightest forms of both halves. -/
theorem Reachable.weight_lightest_le (h : w.Reachable) (hts : Builds w.store ts)
    (ht : .app n g as ∈ ts) (htw : .app n g as ∈ w.terms) (made : (Term.app n g as).MadeOf .lambda)
    (hsplit : Term.split R₀ g as w.store = .ok (front, last) s)
    (h₁ : ReflTransGen Move ⟨s, w.free, front :: last :: w.terms⟩ w₁)
    (h₂ : ReflTransGen Move ⟨s, w.free, front :: last :: w.terms⟩ w₂)
    (h₃ : ReflTransGen Move ⟨s, w.free, front :: last :: w.terms⟩ w₃) (hl : limits.Numeric)
    (R : Rules) :
    ∃ F A E, front.Lightest R limits w₁.store F ∧ last.Lightest R limits w₂.store A ∧
      (Term.app n g as).Lightest R limits w₃.store E ∧
      E.term.weight ≤ F.term.weight + last.weight ∧
      (last.spine + 1 < F.term.weight → E.term.weight ≤ F.term.weight + A.term.weight) := by
  obtain ⟨p, hp⟩ := h.exists_twins
  have held := hp.holds hts ht htw (made.pending_eq_zero fun _ => id)
  obtain ⟨y, z, p', hp', later, hyz, hfront, hlast⟩ := hp.exists_halves held hsplit
  obtain ⟨p₁, later₁, hp₁⟩ := hp'.moves h₁
  obtain ⟨p₂, later₂, hp₂⟩ := hp'.moves h₂
  obtain ⟨p₃, later₃, hp₃⟩ := hp'.moves h₃
  have hx := made.bare .free held.shaped.plain
  rw [Term.skeleton] at held hx
  obtain ⟨hy, hz, -, -, hysize, hzsize⟩ := (Skeleton.makes_split hx).of_ok hyz
  dsimp only at hy hz hysize hzsize
  -- the halves of the skeleton are searched as deep as they are within the whole
  let depth := (Skeleton.app (g.skeleton .free) (Term.skeletons .free as)).size
  have hdepth : (Skeleton.app (g.skeleton .free) (Term.skeletons .free as)).size ≤ depth + 1 :=
    Nat.le_succ _
  have hydepth : y.size ≤ depth := Nat.le_of_lt hysize
  have hzdepth : z.size ≤ depth := Nat.le_of_lt hzsize
  obtain ⟨_, F', hF⟩ := Skeleton.exists_last_form hl hy hydepth
  obtain ⟨_, A', hA⟩ := Skeleton.exists_last_form hl hz hzdepth
  obtain ⟨_, E', hE⟩ := Skeleton.exists_last_form hl hx hdepth
  obtain ⟨F, lightest₁, hF'⟩ :=
    (hfront.later later₁).exists_lightest (R := R) hl hy hydepth hF
  obtain ⟨A, lightest₂, hA'⟩ :=
    (hlast.later later₂).exists_lightest (R := R) hl hz hzdepth hA
  obtain ⟨E, lightest₃, hE'⟩ :=
    (held.later (Twins.le_trans later later₃)).exists_lightest (R := R) hl hx hdepth hE
  refine ⟨F, A, E, hp₁.left ▸ lightest₁, hp₂.left ▸ lightest₂, hp₃.left ▸ lightest₃, ?_⟩
  have weighs : z.weight = last.weight := by
    rw [← hlast.shaped.skeleton, Term.weight_skeleton]
  have winds : z.spine = last.spine := by
    rw [← hlast.shaped.skeleton, Term.spine_skeleton _ hlast.shaped.plain]
  obtain ⟨whole, halves⟩ := Skeleton.weight_le_of_halves hl hx hdepth hyz hF hA hE
  rw [hF', hA', hE', ← weighs, ← winds]
  exact ⟨whole, fun heavy => halves heavy A' (by simp)⟩

end Workspace

/-! ### A redex that is missed -/

namespace Redex

/-- Variables that were asked for. -/
def x : Variable := ⟨"x", 1⟩

def w : Variable := ⟨"w", 2⟩

def z : Variable := ⟨"z", 3⟩

/-- The identity, `λ z, z`. -/
def identity : Term := .lam ⟨"z", 4⟩ (.var ⟨"z", 4⟩)

/-- The identity applied to a variable, `(λ z, z) w`. -/
def redex : Term := .app 0 identity [.var w]

/-- A lambda that forgets its argument, `λ x, (λ z, z) w`. -/
def forgetful : Term := .lam ⟨"x", 5⟩ redex

/-- A variable applied to the lambda. -/
def missed : Term := .app 1 (.var x) [forgetful]

/-- A lambda that forgets two arguments, `λ x w z, x`. -/
def projection : Term := .lam ⟨"x", 8⟩ (.lam ⟨"w", 10⟩ (.lam ⟨"z", 9⟩ (.var ⟨"x", 8⟩)))

/-- The lambda that forgets two arguments, applied to the other one. -/
def found : Term := .app 2 projection [forgetful]

/-- All that was built. -/
def built : List Term :=
  [found, projection, missed, forgetful, redex, identity, .var z, .var w, .var x]

/-- What is at hand when it has been built. -/
def workspace : Workspace := ⟨⟨11, 3, ∅⟩, [z, w, x], built⟩

/-- The limits of the searches shown. -/
def budget : Budget := ⟨.number 3, .number 4⟩

theorem numeric : budget.Numeric := ⟨⟨_, rfl⟩, _, rfl⟩

theorem madeOf_forgetful : forgetful.MadeOf .lambda := ⟨nofun, trivial, trivial, trivial⟩

theorem madeOf_missed : missed.MadeOf .lambda := ⟨nofun, trivial, madeOf_forgetful, trivial⟩

theorem abstracted₁ : Term.lambdaOver Rules.undeclared true [.var z] (.var z) ⟨4, 0, ∅⟩ =
    .ok identity ⟨5, 0, ∅⟩ := by
  cbv

theorem applied₁ : identity.apply Rules.undeclared [.var w] ⟨5, 0, ∅⟩ = .ok redex ⟨5, 1, ∅⟩ := rfl

theorem abstracted₂ : Term.lambdaOver Rules.undeclared true [.var x] redex ⟨5, 1, ∅⟩ =
    .ok forgetful ⟨6, 1, ∅⟩ := by
  cbv

theorem applied₂ : (Term.var x).apply Rules.undeclared [forgetful] ⟨6, 1, ∅⟩ =
    .ok missed ⟨6, 2, ∅⟩ := rfl

set_option maxRecDepth 3000 in
theorem abstracted₃ : Term.lambdaOver Rules.undeclared true [.var x, .var w, .var z] (.var x)
    ⟨6, 2, ∅⟩ = .ok projection ⟨11, 2, ∅⟩ := by
  cbv

theorem applied₃ : projection.apply Rules.undeclared [forgetful] ⟨11, 2, ∅⟩ =
    .ok found ⟨11, 3, ∅⟩ := rfl

theorem builds : Builds workspace.store built := by
  have minted : Builds ⟨4, 0, ∅⟩ [.var z, .var w, .var x] :=
    .mint (.mint (.mint .start rfl) rfl) rfl
  have first : Builds ⟨5, 1, ∅⟩ [redex, identity, .var z, .var w, .var x] :=
    .apply (.lambda minted (by simp) (by simp) abstracted₁) (by simp) (by simp) applied₁
  have second : Builds ⟨6, 2, ∅⟩ [missed, forgetful, redex, identity, .var z, .var w, .var x] :=
    .apply (.lambda first (by simp) (by simp) abstracted₂) (by simp) (by simp) applied₂
  exact .apply (.lambda second (by simp) (by simp) abstracted₃) (by simp) (by simp) applied₃

theorem reachable : workspace.Reachable := by
  have minted : Workspace.Reachable ⟨⟨4, 0, ∅⟩, [z, w, x], [.var z, .var w, .var x]⟩ :=
    ((Relation.ReflTransGen.single (.mint (v := x) rfl)).tail (.mint (v := w) rfl)).tail
      (.mint (v := z) rfl)
  have closed := Rules.steadyOver_undeclared
  have first := (minted.lambda (closed _) (by simp) abstracted₁).apply (closed _) (by simp) applied₁
  have second := (first.lambda (closed _) (by simp) abstracted₂).apply (closed _) (by simp) applied₂
  exact (second.lambda (closed _) (by simp) abstracted₃).apply (closed _) (by simp) applied₃

/-- A variable has no lighter form than itself, and it weighs nothing. -/
theorem forms_x : ((Term.var x).skeleton .free).forms budget 1 .infinite =
    .ok ([] ++ [⟨(Term.var x).skeleton .free, 0, .freeVariables⟩]) := by
  rfl

/-- The projection has no lighter form than itself. -/
theorem forms_projection : (projection.skeleton .free).forms budget 4 .infinite =
    .ok ([] ++ [⟨projection.skeleton .free, 0,
      .inLambda (.inLambda (.inLambda .freeVariables))⟩]) := by
  rfl

/-- The lambda that forgets its argument is lighter without the redex. -/
theorem forms_forgetful : (forgetful.skeleton .free).forms budget 5 .infinite =
    .ok ([⟨forgetful.skeleton .free, 0, .inLambda (.inApplication (.inLambda .freeVariables))⟩] ++
      [⟨.lam (.var (.free w)), 1, .inLambda .canonical⟩]) := by
  rfl

/-- The redex is not found below the variable. -/
theorem forms_missed : (missed.skeleton .free).forms budget 7 .infinite =
    .ok ([] ++ [⟨missed.skeleton .free, 0, .inApplication .freeVariables⟩]) := by
  rfl

/-- The search for lighter forms of what was built ends with the last form of its skeleton. -/
theorem exists_lightest {t : Term} (ht : t ∈ built) (made : t.MadeOf .lambda) {depth : Nat}
    (hsize : (t.skeleton .free).size ≤ depth) {l : List Skeleton.Form} {f : Skeleton.Form}
    (hforms : (t.skeleton .free).forms budget depth .infinite = .ok (l ++ [f])) :
    ∃ c, t.Lightest Rules.undeclared budget workspace.store c ∧
      c.term.weight = f.skeleton.weight :=
  reachable.exists_lightest builds ht ht made numeric Rules.undeclared hsize hforms

end Redex

/-- The lambda that forgets two arguments is heavy enough: its application is in the end no heavier
than the lightest forms of both halves. -/
theorem weight_lightest_le_projection :
    ∃ F A E, Redex.projection.Lightest Rules.undeclared Redex.budget Redex.workspace.store F ∧
      Redex.forgetful.Lightest Rules.undeclared Redex.budget Redex.workspace.store A ∧
      Redex.found.Lightest Rules.undeclared Redex.budget Redex.workspace.store E ∧
      E.term.weight ≤ F.term.weight + A.term.weight := by
  have split : Term.split Rules.undeclared Redex.projection [Redex.forgetful]
      Redex.workspace.store = .ok (Redex.projection, Redex.forgetful) Redex.workspace.store := rfl
  obtain ⟨F, A, E, hF, hA, hE, -, halves⟩ := Redex.reachable.weight_lightest_le Redex.builds
    (.head _) (.head _) ⟨nofun, trivial, Redex.madeOf_forgetful, trivial⟩ split .refl .refl .refl
    Redex.numeric Rules.undeclared
  obtain ⟨F', hF', heavy⟩ := Redex.exists_lightest (t := Redex.projection) (.tail _ (.head _))
    trivial (Nat.le_refl 4) Redex.forms_projection
  refine ⟨F, A, E, hF, hA, hE, halves ?_⟩
  rw [hF.unique hF', heavy]
  decide

/-- A variable applied to a lambda stays as heavy as it is although the lambda has a lighter form:
the lightest forms of both halves together are lighter than what the search ends with. -/
theorem weight_lightest_missed :
    Redex.workspace.Reachable ∧ Builds Redex.workspace.store Redex.built ∧
      Redex.missed ∈ Redex.built ∧ Redex.missed.MadeOf .lambda ∧
      Term.halves Rules.undeclared Redex.missed Redex.workspace.store =
        .ok (.var Redex.x, Redex.forgetful) Redex.workspace.store ∧
      ∃ F A E, (Term.var Redex.x).Lightest Rules.undeclared Redex.budget Redex.workspace.store F ∧
        Redex.forgetful.Lightest Rules.undeclared Redex.budget Redex.workspace.store A ∧
        Redex.missed.Lightest Rules.undeclared Redex.budget Redex.workspace.store E ∧
        F.term.weight + A.term.weight < E.term.weight := by
  obtain ⟨F, hF, light⟩ := Redex.exists_lightest (t := .var Redex.x) (by simp [Redex.built])
    trivial (Nat.le_refl 1) Redex.forms_x
  obtain ⟨A, hA, lighter⟩ := Redex.exists_lightest (t := Redex.forgetful) (by simp [Redex.built])
    Redex.madeOf_forgetful (Nat.le_refl 5) Redex.forms_forgetful
  obtain ⟨E, hE, heavy⟩ := Redex.exists_lightest (t := Redex.missed) (by simp [Redex.built])
    Redex.madeOf_missed (Nat.le_refl 7) Redex.forms_missed
  refine ⟨Redex.reachable, Redex.builds, by simp [Redex.built], Redex.madeOf_missed, rfl,
    F, A, E, hF, hA, hE, ?_⟩
  rw [light, lighter, heavy]
  decide

end Combinatory
