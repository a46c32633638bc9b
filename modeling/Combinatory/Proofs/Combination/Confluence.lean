import Combinatory.Proofs.Combination

/-!
# Rewriting is confluent

A parallel step fires any of the combinators that have all their arguments, all at once. No rule
looks into an argument, so of two parallel steps one can be made up for by the other
(`Parallel.diamond`): what has fired in one and not in the other still can. Hence combinations that
rewrites connect, forwards and backwards, lead to a common one (`exists_common`).
-/

namespace Combinatory.Combination

open Relation (ReflTransGen EqvGen Join)

/-- Any number of the combinators that have all their arguments fire at once. -/
inductive Parallel : Combination → Combination → Prop where
  | var (v : Variable) : Parallel (var v) (var v)
  | native (c : Native) : Parallel (native c) (native c)
  | app {f g a b : Combination} (hf : Parallel f g) (ha : Parallel a b) :
      Parallel (app f a) (app g b)
  | fire {c : Native} {r : Template} {as bs : List Combination} (hr : c.template = some r)
      (has : as.length = c.arity) (hbs : bs.length = c.arity)
      (h : ∀ i, Parallel (nth as i) (nth bs i)) : Parallel ((native c).apps as) (r.fill bs)

/-- Parallel steps place by place. -/
abbrev AllParallel : List Combination → List Combination → Prop := List.Forall₂ Parallel

namespace Parallel

/-- Nothing needs to fire. -/
theorem refl : ∀ t : Combination, Parallel t t
  | .var v => .var v
  | .native c => .native c
  | .app f a => .app (refl f) (refl a)

/-- A combinator fires while its arguments take parallel steps. -/
theorem fire_all {c : Native} {r : Template} {as bs : List Combination}
    (hr : c.template = some r) (has : as.length = c.arity) (h : AllParallel as bs) :
    Parallel ((Combination.native c).apps as) (r.fill bs) :=
  .fire hr has (h.length_eq ▸ has) ((forall₂_iff_nth refl).mp h).2

/-- Parallel steps of the arguments are one of what a rule makes of them. -/
theorem fill {as bs : List Combination} (h : ∀ i, Parallel (nth as i) (nth bs i)) :
    ∀ r : Template, Parallel (r.fill as) (r.fill bs)
  | .arg i => h i
  | .app f a => .app (fill h f) (fill h a)

/-- Parallel steps of head and arguments are one of the spine. -/
theorem apps {t u : Combination} (ht : Parallel t u) {as bs : List Combination}
    (has : AllParallel as bs) : Parallel (t.apps as) (u.apps bs) := by
  induction has generalizing t u with
  | nil => exact ht
  | cons h _ ih => exact ih (ht.app h)

/-- One rewrite is a parallel step. -/
theorem of_rewrites {t u : Combination} (h : Rewrites t u) : Parallel t u := by
  induction h with
  | fire hr has => exact .fire hr has has fun _ => refl _
  | left _ a ih => exact ih.app (refl a)
  | right f _ ih => exact (refl f).app ih

/-- Rewriting the arguments of a spine. -/
private theorem steps_apps {t u : Combination} (ht : ReflTransGen Rewrites t u)
    {as bs : List Combination} (h : List.Forall₂ (ReflTransGen Rewrites) as bs) :
    ReflTransGen Rewrites (t.apps as) (u.apps bs) := by
  induction h generalizing t u with
  | nil => exact ht
  | cons h _ ih => exact ih (Rewrites.steps_app ht h)

/-- A parallel step is a number of rewrites. -/
theorem steps {t u : Combination} (h : Parallel t u) : ReflTransGen Rewrites t u := by
  induction h with
  | var v => exact .refl
  | native c => exact .refl
  | app _ _ ihf iha => exact Rewrites.steps_app ihf iha
  | fire hr has hbs _ ih =>
    have args := (forall₂_iff_nth fun _ => .refl).mpr ⟨has.trans hbs.symm, ih⟩
    exact (steps_apps .refl args).tail (.fire hr hbs)

/-! ### What a parallel step makes of a combinator and its arguments -/

private theorem eq_concat_of_app {f a : Combination} {c : Native} {as : List Combination}
    (h : (Combination.native c).apps as = .app f a) :
    ∃ bs, as = bs ++ [a] ∧ f = (Combination.native c).apps bs := by
  rcases List.eq_nil_or_concat as with rfl | ⟨bs, b, rfl⟩
  · cases h
  · rw [List.concat_eq_append, apps_concat] at h
    cases h
    exact ⟨bs, List.concat_eq_append, rfl⟩

/-- A combinator keeps its place under a parallel step that does not fire it. -/
private theorem of_apps {c : Native} {as : List Combination} {u : Combination}
    (h : Parallel ((Combination.native c).apps as) u) (hlen : as.length ≤ c.arity) :
    (∃ bs, AllParallel as bs ∧ u = (Combination.native c).apps bs) ∨
      as.length = c.arity ∧ ∃ r bs, c.template = some r ∧ AllParallel as bs ∧ u = r.fill bs := by
  generalize ht : (Combination.native c).apps as = t at h
  induction h generalizing as with
  | var v =>
    rcases List.eq_nil_or_concat as with rfl | ⟨bs, b, rfl⟩
    · cases ht
    · rw [List.concat_eq_append, apps_concat] at ht
      cases ht
  | native d =>
    rcases List.eq_nil_or_concat as with rfl | ⟨bs, b, rfl⟩
    · cases ht
      exact .inl ⟨[], .nil, rfl⟩
    · rw [List.concat_eq_append, apps_concat] at ht
      cases ht
  | @app f g a b _ ha ihf _ =>
    obtain ⟨front, rfl, rfl⟩ := eq_concat_of_app ht
    rw [List.length_append, List.length_singleton] at hlen
    rcases ihf (Nat.le_of_succ_le hlen) rfl with ⟨bs, hbs, rfl⟩ | ⟨hfull, _⟩
    · refine .inl ⟨bs ++ [b], ?_, (apps_concat _ _ _).symm⟩
      exact List.rel_append hbs (.cons ha .nil)
    · omega
  | fire hr has hbs h _ =>
    obtain ⟨rfl, rfl⟩ := native_apps_inj ht
    exact .inr ⟨has, _, _, hr, (forall₂_iff_nth refl).mpr ⟨has.trans hbs.symm, h⟩, rfl⟩

/-- A combinator and its arguments after a parallel step, which may have fired the combinator. -/
inductive Reduct (c : Native) (r : Template) (bs : List Combination) : Combination → Prop where
  | waiting : Reduct c r bs ((Combination.native c).apps bs)
  | fired : Reduct c r bs (r.fill bs)

/-- A parallel step from a combinator with all its arguments. -/
private theorem exists_reduct {c : Native} {r : Template} {as : List Combination} {u : Combination}
    (hr : c.template = some r) (has : as.length = c.arity)
    (h : Parallel ((Combination.native c).apps as) u) :
    ∃ bs, AllParallel as bs ∧ Reduct c r bs u := by
  rcases h.of_apps (Nat.le_of_eq has) with ⟨bs, hbs, rfl⟩ | ⟨-, r', bs, hr', hbs, rfl⟩
  · exact ⟨bs, hbs, .waiting⟩
  · rw [hr] at hr'
    cases hr'
    exact ⟨bs, hbs, .fired⟩

/-- What has not fired yet still can. -/
private theorem Reduct.fill {c : Native} {r : Template} {as bs : List Combination}
    {u : Combination} (hr : c.template = some r) (has : as.length = c.arity) (hu : Reduct c r as u)
    (h : AllParallel as bs) : Parallel u (r.fill bs) := by
  cases hu with
  | waiting => exact fire_all hr has h
  | fired => exact Parallel.fill ((forall₂_iff_nth refl).mp h).2 r

/-! ### The diamond -/

/-- Two parallel steps of a combination can be made up for. -/
def Diamond (t : Combination) : Prop :=
  ∀ u v, Parallel t u → Parallel t v → ∃ w, Parallel u w ∧ Parallel v w

private theorem diamond_all {as bs cs : List Combination} (h : ∀ a ∈ as, Diamond a)
    (hb : AllParallel as bs) (hc : AllParallel as cs) :
    ∃ ds, AllParallel bs ds ∧ AllParallel cs ds := by
  induction hb generalizing cs with
  | nil =>
    cases hc
    exact ⟨[], .nil, .nil⟩
  | cons hb _ ih =>
    cases hc with
    | cons hc hcs =>
      obtain ⟨hfirst, hrest⟩ := List.forall_mem_cons.mp h
      obtain ⟨d, hbd, hcd⟩ := hfirst _ _ hb hc
      obtain ⟨ds, hbds, hcds⟩ := ih hrest hcs
      exact ⟨d :: ds, .cons hbd hbds, .cons hcd hcds⟩

/-- A combinator with all its arguments fires in the common result, whether or not it has fired
before. -/
private theorem diamond_redex {c : Native} {r : Template} {as : List Combination}
    (hr : c.template = some r) (has : as.length = c.arity) (h : ∀ a ∈ as, Diamond a) :
    Diamond ((Combination.native c).apps as) := by
  intro u v hu hv
  obtain ⟨bs, hbs, hu⟩ := exists_reduct hr has hu
  obtain ⟨cs, hcs, hv⟩ := exists_reduct hr has hv
  obtain ⟨ds, hbds, hcds⟩ := diamond_all h hbs hcs
  exact ⟨r.fill ds, hu.fill hr (hbs.length_eq ▸ has) hbds, hv.fill hr (hcs.length_eq ▸ has) hcds⟩

/-- Of two parallel steps one can be made up for by the other. -/
theorem diamond (t : Combination) : Diamond t := by
  induction hn : sizeOf t using Nat.strongRecOn generalizing t with
  | ind n ih =>
  subst hn
  by_cases redex : ∃ c r as, c.template = some r ∧ as.length = c.arity ∧
      t = (Combination.native c).apps as
  · obtain ⟨c, r, as, hr, has, rfl⟩ := redex
    refine diamond_redex hr has fun a ha => ih _ (sizeOf_lt_of_mem_args ?_) a rfl
    rw [args_apps]
    exact ha
  · intro u v hu hv
    cases hu with
    | var x => exact ⟨v, hv, refl v⟩
    | native c => exact ⟨v, hv, refl v⟩
    | fire hr has _ _ => exact absurd ⟨_, _, _, hr, has, rfl⟩ redex
    | app hf ha =>
      generalize hw : Combination.app _ _ = w at hv
      cases hv with
      | var x => cases hw
      | native c => cases hw
      | fire hr has _ _ => exact absurd ⟨_, _, _, hr, has, hw⟩ redex
      | app hf' ha' =>
        cases hw
        obtain ⟨g, hg, hg'⟩ := ih _ (by simp only [app.sizeOf_spec]; omega) _ rfl _ _ hf hf'
        obtain ⟨b, hb, hb'⟩ := ih _ (by simp only [app.sizeOf_spec]; omega) _ rfl _ _ ha ha'
        exact ⟨.app g b, hg.app hb, hg'.app hb'⟩

end Parallel

/-! ### Confluence -/

/-- Rewriting is taking parallel steps. -/
theorem steps_iff_parallel {t u : Combination} :
    ReflTransGen Rewrites t u ↔ ReflTransGen Parallel t u := by
  constructor
  · exact ReflTransGen.mono (fun _ _ => Parallel.of_rewrites) _ _
  · intro h
    induction h with
    | refl => exact .refl
    | tail _ h ih => exact ih.trans h.steps

/-- Combinations that come of the same one by rewriting lead to a common one. -/
theorem confluent {t u v : Combination} (hu : ReflTransGen Rewrites t u)
    (hv : ReflTransGen Rewrites t v) : Join (ReflTransGen Rewrites) u v := by
  rw [steps_iff_parallel] at hu hv
  obtain ⟨w, huw, hvw⟩ := Relation.church_rosser
    (fun t u v hu hv =>
      let ⟨w, huw, hvw⟩ := Parallel.diamond t u v hu hv
      ⟨w, .single huw, .single hvw⟩) hu hv
  exact ⟨w, steps_iff_parallel.mpr huw, steps_iff_parallel.mpr hvw⟩

/-- What a combination rewrites to is connected to it. -/
theorem connected_of_steps {t u : Combination} (h : ReflTransGen Rewrites t u) :
    EqvGen Rewrites t u := by
  induction h with
  | refl => exact .refl t
  | tail _ hstep ih => exact .trans _ _ _ ih (.rel _ _ hstep)

/-- Combinations that rewrites connect, forwards and backwards, lead to a common one. -/
theorem exists_common {t u : Combination} (h : EqvGen Rewrites t u) :
    Join (ReflTransGen Rewrites) t u := by
  induction h with
  | rel t u h => exact ⟨u, .single h, .refl⟩
  | refl t => exact ⟨t, .refl, .refl⟩
  | symm t u _ ih =>
    obtain ⟨w, htw, huw⟩ := ih
    exact ⟨w, huw, htw⟩
  | trans t u v _ _ ih ih' =>
    obtain ⟨w, htw, huw⟩ := ih
    obtain ⟨x, hux, hvx⟩ := ih'
    obtain ⟨y, hwy, hxy⟩ := confluent huw hux
    exact ⟨y, htw.trans hwy, hvx.trans hxy⟩

end Combinatory.Combination
