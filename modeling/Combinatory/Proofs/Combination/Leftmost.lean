import Combinatory.Proofs.Combination.Confluence
import Mathlib.Data.List.Induction

/-!
# The leftmost strategy finds normal forms

The next step of a combination fires the head if it has all its arguments, else takes the next step
of the first argument that has one. A parallel step can be split into steps of the head followed by
a parallel step inside the arguments (`Parallel.exists_inner`), and steps of the head can be moved
before it (`Inner.exists_headStep`). So whatever leads to a normal form does so when the head goes
first, and then the arguments one after another (`leads_of_steps`).
-/

namespace Combinatory.Combination

open Relation (ReflTransGen EqvGen)

/-! ### The next step -/

/-- The head fires, if it has all its arguments. -/
def headStep (t : Combination) : Option Combination :=
  match t.head with
  | native c =>
    match c.template with
    | some r =>
      if c.arity ≤ t.args.length then
        some ((r.fill (t.args.take c.arity)).apps (t.args.drop c.arity))
      else none
    | none => none
  | _ => none

/-- The next step of the first argument that has one. -/
def innerStep : Combination → Option Combination
  | app f a =>
    match innerStep f with
    | some g => some (app g a)
    | none => ((headStep a).or (innerStep a)).map (app f)
  | _ => none

/-- The next step, of the head if it can fire, else of the arguments. -/
def next (t : Combination) : Option Combination := (headStep t).or (innerStep t)

/-- The next step of the first combination of a list that has one. -/
def nextAmong : List Combination → Option (List Combination)
  | [] => none
  | a :: as =>
    match next a with
    | some b => some (b :: as)
    | none => (nextAmong as).map (a :: ·)

/-- One combination leads to another by a number of next steps. -/
abbrev Leads : Combination → Combination → Prop := ReflTransGen fun t u => next t = some u

/-- A combinator with all its arguments fires, whatever follows. -/
theorem headStep_apps {c : Native} {r : Template} {l : List Combination}
    (hr : c.template = some r) (hl : l.length = c.arity) (bs : List Combination) :
    headStep ((native c).apps (l ++ bs)) = some ((r.fill l).apps bs) := by
  simp [headStep, head, args, hr, ← hl]

/-- A step of the head fires a combinator. -/
theorem exists_of_headStep {t u : Combination} (h : headStep t = some u) :
    ∃ c r as bs, c.template = some r ∧ as.length = c.arity ∧
      t = (native c).apps (as ++ bs) ∧ u = (r.fill as).apps bs := by
  unfold headStep at h
  split at h
  · next c hc =>
    split at h
    · next r hr =>
      split at h
      · next hlen =>
        refine ⟨c, r, t.args.take c.arity, t.args.drop c.arity, hr, ?_, ?_, ?_⟩
        · rw [List.length_take, Nat.min_eq_left hlen]
        · rw [List.take_append_drop, ← hc, apps_head_args]
        · exact (Option.some.inj h).symm
      · cases h
    · cases h
  · cases h

/-- The head fires before another argument comes. -/
theorem headStep_app {f g : Combination} (h : headStep f = some g) (a : Combination) :
    headStep (app f a) = some (app g a) := by
  obtain ⟨c, r, as, bs, hr, has, rfl, rfl⟩ := exists_of_headStep h
  rw [← apps_concat, List.append_assoc, headStep_apps hr has, apps_concat]

/-- Whether the head fires is a matter of the head and the number of arguments. -/
theorem headStep_eq_none {t u : Combination} (hhead : t.head = u.head)
    (hlen : t.args.length = u.args.length) (h : headStep t = none) : headStep u = none := by
  unfold headStep at h ⊢
  rw [hhead, hlen] at h
  split
  · next c hc =>
    rw [hc] at h
    dsimp only at h
    split
    · next r hr =>
      rw [hr] at h
      dsimp only at h
      split at h
      · cases h
      · next hlt => exact if_neg hlt
    · rfl
  · rfl

/-! ### Next steps of spines -/

private theorem nextAmong_concat (as : List Combination) (a : Combination) :
    nextAmong (as ++ [a]) =
      match nextAmong as with
      | some bs => some (bs ++ [a])
      | none => (next a).map fun b => as ++ [b] := by
  induction as with
  | nil => cases h : next a <;> simp [nextAmong, h]
  | cons b as ih =>
    rw [List.cons_append, nextAmong, nextAmong, ih]
    cases next b with
    | some c => rfl
    | none =>
      cases nextAmong as with
      | some bs => rfl
      | none => cases next a <;> rfl

/-- The arguments of a spine step from left to right. -/
theorem innerStep_apps {h : Combination} (hh : h.args = []) (as : List Combination) :
    innerStep (h.apps as) = (nextAmong as).map h.apps := by
  induction as using List.reverseRecOn with
  | nil =>
    cases h with
    | app f a => exact absurd hh (by simp [args])
    | _ => rfl
  | append_singleton as a ih =>
    rw [apps_concat, innerStep, ih, nextAmong_concat]
    cases nextAmong as with
    | some bs => simp [apps_concat]
    | none =>
      change (next a).map _ = ((next a).map _).map _
      rw [Option.map_map]
      congr 1
      funext b
      exact (apps_concat _ _ _).symm

/-- A combination has no next step when neither its head fires nor an argument has one. -/
theorem next_eq_none_iff {t : Combination} :
    next t = none ↔ headStep t = none ∧ innerStep t = none := by
  rw [next, Option.or_eq_none_iff]

/-- A step of one of some combinations leaves as many. -/
theorem length_nextAmong {as bs : List Combination} (h : nextAmong as = some bs) :
    bs.length = as.length := by
  induction as generalizing bs with
  | nil => cases h
  | cons a as ih =>
    rw [nextAmong] at h
    split at h
    · cases h
      rfl
    · obtain ⟨cs, hcs, rfl⟩ := Option.map_eq_some_iff.mp h
      exact congrArg (· + 1) (ih hcs)

private theorem next_eq_none_of_nextAmong {as : List Combination} (h : nextAmong as = none) :
    ∀ a ∈ as, next a = none := by
  induction as with
  | nil => exact List.forall_mem_nil _
  | cons a as ih =>
    rw [nextAmong] at h
    split at h
    · cases h
    · next ha => exact List.forall_mem_cons.mpr ⟨ha, ih (Option.map_eq_none_iff.mp h)⟩

/-- What has no next step cannot be rewritten. -/
theorem not_rewrites {t u : Combination} (hn : next t = none) : ¬ Rewrites t u := by
  intro h
  induction h with
  | fire hr has =>
    have fires := headStep_apps hr has []
    rw [List.append_nil] at fires
    rw [next, fires] at hn
    cases hn
  | left _ a ih =>
    obtain ⟨hhead, hinner⟩ := next_eq_none_iff.mp hn
    apply ih
    rw [next_eq_none_iff]
    constructor
    · by_contra hf
      obtain ⟨g, hg⟩ := Option.ne_none_iff_exists'.mp hf
      rw [headStep_app hg a] at hhead
      cases hhead
    · rw [innerStep] at hinner
      split at hinner
      · cases hinner
      · next hf => exact hf
  | right f _ ih =>
    obtain ⟨-, hinner⟩ := next_eq_none_iff.mp hn
    apply ih
    rw [innerStep] at hinner
    split at hinner
    · cases hinner
    · exact Option.map_eq_none_iff.mp hinner

/-- A normal form leads by rewriting to itself only. -/
theorem eq_of_steps {t u : Combination} (hn : next t = none) (h : ReflTransGen Rewrites t u) :
    u = t := by
  rcases h.cases_head with rfl | ⟨v, hv, -⟩
  · rfl
  · exact absurd hv (not_rewrites hn)

/-! ### Rewriting the head first -/

/-- Steps of the head. -/
abbrev HeadSteps : Combination → Combination → Prop :=
  ReflTransGen fun t u => headStep t = some u

/-- A parallel step inside the arguments. -/
structure Inner (t u : Combination) : Prop where
  head : t.head = u.head
  args : AllParallel t.args u.args

private theorem HeadSteps.app {f g : Combination} (h : HeadSteps f g) (a : Combination) :
    HeadSteps (.app f a) (.app g a) :=
  h.lift (Combination.app · a) fun _ _ h => headStep_app h a

/-- A parallel step that can be split into steps of the head and one inside the arguments. -/
def Splits (t u : Combination) : Prop := ∃ w, HeadSteps t w ∧ Inner w u

private theorem Splits.app {f g a b : Combination} (hf : Splits f g) (ha : Parallel a b) :
    Splits (.app f a) (.app g b) := by
  obtain ⟨w, hw, hwg⟩ := hf
  exact ⟨.app w a, hw.app a, hwg.head, List.rel_append hwg.args (.cons ha .nil)⟩

private theorem splits_fill {as bs : List Combination}
    (h : ∀ i, Parallel (nth as i) (nth bs i)) (hs : ∀ i, Splits (nth as i) (nth bs i)) :
    ∀ r : Template, Splits (r.fill as) (r.fill bs)
  | .arg i => hs i
  | .app f a => (splits_fill h hs f).app (Parallel.fill h a)

/-- The head may go first: a parallel step is a number of steps of the head, followed by a parallel
step inside the arguments. -/
theorem Parallel.exists_inner {t u : Combination} (h : Parallel t u) : Splits t u := by
  induction h with
  | var v => exact ⟨_, .refl, rfl, .nil⟩
  | native c => exact ⟨_, .refl, rfl, .nil⟩
  | app _ ha ih _ => exact ih.app ha
  | @fire c r as bs hr has _ h ih =>
    have fires := headStep_apps hr has []
    rw [List.append_nil] at fires
    obtain ⟨w, hw, hwu⟩ := splits_fill h ih r
    exact ⟨w, hw.head fires, hwu⟩

/-- A step of the head may go before a parallel step inside the arguments. -/
theorem Inner.exists_headStep {t u v : Combination} (h : Inner t u) (hv : headStep u = some v) :
    ∃ w, headStep t = some w ∧ Parallel w v := by
  obtain ⟨c, r, as, bs, hr, has, rfl, rfl⟩ := exists_of_headStep hv
  obtain ⟨hhead, hargs⟩ := h
  rw [head_apps] at hhead
  rw [args_apps] at hargs
  have fired : AllParallel (t.args.take as.length) as := List.forall₂_take_append _ _ _ hargs
  have rest : AllParallel (t.args.drop as.length) bs := List.forall₂_drop_append _ _ _ hargs
  have spine : (native c).apps t.args = t := by
    rw [← show t.head = native c from hhead, apps_head_args]
  refine ⟨(r.fill (t.args.take as.length)).apps (t.args.drop as.length), ?_, ?_⟩
  · rw [← headStep_apps hr (fired.length_eq.trans has), List.take_append_drop, spine]
  · exact (Parallel.fill ((forall₂_iff_nth Parallel.refl).mp fired).2 r).apps rest

/-- Steps of the head may go before a parallel step. -/
private theorem Parallel.exists_headSteps {t u v : Combination} (h : Parallel t u)
    (hv : HeadSteps u v) : Splits t v := by
  induction hv using ReflTransGen.head_induction_on generalizing t with
  | refl => exact h.exists_inner
  | head hstep _ ih =>
    obtain ⟨w, hw, hinner⟩ := h.exists_inner
    obtain ⟨x, hx, hpar⟩ := hinner.exists_headStep hstep
    obtain ⟨y, hy, hyv⟩ := ih hpar
    exact ⟨y, hw.trans (hy.head hx), hyv⟩

private theorem parallel_trans_all {as bs cs : List Combination} (h : AllParallel as bs)
    (h' : List.Forall₂ (ReflTransGen Parallel) bs cs) :
    List.Forall₂ (ReflTransGen Parallel) as cs := by
  induction h generalizing cs with
  | nil => exact h'
  | cons h _ ih =>
    cases h' with
    | cons hb hbs => exact .cons (hb.head h) (ih hbs)

/-- Whatever leads to a combination does so when the head goes first. -/
private theorem exists_headSteps {t n : Combination} (h : ReflTransGen Parallel t n) :
    ∃ w, HeadSteps t w ∧ w.head = n.head ∧
      List.Forall₂ (ReflTransGen Parallel) w.args n.args := by
  induction h using ReflTransGen.head_induction_on with
  | refl => exact ⟨n, .refl, rfl, List.forall₂_same.mpr fun _ _ => .refl⟩
  | head hstep _ ih =>
    obtain ⟨w, hw, hhead, hargs⟩ := ih
    obtain ⟨x, hx, hinner⟩ := hstep.exists_headSteps hw
    exact ⟨x, hx, hinner.head.trans hhead, parallel_trans_all hinner.args hargs⟩

/-! ### The arguments one after another -/

private theorem leadsAmong {as bs : List Combination} (h : List.Forall₂ Leads as bs)
    (hn : ∀ b ∈ bs, next b = none) :
    ReflTransGen (fun as bs => nextAmong as = some bs) as bs := by
  induction h with
  | nil => exact .refl
  | @cons a b as bs h _ ih =>
    obtain ⟨hb, hbs⟩ := List.forall_mem_cons.mp hn
    have first : ReflTransGen (fun as bs => nextAmong as = some bs) (a :: as) (b :: as) := by
      refine h.lift (· :: as) fun t u htu => ?_
      change nextAmong (t :: as) = some (u :: as)
      rw [nextAmong, htu]
    have rest : ReflTransGen (fun as bs => nextAmong as = some bs) (b :: as) (b :: bs) := by
      refine (ih hbs).lift (b :: ·) fun cs ds hcs => ?_
      change nextAmong (b :: cs) = some (b :: ds)
      rw [nextAmong, hb, hcs, Option.map_some]
    exact first.trans rest

/-- Where the head does not fire, a spine leads wherever its arguments do. -/
private theorem leads_apps {h : Combination} (hh : h.args = []) {as bs : List Combination}
    (hnone : headStep (h.apps as) = none)
    (hsteps : ReflTransGen (fun as bs => nextAmong as = some bs) as bs) :
    Leads (h.apps as) (h.apps bs) := by
  induction hsteps using ReflTransGen.head_induction_on with
  | refl => exact .refl
  | @head as cs hstep _ ih =>
    have inner : next (h.apps as) = some (h.apps cs) := by
      rw [next, hnone, innerStep_apps hh, hstep]
      rfl
    have same : headStep (h.apps cs) = none := by
      refine headStep_eq_none (by rw [head_apps, head_apps]) ?_ hnone
      rw [args_apps, args_apps, hh, List.nil_append, List.nil_append, length_nextAmong hstep]
    exact (ih same).head inner

private theorem leads_all {as bs : List Combination}
    (h : List.Forall₂ (ReflTransGen Parallel) as bs)
    (hl : ∀ b ∈ bs, ∀ a, ReflTransGen Parallel a b → Leads a b) : List.Forall₂ Leads as bs := by
  induction h with
  | nil => exact .nil
  | cons h _ ih =>
    obtain ⟨hb, hbs⟩ := List.forall_mem_cons.mp hl
    exact .cons (hb _ h) (ih hbs)

/-- Steps of the head are next steps. -/
private theorem HeadSteps.leads {t u : Combination} (h : HeadSteps t u) : Leads t u :=
  ReflTransGen.mono (fun _ _ h => by rw [next, h, Option.some_or]) _ _ h

/-- The leftmost strategy finds every normal form that rewriting can lead to. -/
theorem leads_of_steps {t n : Combination} (h : ReflTransGen Rewrites t n) (hn : next n = none) :
    Leads t n := by
  rw [steps_iff_parallel] at h
  induction hsize : sizeOf n using Nat.strongRecOn generalizing t n with
  | ind m ih =>
  subst hsize
  obtain ⟨w, hw, hhead, hargs⟩ := exists_headSteps h
  obtain ⟨hnone, hinner⟩ := next_eq_none_iff.mp hn
  have normal : ∀ b ∈ n.args, next b = none := by
    rw [← apps_head_args n, innerStep_apps n.args_head, Option.map_eq_none_iff] at hinner
    exact next_eq_none_of_nextAmong hinner
  have leads : List.Forall₂ Leads w.args n.args :=
    leads_all hargs fun b hb a hab => ih _ (sizeOf_lt_of_mem_args hb) hab (normal b hb) rfl
  have blocked : headStep (w.head.apps w.args) = none := by
    rw [apps_head_args]
    exact headStep_eq_none hhead.symm hargs.length_eq.symm hnone
  have inside := leads_apps w.args_head blocked (leadsAmong leads normal)
  rw [apps_head_args, hhead, apps_head_args] at inside
  exact hw.leads.trans inside

/-- A step of the head is a rewrite. -/
private theorem rewrites_of_headStep {t u : Combination} (h : headStep t = some u) :
    Rewrites t u := by
  obtain ⟨c, r, as, bs, hr, has, rfl, rfl⟩ := exists_of_headStep h
  rw [apps_append]
  exact (Rewrites.fire hr has).apps bs

private theorem rewrites_of_innerStep {t u : Combination} (h : innerStep t = some u) :
    Rewrites t u := by
  induction t generalizing u with
  | var v => cases h
  | native c => cases h
  | app f a ihf iha =>
    rw [innerStep] at h
    split at h
    · next g hg =>
      cases h
      exact (ihf hg).left a
    · obtain ⟨b, hb, rfl⟩ := Option.map_eq_some_iff.mp h
      refine Rewrites.right f ?_
      rcases Option.or_eq_some_iff.mp hb with hb | ⟨-, hb⟩
      · exact rewrites_of_headStep hb
      · exact iha hb

/-- The next step is a rewrite. -/
theorem rewrites_of_next {t u : Combination} (h : next t = some u) : Rewrites t u := by
  rcases Option.or_eq_some_iff.mp h with h | ⟨-, h⟩
  · exact rewrites_of_headStep h
  · exact rewrites_of_innerStep h

/-- Next steps are rewrites. -/
theorem Leads.steps {t u : Combination} (h : Leads t u) : ReflTransGen Rewrites t u :=
  ReflTransGen.mono (fun _ _ => rewrites_of_next) _ _ h

/-- A combination that rewrites connect, forwards and backwards, to one that has a normal form is
led to this normal form by the leftmost strategy. -/
theorem leads_of_connected {t u n : Combination} (h : EqvGen Rewrites t u) (ht : Leads t n)
    (hn : next n = none) : Leads u n := by
  obtain ⟨w, htw, huw⟩ := exists_common h
  obtain ⟨x, hnx, hwx⟩ := confluent ht.steps htw
  rw [eq_of_steps hn hnx] at hwx
  exact leads_of_steps (huw.trans hwx) hn

/-- Combinations that rewrites connect have the same normal form. -/
theorem eq_of_connected {t u n m : Combination} (h : EqvGen Rewrites t u) (ht : Leads t n)
    (hn : next n = none) (hu : Leads u m) (hm : next m = none) : n = m := by
  obtain ⟨x, hnx, hmx⟩ := confluent (leads_of_connected h ht hn).steps hu.steps
  exact (eq_of_steps hn hnx).symm.trans (eq_of_steps hm hmx)

end Combinatory.Combination
