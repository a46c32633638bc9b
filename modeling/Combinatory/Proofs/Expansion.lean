import Combinatory.Proofs.Combination.Bracket
import Combinatory.Proofs.Combination.Runs
import Combinatory.Proofs.Tower.Probes

/-!
# Canonical forms of combinators

A search feeds a combinator probes. It waits for as many as its arity says, and when it has them all
one step leaves nothing but probes, which is where the search ends. So if one step and enough probes
are allowed, the canonical form is found, and it is a closed tower that fills the template
(`yields_canonical`).
-/

namespace Combinatory

open Engine (Yields)

/-- Limits that allow one step, and more probes than any of the combinators waits for. -/
structure Budget.Ample (limits : Budget) : Prop where
  steps : ∃ k, limits.steps.bound? = some k ∧ 1 ≤ k
  args : ∃ n, limits.args.whole? = some n ∧ 4 ≤ n

/-- No combinator that stands for a lambda term waits for more than three arguments. -/
theorem Native.arity_le_three {c : Native} (hc : c.isPure = true) : c.arity ≤ 3 := by
  cases c with
  | toNumeral | lambdaMark | user u => cases hc
  | _ => simp [arity]

namespace Term

variable {R : Rules} {c : Native} {r : Template} {vs : List Variable} {t : Term} {s : Store}

/-- A combinator on the probes that it was fed. -/
inductive OnProbes (c : Native) : List Variable → Term → Prop where
  | bare : OnProbes c [] (native c)
  | fed {n : Nat} {vs : List Variable} (h : vs ≠ []) : OnProbes c vs (app n (native c) (vs.map var))

namespace OnProbes

/-- A combinator waits for one more probe. -/
theorem awaitsArgs (h : OnProbes c vs t) : t.awaitsArgs = true := by
  cases h <;> rfl

private theorem idleAll (vs : List Variable) : IdleAll (vs.map var) := by
  induction vs with
  | nil => trivial
  | cons v vs ih => exact ⟨trivial, ih⟩

/-- A combinator that waits for more probes is idle. -/
theorem idle (h : OnProbes c vs t) (hlen : vs.length < c.arity) : t.Idle := by
  cases h with
  | bare => trivial
  | fed h => exact ⟨by rwa [Waits, List.length_map], trivial, idleAll vs⟩

/-- One more probe is fed. -/
theorem yields_apply (hc : c.isPure = true) (h : OnProbes c vs t) (v : Variable) (s : Store) :
    Yields (t.apply R [var v]) s fun u _ => OnProbes c (vs ++ [v]) u := by
  rw [apply_eq_extend R t rfl]
  cases h with
  | bare =>
    have kept : c.replacement R (var v) = pure none := by
      cases c <;> first | rfl | cases hc
    have made : extend R (native c) [var v] = Engine.node (native c) [var v] := by
      simp [extend, kept]
    rw [made]
    apply (Engine.yields_node _ _ s).imp
    rintro _ s' - ⟨n, rfl⟩
    exact @OnProbes.fed c n [v] (List.cons_ne_nil v [])
  | fed h =>
    rw [extend_app]
    apply (Engine.yields_node _ _ s).imp
    rintro _ s' - ⟨n, rfl⟩
    have probes : vs.map var ++ [var v] = (vs ++ [v]).map var := by
      rw [List.map_append, List.map_singleton]
    rw [probes]
    exact .fed (List.append_ne_nil_of_right_ne_nil vs (List.cons_ne_nil v []))

/-- A combinator that has all its probes fires. -/
theorem yields_leftmost (hr : c.template = some r) (h : OnProbes c vs t)
    (hlen : vs.length = c.arity) (s : Store) :
    Yields (leftmost R t) s fun o _ => StepsTo (r.fill (vs.map .var)) o := by
  cases h with
  | bare => exact absurd hlen.symm c.arity_pos.ne'
  | fed h =>
    have forms : List.Forall₂ Forms (vs.map var) (vs.map .var) := by
      rw [List.forall₂_map_left_iff, List.forall₂_map_right_iff, List.forall₂_same]
      exact fun v _ => .self (t := var v) trivial
    have enough : c.arity ≤ (vs.map var).length := by rw [List.length_map, hlen]
    have all : (vs.map Combination.var).length ≤ c.arity := by rw [List.length_map, hlen]
    have fires := yields_reduce R hr forms enough s
    rw [List.take_of_length_le all, List.drop_of_length_le all] at fires
    unfold leftmost
    apply fires.bind
    rintro _ s₁ - ⟨u, rfl, hu⟩
    exact .pure ⟨u, rfl, hu⟩

end OnProbes

/-! ### Runs -/

variable {p : Twins} {k : Int} {maxSteps : Amount}

/-- An idle term is the result of its run. -/
private theorem run_of_idle (ht : t.Recorded (fun c => c.isPure = true) p.heap) (hi : t.Idle)
    (hk : maxSteps.bound? = some k) :
    ∃ p', p ≤ p' ∧ t.run R maxSteps [] false p.left = .ok ⟨t, 0, true⟩ p'.left := by
  obtain ⟨p', later, hstep⟩ := step_of_idle (R := R) ht hi
  exact ⟨p', later, run_nil_ok_iff.mpr ⟨k, hk, runFrom_of_normal hstep, nofun⟩⟩

/-- A term that fires once and is done then is run to the result. -/
private theorem run_of_leftmost {d : Combination}
    (ht : t.Recorded (fun c => c.isPure = true) p.heap)
    (hl : Yields (leftmost R t) p.right fun o _ => StepsTo d o) (hd : d.next = none)
    (hk : maxSteps.bound? = some k) (hone : 1 ≤ k) :
    ∃ u p', p ≤ p' ∧ t.run R maxSteps [] false p.left = .ok ⟨u, 1, true⟩ p'.left ∧
      Stands p' u d := by
  obtain ⟨u, p₁, later₁, hstep, hu⟩ := step_of_stepsTo ht hl
  obtain ⟨p₂, later₂, hrest⟩ := step_of_normal (R := R) hu hd
  refine ⟨u, p₂, Twins.le_trans later₁ later₂, ?_, hu.recorded.later later₂, hu.forms⟩
  refine run_nil_ok_iff.mpr ⟨k, hk, ?_, nofun⟩
  rw [runFrom_of_step (by omega) hstep Nat.one_ne_zero]
  exact runFrom_of_normal hrest

/-! ### The search -/

/-- A closed tower that fills a template. -/
structure Fills (r : Template) (n : Nat) (s : Store) (t : Term) : Prop where
  tower : t.IsTower n
  fits : t.Fits (.ofFree ∅) s
  applied : ∀ σ xs, xs.length = n → t.applied σ xs = r.fill xs

/-- A term without combinators is headed by a variable. -/
private theorem Forms.awaitsArgs_eq_false {d : Combination} (ht : t.Forms d)
    (hd : d.Uses fun _ => False) : t.awaitsArgs = false := by
  obtain ⟨ht, rfl⟩ := ht
  cases t with
  | var v => rfl
  | native c => exact hd.elim
  | app n h as =>
    obtain ⟨hh, -, -⟩ := ht
    have head := (Combination.uses_apps.mp hd).1
    cases h with
    | var v => rfl
    | native c => exact head.elim
    | _ => exact hh.elim
  | _ => exact ht.elim

/-- What a rule makes of distinct probes is closed over them to fill the template. -/
private theorem fills_of_closedOver (hlen : vs.length = c.arity) (hvs : vs.Nodup)
    {form : CanonicalForm} (h : ClosedOver (.ofFree ∅) s vs (r.fill (vs.map .var)) form) :
    Fills r c.arity s form.term := by
  refine ⟨hlen ▸ h.tower, h.fits, fun σ xs hxs => ?_⟩
  have same : vs.length = xs.length := hlen.trans hxs.symm
  rw [h.applied σ xs same.le, same, List.drop_length, Combination.apps_nil, Template.subst_fill,
    List.map_map]
  exact congrArg r.fill ((map_passed hvs σ same.le).trans (by rw [same, List.take_length]))

/-- Where a search stands that began with a combinator. -/
structure Searching (c : Native) (p : Twins) (vs : List Variable) (t : Term) : Prop where
  onProbes : OnProbes c vs t
  recorded : t.Recorded (fun c => c.isPure = true) p.heap
  probes : Probes p.left vs
  length_le : vs.length ≤ c.arity

/-- A search is fed one more probe. -/
private theorem Searching.probe (hc : c.isPure = true) (h : Searching c p vs t)
    (hlen : vs.length < c.arity) (name : String) :
    ∃ v u s p', Engine.freshVariable name p.left = .ok v s ∧
      t.apply R [var v] s = .ok u p'.left ∧ p ≤ p' ∧ Searching c p' (vs ++ [v]) u := by
  obtain ⟨v, s, hv, -, -, -⟩ := Engine.yields_freshVariable name p.left (.left p)
  obtain ⟨-, hfresh, hm⟩ := Engine.ensures_freshVariable _ _ _ _ hv
  obtain ⟨p₁, later₁, rfl, -⟩ := (Engine.alike_freshVariable p name).exists_of_ok hv
  obtain ⟨u, s₂, hu, -, -, honProbes⟩ := h.onProbes.yields_apply (R := R) hc v p₁.left (.left p₁)
  have hprobe : RecordedAll (fun c => c.isPure = true) p₁.heap [var v] := ⟨trivial, trivial⟩
  obtain ⟨p₂, later₂, rfl, hrec⟩ :=
    (records_apply (.of_pure R p₁) (h.recorded.later later₁) hprobe).exists_of_ok hu
  have later := Twins.le_trans later₁ later₂
  refine ⟨v, u, p₁.left, p₂, hv, hu, later, honProbes, hrec, ?_, ?_⟩
  · exact h.probes.concat later.nextVariable hfresh (hm.mono later₂.nextVariable)
  · rw [List.length_append]
    exact hlen

/-- A search that may go on for all probes finds a form. -/
private theorem exists_form_of_searching (hc : c.isPure = true) (hr : c.template = some r)
    (hk : maxSteps.bound? = some k) (hone : 1 ≤ k) (left : Nat) (h : Searching c p vs t)
    (enough : c.arity < vs.length + left) (spent : Nat) :
    ∃ form n s, searchFrom R maxSteps t vs spent left p.left = .ok (some form, n) s ∧
      s.Sane ∧ p.left ≤ s ∧ Fills r c.arity s form.term := by
  induction left generalizing p vs t spent with
  | zero => exact absurd h.length_le (Nat.not_le_of_lt enough)
  | succ left ih =>
    rcases Nat.lt_or_eq_of_le h.length_le with hlt | hlen
    · -- the combinator waits for the next probe
      obtain ⟨p₁, later₁, hrun⟩ := run_of_idle (R := R) h.recorded (h.onProbes.idle hlt) hk
      have ran : Searching c p₁ vs t :=
        ⟨h.onProbes, h.recorded.later later₁, h.probes.later later₁.nextVariable, h.length_le⟩
      obtain ⟨v, u, s, p₂, hv, hu, later₂, hs⟩ :=
        ran.probe (R := R) hc hlt (Probe.name vs.length)
      have more : c.arity < (vs ++ [v]).length + left := by
        rw [List.length_append, List.length_singleton]
        omega
      obtain ⟨form, n, s', hfound, hs', hle, hform⟩ := ih hs more (spent + 0)
      refine ⟨form, n, s', ?_, hs', Int.le_trans (Twins.le_trans later₁ later₂).nextVariable hle,
        hform⟩
      exact searchFrom_found_iff.mpr ⟨t, 0, p₁.left, hrun,
        .inr ⟨h.onProbes.awaitsArgs, v, s, u, p₂.left, hv, hu, hfound⟩⟩
    · -- it has them all and fires
      have bare : (r.fill (vs.map .var)).Uses fun _ => False := Template.uses_fill_vars hr hlen
      have normal : (r.fill (vs.map .var)).next = none := by
        rw [Option.eq_none_iff_forall_ne_some]
        exact fun d hd => Combination.not_rewrites_of_uses bare (Combination.rewrites_of_next hd)
      obtain ⟨u, p₁, later₁, hrun, hu⟩ := run_of_leftmost h.recorded
        (h.onProbes.yields_leftmost (R := R) hr hlen p.right) normal hk hone
      have fits : u.Fits ((Scope.ofFree ∅).seeAll vs) p₁.left := by
        refine hu.forms.isCombination.fits fun v hv => Scope.mem_visible_seeAll.mpr (.inr ?_)
        rw [occurs_iff_mentions hu.forms.isCombination, hu.forms.combination] at hv
        exact Template.mem_of_mentions_fill hv
      have empty : (Scope.ofFree ∅).Minted p₁.left := ⟨fun _ hv => hv.elim, fun _ hv => hv.elim⟩
      obtain ⟨form, s, hclose, hs, hle, hform⟩ := yields_closeProbes (R := R) empty
        (h.probes.later later₁.nextVariable) fits hu.forms.isCombination (.left p₁)
      rw [hu.forms.combination] at hform
      refine ⟨form, spent + 1, s, ?_, hs, Int.le_trans later₁.nextVariable hle,
        fills_of_closedOver hlen h.probes.nodup hform⟩
      exact searchFrom_found_iff.mpr ⟨u, 1, p₁.left, hrun,
        .inl ⟨hu.forms.awaitsArgs_eq_false bare, hclose, rfl⟩⟩

/-- The canonical form of a combinator is found, and it fills the template. -/
theorem yields_canonical {limits : Budget} (h : limits.Ample) (hc : c.isPure = true)
    (hr : c.template = some r) (s : Store) :
    Yields (canonical R limits (native c)) s fun o s' =>
      ∃ u, o = some u ∧ Fills r c.arity s' u := by
  intro hs
  obtain ⟨p, rfl, -⟩ := hs.exists_twins
  obtain ⟨k, hk, hone⟩ := h.steps
  obtain ⟨n, hn, hfour⟩ := h.args
  have start : Searching c p [] (native c) :=
    ⟨.bare, hc, .nil, Nat.zero_le _⟩
  have enough : c.arity < 0 + n.toNat := by
    have := Native.arity_le_three hc
    omega
  obtain ⟨form, m, s', hfound, hs', hle, hform⟩ :=
    exists_form_of_searching (R := R) hc hr hk hone n.toNat start enough 0
  refine ⟨some form.term, s', ?_, hs', hle, form.term, rfl, hform⟩
  have canonicalized : canonicalize R limits (native c) false p.left = .ok (.found form m) s' :=
    canonicalize_found_iff.mpr ⟨n, hn, hfound⟩
  exact Engine.bind_ok_iff.mpr ⟨_, _, canonicalized, rfl⟩

end Term

end Combinatory
