import Combinatory.Proofs.CanonicalBehavior
import Combinatory.Proofs.Combination.Bracket

/-!
# Arguments that do not matter

The places that are listed with a canonical form as unused are those of the arguments that do not
matter: exactly there any argument can be put for another without changing whether a run on the
arguments is final, and with what result (`Workspace.Reachable.mem_unused_iff`). The result that was
closed over the probes is a normal form. If it does not mention a probe, what the combination gives
does not depend on the argument for it. If it does, two new variables in its place tell two results
apart, since a normal form stays one when its variables are renamed.
-/

namespace Combinatory

open Relation (EqvGen ReflTransGen)
open Combination (Leads Rewrites)

namespace Combination

/-! ### Renamed normal forms -/

variable {π : Variable → Variable} {t : Combination}

/-- Only a combinator is renamed to a combinator. -/
private theorem head_of_rename {c : Native} {as : List Combination}
    (h : t.rename π = (native c).apps as) : t.head = native c ∧ t.args.length = as.length := by
  rw [← apps_head_args t, rename, subst_apps] at h
  cases hhead : t.head with
  | app f a =>
    have := args_head t
    rw [hhead, args] at this
    exact absurd this (by simp)
  | var v =>
    rw [hhead] at h
    obtain ⟨heq, -⟩ := apps_inj (t := (var v).subst (var ∘ π)) rfl rfl h
    cases heq
  | native d =>
    rw [hhead] at h
    obtain ⟨rfl, has⟩ := native_apps_inj h
    exact ⟨rfl, by simpa using congrArg List.length has⟩

/-- What can be rewritten after its variables were renamed could be rewritten before. -/
theorem exists_rewrites_of_rename {u : Combination} (h : Rewrites (t.rename π) u) :
    ∃ u', Rewrites t u' := by
  generalize ht : t.rename π = t' at h
  induction h generalizing t with
  | @fire c r as hr has =>
    obtain ⟨hhead, hlen⟩ := head_of_rename ht
    rw [← apps_head_args t, hhead]
    exact ⟨_, .fire hr (hlen.trans has)⟩
  | @left f g _ a ih =>
    cases t with
    | app f' a' =>
      injection ht with hf ha
      obtain ⟨g', hg⟩ := ih hf
      exact ⟨_, hg.left a'⟩
    | _ => cases ht
  | @right f a b _ ih =>
    cases t with
    | app f' a' =>
      injection ht with hf ha
      obtain ⟨b', hb⟩ := ih ha
      exact ⟨_, hb.right f'⟩
    | _ => cases ht

/-- A normal form stays one when its variables are renamed. -/
theorem next_rename_eq_none (h : t.next = none) : (t.rename π).next = none := by
  cases hnext : (t.rename π).next with
  | none => rfl
  | some u =>
    obtain ⟨u', hu⟩ := exists_rewrites_of_rename (rewrites_of_next hnext)
    exact absurd hu (not_rewrites h)

end Combination

namespace Term

/-- Variables are the combinations that they are. -/
theorem combinations_vars (ws : List Variable) :
    combinations (ws.map var) = ws.map Combination.var := by
  rw [combinations_eq_map, List.map_map]
  rfl

variable {vs : List Variable} {σ : Variable → Combination} {xs ys : List Combination}

/-- A variable is assigned the argument at its place. -/
theorem getElem?_eq_passed (hvs : vs.Nodup) {j : Nat} (hj : j < vs.length)
    (hlen : vs.length ≤ xs.length) : xs[j]? = some (passed σ vs xs vs[j]) := by
  have all := map_passed hvs σ hlen
  have same : (vs.map (passed σ vs xs))[j]? = (xs.take vs.length)[j]? := by rw [all]
  simpa [hj] using same.symm

/-- An argument for a variable that is not mentioned can be any other. -/
theorem subst_passed_congr (hvs : vs.Nodup) {r : Combination} {i : Nat} (hi : i < vs.length)
    (hr : ¬ r.Mentions vs[i]) (hx : vs.length ≤ xs.length) (hy : vs.length ≤ ys.length)
    (same : ∀ j, j ≠ i → xs[j]? = ys[j]?) :
    r.subst (passed σ vs xs) = r.subst (passed σ vs ys) := by
  refine Combination.subst_congr fun v hv => ?_
  by_cases hmem : v ∈ vs
  · obtain ⟨j, hj, rfl⟩ := List.mem_iff_getElem.mp hmem
    have other : j ≠ i := by
      rintro rfl
      exact hr hv
    have both := same j other
    rw [getElem?_eq_passed (σ := σ) hvs hj hx, getElem?_eq_passed (σ := σ) hvs hj hy] at both
    exact Option.some.inj both
  · rw [passed_of_not_mem hmem, passed_of_not_mem hmem]

/-- The places of the probes that the result does not mention are listed as unused. -/
theorem mem_unused_of_closeProbes {R : Rules} {t : Term} {r : Combination} (ht : t.Forms r)
    {s s' : Store} {form : CanonicalForm} (hclose : closeProbes R vs t s = .ok form s') {i : Nat}
    (hi : i < vs.length) : i ∈ form.unused ↔ ¬ r.Mentions vs[i] := by
  unfold closeProbes at hclose
  rw [ht.isCombination.counted_eq, pure_bind, ht.combination] at hclose
  obtain ⟨u, s₁, -, hclose⟩ := Engine.bind_ok_iff.mp hclose
  cases hclose
  dsimp only
  rw [Probe.unused, Probe.mem_places, ← Combination.var_mem_symbols]
  simp [hi, List.count_eq_zero]

/-- What a found form tells of a combination: a normal form in which distinct probes stand for the
arguments, and which of them it does not mention. -/
structure FoundOver (c : Combination) (vs : List Variable) (r : Combination)
    (form : CanonicalForm) : Prop where
  arity : form.arity = vs.length
  nodup : vs.Nodup
  normal : r.next = none
  steps : ∀ xs : List Combination, xs.length = vs.length →
    ReflTransGen Rewrites (c.apps xs) (r.subst (passed .var vs xs))
  mentions : ∀ v, r.Mentions v → c.Mentions v ∨ v ∈ vs
  unused : ∀ (i : Nat) (hi : i < vs.length), i ∈ form.unused ↔ ¬ r.Mentions vs[i]

/-- A normal form that is closed over the probes is what a found form tells of. -/
theorem foundOver_of_closeProbes {R : Rules} {p : Twins} {t : Term} {c r : Combination}
    (probed : Probed c p vs t r) (normal : r.next = none) {form : CanonicalForm} {s : Store}
    (hclose : closeProbes R vs t p.left = .ok form s) : FoundOver c vs r form := by
  refine ⟨arity_of_closeProbes hclose, probed.probes.nodup, normal, fun xs hlen => ?_,
    fun v hv => ?_, fun i hi => mem_unused_of_closeProbes probed.stands.forms hclose hi⟩
  · have steps := probed.steps_apps (Nat.le_of_eq hlen.symm)
    rwa [List.drop_eq_nil_of_le (Nat.le_of_eq hlen)] at steps
  · rcases Combination.mentions_apps.mp (Combination.mentions_of_steps probed.steps hv) with
      hv | ⟨_, ha, hv⟩
    · exact .inl hv
    · obtain ⟨w, hw, rfl⟩ := List.mem_map.mp ha
      obtain rfl : v = w := hv
      exact .inr hw

/-- A form that is found comes from a normal form over the probes. -/
theorem exists_foundOver {R : Rules} {budget : Budget} {strict : Bool} {p : Twins} {t : Term}
    {c : Combination} (ht : Stands p t c) (hc : ∀ v, c.Mentions v → p.left.Minted v)
    {form : CanonicalForm} {k : Nat} {s : Store}
    (h : canonicalize R budget t strict p.left = .ok (.found form k) s) :
    ∃ vs r, FoundOver c vs r form := by
  obtain ⟨p', vs, u, r, -, probed, normal, -, hclose⟩ := exists_of_canonicalize ht hc h
  exact ⟨vs, r, foundOver_of_closeProbes probed normal hclose⟩

/-- Variables in place of the probes leave a normal form. -/
theorem FoundOver.leads {c r : Combination} {form : CanonicalForm} (h : FoundOver c vs r form)
    {ws : List Variable} (hlen : ws.length = vs.length) :
    Leads (c.apps (ws.map .var)) (r.subst (passed .var vs (ws.map .var))) ∧
      (r.subst (passed .var vs (ws.map .var))).next = none := by
  have renamed (v : Variable) : ∃ w, passed .var vs (ws.map .var) v = .var w :=
    exists_passed_eq_var (fun v => ⟨v, rfl⟩) vs ws v
  choose π hπ using renamed
  have normal : (r.subst (passed .var vs (ws.map .var))).next = none := by
    rw [Combination.subst_congr fun v _ => hπ v]
    exact Combination.next_rename_eq_none h.normal
  exact ⟨Combination.leads_of_steps (h.steps _ (by simp [hlen])) normal, normal⟩

/-- Only a probe that stands for a new variable brings it in. -/
theorem FoundOver.mentions_iff {c r : Combination} {form : CanonicalForm}
    (h : FoundOver c vs r form) {ws : List Variable} (hlen : ws.length = vs.length) {y : Variable}
    (hy : ¬ c.Mentions y) : (r.subst (passed .var vs (ws.map .var))).Mentions y ↔
      ∃ (j : Nat) (hj : j < vs.length), r.Mentions vs[j] ∧ ws[j]? = some y := by
  have hmap : vs.length ≤ (ws.map Combination.var).length := by simp [hlen]
  rw [Combination.mentions_subst]
  constructor
  · rintro ⟨v, hv, hmem⟩
    by_cases hvs : v ∈ vs
    · obtain ⟨j, hj, rfl⟩ := List.mem_iff_getElem.mp hvs
      obtain ⟨u, hw, hu⟩ := Option.map_eq_some_iff.mp
        (List.getElem?_map.symm.trans (getElem?_eq_passed h.nodup hj hmap))
      rw [← hu] at hmem
      obtain rfl : y = u := hmem
      exact ⟨j, hj, hv, hw⟩
    · rw [passed_of_not_mem hvs] at hmem
      obtain rfl : y = v := hmem
      exact absurd ((h.mentions y hv).resolve_right hvs) hy
  · rintro ⟨j, hj, hv, hw⟩
    refine ⟨vs[j], hv, ?_⟩
    have passing := getElem?_eq_passed (σ := Combination.var) h.nodup hj hmap
    rw [List.getElem?_map, hw] at passing
    rw [← Option.some.inj passing]
    rfl

/-- New variables for arguments are told apart at a place whose probe is mentioned. -/
theorem FoundOver.subst_ne_subst_set {c r : Combination} {form : CanonicalForm}
    (h : FoundOver c vs r form) {i : Nat} (hi : i < vs.length) (present : r.Mentions vs[i])
    {x : Variable} {ws : List Variable} (hlen : ws.length = vs.length) (hnodup : (x :: ws).Nodup)
    (hnew : ∀ y ∈ x :: ws, ¬ c.Mentions y) :
    r.subst (passed .var vs (ws.map .var)) ≠ r.subst (passed .var vs ((ws.set i x).map .var)) := by
  intro same
  obtain ⟨hx, hws⟩ := List.nodup_cons.mp hnodup
  have hi' : i < ws.length := hlen ▸ hi
  have new := hnew ws[i] (List.mem_cons_of_mem _ (List.getElem_mem hi'))
  have there := (h.mentions_iff hlen new).mpr ⟨i, hi, present, List.getElem?_eq_getElem hi'⟩
  rw [same, h.mentions_iff (by rw [List.length_set, hlen]) new] at there
  obtain ⟨j, -, -, hget⟩ := there
  by_cases hj : j = i
  · rw [hj, List.getElem?_set_self hi'] at hget
    exact hx (Option.some.inj hget ▸ List.getElem_mem hi')
  · rw [List.getElem?_set_ne (Ne.symm hj)] at hget
    obtain ⟨hj', heq⟩ := List.getElem?_eq_some_iff.mp hget
    exact hj (hws.getElem_inj_iff.mp heq)

end Term

namespace Workspace

variable {w w₁ w₂ w₃ : Workspace} {t : Term}

/-! ### New variables -/

/-- A caller can ask for any number of variables, all of them new. -/
theorem exists_new_variables (w : Workspace) (n : Nat) :
    ∃ (w' : Workspace) (vs : List Variable), ReflTransGen Move w w' ∧ w.store ≤ w'.store ∧
      vs.length = n ∧ vs.Nodup ∧
      ∀ v ∈ vs, ¬ w.store.Minted v ∧ w'.store.Minted v ∧ w'.AtHand (.var v) := by
  induction n with
  | zero => exact ⟨w, [], .refl, w.store.le_refl, rfl, .nil, nofun⟩
  | succ n ih =>
    obtain ⟨w', vs, moves, hs, hlen, hnodup, hvs⟩ := ih
    obtain ⟨v, s, hv⟩ : ∃ v s, Engine.freshVariable "x" w'.store = .ok v s := ⟨_, _, rfl⟩
    obtain ⟨hs', hfresh, hm⟩ := Engine.ensures_freshVariable _ _ _ _ hv
    refine ⟨_, v :: vs, moves.tail (.mint hv), Store.le_trans hs hs', by simp [hlen], ?_, ?_⟩
    · exact List.nodup_cons.mpr ⟨fun hmem => hfresh (hvs v hmem).2.1, hnodup⟩
    · rintro x (_ | ⟨_, hx⟩)
      · exact ⟨fun h => hfresh (h.mono hs), hm, .var List.mem_cons_self List.mem_cons_self⟩
      · obtain ⟨hnew, hm', hand⟩ := hvs x hx
        have free : x ∈ w'.free := hand.free x (by simp [Term.occurs])
        exact ⟨hnew, hm'.mono hs', .var (List.mem_cons_of_mem _ hand.mem)
          (List.mem_cons_of_mem _ free)⟩

/-! ### Arguments that do not matter -/

/-- Whether the argument at a place does not matter to a combination at hand: on lists of `n`
arguments that differ there and nowhere else, runs are alike, whatever a caller has done before. -/
def Indifferent (w : Workspace) (t : Term) (n i : Nat) : Prop :=
  ∀ w₂ w₃ (args₂ args₃ : List Term), ReflTransGen Move w w₂ → ReflTransGen Move w w₃ →
    (∀ a ∈ args₂, w₂.AtHand a) → (∀ a ∈ args₃, w₃.AtHand a) → args₂.length = n →
    args₃.length = n → (∀ j, j ≠ i → args₂[j]? = args₃[j]?) →
    ∀ R₂ R₃, RunsAlike w₂ R₂ t args₂ w₃ R₃ t args₃

/-- Where runs are alike and what they begin with leads to normal forms, these are the same. -/
theorem Mirrors.eq_of_runsAlike {p₂ p₃ : Twins} (hp₂ : Mirrors p₂ w₂) (hp₃ : Mirrors p₃ w₃)
    {Γ₂ Γ₃ : Scope} {n₂ n₃ : Nat} {f₂ f₃ : Term} {args₂ args₃ : List Term}
    (fed₂ : Term.Supplied Γ₂ p₂ n₂ f₂ args₂) (fed₃ : Term.Supplied Γ₃ p₃ n₃ f₃ args₃)
    {R₂ R₃ : Rules} (alike : RunsAlike w₂ R₂ f₂ args₂ w₃ R₃ f₃ args₃) {r₂ r₃ : Combination}
    (leads₂ : Leads (f₂.applied .var (Term.combinations args₂)) r₂) (normal₂ : r₂.next = none)
    (leads₃ : Leads (f₃.applied .var (Term.combinations args₃)) r₃) (normal₃ : r₃.next = none) :
    r₂ = r₃ := by
  obtain ⟨u₂, ran₂⟩ := hp₂.exists_runsTo (R := R₂) fed₂ leads₂ normal₂
  obtain ⟨u₃, ran₃⟩ := hp₃.exists_runsTo (R := R₃) fed₃ leads₃ normal₃
  obtain ⟨c₂, hc₂, final₂, form₂⟩ := hp₂.leads_of_runsTo fed₂ ran₂
  obtain ⟨c₃, hc₃, final₃, form₃⟩ := hp₃.leads_of_runsTo fed₃ ran₃
  obtain rfl := Combination.eq_of_connected (.refl _) leads₂ normal₂ hc₂ final₂
  obtain rfl := Combination.eq_of_connected (.refl _) leads₃ normal₃ hc₃ final₃
  exact form₂.eq_of_equal form₃ (alike.equal u₂ u₃ ran₂ ran₃ R₂)

section Search

variable {R : Rules} {budget : Budget} {strict : Bool} {form : CanonicalForm} {k : Nat} {s₁ : Store}

/-- What holds after a form was found of a combination: the form tells of a normal form over
probes, and the combination can be run on any arguments at hand. -/
private structure Searched (w : Workspace) (t : Term) (vs : List Variable) (r : Combination)
    (form : CanonicalForm) : Prop where
  probed : Term.FoundOver t.combination vs r form
  minted : ∀ v, t.combination.Mentions v → w.store.Minted v
  applied : ∀ xs, t.applied .var xs = t.combination.apps xs
  supplied : ∀ (w₂ : Workspace) (args : List Term), ReflTransGen Move w w₂ →
    (∀ a ∈ args, w₂.AtHand a) → ∃ Γ p₂, Mirrors p₂ w₂ ∧ Term.Supplied Γ p₂ 0 t args

private theorem Reachable.exists_searched (h : w.Reachable) (ht : w.AtHand t)
    (found : t.canonicalize R budget strict w.store = .ok (.found form k) s₁) :
    ∃ vs r, Searched ⟨s₁, w.free, form.term :: w.terms⟩ t vs r form := by
  have minted := h.minted
  obtain ⟨p, hp⟩ := h.exists_twins
  obtain ⟨p₁, hp₁, hs₁, -⟩ := hp.exists_found minted ht found
  have mentioned : ∀ v, t.combination.Mentions v → w.store.Minted v := fun v hv =>
    minted v (ht.free v ((Term.occurs_iff_mentions ht.isCombination).mpr hv))
  have stands : Stands p t t.combination :=
    ⟨(Term.recordedAll_iff.mp hp.known t ht.mem).isPure ht.isCombination, .self ht.isCombination⟩
  obtain ⟨vs, r, probed⟩ :=
    Term.exists_foundOver stands (hp.left ▸ mentioned) (hp.left.symm ▸ found)
  refine ⟨vs, r, probed, fun v hv => (mentioned v hv).mono hs₁, fun xs => ?_,
    fun w₂ args hw₂ hargs => ?_⟩
  · rw [ht.isCombination.applied_eq, Combination.subst_var]
  · obtain ⟨p₂, -, hp₂⟩ := hp₁.moves hw₂
    have fits : t.Fits (.ofFree { v | w.store.Minted v }) s₁ :=
      ht.isCombination.fits fun v hv => minted v (ht.free v hv)
    exact ⟨_, p₂, hp₂, supplied_of_atHand hp₂ (hp₁.later hw₂) minted hs₁ hargs (Nat.zero_le _)
      (List.mem_cons_of_mem _ ht.mem) ht.isCombination fits⟩

variable {vs : List Variable} {r : Combination} {i : Nat}

/-- An argument does not matter if the normal form over the probes does not mention its probe. -/
private theorem Searched.indifferent (h : Searched w t vs r form) (hi : i < vs.length)
    (absent : ¬ r.Mentions vs[i]) : Indifferent w t vs.length i := by
  intro w₂ w₃ args₂ args₃ hw₂ hw₃ hargs₂ hargs₃ hlen₂ hlen₃ same R₂ R₃
  obtain ⟨Γ₂, p₂, hp₂, fed₂⟩ := h.supplied w₂ args₂ hw₂ hargs₂
  obtain ⟨Γ₃, p₃, hp₃, fed₃⟩ := h.supplied w₃ args₃ hw₃ hargs₃
  refine hp₂.runsAlike hp₃ fed₂ fed₃ ?_ R₂ R₃
  have len₂ : (Term.combinations args₂).length = vs.length := by
    rw [Term.combinations_eq_map, List.length_map, hlen₂]
  have len₃ : (Term.combinations args₃).length = vs.length := by
    rw [Term.combinations_eq_map, List.length_map, hlen₃]
  have results : r.subst (Term.passed .var vs (Term.combinations args₂)) =
      r.subst (Term.passed .var vs (Term.combinations args₃)) := by
    refine Term.subst_passed_congr h.probed.nodup hi absent (Nat.le_of_eq len₂.symm)
      (Nat.le_of_eq len₃.symm) fun j hj => ?_
    simp [Term.combinations_eq_map, same j hj]
  rw [h.applied, h.applied]
  have steps₂ := Combination.connected_of_steps (h.probed.steps _ len₂)
  have steps₃ := Combination.connected_of_steps (h.probed.steps _ len₃)
  rw [results] at steps₂
  exact .trans _ _ _ steps₂ (.symm _ _ steps₃)

/-- An argument matters if the normal form over the probes mentions its probe: with new variables
for arguments, it is seen in the result which one stands at the place. -/
private theorem Searched.not_mentions_of_indifferent (h : Searched w t vs r form)
    (hi : i < vs.length) (indifferent : Indifferent w t vs.length i) : ¬ r.Mentions vs[i] := by
  intro present
  obtain ⟨w₂, news, moves, hs₂, hlen, hnodup, hnews⟩ := exists_new_variables w (vs.length + 1)
  obtain ⟨x, ys, rfl⟩ := List.exists_cons_of_length_eq_add_one hlen
  have len₂ : ys.length = vs.length := Nat.succ.inj hlen
  have len₃ : (ys.set i x).length = vs.length := by rw [List.length_set, len₂]
  have atHand : ∀ zs : List Variable, zs ⊆ x :: ys → ∀ a ∈ zs.map Term.var, w₂.AtHand a := by
    intro zs hzs a ha
    obtain ⟨v, hv, rfl⟩ := List.mem_map.mp ha
    exact (hnews v (hzs hv)).2.2
  have hand₂ := atHand ys (List.subset_cons_self x ys)
  have hand₃ := atHand (ys.set i x) fun v hv =>
    (List.mem_or_eq_of_mem_set hv).elim (List.mem_cons_of_mem _) (· ▸ List.mem_cons_self)
  have alike := indifferent w₂ w₂ _ _ moves moves hand₂ hand₃ (by rwa [List.length_map])
    (by rwa [List.length_map]) (fun j hj => by simp [List.getElem?_set_ne (Ne.symm hj)])
    Rules.undeclared Rules.undeclared
  obtain ⟨Γ₂, p₂, hp₂, fed₂⟩ := h.supplied w₂ _ moves hand₂
  obtain ⟨Γ₃, p₃, hp₃, fed₃⟩ := h.supplied w₂ _ moves hand₃
  obtain ⟨leads₂, normal₂⟩ := h.probed.leads len₂
  obtain ⟨leads₃, normal₃⟩ := h.probed.leads len₃
  rw [← h.applied, ← Term.combinations_vars ys] at leads₂
  rw [← h.applied, ← Term.combinations_vars (ys.set i x)] at leads₃
  rw [← Term.combinations_vars ys] at normal₂
  rw [← Term.combinations_vars (ys.set i x)] at normal₃
  have results := hp₂.eq_of_runsAlike hp₃ fed₂ fed₃ alike leads₂ normal₂ leads₃ normal₃
  rw [Term.combinations_vars, Term.combinations_vars] at results
  exact h.probed.subst_ne_subst_set hi present len₂ hnodup
    (fun y hy hmem => (hnews y hy).1 (h.minted y hmem)) results

/-- The places listed as unused with a canonical form that is found of a combination are those of
the arguments that do not matter to it. -/
theorem Reachable.mem_unused_iff (h : w.Reachable) (ht : w.AtHand t)
    (found : t.canonicalize R budget strict w.store = .ok (.found form k) s₁) {i : Nat}
    (hi : i < form.arity) :
    i ∈ form.unused ↔ Indifferent ⟨s₁, w.free, form.term :: w.terms⟩ t form.arity i := by
  obtain ⟨vs, r, searched⟩ := h.exists_searched ht found
  rw [searched.probed.arity] at hi ⊢
  rw [searched.probed.unused i hi]
  exact ⟨searched.indifferent hi, searched.not_mentions_of_indifferent hi⟩

end Search

/-! ### The argument that is dropped -/

namespace Dropping

/-- A variable that was asked for. -/
def x : Variable := ⟨"x", 1⟩

/-- The workspace in which the search begins. -/
def workspace : Workspace := ⟨⟨2, 0, ∅⟩, [x], [.native .K, .var x]⟩

/-- The probes that are fed. -/
def a : Variable := ⟨"a", 2⟩
def b : Variable := ⟨"b", 3⟩

/-- The form that is found: the second of two arguments is dropped. -/
def form : CanonicalForm :=
  ⟨.lam ⟨"a", 5⟩ (.lam ⟨"b", 6⟩ (.var ⟨"a", 5⟩)), 2, true, false, [1], []⟩

theorem reachable : workspace.Reachable :=
  (Relation.ReflTransGen.single (.mint (v := x) rfl)).tail (.native .K)

/-- What is known to be normal after one probe was fed: the application to it. -/
def table : Std.HashSet Nat := Std.HashSet.insert ∅ 0

/-- On one probe there is nothing to rewrite. -/
theorem step_one : (Term.app 0 (.native .K) [.var a]).step Rules.undeclared ⟨3, 1, ∅⟩ =
    .ok none ⟨3, 1, table⟩ := by
  simp [Term.step, Term.stepAmong, Engine.isSettled, Engine.settle, Term.reduce, Native.contract,
    bind, EStateM.bind, pure, EStateM.pure, table]

/-- On two probes the first is given. -/
theorem step_two : (Term.app 1 (.native .K) [.var a, .var b]).step Rules.undeclared ⟨4, 2, table⟩ =
    .ok (some ⟨.var a, 1⟩) ⟨4, 2, table⟩ := by
  simp [Term.step, Engine.isSettled, Term.reduce, Native.contract, Native.arity, Term.apply_nil,
    bind, EStateM.bind, pure, EStateM.pure, table]

/-- The runs of the search: on no probe, on one and on two. -/
theorem run_none : (Term.native .K).run Rules.undeclared (.number 1) [] false workspace.store =
    .ok ⟨.native .K, 0, true⟩ workspace.store :=
  Term.run_nil_ok_iff.mpr ⟨1, rfl, Term.runFrom_of_normal rfl, nofun⟩

theorem run_one : (Term.app 0 (.native .K) [.var a]).run Rules.undeclared (.number 1) [] false
    ⟨3, 1, ∅⟩ = .ok ⟨.app 0 (.native .K) [.var a], 0, true⟩ ⟨3, 1, table⟩ :=
  Term.run_nil_ok_iff.mpr ⟨1, rfl, Term.runFrom_of_normal step_one, nofun⟩

theorem run_two : (Term.app 1 (.native .K) [.var a, .var b]).run Rules.undeclared (.number 1) []
    false ⟨4, 2, table⟩ = .ok ⟨.var a, 1, true⟩ ⟨4, 2, table⟩ := by
  refine Term.run_nil_ok_iff.mpr ⟨1, rfl, ?_, nofun⟩
  rw [Term.runFrom_of_step (by decide) step_two Nat.one_ne_zero]
  exact Term.runFrom_of_normal rfl

set_option maxRecDepth 4000 in
/-- The search feeds two probes. -/
theorem found : (Term.native .K).canonicalize Rules.undeclared ⟨.number 1, .number 3⟩ true
    workspace.store = .ok (.found form 1) ⟨7, 2, table⟩ := by
  have asked₁ : Engine.freshVariable (Probe.name 0) workspace.store = .ok a ⟨3, 0, ∅⟩ := rfl
  have asked₂ : Engine.freshVariable (Probe.name 1) ⟨3, 1, table⟩ = .ok b ⟨4, 1, table⟩ := rfl
  have applied₁ : (Term.native .K).apply Rules.undeclared [.var a] ⟨3, 0, ∅⟩ =
      .ok (.app 0 (.native .K) [.var a]) ⟨3, 1, ∅⟩ := rfl
  have applied₂ : (Term.app 0 (.native .K) [.var a]).apply Rules.undeclared [.var b]
      ⟨4, 1, table⟩ = .ok (.app 1 (.native .K) [.var a, .var b]) ⟨4, 2, table⟩ := rfl
  have closed : Term.closeProbes Rules.undeclared [a, b] (.var a) ⟨4, 2, table⟩ =
      .ok form ⟨7, 2, table⟩ := rfl
  refine Term.canonicalize_found_iff.mpr ⟨3, rfl, Term.searchFrom_found_iff.mpr ?_⟩
  refine ⟨_, 0, _, run_none, .inr ⟨rfl, _, _, _, _, asked₁, applied₁, ?_⟩⟩
  refine Term.searchFrom_found_iff.mpr ⟨_, 0, _, run_one, ?_⟩
  refine .inr ⟨rfl, _, _, _, _, asked₂, applied₂, ?_⟩
  exact Term.searchFrom_found_iff.mpr ⟨_, 1, _, run_two, .inl ⟨rfl, closed, rfl⟩⟩

/-- The workspace after the search. -/
def searched : Workspace := ⟨⟨7, 2, table⟩, [x], form.term :: workspace.terms⟩

end Dropping

/-- The second argument of the combinator that drops it does not matter, and the first does. -/
theorem mem_unused_iff_dropping : Dropping.workspace.Reachable ∧
    Dropping.searched.Indifferent (.native .K) 2 1 ∧
    ¬ Dropping.searched.Indifferent (.native .K) 2 0 := by
  have combinator : Dropping.workspace.AtHand (.native .K) :=
    ⟨List.mem_cons_self, rfl, by simp [Term.occurs]⟩
  have second := Dropping.reachable.mem_unused_iff combinator Dropping.found (i := 1) (by decide)
  have first := Dropping.reachable.mem_unused_iff combinator Dropping.found (i := 0) (by decide)
  refine ⟨Dropping.reachable, second.mp (by decide), fun indifferent => ?_⟩
  exact absurd (first.mpr indifferent) (by decide)

end Workspace

end Combinatory
