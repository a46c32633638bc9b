import Combinatory.Proofs.Tower.Probes
import Combinatory.Proofs.Tower.Runs
import Combinatory.Proofs.Workspace

/-!
# A canonical form behaves as the term

A search feeds a combination one new variable after another and runs it each time. All these runs
together rewrite the combination applied to the probes to the result that is closed over them at the
end. As rewriting is kept by assignments, the combination applied to any arguments rewrites to what
the canonical form gives on them, and so the one has a final run exactly when the other has.
-/

namespace Combinatory

open Relation (EqvGen ReflTransGen)
open Engine (Yields)
open Combination (Leads Rewrites)

/-! ### The search -/

/-- Where a search stands that began with a combination: all runs so far have rewritten it, applied
to the probes, to what the term is. -/
structure Probed (c : Combination) (p : Twins) (vs : List Variable) (t : Term)
    (r : Combination) : Prop where
  minted : ∀ v, c.Mentions v → p.left.Minted v
  probes : Probes p.left vs
  fresh : ∀ v ∈ vs, ¬ c.Mentions v
  stands : Stands p t r
  steps : ReflTransGen Rewrites (c.apps (vs.map .var)) r

namespace Probed

variable {c r : Combination} {p p' : Twins} {vs : List Variable} {t : Term}

/-- Before the search there are no probes. -/
theorem start (ht : Stands p t c) (hc : ∀ v, c.Mentions v → p.left.Minted v) :
    Probed c p [] t c where
  minted := hc
  probes := .nil
  fresh _ hv := nomatch hv
  stands := ht
  steps := .refl

/-- A run goes on rewriting. -/
theorem run (h : Probed c p vs t r) (later : p ≤ p') {u : Term} {r' : Combination}
    (hu : Stands p' u r') (hr : Leads r r') : Probed c p' vs u r' where
  minted v hv := (h.minted v hv).mono later.nextVariable
  probes := h.probes.later later.nextVariable
  fresh := h.fresh
  stands := hu
  steps := h.steps.trans hr.steps

/-- One more probe is fed. -/
theorem probe (h : Probed c p vs t r) (later : p ≤ p') {v : Variable} (hv : ¬ p.left.Minted v)
    (hm : p'.left.Minted v) {u : Term} (hu : Stands p' u (.app r (.var v))) :
    Probed c p' (vs ++ [v]) u (.app r (.var v)) where
  minted w hw := (h.minted w hw).mono later.nextVariable
  probes := h.probes.concat later.nextVariable hv hm
  fresh w hw := by
    rcases List.mem_append.mp hw with hw | hw
    · exact h.fresh w hw
    · rw [List.mem_singleton.mp hw]
      exact fun hc => hv (h.minted v hc)
  stands := hu
  steps := by
    rw [List.map_append, List.map_singleton, Combination.apps_concat]
    exact h.steps.lift (Combination.app · _) fun _ _ hstep => hstep.left _

/-- On any arguments the combination rewrites to the result with the arguments in place of the
probes. -/
theorem steps_apps (h : Probed c p vs t r) {xs : List Combination} (hlen : vs.length ≤ xs.length) :
    ReflTransGen Rewrites (c.apps xs)
      ((r.subst (Term.passed .var vs xs)).apps (xs.drop vs.length)) := by
  have kept : c.subst (Term.passed .var vs xs) = c := by
    refine (Combination.subst_congr fun v hv => ?_).trans c.subst_var
    exact Term.passed_of_not_mem (fun hmem => h.fresh v hmem hv) _ _
  have fed : (c.apps (vs.map .var)).subst (Term.passed .var vs xs) =
      c.apps (xs.take vs.length) := by
    rw [Combination.subst_apps, kept, List.map_map, ← Term.map_passed h.probes.nodup .var hlen]
    rfl
  have taken : ReflTransGen Rewrites (c.apps (xs.take vs.length))
      (r.subst (Term.passed .var vs xs)) := by
    rw [← fed]
    exact h.steps.lift _ fun _ _ hstep => hstep.subst _
  rw [← List.take_append_drop vs.length xs, Combination.apps_append, List.take_append_drop]
  exact taken.lift (Combination.apps · _) fun _ _ hstep => hstep.apps _

end Probed

namespace Term

variable {R : Rules} {c r : Combination} {p : Twins} {vs : List Variable} {t : Term}

/-- A search that finds a form has closed a normal form over the probes, which awaits no
arguments. -/
theorem exists_of_searchFrom (maxSteps : Amount) (left : Nat) (h : Probed c p vs t r)
    (spent : Nat) {form : CanonicalForm} {k : Nat} {s : Store}
    (hs : searchFrom R maxSteps t vs spent left p.left = .ok (some form, k) s) :
    ∃ p' us u n, p ≤ p' ∧ Probed c p' us u n ∧ n.next = none ∧ u.awaitsArgs = false ∧
      closeProbes R us u p'.left = .ok form s := by
  induction left generalizing p vs t r spent with
  | zero => cases hs
  | succ left ih =>
    obtain ⟨w, m, s₁, hrun, hs⟩ := searchFrom_found_iff.mp hs
    obtain ⟨b, -, hfrom, -⟩ := run_nil_ok_iff.mp hrun
    obtain ⟨n, hn, hnormal, hout⟩ := leads_of_runFrom h.stands hfrom rfl
    obtain ⟨p₁, later₁, rfl, hrec⟩ :=
      (records_run (.of_pure R p) maxSteps false h.stands.recorded .nil).exists_of_ok hrun
    have ran := h.run later₁ ⟨hrec, hout⟩ hn
    rcases hs with ⟨done, hclose, -⟩ | ⟨-, v, s₂, u, s₃, hv, hu, hs⟩
    · exact ⟨p₁, vs, w, n, later₁, ran, hnormal, done, hclose⟩
    · have hnew := (Engine.ensures_freshVariable _ _ _ _ hv).2
      obtain ⟨p₂, later₂, rfl, -⟩ := (Engine.alike_freshVariable p₁ _).exists_of_ok hv
      have hprobe : RecordedAll (fun c => c.isPure = true) p₂.heap [var v] := ⟨trivial, trivial⟩
      obtain ⟨p₃, later₃, rfl, hrec₃⟩ :=
        (records_apply (.of_pure R p₂) (hrec.later later₂) hprobe).exists_of_ok hu
      have hform := (hout.apply R (.cons (.self (t := var v) trivial) .nil) p₂.left).of_ok
        (.left p₂) hu
      have fed := ran.probe (Twins.le_trans later₂ later₃) hnew.1
        (hnew.2.mono later₃.nextVariable) ⟨hrec₃, hform.2.2⟩
      obtain ⟨p', us, w, m, later', found⟩ := ih fed _ hs
      exact ⟨p', us, w, m, Twins.le_trans later₁ (Twins.le_trans later₂
        (Twins.le_trans later₃ later')), found⟩

/-- What makes a term the canonical form of a combination: it is a tower over the variables of the
combination, and the combination applied to any arguments rewrites to what it gives on them. -/
structure IsFormOf (Γ : Scope) (s : Store) (c : Combination) (form : CanonicalForm) : Prop where
  tower : form.term.IsTower form.arity
  fits : form.term.Fits Γ s
  steps : ∀ xs, form.arity ≤ xs.length →
    ReflTransGen Rewrites (c.apps xs) (form.term.applied .var xs)

/-- What is closed over the probes is a canonical form. -/
private theorem isFormOf_of_closeProbes {Γ : Scope} (h : Probed c p vs t r)
    (hΓ : Γ.Minted p.left) (hc : ∀ v, c.Mentions v → v ∈ Γ.visible) {form : CanonicalForm}
    {s : Store} (hclose : closeProbes R vs t p.left = .ok form s) : IsFormOf Γ s c form := by
  have fits : t.Fits (Γ.seeAll vs) p.left := by
    refine h.stands.forms.isCombination.fits fun v hv => ?_
    rw [occurs_iff_mentions h.stands.forms.isCombination, h.stands.forms.combination] at hv
    rw [Scope.mem_visible_seeAll]
    rcases Combination.mentions_apps.mp (Combination.mentions_of_steps h.steps hv) with hv | hv
    · exact .inl (hc v hv)
    · obtain ⟨_, ha, hv⟩ := hv
      obtain ⟨w, hw, rfl⟩ := List.mem_map.mp ha
      obtain rfl : v = w := hv
      exact .inr hw
  obtain ⟨-, -, closed⟩ :=
    (yields_closeProbes hΓ h.probes fits h.stands.forms.isCombination).of_ok (.left p) hclose
  have arity := closed.arity
  refine ⟨arity ▸ closed.tower, closed.fits, fun xs hlen => ?_⟩
  rw [arity] at hlen
  rw [closed.applied .var xs hlen, h.stands.forms.combination]
  exact h.steps_apps hlen

/-- A canonical form that is found of a combination has been closed over the probes. -/
theorem exists_of_canonicalize {budget : Budget} {strict : Bool} (ht : Stands p t c)
    (hc : ∀ v, c.Mentions v → p.left.Minted v) {form : CanonicalForm} {k : Nat} {s : Store}
    (h : canonicalize R budget t strict p.left = .ok (.found form k) s) :
    ∃ p' us u n, p ≤ p' ∧ Probed c p' us u n ∧ n.next = none ∧ u.awaitsArgs = false ∧
      closeProbes R us u p'.left = .ok form s := by
  obtain ⟨args, -, hsearch⟩ := canonicalize_found_iff.mp h
  exact exists_of_searchFrom budget.steps args.toNat (.start ht hc) 0 hsearch

/-- A canonical form that is found of a combination is one. -/
theorem isFormOf_of_canonicalize {Γ : Scope} {budget : Budget} {strict : Bool}
    (ht : Stands p t c) (hΓ : Γ.Minted p.left) (hc : ∀ v, c.Mentions v → v ∈ Γ.visible)
    {form : CanonicalForm} {k : Nat} {s : Store}
    (h : canonicalize R budget t strict p.left = .ok (.found form k) s) : IsFormOf Γ s c form := by
  obtain ⟨p', us, u, n, later, hprobed, -, -, hclose⟩ :=
    exists_of_canonicalize ht (fun v hv => hΓ.visible v (hc v hv)) h
  exact isFormOf_of_closeProbes hprobed (hΓ.later later.nextVariable) hc hclose

end Term

/-! ### Workspaces -/

namespace Workspace

/-- A combination at hand that was put together by applying from variables that were asked for,
combinators and numerals. -/
structure AtHand (w : Workspace) (t : Term) : Prop where
  mem : t ∈ w.terms
  isCombination : t.IsCombination
  free : ∀ v, t.occurs v = true → v ∈ w.free

/-- A variable that was asked for is at hand. -/
theorem AtHand.var {w : Workspace} {v : Variable} (hmem : .var v ∈ w.terms) (hfree : v ∈ w.free) :
    w.AtHand (.var v) :=
  ⟨hmem, trivial, fun _ hu => of_decide_eq_true hu ▸ hfree⟩

/-- Whether a term is run on arguments to a final term by some budget. -/
def RunsTo (w : Workspace) (R : Rules) (f : Term) (args : List Term) (u : Term) : Prop :=
  ∃ budget strict out s, f.run R budget args strict w.store = .ok out s ∧ out.final = true ∧
    out.term = u

variable {w w₁ w₂ w₃ : Workspace} {t f : Term} {args : List Term}

/-- The scope of the variables that were minted by a moment, or after a later one. -/
def Outside (s s₁ : Store) (s₂ : Store) : Scope :=
  .ofFree { v | s₂.Minted v ∧ (s.Minted v ∨ ¬ s₁.Minted v) }

/-- A term that binds only variables minted between two moments binds none of the others. -/
private theorem fits_outside {s s₁ s₂ : Store} (h₁ : s ≤ s₁) (h₂ : s₁ ≤ s₂)
    (h : t.Fits (.ofFree { v | s.Minted v }) s₁) : t.Fits (Outside s s₁ s₂) s₂ := by
  have untaken : ∀ v ∈ { v | ¬ s₁.Minted v }, ¬ s₁.Minted v := fun _ hv => hv
  refine (h.take untaken).weaken h₂ ?_
  refine ⟨?_, ?_, id⟩
  · intro v (hv : s.Minted v)
    exact ⟨hv.mono (Store.le_trans h₁ h₂), .inl hv⟩
  · intro v hv
    exact hv.2.symm

/-- The arguments that a caller has at hand after a search do not mention what was minted by it. -/
private theorem AtHand.fits (h : w₂.AtHand t) (later : Later w₁ w₂) {s : Store}
    (hfree : ∀ v ∈ w₁.free, s.Minted v) (h₁ : s ≤ w₁.store) :
    t.Fits (Outside s w₁.store w₂.store) w₂.store := by
  refine h.isCombination.fits fun v hv => ?_
  rcases later.free v (h.free v hv) with hv | ⟨hfresh, hm⟩
  · exact ⟨(hfree v hv).mono (Store.le_trans h₁ later.store), .inl (hfree v hv)⟩
  · exact ⟨hm, .inr hfresh⟩

/-- A term that is at hand after some operation, applied to arguments at hand, can be run. -/
theorem supplied_of_atHand {p : Twins} (hp : Mirrors p w₂) (later : Later w₁ w₂) {s : Store}
    (hfree : ∀ v ∈ w₁.free, s.Minted v) (h₁ : s ≤ w₁.store) (hargs : ∀ a ∈ args, w₂.AtHand a)
    {n : Nat} (hn : n ≤ args.length) (hmem : f ∈ w₁.terms) (htower : f.IsTower n)
    (hfits : f.Fits (.ofFree { v | s.Minted v }) w₁.store) :
    Term.Supplied (Outside s w₁.store w₂.store) p n f args := by
  have left : w₂.store = p.left := hp.left.symm
  have knows {u : Term} (hu : u ∈ w₂.terms) : u.Known p.heap :=
    Term.recordedAll_iff.mp hp.known u hu
  have fits : f.Fits (Outside s w₁.store w₂.store) p.left :=
    left ▸ fits_outside h₁ later.store hfits
  refine ⟨⟨fun v hv => hv, fun v hv => left ▸ hv.1⟩, htower, fits,
    (knows (later.terms f hmem)).isPure_of_fits fits, ?_, ?_, ?_, hn⟩
  · exact Term.areCombinations_iff.mpr fun a ha => (hargs a ha).isCombination
  · exact Term.fitsAll_iff.mpr fun a ha => left ▸ (hargs a ha).fits later hfree h₁
  · exact Term.recordedAll_iff.mpr fun a ha =>
      (knows (hargs a ha).mem).isPure (hargs a ha).isCombination

/-- A final run of a tower ends with a normal form that the strategy leads to from what it gives. -/
theorem Mirrors.leads_of_runsTo {p : Twins} (hp : Mirrors p w) {Γ : Scope} {n : Nat}
    (hf : Term.Supplied Γ p n f args) {R : Rules} {u : Term} (hu : w.RunsTo R f args u) :
    ∃ r, Leads (f.applied .var (Term.combinations args)) r ∧ r.next = none ∧ u.Forms r := by
  obtain ⟨budget, strict, out, s, hrun, hfinal, rfl⟩ := hu
  exact hf.leads_of_run (hp.left.symm ▸ hrun) hfinal

/-- Where the strategy leads to a normal form from what a tower gives, some budget is enough. -/
theorem Mirrors.exists_runsTo {p : Twins} (hp : Mirrors p w) {Γ : Scope} {n : Nat}
    (hf : Term.Supplied Γ p n f args) {R : Rules} {r : Combination}
    (hleads : Leads (f.applied .var (Term.combinations args)) r) (hr : r.next = none) :
    ∃ u, w.RunsTo R f args u := by
  obtain ⟨budget, out, s, hrun, hfinal⟩ := hf.exists_run hleads hr
  exact ⟨out.term, budget, false, out, s, hp.left ▸ hrun, hfinal, rfl⟩

/-- Whether by some budget one run is final exactly when another is, and their results are equal. -/
structure RunsAlike (w₂ : Workspace) (R₂ : Rules) (f₂ : Term) (args₂ : List Term) (w₃ : Workspace)
    (R₃ : Rules) (f₃ : Term) (args₃ : List Term) : Prop where
  final : (∃ u, w₂.RunsTo R₂ f₂ args₂ u) ↔ ∃ u, w₃.RunsTo R₃ f₃ args₃ u
  equal : ∀ u₂ u₃, w₂.RunsTo R₂ f₂ args₂ u₂ → w₃.RunsTo R₃ f₃ args₃ u₃ →
    ∀ R', u₂.equal R' u₃ = pure true

/-- Runs of towers are alike if rewrites connect what the towers give on the arguments. -/
theorem Mirrors.runsAlike {p₂ p₃ : Twins} (hp₂ : Mirrors p₂ w₂) (hp₃ : Mirrors p₃ w₃)
    {Γ₂ Γ₃ : Scope} {n₂ n₃ : Nat} {f₂ f₃ : Term} {args₂ args₃ : List Term}
    (fed₂ : Term.Supplied Γ₂ p₂ n₂ f₂ args₂) (fed₃ : Term.Supplied Γ₃ p₃ n₃ f₃ args₃)
    (connected : EqvGen Rewrites (f₂.applied .var (Term.combinations args₂))
      (f₃.applied .var (Term.combinations args₃))) (R₂ R₃ : Rules) :
    RunsAlike w₂ R₂ f₂ args₂ w₃ R₃ f₃ args₃ := by
  refine ⟨⟨?_, ?_⟩, ?_⟩
  · rintro ⟨u, hu⟩
    obtain ⟨r, hleads, hr, -⟩ := hp₂.leads_of_runsTo fed₂ hu
    exact hp₃.exists_runsTo fed₃ (Combination.leads_of_connected connected hleads hr) hr
  · rintro ⟨u, hu⟩
    obtain ⟨r, hleads, hr, -⟩ := hp₃.leads_of_runsTo fed₃ hu
    exact hp₂.exists_runsTo fed₂
      (Combination.leads_of_connected (.symm _ _ connected) hleads hr) hr
  · intro u₂ u₃ hu₂ hu₃ R'
    obtain ⟨r₂, hleads₂, hr₂, hform₂⟩ := hp₂.leads_of_runsTo fed₂ hu₂
    obtain ⟨r₃, hleads₃, hr₃, hform₃⟩ := hp₃.leads_of_runsTo fed₃ hu₃
    obtain rfl := Combination.eq_of_connected connected hleads₂ hr₂ hleads₃ hr₃
    exact Term.equal_of_forms R' hform₂ hform₃

/-- A search that finds a form leaves a sound table behind. -/
theorem Mirrors.canonicalize {p : Twins} (hp : Mirrors p w)
    (ht : t.Recorded (fun c => c.isPure = true) p.heap) {R : Rules} {budget : Budget}
    {strict : Bool} {form : CanonicalForm} {k : Nat} {s₁ : Store}
    (found : t.canonicalize R budget strict w.store = .ok (.found form k) s₁) :
    ∃ p₁, p ≤ p₁ ∧ Mirrors p₁ ⟨s₁, w.free, form.term :: w.terms⟩ := by
  have search := Term.records_canonicalize (.of_pure R p) budget strict ht
  obtain ⟨p₁, later, hleft, hright, hrec⟩ := (hp.outcome search).1 _ _ found
  exact ⟨p₁, later, hleft, hright, (hrec _ rfl).imp fun _ _ => trivial, hp.known.later later⟩

/-- What it finds of a combination is a canonical form. -/
theorem Mirrors.exists_found {p : Twins} (hp : Mirrors p w)
    (minted : ∀ v ∈ w.free, w.store.Minted v) (ht : w.AtHand t) {R : Rules} {budget : Budget}
    {strict : Bool} {form : CanonicalForm} {k : Nat} {s₁ : Store}
    (found : t.canonicalize R budget strict w.store = .ok (.found form k) s₁) :
    ∃ p₁, Mirrors p₁ ⟨s₁, w.free, form.term :: w.terms⟩ ∧ w.store ≤ s₁ ∧
      Term.IsFormOf (.ofFree { v | w.store.Minted v }) s₁ t.combination form := by
  have known : t.Known p.heap := Term.recordedAll_iff.mp hp.known t ht.mem
  have stands : Stands p t t.combination := ⟨known.isPure ht.isCombination, .self ht.isCombination⟩
  have mentioned : ∀ v, t.combination.Mentions v → w.store.Minted v := fun v hv =>
    minted v (ht.free v ((Term.occurs_iff_mentions ht.isCombination).mpr hv))
  have scope : (Scope.ofFree { v | w.store.Minted v }).Minted p.left :=
    ⟨fun v hv => hp.left ▸ hv, fun v hv => hp.left ▸ hv⟩
  obtain ⟨p₁, later₁, hp₁⟩ := hp.canonicalize stands.recorded found
  refine ⟨p₁, hp₁, ?_,
    Term.isFormOf_of_canonicalize stands scope mentioned (hp.left.symm ▸ found)⟩
  rw [← hp.left, show s₁ = p₁.left from hp₁.left.symm]
  exact later₁.nextVariable

/-- The canonical form that is found of a combination behaves as the combination on all arguments:
by some budget the one has a final run exactly when the other has, and the results are equal. -/
theorem Reachable.canonical_behaves (h : w.Reachable) (ht : w.AtHand t) {R : Rules}
    {budget : Budget} {strict : Bool} {form : CanonicalForm} {k : Nat} {s₁ : Store}
    (found : t.canonicalize R budget strict w.store = .ok (.found form k) s₁)
    (hw₂ : ReflTransGen Move ⟨s₁, w.free, form.term :: w.terms⟩ w₂)
    (hw₃ : ReflTransGen Move ⟨s₁, w.free, form.term :: w.terms⟩ w₃)
    (hargs₂ : ∀ a ∈ args, w₂.AtHand a) (hargs₃ : ∀ a ∈ args, w₃.AtHand a)
    (hlen : form.arity ≤ args.length) (R₂ R₃ : Rules) :
    ((∃ u, w₂.RunsTo R₂ t args u) ↔ ∃ u, w₃.RunsTo R₃ form.term args u) ∧
      ∀ u₂ u₃, w₂.RunsTo R₂ t args u₂ → w₃.RunsTo R₃ form.term args u₃ →
        ∀ R', u₂.equal R' u₃ = pure true := by
  have minted := h.minted
  obtain ⟨p, hp⟩ := h.exists_twins
  obtain ⟨p₁, hp₁, hs₁, hform⟩ := hp.exists_found minted ht found
  -- the two runs
  obtain ⟨p₂, -, hp₂⟩ := hp₁.moves hw₂
  obtain ⟨p₃, -, hp₃⟩ := hp₁.moves hw₃
  have tfits : t.Fits (.ofFree { v | w.store.Minted v }) s₁ :=
    ht.isCombination.fits fun v hv => minted v (ht.free v hv)
  have fed₂ := supplied_of_atHand hp₂ (hp₁.later hw₂) minted hs₁ hargs₂ (Nat.zero_le _)
    (List.mem_cons_of_mem _ ht.mem) ht.isCombination tfits
  have fed₃ := supplied_of_atHand hp₃ (hp₁.later hw₃) minted hs₁ hargs₃ hlen List.mem_cons_self
    hform.tower hform.fits
  have connected : EqvGen Rewrites (t.applied .var (Term.combinations args))
      (form.term.applied .var (Term.combinations args)) := by
    rw [ht.isCombination.applied_eq, Combination.subst_var]
    refine Combination.connected_of_steps (hform.steps _ ?_)
    rwa [Term.combinations_eq_map, List.length_map]
  have alike := hp₂.runsAlike hp₃ fed₂ fed₃ connected R₂ R₃
  exact ⟨alike.final, alike.equal⟩

/-! ### The canonical form of the identity -/

namespace Identity

/-- A variable that was asked for. -/
def x : Variable := ⟨"x", 1⟩

/-- The workspace in which the search begins. -/
def workspace : Workspace := ⟨⟨2, 0, ∅⟩, [x], [.native .I, .var x]⟩

/-- The form that is found: the identity on the only probe. -/
def form : CanonicalForm := ⟨.lam ⟨"a", 3⟩ (.var ⟨"a", 3⟩), 1, true, true, [], []⟩

theorem reachable : workspace.Reachable :=
  (Relation.ReflTransGen.single (.mint (v := x) rfl)).tail (.native .I)

/-- An application of the identity to a variable is run to the variable. -/
theorem runFrom_app (v : Variable) (n : Nat) (i : Int) (m : Nat) :
    Term.runFrom Rules.undeclared 1 (.app n (.native .I) [.var v]) 0 Term.patience ⟨i, m, ∅⟩ =
      .ok ⟨.var v, 1, true⟩ ⟨i, m, ∅⟩ := by
  have step : (Term.app n (.native .I) [.var v]).step Rules.undeclared ⟨i, m, ∅⟩ =
      .ok (some ⟨.var v, 1⟩) ⟨i, m, ∅⟩ := by
    simp [Term.step, Engine.isSettled, Term.reduce, Native.contract, Native.arity, Term.apply_nil,
      bind, EStateM.bind, pure, EStateM.pure]
  rw [Term.runFrom_of_step (by decide) step Nat.one_ne_zero]
  exact Term.runFrom_of_normal rfl

/-- The search feeds one probe. -/
theorem found : (Term.native .I).canonicalize Rules.undeclared ⟨.number 1, .number 2⟩ true
    workspace.store = .ok (.found form 1) ⟨4, 1, ∅⟩ := by
  have first : (Term.native .I).run Rules.undeclared (.number 1) [] false workspace.store =
      .ok ⟨.native .I, 0, true⟩ workspace.store :=
    Term.run_nil_ok_iff.mpr ⟨1, rfl, Term.runFrom_of_normal rfl, nofun⟩
  have probed : Engine.freshVariable (Probe.name 0) workspace.store = .ok ⟨"a", 2⟩ ⟨3, 0, ∅⟩ := rfl
  have applied : (Term.native .I).apply Rules.undeclared [.var ⟨"a", 2⟩] ⟨3, 0, ∅⟩ =
      .ok (.app 0 (.native .I) [.var ⟨"a", 2⟩]) ⟨3, 1, ∅⟩ := rfl
  have second : (Term.app 0 (.native .I) [.var ⟨"a", 2⟩]).run Rules.undeclared (.number 1) []
      false ⟨3, 1, ∅⟩ = .ok ⟨.var ⟨"a", 2⟩, 1, true⟩ ⟨3, 1, ∅⟩ :=
    Term.run_nil_ok_iff.mpr ⟨1, rfl, runFrom_app _ 0 3 1, nofun⟩
  have closed : Term.closeProbes Rules.undeclared [⟨"a", 2⟩] (.var ⟨"a", 2⟩) ⟨3, 1, ∅⟩ =
      .ok form ⟨4, 1, ∅⟩ := rfl
  refine Term.canonicalize_found_iff.mpr ⟨2, rfl, Term.searchFrom_found_iff.mpr ?_⟩
  refine ⟨_, 0, _, first, .inr ⟨rfl, _, _, _, _, probed, applied, ?_⟩⟩
  exact Term.searchFrom_found_iff.mpr ⟨_, 1, _, second, .inl ⟨rfl, closed, rfl⟩⟩

end Identity

/-- The workspace after the search. -/
def Identity.searched : Workspace :=
  ⟨⟨4, 1, ∅⟩, [Identity.x], [Identity.form.term, .native .I, .var Identity.x]⟩

/-- As the identity applied to a variable is run to it, so is its canonical form. -/
theorem canonical_behaves_sample : Identity.workspace.Reachable ∧
    ∃ u, Identity.searched.RunsTo Rules.undeclared Identity.form.term [.var Identity.x] u ∧
      (Term.var Identity.x).equal Rules.undeclared u = pure true := by
  have identity : Identity.workspace.AtHand (.native .I) :=
    ⟨List.mem_cons_self, rfl, by simp [Term.occurs]⟩
  have argument : ∀ a ∈ [Term.var Identity.x], Identity.searched.AtHand a := by
    rw [List.forall_mem_singleton]
    exact .var (by simp [Identity.searched]) (by simp [Identity.searched])
  obtain ⟨both, same⟩ := Identity.reachable.canonical_behaves identity Identity.found .refl .refl
    argument argument (Nat.le_refl 1) Rules.undeclared Rules.undeclared
  have runs : Identity.searched.RunsTo Rules.undeclared (.native .I) [.var Identity.x]
      (.var Identity.x) :=
    ⟨.number 1, false, _, _, Term.run_ok_iff.mpr
      ⟨_, _, 1, rfl, rfl, Identity.runFrom_app _ 1 4 2, nofun⟩, rfl, rfl⟩
  obtain ⟨u, hu⟩ := both.mp ⟨_, runs⟩
  exact ⟨Identity.reachable, u, hu, same _ _ runs hu Rules.undeclared⟩

end Workspace

end Combinatory
