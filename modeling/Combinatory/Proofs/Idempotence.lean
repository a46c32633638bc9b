import Combinatory.Proofs.CanonicalBehavior
import Combinatory.Proofs.Definitions
import Combinatory.Proofs.Indistinguishable
import Combinatory.Proofs.Snapshots
import Combinatory.Proofs.SpentBudget
import Combinatory.Proofs.Termination

/-!
# A canonical form is its own canonical form

A search ends with an idle term that awaits no arguments, closed over the probes, and no definition
in that term mentions a probe (`SearchedIn`). A search for the canonical form of what was closed
opens one lambda after another, in one step each, with a new probe in place of the lambda's variable
(`Peeled`). The profile tells that what is found below the last lambda is idle again, and the
skeleton tells the rest. So the second search finds the same again, within any budget that allows
the first one to end and one step (`Reachable.canonicalize_idempotent`).
-/

namespace Combinatory

open Relation (ReflTransGen)
open Engine (Ensures Gives)

variable {R : Rules} {Γ : Scope} {s s' : Store} {p p' : Twins} {vs : List Variable} {t u : Term}
  {v : Variable}

/-! ### Where a search stands -/

/-- A scope takes no variable less below lambdas. -/
private theorem Scope.taken_subset_bindAll (Γ : Scope) (vs : List Variable) :
    Γ.taken ⊆ (Γ.bindAll vs).taken := by
  induction vs generalizing Γ with
  | nil => exact subset_rfl
  | cons v vs ih => exact (Set.subset_insert v Γ.taken).trans (ih (Γ.bind v))

/-- Where a search stands that began with a term of a scope: the probes are new to the scope, and
definitions mention only what was visible in it. -/
structure SearchedIn (Γ : Scope) (p : Twins) (vs : List Variable) (t : Term) : Prop where
  scope : Γ.Sealed p.left
  probes : Probes p.left vs
  fresh : ∀ v ∈ vs, v ∉ Γ.visible
  fits : t.Fits (Γ.bindAll vs) p.left
  recorded : t.Recorded (fun c => c.isPure = true) p.heap
  made : t.MadeOf .pure
  wellFormed : t.WellFormed
  definesOver : t.DefinesOver Γ.visible

namespace SearchedIn

/-- The scope of a term that was fed probes. -/
theorem below (h : SearchedIn Γ p vs t) : (Γ.bindAll vs).Sealed p.left :=
  h.scope.bindAll h.probes.minted

/-- No definition in the term mentions a probe. -/
theorem regular (h : SearchedIn Γ p vs t) : t.Regular True { v | v ∈ vs } p.left :=
  Term.regular_of_definesOver h.wellFormed h.definesOver h.fits h.below.minted
    (fun v hv => Γ.taken_subset_bindAll vs (h.scope.visible v hv)) h.fresh

/-- A final run goes on to an idle term. -/
theorem run (h : SearchedIn Γ p vs t) {budget : Amount} {out : Run}
    (hrun : t.run R budget [] false p.left = .ok out s) (final : out.final = true) :
    ∃ p', p ≤ p' ∧ p'.left = s ∧ SearchedIn Γ p' vs out.term ∧ out.term.Idle := by
  have steady : R.Steady (fun c => c.isPure = true) p := .of_pure R p
  -- the last look at the term finds no step
  have idle : out.term.Idle := by
    obtain ⟨n, l, s₁, -, trail, hstep⟩ :=
      Term.exists_trail_of_final (Kinds.closed_pure R) h.made hrun final
    obtain ⟨p₁, hp₁, rfl, hrec⟩ := trail.exists_twins steady h.recorded rfl
    exact hrec.idle_of_step (steady.later hp₁) hstep
  obtain ⟨p', later, rfl, hrec⟩ :=
    (Term.records_run steady budget false h.recorded .nil).exists_of_ok hrun
  obtain ⟨b, hb, -⟩ := Term.run_nil_ok_iff.mp hrun
  have made := (Term.ends_run_lenient (Kinds.closed_pure R) hb h.made .nil).of_ok hrun
  have means :=
    (Term.ensures_run (η := True) R budget false h.below (.self h.fits) .nil _ _ hrun).2
  have kept := ((Term.definesOver_invariant R Γ.visible).run budget ⟨h.wellFormed, h.definesOver⟩
    (List.forall_mem_nil _) false).of_ok hrun
  exact ⟨p', later, rfl, ⟨h.scope.later later.nextVariable, h.probes.later later.nextVariable,
    h.fresh, means.fits, hrec, made, kept.1, kept.2⟩, idle⟩

/-- One more probe is fed. -/
theorem probe (h : SearchedIn Γ p vs t) {name : String} {s₁ : Store}
    (hv : Engine.freshVariable name p.left = .ok v s₁)
    (hu : t.apply R [.var v] s₁ = .ok u s) :
    ∃ p', p ≤ p' ∧ p'.left = s ∧ SearchedIn Γ p' (vs ++ [v]) u := by
  obtain ⟨hfresh, hm⟩ := (Engine.ensures_freshVariable _ _ _ _ hv).2
  obtain ⟨p₁, hp₁, rfl, -⟩ := (Engine.alike_freshVariable p _).exists_of_ok hv
  have args : Term.RecordedAll (fun c => c.isPure = true) p₁.heap [.var v] := ⟨trivial, trivial⟩
  obtain ⟨p₂, hp₂, rfl, hrec⟩ :=
    (Term.records_apply (.of_pure R p₁) (h.recorded.later hp₁) args).exists_of_ok hu
  have later := Twins.le_trans hp₁ hp₂
  -- the probe and the term fit the scope below one lambda more
  have probe : (Term.var v).Fits (Γ.bindAll (vs ++ [v])) p₁.left := by
    rw [Scope.bindAll_append]
    exact Set.mem_insert v _
  have fed : t.Fits (Γ.bindAll (vs ++ [v])) p₁.left := by
    rw [Scope.bindAll_append]
    exact (h.fits.bind_fresh hfresh).later hp₁.nextVariable
  have means := (Term.ensures_apply (η := True) R (.self fed) (.cons (.self probe) .nil) _ _ hu).2
  have made := (Term.ends_apply_madeOf (Kinds.closed_pure R) h.made
    (.cons (t := .var v) trivial .nil)).of_ok hu
  have defined : ∀ a ∈ [Term.var v], a.WellFormed ∧ a.DefinesOver Γ.visible :=
    List.forall_mem_singleton.mpr ⟨trivial, trivial⟩
  have kept := ((Term.definesOver_invariant R Γ.visible).apply
    ⟨h.wellFormed, h.definesOver⟩ defined).of_ok hu
  refine ⟨p₂, later, rfl, h.scope.later later.nextVariable,
    (h.probes.concat hp₁.nextVariable hfresh hm).later hp₂.nextVariable, fun w hw => ?_,
    means.fits, hrec, made, kept.1, kept.2⟩
  rcases List.mem_append.mp hw with hw | hw
  · exact h.fresh w hw
  · rw [List.mem_singleton.mp hw]
    exact fun hvisible => hfresh (h.scope.minted.visible v hvisible)

/-- A search that finds a form has closed an idle term, which awaits no arguments, over less probes
than it could have fed. -/
theorem exists_of_searchFrom {maxSteps : Amount} (left : Nat) (h : SearchedIn Γ p vs t)
    {spent : Nat} {form : CanonicalForm} {k : Nat}
    (hs : t.searchFrom R maxSteps vs spent left p.left = .ok (some form, k) s) :
    ∃ p' us u, p ≤ p' ∧ SearchedIn Γ p' us u ∧ u.Idle ∧ u.awaitsArgs = false ∧
      us.length < vs.length + left ∧ u.closeProbes R us p'.left = .ok form s := by
  induction left generalizing p vs t spent with
  | zero => cases hs
  | succ left ih =>
    obtain ⟨u, n, s₁, hrun, hs⟩ := Term.searchFrom_found_iff.mp hs
    obtain ⟨p₁, later₁, rfl, ran, idle⟩ := h.run hrun rfl
    rcases hs with ⟨done, hclose, -⟩ | ⟨-, v, s₂, w, s₃, hv, hw, hs⟩
    · exact ⟨p₁, vs, u, later₁, ran, idle, done, by omega, hclose⟩
    · obtain ⟨p₂, later₂, rfl, fed⟩ := ran.probe hv hw
      obtain ⟨p', us, u', later₃, ended, idle, done, hlen, hclose⟩ := ih fed hs
      rw [List.length_append, List.length_singleton] at hlen
      exact ⟨p', us, u', Twins.le_trans later₁ (Twins.le_trans later₂ later₃), ended, idle, done,
        by omega, hclose⟩

end SearchedIn

/-! ### One lambda after another -/

/-- What is left of some lambdas around a term when all but `j` have been opened, with distinct new
probes in place of their variables. -/
structure Peeled (e : Places) (u : Term) (j : Nat) (vs : List Variable) (t : Term) (s : Store) :
    Prop where
  probes : Probes s vs
  regular : t.Regular True { v | v ∈ vs } s
  skeleton : t.skeleton (Places.bindAll .free vs) = .close j (u.skeleton e)
  profile : t.profile (Places.bindAll .free vs) = .close j (u.profile e)

namespace Peeled

variable {e : Places} {j : Nat}

theorem later (h : Peeled e u j vs t s) (hs : s ≤ s') : Peeled e u j vs t s' :=
  ⟨h.probes.later hs, h.regular.later hs, h.skeleton, h.profile⟩

/-- Lambdas are idle, and so is what is below the last one if the term is. -/
theorem idle (h : Peeled e u j vs t s) (hu : u.Idle) : t.Idle := by
  cases j with
  | zero => exact Term.Idle.of_profile h.profile.symm hu
  | succ j =>
    obtain ⟨v, b, rfl, -⟩ := Term.exists_lam_of_profile h.profile
    trivial

/-- As long as there are lambdas left, the first one can be opened. -/
theorem exists_lam (h : Peeled e u (j + 1) vs t s) : ∃ v b, t = .lam v b := by
  obtain ⟨v, b, rfl, -⟩ := Term.exists_lam_of_profile h.profile
  exact ⟨v, b, rfl⟩

/-- One more probe is put in place of a lambda's variable. -/
theorem gives_instantiate {v w : Variable} {b : Term} (h : Peeled e u (j + 1) vs (.lam v b) s)
    (hfresh : ¬ s.Minted w) (hs : s ≤ s') (hw : s'.Minted w) :
    Gives (b.instantiate R v (.var w)) s' fun t s₁ => Peeled e u j (vs ++ [w]) t s₁ := by
  have body : b.Regular True (insert v (insert w { v | v ∈ vs })) s := by
    rw [Set.insert_comm]
    exact h.regular.2.insert_fresh hfresh
  have among : { x | x ∈ vs ++ [w] } ⊆ insert v (insert w { x | x ∈ vs }) := by
    intro x hx
    rcases List.mem_append.mp hx with hx | hx
    · exact .inr (.inr hx)
    · exact .inr (.inl (List.mem_singleton.mp hx))
  apply (Term.gives_instantiate_var body hfresh hs hw).imp
  intro t s₁ hs₁ ht
  refine ⟨(h.probes.concat hs hfresh hw).later hs₁, ht.regular.anti among, ?_, ?_⟩
  · rw [Places.bindAll_concat, ht.skeleton_bind body hfresh]
    injection h.skeleton
  · rw [Places.bindAll_concat, ht.profile_bind body hfresh]
    injection h.profile

end Peeled

namespace Term

/-- A lambda that has just been applied to an argument is opened by the next step. -/
theorem step_app_lam {n : Nat} {b a : Term} (hn : n ∉ s.settled)
    (hb : b.instantiate R v a s = .ok u s') :
    (app n (lam v b) [a]).step R s = .ok (some ⟨u, 1⟩) s' := by
  have fires : (lam v b).reduce R [a] s = .ok (some u) s' := by
    rw [reduce, Engine.bind_of_ok hb, apply_nil]
    rfl
  exact step_app_of_reduce hn fires

end Term

/-- Whether a term has a final run that ends with what is left of the lambdas. -/
def Reached (R : Rules) (maxSteps : Amount) (e : Places) (u : Term) (j : Nat) (vs : List Variable)
    (t : Term) (s : Store) : Prop :=
  ∃ w k s', t.run R maxSteps [] false s = .ok ⟨w, k, true⟩ s' ∧ Peeled e u j vs w s' ∧
    (j ≠ 0 → s'.Sane)

namespace Peeled

variable {e : Places} {j : Nat} {maxSteps : Amount} {n : Int}

/-- What is left has no step, and nothing is remembered as long as there are lambdas left. -/
private theorem exists_step (h : Peeled e u j vs t s) (hu : u.Idle) (R : Rules) :
    ∃ s', t.step R s = .ok none s' ∧ s ≤ s' ∧ (j ≠ 0 → s' = s) := by
  cases j with
  | zero =>
    obtain ⟨table, hstep⟩ := Term.exists_table_of_idle R (h.idle hu) s
    exact ⟨_, hstep, Int.le_refl _, fun hj => (hj rfl).elim⟩
  | succ j =>
    obtain ⟨v, b, rfl⟩ := h.exists_lam
    refine ⟨s, ?_, s.le_refl, fun _ => rfl⟩
    unfold Term.step
    rfl

/-- What is left is reached at once. -/
theorem reached (h : Peeled e u j vs t s) (hu : u.Idle) (hs : s.Sane)
    (hb : maxSteps.bound? = some n) : Reached R maxSteps e u j vs t s := by
  obtain ⟨s', hstep, later, same⟩ := h.exists_step hu R
  refine ⟨t, 0, s', ?_, h.later later, fun hj => (same hj).symm ▸ hs⟩
  exact Term.run_nil_ok_iff.mpr ⟨n, hb, Term.runFrom_of_normal hstep, nofun⟩

/-- With a budget of at least one, one lambda is opened when one more probe is fed. -/
theorem reached_app (h : Peeled e u (j + 1) vs t s) (hu : u.Idle) (hs : s.Sane)
    (hb : maxSteps.bound? = some n) (hn : 1 ≤ n) (name : String) :
    ∃ v s₁ w s₂, Engine.freshVariable name s = .ok v s₁ ∧ t.apply R [.var v] s₁ = .ok w s₂ ∧
      Reached R maxSteps e u j (vs ++ [v]) w s₂ := by
  obtain ⟨x, b, rfl⟩ := h.exists_lam
  let v : Variable := ⟨name, s.nextVariable⟩
  let s₁ : Store := { s with nextVariable := s.nextVariable + 1 }
  let s₂ : Store := { s₁ with nextNode := s.nextNode + 1 }
  have minted : Engine.freshVariable name s = .ok v s₁ := rfl
  have applied : (Term.lam x b).apply R [.var v] s₁ =
      .ok (.app s.nextNode (.lam x b) [.var v]) s₂ := rfl
  obtain ⟨later, hfresh, hm⟩ := Engine.ensures_freshVariable _ _ _ _ minted
  -- making the application mints nothing more
  have later : s ≤ s₂ := later
  have hm : s₂.Minted v := hm
  obtain ⟨w, s₃, hw, hs₃, hnodes, htable, left⟩ := h.gives_instantiate (R := R) hfresh later hm
  have unknown : s.nextNode ∉ s₂.settled := hs.not_mem_settled (Nat.le_refl _)
  have step := Term.step_app_lam unknown hw
  obtain ⟨s₄, normal, hs₄, same⟩ := left.exists_step hu R
  have sane : s₃.Sane := hs.of_settled_eq (Nat.le_trans (Nat.le_succ _) hnodes) htable
  refine ⟨v, s₁, _, s₂, minted, applied, w, 1, s₄, ?_, left.later hs₄,
    fun hj => (same hj).symm ▸ sane⟩
  refine Term.run_nil_ok_iff.mpr ⟨n, hb, ?_, nofun⟩
  rw [Term.runFrom_of_step hn step Nat.one_ne_zero]
  exact Term.runFrom_of_normal normal

end Peeled

/-- Whether a form that was found is a skeleton below lambdas of probes, and is told to be. -/
structure Sketches (k : Nat) (x : Skeleton) (form : CanonicalForm) (s : Store) : Prop where
  regular : form.term.Regular True ∅ s
  skeleton : form.term.skeleton .free = .close k x
  traits : form.traits = x.traits k

/-- Two forms of one skeleton are equal. -/
theorem Sketches.equalFrom {k : Nat} {x : Skeleton} {form form' : CanonicalForm}
    (h : Sketches k x form s) (h' : Sketches k x form' s') :
    form.term.EqualFrom s form'.term s' :=
  h.regular.equalFrom h'.regular (h.skeleton.trans h'.skeleton.symm)

/-- What is closed over probes is its skeleton below their lambdas. -/
theorem Term.gives_sketches (hvs : Probes s vs) (ht : t.Regular True { v | v ∈ vs } s) :
    Gives (t.closeProbes R vs) s fun form s' =>
      Sketches vs.length (t.skeleton (Places.bindAll .free vs)) form s' :=
  (Term.gives_closeProbes hvs ht).imp fun _ _ _ h => ⟨h.1, h.2.1 _, h.2.2.2 _⟩

/-- A search that has reached what is left of the lambdas opens them all, and closes what it finds
below the last one again. -/
theorem Reached.exists_form {e : Places} {maxSteps : Amount} {n : Int} {j : Nat}
    (hu : u.Idle) (done : u.awaitsArgs = false) (hb : maxSteps.bound? = some n) (hn : 1 ≤ n)
    (h : Reached R maxSteps e u j vs t s) {left : Nat} (hj : j < left) (spent : Nat) :
    ∃ form k s', t.searchFrom R maxSteps vs spent left s = .ok (some form, k) s' ∧
      Sketches (vs.length + j) (u.skeleton e) form s' := by
  induction j generalizing vs t s left spent with
  | zero =>
    obtain ⟨left, rfl⟩ : ∃ m, left = m + 1 := ⟨left - 1, by omega⟩
    obtain ⟨w, k, s₁, hrun, hw, -⟩ := h
    have waits : w.awaitsArgs = false := (Term.awaitsArgs_of_profile hw.profile).trans done
    obtain ⟨form, s₂, hclose, -, -, -, sketched⟩ :=
      Term.gives_sketches (R := R) hw.probes hw.regular
    rw [hw.skeleton] at sketched
    exact ⟨form, spent + k, s₂,
      Term.searchFrom_found_iff.mpr ⟨w, k, s₁, hrun, .inl ⟨waits, hclose, rfl⟩⟩, sketched⟩
  | succ j ih =>
    obtain ⟨left, rfl⟩ : ∃ m, left = m + 1 := ⟨left - 1, by omega⟩
    obtain ⟨w, k, s₁, hrun, hw, sane⟩ := h
    have waits : w.awaitsArgs = true := by
      obtain ⟨v, b, rfl⟩ := hw.exists_lam
      rfl
    obtain ⟨v, s₂, w', s₃, hv, hw', reached⟩ :=
      hw.reached_app (R := R) hu (sane j.succ_ne_zero) hb hn (Probe.name vs.length)
    obtain ⟨form, k', s', found, sketched⟩ :=
      ih reached (Nat.lt_of_succ_lt_succ hj) (spent + k)
    refine ⟨form, k', s', Term.searchFrom_found_iff.mpr
      ⟨w, k, s₁, hrun, .inr ⟨waits, v, s₂, w', s₃, hv, hw', found⟩⟩, ?_⟩
    rwa [List.length_append, List.length_singleton, Nat.add_assoc, Nat.add_comm 1 j] at sketched

/-! ### Workspaces -/

namespace Workspace

variable {w w' : Workspace} {ts : List Term}

/-- A term that was built is at hand for a search. -/
theorem Mirrors.searchedIn (hp : Mirrors p w) (hts : Builds w.store ts) (ht : t ∈ ts)
    (hmem : t ∈ w.terms) : SearchedIn (.ofFree { v | t.occurs v = true }) p [] t := by
  have known := Term.recordedAll_iff.mp hp.known t hmem
  have fits := hts.fits ht
  have regular := hts.assembled.regular ht
  refine ⟨?_, .nil, List.forall_mem_nil _, ?_, known.isPure_of_fits fits, hts.madeOf ht,
    regular.wellFormed fits, regular.definesOver fits fun v hv => .inl hv⟩ <;> rw [hp.left]
  · exact hts.sealed ht
  · exact fits

/-- The canonical form that is found of a term is its own canonical form: a search with the same
limits finds it again, if these allow for at least one step, and tells the same of it. -/
theorem Reachable.canonicalize_idempotent (h : w.Reachable) (hts : Builds w.store ts) (ht : t ∈ ts)
    (hmem : t ∈ w.terms) {budget : Budget} {n : Int} (hb : budget.steps.bound? = some n)
    (hn : 1 ≤ n) {strict : Bool} {form : CanonicalForm} {k : Nat} {s₁ : Store}
    (found : t.canonicalize R budget strict w.store = .ok (.found form k) s₁)
    (hm : ReflTransGen Move ⟨s₁, w.free, form.term :: w.terms⟩ w') (R' : Rules) (strict' : Bool) :
    ∃ form' k' s₂, form.term.canonicalize R' budget strict' w'.store = .ok (.found form' k') s₂ ∧
      form'.traits = form.traits ∧ form'.term.EqualFrom s₂ form.term s₁ := by
  obtain ⟨p, hp⟩ := h.exists_twins
  have searched := hp.searchedIn hts ht hmem
  obtain ⟨p₁, -, hp₁⟩ := hp.canonicalize searched.recorded found
  obtain ⟨p₂, later, hp₂⟩ := hp₁.moves hm
  -- what was closed over the probes
  obtain ⟨args, hargs, hsearch⟩ := Term.canonicalize_found_iff.mp found
  rw [← hp.left] at hsearch
  obtain ⟨p', us, u, -, ended, idle, done, hlen, hclose⟩ := searched.exists_of_searchFrom _ hsearch
  obtain ⟨_, _, hclosed, -, -, -, regular, hskeleton, hprofile, htraits⟩ :=
    Term.gives_closeProbes (R := R) ended.probes ended.regular
  rw [hclose] at hclosed
  cases hclosed
  have sketched : Sketches us.length (u.skeleton (Places.bindAll .free us)) form s₁ :=
    ⟨regular, hskeleton .free, htraits .free⟩
  -- the second search begins with all the lambdas
  have whole : Peeled (Places.bindAll .free us) u us.length [] form.term s₁ :=
    ⟨.nil, regular.anti fun v hv => (List.not_mem_nil hv).elim, hskeleton .free, hprofile .free⟩
  have later : s₁ ≤ w'.store := by
    rw [← hp₂.left, show s₁ = p₁.left from hp₁.left.symm]
    exact later.nextVariable
  have reached : Reached R' budget.steps _ u us.length [] form.term w'.store :=
    (whole.later later).reached idle (hp₂.left ▸ .left p₂) hb
  rw [List.length_nil, Nat.zero_add] at hlen
  obtain ⟨form', k', s₂, again, sketched'⟩ := reached.exists_form idle done hb hn hlen 0
  rw [List.length_nil, Nat.zero_add] at sketched'
  exact ⟨form', k', s₂, Term.canonicalize_found_iff.mpr ⟨args, hargs, again⟩,
    sketched'.traits.trans sketched.traits.symm, sketched'.equalFrom sketched⟩

theorem Identity.builds : Builds workspace.store workspace.terms :=
  .native (.mint .start rfl) rfl

/-- The lambda that is found for the identity combinator is found for itself, with the same budget
of one step. -/
theorem canonicalize_idempotent_identity :
    Identity.workspace.Reachable ∧ Builds Identity.workspace.store Identity.workspace.terms ∧
      ∃ form k s, Identity.form.term.canonicalize Rules.undeclared ⟨.number 1, .number 2⟩ true
          Identity.searched.store = .ok (.found form k) s ∧
        form.traits = ⟨1, true, true, [], []⟩ ∧
        form.term.EqualFrom s Identity.form.term Identity.searched.store :=
  ⟨Identity.reachable, Identity.builds, Identity.reachable.canonicalize_idempotent Identity.builds
    List.mem_cons_self List.mem_cons_self rfl (Int.le_refl 1) Identity.found .refl _ true⟩

end Workspace

end Combinatory
