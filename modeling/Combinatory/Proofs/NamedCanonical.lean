import Combinatory.Proofs.Core.Compilation
import Combinatory.Proofs.HeadVariable
import Combinatory.Proofs.LargerBudgets
import Combinatory.Proofs.ProbeLimit

/-!
# Canonical forms of names

A name for a proper combination waits for as many arguments as the combination needs. So a search
for the canonical form of the name feeds it all probes before the first step, where a search for
that of the combination makes a run after each of them. Rewriting is confluent, and both come to one
normal form, up to the probes that stand in it (`skeleton_of_forms_passed`). A name for any other
combination waits for nothing, and is opened at once and free of charge. Either way the name has the
canonical form of the combination (`Workspace.Reachable.canonicalize_named`).
-/

namespace Combinatory

open Combination (Leads)
open Engine (Yields)
open Relation (ReflTransGen)

variable {R : Rules} {s s' : Store} {t d u x : Term} {info : NameInfo} {as : List Term}

/-- A name is open if it waits for no arguments. -/
theorem NameInfo.isOpen_iff {n : Nat} (hinfo : info.arity = .number n) :
    info.isOpen = true ↔ n = 0 := by
  rw [isOpen, hinfo]
  simp [Amount.isZero, Amount.whole?]

namespace Term

/-! ### Normal forms over other probes -/

/-- Below the lambdas of their probes, normal forms that differ in the probes have one skeleton. -/
theorem skeleton_of_forms_passed {U W : Set Variable} {vs ws : List Variable} (hvs : vs.Nodup)
    (hws : ws.Nodup) (hlen : ws.length = vs.length) {r : Combination} (hu : u.Forms r)
    (hmentions : ∀ v, r.Mentions v → v ∈ vs ∨ v ∉ ws)
    (hx : x.Forms (r.subst (passed .var vs (ws.map .var)))) (regular : u.Regular False U s)
    (regular' : x.Regular False W s') :
    x.skeleton (Places.bindAll .free ws) = u.skeleton (Places.bindAll .free vs) := by
  have renamed (v : Variable) : ∃ w, passed .var vs (ws.map .var) v = .var w :=
    exists_passed_eq_var (fun v => ⟨v, rfl⟩) vs ws v
  choose π hπ using renamed
  have place (v : Variable) (hv : r.Mentions v) :
      (Places.bindAll .free ws ∘ π) v = Places.bindAll .free vs v := by
    have passing := hπ v
    rw [Function.comp_apply]
    by_cases hmem : v ∈ vs
    · obtain ⟨j, hj, rfl⟩ := List.mem_iff_getElem.mp hmem
      have enough : vs.length ≤ (ws.map Combination.var).length := by simp [hlen]
      have there := getElem?_eq_passed (σ := .var) hvs hj enough
      rw [passing, List.getElem?_map, Option.map_eq_some_iff] at there
      obtain ⟨w, hw, heq⟩ := there
      obtain ⟨hj', rfl⟩ := List.getElem?_eq_some_iff.mp hw
      injection heq with heq
      rw [← heq, Places.bindAll_getElem hws hj', Places.bindAll_getElem hvs hj, hlen]
    · rw [passed_of_not_mem hmem] at passing
      injection passing with heq
      have new := (hmentions v hv).resolve_left hmem
      rw [← heq, Places.bindAll_of_not_mem new, Places.bindAll_of_not_mem hmem, hlen]
  have same : r.subst (passed .var vs (ws.map .var)) = r.rename π :=
    Combination.subst_congr fun v _ => hπ v
  rw [← skeleton_core regular', ← skeleton_core regular, hx.core, hu.core, same,
    Combination.core_rename, Combination.core_congr place]

/-- What was closed over probes when a form was found of a combination. -/
structure NormalOver (c : Combination) (vs : List Variable) (r : Combination) (u : Term)
    (form : CanonicalForm) (s : Store) : Prop where
  foundOver : FoundOver c vs r form
  forms : u.Forms r
  regular : u.Regular False ∅ s
  done : u.awaitsArgs = false
  sketches : Sketches vs.length (u.skeleton (Places.bindAll .free vs)) form s

/-- A form that is found of a combination comes from a normal form that awaits no arguments. -/
theorem exists_normalOver {budget : Budget} {strict : Bool} {p : Twins} {c : Combination}
    (ht : Stands p t c) (hc : ∀ v, c.Mentions v → p.left.Minted v) {form : CanonicalForm} {k : Nat}
    (found : canonicalize R budget t strict p.left = .ok (.found form k) s) :
    ∃ vs r u, NormalOver c vs r u form s := by
  obtain ⟨p', vs, u, r, later, probed, normal, done, hclose⟩ := exists_of_canonicalize ht hc found
  have foundOver := foundOver_of_closeProbes probed normal hclose
  have minted (v : Variable) (hv : r.Mentions v) : p'.left.Minted v := by
    rcases foundOver.mentions v hv with hv | hv
    · exact probed.minted v hv
    · exact probed.probes.minted v hv
  obtain ⟨_, _, hclosed, hs, -, -, sketched⟩ :=
    gives_sketches (R := R) probed.probes (probed.stands.forms.regular minted)
  rw [hclose] at hclosed
  cases hclosed
  exact ⟨vs, r, u, foundOver, probed.stands.forms,
    (probed.stands.forms.regular minted).later hs, done, sketched⟩

/-! ### Names that wait -/

/-- Whether a term is another one applied to some variables, all of them in one application. -/
inductive AppliedTo (f : Term) : List Variable → Term → Prop
  | self : AppliedTo f [] f
  | app (n : Nat) {ws : List Variable} (hne : ws ≠ []) : AppliedTo f ws (.app n f (ws.map var))

private theorem idleAll_vars (ws : List Variable) : IdleAll (ws.map var) := by
  induction ws with
  | nil => trivial
  | cons w ws ih => exact ⟨trivial, ih⟩

namespace AppliedTo

variable {ws : List Variable}

theorem awaitsArgs_eq {f : Term} (h : AppliedTo f ws x) : x.awaitsArgs = f.awaitsArgs := by
  cases h <;> rfl

/-- A name with less arguments than it waits for is idle. -/
theorem idle (h : AppliedTo (named info d) ws x) {n : Nat} (hinfo : info.arity = .number n)
    (hlt : ws.length < n) : x.Idle := by
  have waits : info.isOpen = false := by
    rw [← Bool.not_eq_true, NameInfo.isOpen_iff hinfo]
    omega
  cases h with
  | self => exact waits
  | app m hne =>
    refine ⟨⟨n, by rw [hinfo]; rfl, ?_⟩, waits, idleAll_vars ws⟩
    rw [List.length_map]
    exact Int.ofNat_lt.mpr hlt

/-- A name is applied to one more variable. -/
theorem exists_apply (h : AppliedTo (named info d) ws x) (v : Variable) (R : Rules) (s : Store) :
    ∃ y s', x.apply R [var v] s = .ok y s' ∧ AppliedTo (named info d) (ws ++ [v]) y := by
  cases h with
  | self => exact ⟨_, _, rfl, .app _ (List.cons_ne_nil v [])⟩
  | app m hne =>
    refine ⟨_, _, rfl, ?_⟩
    rw [show ws.map var ++ [var v] = (ws ++ [v]).map var by simp]
    exact .app _ (by simp)

end AppliedTo

/-- A name for a combination that has all its arguments gives way to the combination. -/
theorem yields_leftmost_named (R : Rules) (hd : d.IsCombination) (has : AreCombinations as)
    {n : Nat} (hinfo : info.arity = .number n) (hlen : n ≤ as.length) (m : Nat) (s : Store) :
    Yields (leftmost R (app m (named info d) as)) s fun o _ =>
      StepsTo (d.combination.apps (combinations as)) o := by
  have bound : Engine.bound info.arity = pure (n : Int) := by
    rw [hinfo]
    rfl
  have fires : reduce R (named info d) as = do return some (← apply R d as) := by
    rw [reduce, bound, pure_bind, if_neg (by omega)]
  rw [leftmost, fires, bind_assoc]
  apply (yields_apply R hd has s).bind
  intro u s₁ _ hu
  exact .pure ⟨u, rfl, hu⟩

/-- Variables are combinations. -/
private theorem areCombinations_vars (ws : List Variable) : AreCombinations (ws.map var) := by
  refine areCombinations_iff.mpr fun a ha => ?_
  obtain ⟨v, -, rfl⟩ := List.mem_map.mp ha
  trivial

end Term

namespace SearchedIn

open Term (AppliedTo NormalOver)

variable {Γ : Scope} {p : Twins} {vs ws : List Variable} {r : Combination} {form : CanonicalForm}

/-- With all its probes a name for a combination is run to the normal form of the combination, which
has other probes. -/
private theorem exists_run_of_fed (h : SearchedIn Γ p ws x) (hd : d.IsCombination)
    (found : Term.FoundOver d.combination vs r form) (hinfo : info.arity = .number vs.length)
    (hlen : ws.length = vs.length) (pos : vs ≠ []) (hx : AppliedTo (.named info d) ws x) :
    ∃ (N : Nat) (w : Term) (k : Nat) (s₁ : Store),
      x.run R (.number N) [] false p.left = .ok ⟨w, k, true⟩ s₁ ∧
        w.Forms (r.subst (Term.passed .var vs (ws.map .var))) := by
  -- the name gives way to the combination
  obtain ⟨y, p₁, hstep, stands⟩ : ∃ y p₁, x.step R p.left = .ok (some ⟨y, 1⟩) p₁.left ∧
      Stands p₁ y (d.combination.apps (ws.map .var)) := by
    cases hx with
    | self => exact absurd (List.eq_nil_of_length_eq_zero hlen.symm) pos
    | app m _ =>
      have gives := Term.yields_leftmost_named R hd (Term.areCombinations_vars ws) hinfo
        (by rw [List.length_map, hlen]) m p.right
      rw [Term.combinations_vars] at gives
      obtain ⟨y, p₁, -, hstep, stands⟩ := Term.step_of_stepsTo h.recorded gives
      exact ⟨y, p₁, hstep, stands⟩
  -- which is run to its normal form
  obtain ⟨leads, normal⟩ := found.leads hlen
  obtain ⟨M, hM⟩ := Term.runFrom_of_leads leads normal
  obtain ⟨⟨w, k, _⟩, p₂, -, hfrom, rfl, forms⟩ :=
    hM stands R (1 + M : Nat) 1 Term.patience (Int.le_refl _)
  refine ⟨1 + M, w, k, p₂.left, Term.run_nil_ok_iff.mpr ⟨_, rfl, ?_, nofun⟩, forms⟩
  rw [Term.runFrom_of_step (by omega) hstep Nat.one_ne_zero]
  exact hfrom

/-- So the search closes a term of the skeleton that it has closed for the combination. -/
private theorem exists_form_of_fed (h : SearchedIn Γ p ws x) (hd : d.IsCombination)
    (hclosed : NormalOver d.combination vs r u form s)
    (hvisible : ∀ v, d.combination.Mentions v → v ∈ Γ.visible)
    (hinfo : info.arity = .number vs.length) (hlen : ws.length = vs.length) (pos : vs ≠ [])
    (hx : AppliedTo (.named info d) ws x) (left spent : Nat) :
    ∃ (N : Nat) (form' : CanonicalForm) (k : Nat) (s₁ : Store),
      x.searchFrom R (.number N) ws spent (left + 1) p.left = .ok (some form', k) s₁ ∧
        Sketches vs.length (u.skeleton (Places.bindAll .free vs)) form' s₁ := by
  obtain ⟨N, w, k, s₁, hrun, forms⟩ :=
    h.exists_run_of_fed (R := R) hd hclosed.foundOver hinfo hlen pos hx
  obtain ⟨p', -, rfl, ended, -⟩ := h.run hrun rfl
  have regular : w.Regular False ∅ p'.left := forms.isCombination.regular fun v hv =>
    ended.below.minted.visible v (ended.fits.visible hv)
  have mentions (v : Variable) (hv : r.Mentions v) : v ∈ vs ∨ v ∉ ws :=
    (hclosed.foundOver.mentions v hv).symm.imp id fun hv hmem => h.fresh v hmem (hvisible v hv)
  have same := Term.skeleton_of_forms_passed hclosed.foundOver.nodup h.probes.nodup hlen
    hclosed.forms mentions forms hclosed.regular regular
  have done : w.awaitsArgs = false := by
    rw [← Term.awaitsArgs_skeleton regular, same, Term.awaitsArgs_skeleton hclosed.regular,
      hclosed.done]
  obtain ⟨form', s₂, hclose, -, -, -, sketched⟩ :=
    Term.gives_sketches (R := R) ended.probes ended.regular
  rw [same, hlen] at sketched
  exact ⟨N, form', _, s₂,
    Term.searchFrom_found_iff.mpr ⟨w, k, _, hrun, .inl ⟨done, hclose, rfl⟩⟩, sketched⟩

/-- A search for the canonical form of a name feeds it all its probes in idle runs, and then comes
to the normal form of the combination. -/
theorem exists_form_named (h : SearchedIn Γ p ws x) (hd : d.IsCombination)
    (awaits : d.awaitsArgs = true) (hclosed : NormalOver d.combination vs r u form s)
    (hvisible : ∀ v, d.combination.Mentions v → v ∈ Γ.visible)
    (hinfo : info.arity = .number vs.length) (pos : vs ≠ []) (hx : AppliedTo (.named info d) ws x)
    {j : Nat} (hj : ws.length + j = vs.length) {left : Nat} (hleft : j < left) (spent : Nat) :
    ∃ (N : Nat) (form' : CanonicalForm) (k : Nat) (s₁ : Store),
      x.searchFrom R (.number N) ws spent left p.left = .ok (some form', k) s₁ ∧
        Sketches vs.length (u.skeleton (Places.bindAll .free vs)) form' s₁ := by
  obtain ⟨left, rfl⟩ : ∃ m, left = m + 1 := ⟨left - 1, by omega⟩
  induction j generalizing p ws x spent left with
  | zero => exact h.exists_form_of_fed hd hclosed hvisible hinfo hj pos hx left spent
  | succ j ih =>
    obtain ⟨left, rfl⟩ : ∃ m, left = m + 1 := ⟨left - 1, by omega⟩
    -- an idle run is the same with any budget
    obtain ⟨table, hstep⟩ := Term.exists_table_of_idle R (hx.idle hinfo (by omega)) p.left
    have hrun (N : Nat) : x.run R (.number N) [] false p.left =
        .ok ⟨x, 0, true⟩ { p.left with settled := table } :=
      Term.run_nil_ok_iff.mpr ⟨N, rfl, Term.runFrom_of_normal hstep, nofun⟩
    obtain ⟨p₁, -, hleft₁, ran, -⟩ := h.run (hrun 0) rfl
    -- one more probe is fed
    obtain ⟨v, s₂, hv⟩ : ∃ v s₂, Engine.freshVariable (Probe.name ws.length) p₁.left = .ok v s₂ :=
      ⟨_, _, rfl⟩
    obtain ⟨y, s₃, hy, applied⟩ := hx.exists_apply v R s₂
    obtain ⟨p₂, -, rfl, fed⟩ := ran.probe hv hy
    have length : (ws ++ [v]).length + j = vs.length := by
      rw [List.length_append, List.length_singleton]
      omega
    obtain ⟨N, form', k, s₁, found, sketched⟩ :=
      ih fed applied length (spent + 0) left (Nat.lt_of_succ_lt_succ hleft)
    rw [hleft₁] at hv
    exact ⟨N, form', k, s₁, Term.searchFrom_found_iff.mpr ⟨x, 0, _, hrun N,
      .inr ⟨hx.awaitsArgs_eq.trans awaits, v, s₂, y, _, hv, hy, found⟩⟩, sketched⟩

end SearchedIn

/-! ### Names that are opened -/

/-- A name that waits for no arguments is opened before the first step, free of charge, so a search
for its canonical form finds what a search for that of its definition does. -/
theorem Term.search_named (made : d.MadeOf .pure) {n : Nat} (hinfo : info.arity = .number n)
    (opens : info.isOpen = true) {budget : Budget} {b : Int} (hb : budget.steps.bound? = some b)
    (pos : 1 ≤ b) {form : CanonicalForm} {k : Nat}
    (found : d.search R budget s = .ok (some form, k) s') :
    (named info d).search R budget s = .ok (some form, k) s' := by
  obtain ⟨m, hm, found⟩ := search_ok_iff.mp found
  refine search_ok_iff.mpr ⟨m, hm, ?_⟩
  cases hleft : m.toNat with
  | zero =>
    rw [hleft] at found
    cases found
  | succ left =>
    rw [hleft] at found
    obtain ⟨u, i, s₁, hrun, next⟩ := searchFrom_found_iff.mp found
    refine searchFrom_found_iff.mpr ⟨u, i, s₁, ?_, next⟩
    obtain ⟨_, l, s₂, hb', trail, normal⟩ :=
      exists_trail_of_final (Kinds.closed_pure R) made hrun rfl
    obtain rfl : b = _ := Option.some.inj (hb.symm.trans hb')
    have opened : (named info d).step R s = .ok (some ⟨d, 0⟩) s := by
      rw [step, opens]
      rfl
    have whole : Trail R b ⟨named info d, 0, s⟩ _ ⟨u, i, s₂⟩ :=
      .round (Int.lt_of_lt_of_le Int.zero_lt_one pos) opened trail
    have made' : (named info d).MadeOf .pure := ⟨⟨n, hinfo⟩, made⟩
    exact run_of_trail_of_normal made' hb whole normal false

/-! ### Workspaces -/

/-- A name for a term of which a form is found waits for as many arguments as the form if that is
proper, and for none otherwise. -/
theorem Naming.arity_of_found {budget : Budget} {name note : Literal} {terminal : Option Literal}
    {n : Naming} (h : ofTerm R budget name t terminal true note s = .ok n s')
    {form : CanonicalForm} {k : Nat} {s₁ : Store}
    (found : t.canonicalize R budget false s = .ok (.found form k) s₁) :
    n.info.arity = .number (if form.proper then form.arity else 0 : Nat) ∧ n.definition = t := by
  obtain ⟨c, s₂, hc, h⟩ := Engine.bind_ok_iff.mp h
  rw [found] at hc
  cases hc
  obtain ⟨-, harity, hdef, -⟩ := ensures_new _ _ _ _ _ _ _ _ _ h
  exact ⟨harity, hdef⟩

/-- A term of which a form is found can be given any proper name. -/
theorem Naming.exists_ofTerm {budget : Budget} {name : Literal} {label : String}
    (hname : properName name = .ok label) {form : CanonicalForm} {k : Nat} {s₁ : Store}
    (found : t.canonicalize R budget false s = .ok (.found form k) s₁) (terminal : Option Literal)
    (note : Literal) : ∃ n s', ofTerm R budget name t terminal true note s = .ok n s' := by
  have named : ∃ n s', new name t (.number (if form.proper then form.arity else 0 : Nat))
      (.bool form.proper) (terminal.getD (.bool form.proper)) (some form.term) note s₁ =
        .ok n s' := by
    rw [new, hname]
    exact ⟨_, _, rfl⟩
  obtain ⟨n, s', hn⟩ := named
  exact ⟨n, s', Engine.bind_ok_iff.mpr ⟨_, s₁, found, hn⟩⟩

namespace Workspace

variable {w w₁ w₂ : Workspace} {ts : List Term} {R₁ R₂ : Rules} {budget : Budget} {m : Int}
  {strict₁ : Bool} {form : CanonicalForm} {k : Nat} {s₁ s₂ : Store} {name note : Literal}
  {terminal : Option Literal} {named : Naming}

theorem Reachable.later (h : w.Reachable) (hm : ReflTransGen Move w w₁) : Later w w₁ := by
  obtain ⟨p, hp⟩ := h.exists_twins
  exact hp.later hm

/-- The workspace after a term has been given a name. -/
def withName (w : Workspace) (n : Naming) (s : Store) : Workspace :=
  ⟨s, w.free, n.term :: (n.canonical.toList ++ w.terms)⟩

/-- A caller can name what has been at hand before. -/
theorem Reachable.move_withName (h : w.Reachable) (h₂ : ReflTransGen Move w w₂) (hmem : t ∈ w.terms)
    (hR : R₂.SteadyOver w₂.terms)
    (hnamed : Naming.ofTerm R₂ budget name t terminal true note w₂.store = .ok named s₂) :
    Move w₂ (w₂.withName named s₂) :=
  .call (c := .define budget name t terminal true note) hR
    (List.forall_mem_singleton.mpr ((h.later h₂).terms t hmem))
    (Engine.bind_ok_iff.mpr ⟨named, s₂, hnamed, rfl⟩)

section

variable (h : w.Reachable) (hts : Builds w.store ts) (ht : t ∈ ts) (hmem : t ∈ w.terms)
  (h₁ : ReflTransGen Move w w₁) (h₂ : ReflTransGen Move w w₂) (hm : budget.args.whole? = some m)
  (found : t.canonicalize R₁ budget strict₁ w₁.store = .ok (.found form k) s₁)
  (hnamed : Naming.ofTerm R₂ budget name t terminal true note w₂.store = .ok named s₂)

include h hts ht hmem h₁ h₂ hm found hnamed

/-- The search that is made for a name finds the form too. -/
private theorem Reachable.arity_named {n : Int} (hn : budget.steps.bound? = some n) :
    named.info.arity = .number (if form.proper then form.arity else 0 : Nat) ∧
      named.definition = t := by
  obtain ⟨form', s', found', agrees⟩ := h.canonicalize_again hts ht hmem h₁ h₂ budget budget hn hn
    (Int.le_refl n) hm hm (Int.le_refl m) found R₂ false
  rw [← show form'.arity = form.arity from congrArg CanonicalForm.Traits.arity agrees.traits,
    ← show form'.proper = form.proper from congrArg CanonicalForm.Traits.proper agrees.traits]
  exact Naming.arity_of_found hnamed found'

variable (hR : R₂.SteadyOver w₂.terms)

include hR

/-- Some budget is enough to find the form of a combination for a name that waits for as many
arguments. -/
private theorem Reachable.exists_found_of_waits (hcomb : t.IsCombination)
    (harity : named.info.arity = .number form.arity) (pos : form.arity ≠ 0) :
    ∃ (N : Nat) (form' : CanonicalForm) (k' : Nat) (s' : Store),
      named.term.canonicalize R₂ ⟨.number N, budget.args⟩ true s₂ = .ok (.found form' k') s' ∧
        form.Agrees s₁ form' s' := by
  obtain ⟨-, rfl⟩ := Naming.arity_of_ofTerm hnamed
  -- what was closed when the form was found
  obtain ⟨p₁, hleft₁, searched₁⟩ := h.exists_searchedIn hts ht hmem h₁
  have visible (v : Variable) (hv : named.definition.combination.Mentions v) :
      named.definition.occurs v = true := (Term.occurs_iff_mentions hcomb).mpr hv
  obtain ⟨vs, r, u, hclosed⟩ := Term.exists_normalOver ⟨searched₁.recorded, .self hcomb⟩
    (fun v hv => searched₁.scope.minted.visible v (visible v hv)) (hleft₁.symm ▸ found)
  have arity : form.arity = vs.length := hclosed.foundOver.arity
  rw [arity] at harity pos
  have awaits : named.definition.awaitsArgs = true := by
    by_contra none
    rw [Bool.not_eq_true] at none
    exact pos (arity ▸ Term.arity_eq_zero_of_canonicalize (hts.madeOf ht) none found)
  -- the name is at hand, and a search for it comes to the same normal form
  have reachable : (w₂.withName named s₂).Reachable :=
    h.trans (h₂.tail (h.move_withName h₂ hmem hR hnamed))
  obtain ⟨p, hp⟩ := reachable.exists_twins
  have left : p.left = s₂ := hp.left
  have built : Builds s₂ (named.term :: ts) := .define (hts.elapse (h.later h₂).store) ht hnamed
  have searched := hp.searchedIn built List.mem_cons_self List.mem_cons_self
  have below := Term.arity_lt_of_canonicalize found hm
  have enough : vs.length < m.toNat := by omega
  obtain ⟨N, form', k', s', found', sketched⟩ := searched.exists_form_named (R := R₂) hcomb awaits
    hclosed visible harity (List.ne_nil_of_length_pos (Nat.pos_of_ne_zero pos)) .self
    (Nat.zero_add _) enough 0
  refine ⟨N, form', k', s', Term.canonicalize_found_iff.mpr ⟨m, hm, left ▸ found'⟩, ?_⟩
  exact ⟨sketched.traits.trans hclosed.sketches.traits.symm, hclosed.sketches.regular,
    sketched.regular, hclosed.sketches.skeleton.trans sketched.skeleton.symm⟩

/-- As soon as a combination has been given a name, some budget is enough to find its form for the
name. -/
private theorem Reachable.exists_found_named (hcomb : t.IsCombination) {n : Int}
    (hn : budget.steps.bound? = some n) :
    ∃ (N : Nat) (form' : CanonicalForm) (k' : Nat) (s' : Store),
      named.term.canonicalize R₂ ⟨.number N, budget.args⟩ true s₂ = .ok (.found form' k') s' ∧
        form.Agrees s₁ form' s' := by
  obtain ⟨harity, hdef⟩ := h.arity_named hts ht hmem h₁ h₂ hm found hnamed hn
  by_cases opens : named.info.isOpen = true
  · subst hdef
    obtain ⟨form', s', found', agrees⟩ := h.canonicalize_again hts ht hmem h₁
      (h₂.tail (h.move_withName h₂ hmem hR hnamed)) budget
      ⟨.number (max n 1).toNat, budget.args⟩ hn rfl (by omega) hm hm (Int.le_refl m) found R₂ true
    refine ⟨(max n 1).toNat, form', k, s', ?_, agrees⟩
    rw [Term.canonicalize_found_iff, ← Term.search_ok_iff] at found' ⊢
    exact Term.search_named (hts.madeOf ht) harity opens rfl (by omega) found'
  · rw [NameInfo.isOpen_iff harity] at opens
    by_cases proper : form.proper = true
    · rw [if_pos proper] at harity opens
      exact h.exists_found_of_waits hts ht hmem h₁ h₂ hm found hnamed hR hcomb harity opens
    · exact absurd (if_neg proper) opens

end

/-- Naming a combination does not change its canonical form. A proper name is not opened before it
has as many arguments as the form; all the same, from some budget on a search for its canonical form
finds an equal form, of which the same is told, whatever a caller has done since. -/
theorem Reachable.canonicalize_named (h : w.Reachable) (hts : Builds w.store ts) (ht : t ∈ ts)
    (hmem : t ∈ w.terms) (hcomb : t.IsCombination) (h₁ : ReflTransGen Move w w₁)
    (h₂ : ReflTransGen Move w w₂) (budget : Budget) {n m : Int}
    (hn : budget.steps.bound? = some n) (hm : budget.args.whole? = some m)
    (found : t.canonicalize R₁ budget strict₁ w₁.store = .ok (.found form k) s₁)
    (hR : R₂.SteadyOver w₂.terms) {label : String} (hname : properName name = .ok label)
    (terminal : Option Literal) (note : Literal) :
    ∃ named s₂, Naming.ofTerm R₂ budget name t terminal true note w₂.store = .ok named s₂ ∧
      named.definition = t ∧
      (form.proper = true → ∀ R as s, as.length < form.arity →
        named.term.reduce R as s = .ok none s) ∧
      ∃ N : Nat, ∀ w₃, ReflTransGen Move (w₂.withName named s₂) w₃ →
        ∀ (steps : Amount) (b : Int), steps.bound? = some b → N ≤ b → ∀ R₃ strict₃,
          ∃ form' k' s₃, named.term.canonicalize R₃ ⟨steps, budget.args⟩ strict₃ w₃.store =
              .ok (.found form' k') s₃ ∧
            form'.traits = form.traits ∧ form.term.EqualFrom s₁ form'.term s₃ := by
  -- the search that is made for the name finds a form too
  obtain ⟨_, _, again, -⟩ := h.canonicalize_again hts ht hmem h₁ h₂ budget budget hn hn
    (Int.le_refl n) hm hm (Int.le_refl m) found R₂ false
  obtain ⟨named, s₂, hnamed⟩ := Naming.exists_ofTerm hname again terminal note
  obtain ⟨harity, hdef⟩ := h.arity_named hts ht hmem h₁ h₂ hm found hnamed hn
  refine ⟨named, s₂, hnamed, hdef, fun proper R as s hlt => ?_, ?_⟩
  · rw [if_pos proper] at harity
    have waits : Term.Waits named.term as :=
      ⟨form.arity, by rw [harity]; rfl, Int.ofNat_lt.mpr hlt⟩
    rw [Term.reduce_of_waits waits]
    rfl
  · obtain ⟨N, form₀, k₀, s₀, found₀, agrees₀⟩ :=
      h.exists_found_named hts ht hmem h₁ h₂ hm found hnamed hR hcomb hn
    have reachable : (w₂.withName named s₂).Reachable :=
      h.trans (h₂.tail (h.move_withName h₂ hmem hR hnamed))
    have built : Builds s₂ (named.term :: ts) := .define (hts.elapse (h.later h₂).store) ht hnamed
    refine ⟨N, fun w₃ h₃ steps b hb hle R₃ strict₃ => ?_⟩
    obtain ⟨form', s₃, found', agrees⟩ := reachable.canonicalize_again built List.mem_cons_self
      List.mem_cons_self .refl h₃ ⟨.number N, budget.args⟩ ⟨steps, budget.args⟩ rfl hb hle hm hm
      (Int.le_refl m) found₀ R₃ strict₃
    have both := agrees₀.trans agrees
    exact ⟨form', k₀, s₃, found', both.traits, both.equalFrom⟩

/-- A name for the combinator that drops the second of two arguments. -/
def Dropping.naming : Naming :=
  ⟨⟨2, "first", .number 2, .bool true, .bool true, .null⟩, .native .K, some Dropping.form.term⟩

/-- The search that is made for the name finds the form. -/
theorem Dropping.ofTerm_eq : Naming.ofTerm Rules.undeclared ⟨.number 1, .number 3⟩ (.string "first")
    (.native .K) none true .null workspace.store = .ok naming ⟨7, 3, table⟩ := by
  have searched : (Term.native .K).canonicalize Rules.undeclared ⟨.number 1, .number 3⟩ false
      workspace.store = .ok (.found Dropping.form 1) ⟨7, 2, table⟩ :=
    Term.canonicalize_found_iff.mpr (Term.canonicalize_found_iff.mp found)
  exact Engine.bind_ok_iff.mpr ⟨_, _, searched, rfl⟩

/-- The name waits for two arguments, and has the canonical form of the combinator. -/
theorem canonicalize_named_dropping :
    Dropping.workspace.Reachable ∧ Builds Dropping.workspace.store Dropping.workspace.terms ∧
      Dropping.naming.term.reduce Rules.undeclared [.var Dropping.x] {} = .ok none {} ∧
      ∃ (N : Nat) (form : CanonicalForm) (k : Nat) (s : Store),
        Dropping.naming.term.canonicalize Rules.undeclared ⟨.number N, .number 3⟩ true
          ⟨7, 3, Dropping.table⟩ = .ok (.found form k) s ∧
        form.traits = ⟨2, true, false, [1], []⟩ ∧
        Dropping.form.term.EqualFrom Dropping.searched.store form.term s := by
  have label : properName (.string "first") = .ok "first" := rfl
  obtain ⟨named, s₂, hnamed, -, waits, N, later⟩ := Dropping.reachable.canonicalize_named
    Dropping.builds (t := .native .K) List.mem_cons_self List.mem_cons_self rfl .refl .refl
    ⟨.number 1, .number 3⟩ rfl rfl Dropping.found (Rules.steadyOver_undeclared _)
    label none .null
  rw [Dropping.ofTerm_eq] at hnamed
  cases hnamed
  refine ⟨Dropping.reachable, Dropping.builds, waits rfl _ _ _ (by decide), N, ?_⟩
  exact later _ .refl (.number N) N rfl (Int.le_refl _) Rules.undeclared true

end Workspace

end Combinatory
