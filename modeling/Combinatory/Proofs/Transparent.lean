import Combinatory.Proofs.Indistinguishable
import Combinatory.Proofs.Opened.Runs
import Combinatory.Proofs.Termination

/-!
# Transparent names

A name that waits for no arguments is transparent: to replace such names by their definitions before
a run changes neither whether the run comes to an end nor where, and spares the steps that open
names at heads (`Workspace.Attained.expand_transparent`). This holds whatever a caller does before
the two runs, and with whatever rules.
-/

namespace Combinatory

open Relation (ReflTransGen)
open Engine (Computes Ends Ensures)

namespace Kinds

/-- The combinators other than the successor that stand for lambda terms, and names that wait for no
arguments. -/
def synonyms : Kinds where
  native c := c.isPure = true ∧ c ≠ .successor
  name info := info.arity = .number 0
  nested := False

theorem transparent_synonyms : synonyms.Transparent := ⟨fun _ h => h, fun _ h => h, id⟩

/-- The same combinators, and no names. -/
def unnamed (K : Kinds) : Kinds := { K with name := fun _ => False }

theorem Transparent.unnamed {K : Kinds} (h : K.Transparent) : K.unnamed.Transparent :=
  ⟨h.native, nofun, h.flat⟩

end Kinds

variable {K : Kinds} {R : Rules} {Γ : Scope} {s s' : Store} {t u : Term} {p : Twins}

namespace Term

/-! ### Expansion -/

mutual

/-- A term with transparent names has an expansion, and that has no names. -/
theorem ends_expand (hK : K.Transparent) (R : Rules) : ∀ {t : Term}, t.MadeOf K →
    Ends (expand R t) K.Obstacle (MadeOf K.unnamed)
  | var v, _ => by
    unfold expand
    exact .pure trivial
  | native c, h => by
    unfold expand
    exact .pure h
  | foreign x, h => h.elim
  | named info d, h => by
    unfold expand
    exact ends_expand hK R h.2
  | lam v b, h => by
    unfold expand
    apply (ends_expand (t := b) hK R h).bind
    intro b' hb
    exact ends_abstract_madeOf (hK.unnamed.closed R) v hb
  | app n hd as, ⟨_, hh, has⟩ => by
    unfold expand
    apply (ends_expand hK R hh).bind
    intro h' hh'
    apply (ends_expandAll hK R has).bind
    intro as' has'
    exact ends_apply_madeOf (hK.unnamed.closed R) hh' has'

theorem ends_expandAll (hK : K.Transparent) (R : Rules) : ∀ {ts : List Term}, MadeOfAll K ts →
    Ends (expand.expandAll R ts) K.Obstacle (MadeOfAll K.unnamed)
  | [], _ => by
    unfold expand.expandAll
    exact .pure trivial
  | t :: ts, ⟨ht, hts⟩ => by
    unfold expand.expandAll
    apply (ends_expand hK R ht).bind
    intro u hu
    apply (ends_expandAll hK R hts).bind
    intro us hus
    exact .pure ⟨hu, hus⟩

end

mutual

/-- The expansion of a recorded term is recorded. -/
theorem records_expand {ok : Native → Prop} : ∀ (t : Term) {p : Twins}, R.Steady ok p →
    t.Recorded ok p.heap → Records ok (expand R t) p
  | var v, _, _, _ => by
    unfold expand
    exact .pure trivial
  | native c, _, _, h => by
    unfold expand
    exact .pure h
  | foreign x, _, _, _ => by
    unfold expand
    exact .pure trivial
  | named info d, _, hR, h => by
    unfold expand
    exact records_expand d hR h
  | lam v b, _, hR, h => by
    unfold expand
    apply (records_expand b hR h).bind
    intro b' p₁ hp hb
    exact records_abstract (hR.later hp) hb
  | app n hd as, _, hR, ⟨_, hh, has⟩ => by
    unfold expand
    apply (records_expand hd hR hh).bind
    intro h' p₁ hp₁ hh'
    apply (records_expandAll as (hR.later hp₁) (has.later hp₁)).bind
    intro as' p₂ hp₂ has'
    exact records_apply (hR.later (Twins.le_trans hp₁ hp₂)) (hh'.later hp₂) has'

theorem records_expandAll {ok : Native → Prop} : ∀ (ts : List Term) {p : Twins}, R.Steady ok p →
    RecordedAll ok p.heap ts → Alike (expand.expandAll R ts) (expand.expandAll R ts) p
      fun us p' => RecordedAll ok p'.heap us
  | [], _, _, _ => by
    unfold expand.expandAll
    exact .pure trivial
  | t :: ts, _, hR, ⟨ht, hts⟩ => by
    unfold expand.expandAll
    apply (records_expand t hR ht).bind
    intro u p₁ hp₁ hu
    apply (records_expandAll ts (hR.later hp₁) (hts.later hp₁)).bind
    intro us p₂ hp₂ hus
    exact .pure ⟨hu.later hp₂, hus⟩

end

mutual

/-- The expansion of a term that fits a scope is regular and has no names. -/
theorem ensures_regular_expand (R : Rules) : ∀ (t : Term) {Γ : Scope} {s : Store}, Γ.Minted s →
    t.Fits Γ s → Ensures (expand R t) s fun u s' => u.Regular False ∅ s'
  | var v, _, _, hΓ, h => by
    unfold expand
    exact .pure (hΓ.visible v h)
  | native c, _, _, _, h => by
    unfold expand
    exact .pure (regular_native h)
  | foreign x, _, _, _, h => h.elim
  | named info d, _, _, hΓ, h => by
    unfold expand
    exact ensures_regular_expand R d hΓ h.2
  | lam v b, _, _, hΓ, h => by
    unfold expand
    apply (ensures_regular_expand R b (hΓ.bind h.2.1) h.2.2).bind
    intro b' s₁ _ hb
    exact ensures_regular_abstract hb
  | app n hd as, _, _, hΓ, ⟨_, hh, has⟩ => by
    unfold expand
    apply (ensures_regular_expand R hd hΓ hh).bind
    intro h' s₁ hs₁ hh'
    apply (ensures_regular_expandAll R as (hΓ.later hs₁) (has.later hs₁)).bind
    intro as' s₂ hs₂ has'
    exact ensures_regular_apply (hh'.later hs₂) has'

theorem ensures_regular_expandAll (R : Rules) : ∀ (ts : List Term) {Γ : Scope} {s : Store},
    Γ.Minted s → FitsAll Γ s ts →
      Ensures (expand.expandAll R ts) s fun us s' => RegularAll False ∅ s' us
  | [], _, _, _, _ => by
    unfold expand.expandAll
    exact .pure trivial
  | t :: ts, _, _, hΓ, ⟨ht, hts⟩ => by
    unfold expand.expandAll
    apply (ensures_regular_expand R t hΓ ht).bind
    intro u s₁ hs₁ hu
    apply (ensures_regular_expandAll R ts (hΓ.later hs₁) (hts.later hs₁)).bind
    intro us s₂ hs₂ hus
    exact .pure ⟨hu.later hs₂, hus⟩

end

/-- A term with transparent names has an expansion, a regular term that is the same with all names
opened. -/
theorem Carried.exists_expand (hK : K.Transparent) (h : t.Carried K Γ p) (R : Rules)
    (hs : p.left ≤ s) :
    ∃ u s', t.expand R s = .ok u s' ∧ s ≤ s' ∧ u.MadeOf K.unnamed ∧ u.Fits Γ s' ∧
      u.Regular False ∅ s' ∧ ∀ e, u.opened e = t.opened e := by
  have minted := (h.scope.later hs).minted
  have fits := h.fits.later hs
  obtain ⟨u, s', hu, made⟩ := (ends_expand hK R h.made).exists_ok hK.not_obstacle s
  have means := ensures_expand (η := True) R t minted fits
  exact ⟨u, s', hu, (means.ok u s' hu).1, made, (means.ok u s' hu).2.fits,
    ((ensures_regular_expand R t minted fits).ok u s' hu).2,
    ((ensures_opened_expand R t minted fits).ok u s' hu).2⟩

/-- What the run of a term without names ends with is regular and has no names. -/
theorem RunsTo.regular {e : Places} {x : Skeleton} {out : Run} (h : t.RunsTo R p.left out s')
    (ht : t.Held Γ e x p) : out.term.Regular False ∅ s' := by
  obtain ⟨-, budget, strict, hrun⟩ := h
  obtain ⟨b, hb, hrun, -⟩ := run_nil_ok_iff.mp hrun
  have lenient : t.run R budget [] false p.left = .ok out s' :=
    run_nil_ok_iff.mpr ⟨b, hb, hrun, nofun⟩
  have computes := computes_run (R := R) budget ht
  cases hr : x.run budget with
  | error e =>
    rw [hr] at computes
    obtain ⟨s₁, herror⟩ := computes
    rw [lenient] at herror
    cases herror
  | ok c =>
    rw [hr] at computes
    obtain ⟨out', s₁, hok, -, p', -, rfl, hend⟩ := computes
    rw [lenient] at hok
    cases hok
    exact hend.term.shaped.plain

end Term

/-! ### Workspaces with expansions -/

namespace Workspace

/-- What a caller may do next, if terms may be expanded, too. -/
inductive Turn : Workspace → Workspace → Prop where
  | move {w w' : Workspace} (h : Move w w') : Turn w w'
  | expand {w : Workspace} {R : Rules} {t u : Term} {s : Store} (hR : R.SteadyOver w.terms)
      (ht : t ∈ w.terms) (h : t.expand R w.store = .ok u s) : Turn w ⟨s, w.free, u :: w.terms⟩
  | fail {w : Workspace} {R : Rules} {t : Term} {e : Failure} {s : Store}
      (hR : R.SteadyOver w.terms) (ht : t ∈ w.terms) (h : t.expand R w.store = .error e s) :
      Turn w { w with store := s }

/-- Workspaces that a caller may have who also expands terms, beginning with nothing. -/
def Attained : Workspace → Prop := ReflTransGen Turn ⟨{}, [], []⟩

variable {w w' : Workspace} {p : Twins}

/-- Whatever is reached without expansions is attained. -/
theorem Reachable.attained (h : w.Reachable) : w.Attained :=
  ReflTransGen.mono (fun _ _ => Turn.move) _ _ h

/-- Expansions do not spoil the table, either. -/
theorem Mirrors.turn (h : Mirrors p w) (ht : Turn w w') : ∃ p', p ≤ p' ∧ Mirrors p' w' := by
  cases ht with
  | move hm => exact h.move hm
  | expand hR ht hok =>
    have alike := Term.records_expand _ (hR p h.known) (Term.recordedAll_iff.mp h.known _ ht)
    obtain ⟨p', later, hl, hr, hu⟩ := (h.outcome alike).1 _ _ hok
    exact ⟨p', later, hl, hr, hu, h.known.later later⟩
  | fail hR ht herror =>
    have alike := Term.records_expand _ (hR p h.known) (Term.recordedAll_iff.mp h.known _ ht)
    obtain ⟨p', later, hl, hr⟩ := (h.outcome alike).2 _ _ herror
    exact ⟨p', later, hl, hr, h.known.later later⟩

theorem Mirrors.turns (h : Mirrors p w) (ht : ReflTransGen Turn w w') :
    ∃ p', p ≤ p' ∧ Mirrors p' w' := by
  induction ht with
  | refl => exact ⟨p, p.le_refl, h⟩
  | tail _ hstep ih =>
    obtain ⟨p₁, later, h₁⟩ := ih
    obtain ⟨p₂, later', h₂⟩ := h₁.turn hstep
    exact ⟨p₂, Twins.le_trans later later', h₂⟩

/-- In every workspace that is attained the table of settled applications is sound. -/
theorem Attained.exists_twins (h : w.Attained) : ∃ p, Mirrors p w := by
  obtain ⟨start, mirrors⟩ := Reachable.exists_twins .refl
  obtain ⟨p, -, hp⟩ := mirrors.turns h
  exact ⟨p, hp⟩

/-- The expansion of a term at hand is at hand where it is made. -/
theorem Mirrors.exists_expand (hK : K.Transparent) (h : Mirrors p w) (ht : t.Carried K Γ p)
    (R : Rules) :
    ∃ u s q, t.expand R w.store = .ok u s ∧ Mirrors q ⟨s, w.free, u :: w.terms⟩ ∧
      u.Carried K.unnamed Γ q ∧ u.Regular False ∅ q.left ∧ ∀ e, u.opened e = t.opened e := by
  have start : p.left ≤ w.store := h.left ▸ p.left.le_refl
  obtain ⟨u, s, hu, -, made, fits, regular, opened⟩ := ht.exists_expand hK R start
  have records := Term.records_expand t (R := R) (.of_pure R p) ht.recorded
  obtain ⟨q, later, rfl, hright, recorded⟩ := (h.outcome records).1 u s hu
  exact ⟨u, q.left, q, hu,
    ⟨rfl, hright, recorded.imp fun _ _ => trivial, h.known.later later⟩,
    ⟨ht.scope.later later.nextVariable, fits, made, recorded⟩, regular, opened⟩

/-! ### Transparency -/

/-- Names that wait for no arguments never change what a term computes. The term has an expansion.
Whatever a caller does before either, some run of the term comes to an end if and only if some run
of the expansion does. Then what the term ends with has an expansion that is equal to what the
expansion ends with, which takes at most as many steps. -/
theorem Attained.expand_transparent {w₀ : Workspace} {ts : List Term} (h : w.Attained)
    (hts : Builds w.store ts) (ht : t ∈ ts) (htw : t ∈ w.terms) (made : t.MadeOf .synonyms)
    (h₀ : ReflTransGen Turn w w₀) (R₀ : Rules) :
    ∃ u s, t.expand R₀ w₀.store = .ok u s ∧
      ∀ w₁ w₂, ReflTransGen Turn w w₁ → ReflTransGen Turn ⟨s, w₀.free, u :: w₀.terms⟩ w₂ →
      ∀ R₁ R₂, ((∃ out s₁, t.RunsTo R₁ w₁.store out s₁) ↔
          ∃ out s₂, u.RunsTo R₂ w₂.store out s₂) ∧
        ∀ out₁ s₁ out₂ s₂, t.RunsTo R₁ w₁.store out₁ s₁ → u.RunsTo R₂ w₂.store out₂ s₂ →
          out₂.steps ≤ out₁.steps ∧
          ∀ R s, s₁ ≤ s → ∃ v s', out₁.term.expand R s = .ok v s' ∧
            v.EqualFrom s' out₂.term s₂ := by
  have hK := Kinds.transparent_synonyms
  obtain ⟨p, hp⟩ := h.exists_twins
  have fits := hts.fits ht
  have known := Term.recordedAll_iff.mp hp.known t htw
  have carried : t.Carried .synonyms (.ofFree { v | t.occurs v = true }) p := by
    refine ⟨?_, ?_, made, known.isPure_of_fits fits⟩ <;> rw [hp.left]
    · exact hts.sealed ht
    · exact fits
  obtain ⟨p₀, later₀, hp₀⟩ := hp.turns h₀
  obtain ⟨u, s, q, hu, hq, after, uregular, opened⟩ :=
    hp₀.exists_expand hK (carried.later later₀) R₀
  refine ⟨u, s, hu, fun w₁ w₂ h₁ h₂ R₁ R₂ => ?_⟩
  obtain ⟨p₁, later₁, hp₁⟩ := hp.turns h₁
  obtain ⟨p₂, later₂, hp₂⟩ := hq.turns h₂
  have source := carried.later later₁
  have target := after.later later₂
  rw [← hp₁.left, ← hp₂.left]
  refine ⟨⟨?_, ?_⟩, fun out₁ s₁ out₂ s₂ run₁ run₂ => ?_⟩
  · rintro ⟨out₁, s₁, run₁⟩
    exact run₁.exists_twin hK hK.unnamed R₂ source target (opened .free)
  · rintro ⟨out₂, s₂, run₂⟩
    exact run₂.exists_twin hK.unnamed hK R₁ target source (opened .free).symm
  obtain ⟨ends, cheaper⟩ := run₁.twin hK hK.unnamed (fun _ => id) run₂ source target (opened .free)
  refine ⟨cheaper, fun R s' hs' => ?_⟩
  -- where the two runs end there is nothing more to open
  obtain ⟨p', -, -, rfl, last, -⟩ := run₁.after_eq hK .free source
  obtain ⟨v, s'', hv, -, -, -, vregular, vopened⟩ := last.exists_expand hK R hs'
  have held : u.Held (.ofFree { v | t.occurs v = true }) .free (u.skeleton .free) p₂ :=
    { scope := target.scope
      shaped := ⟨uregular.later later₂.nextVariable, rfl⟩
      fits := target.fits
      recorded := target.recorded }
  have regular := run₂.regular held
  refine ⟨v, s'', hv, Term.Shaped.equalFrom (x := out₂.term.skeleton .free) ⟨vregular, ?_⟩
    ⟨regular, rfl⟩⟩
  rw [← vregular.opened_eq_skeleton, vopened, ← ends, regular.opened_eq_skeleton]

/-! ### Names at heads -/

namespace Opening

open Nested (x inner outer)

/-- The application `U x`. -/
def term : Term := .app 3 outer [.var x]

/-- What is at hand after it was built. -/
def workspace : Workspace := ⟨⟨2, 4, ∅⟩, [x], term :: Nested.built⟩

theorem builds : Builds workspace.store workspace.terms := by
  have applied : Term.apply Rules.undeclared outer [.var x] Nested.store =
      .ok term workspace.store := rfl
  exact .apply Nested.builds (by simp [Nested.built]) (by simp [Nested.built]) applied

/-- The workspace is reached by the calls that build its terms. -/
theorem attained : workspace.Attained := by
  have given : Reachable ⟨⟨2, 0, ∅⟩, [x], [.native .I, .var x]⟩ :=
    (ReflTransGen.single (.mint (v := x) rfl)).tail (.native .I)
  have first : Reachable ⟨⟨2, 1, ∅⟩, [x], [inner, .native .I, .var x]⟩ := by
    refine given.tail (.call
      (c := .define Nested.limits (.string "T") (.native .I) none false .null)
      (Rules.steadyOver_undeclared _) ?_ rfl)
    simp [Call.inputs]
  have second : Reachable ⟨⟨2, 2, ∅⟩, [x], [outer, inner, .native .I, .var x]⟩ := by
    refine first.tail (.call (c := .define Nested.limits (.string "U") inner none false .null)
      (Rules.steadyOver_undeclared _) ?_ rfl)
    simp [Call.inputs]
  have third : Reachable ⟨Nested.store, [x], Nested.built⟩ :=
    second.apply (f := .var x) (l := [outer]) (Rules.steadyOver_undeclared _) (by simp) rfl
  have fourth : workspace.Reachable :=
    third.apply (f := outer) (l := [.var x]) (Rules.steadyOver_undeclared _)
      (by simp [Nested.built]) rfl
  exact fourth.attained

theorem madeOf_term : term.MadeOf .synonyms :=
  ⟨nofun, ⟨rfl, rfl, rfl, nofun⟩, trivial, trivial⟩

/-- A run opens both names, one step each, and then the identity gives the variable. -/
theorem runsTo_term :
    term.RunsTo Rules.undeclared workspace.store ⟨.var x, 3, true⟩ ⟨2, 6, ∅⟩ := by
  let t₁ : Term := .app 4 inner [.var x]
  let t₂ : Term := .app 5 (.native .I) [.var x]
  have step {n : Nat} {h u : Term} {s s' : Store} (hs : s.settled = ∅)
      (hr : h.reduce Rules.undeclared [.var x] s = .ok (some u) s') :
      (Term.app n h [.var x]).step Rules.undeclared s = .ok (some ⟨u, 1⟩) s' := by
    refine Term.step_app_of_reduce ?_ hr
    rw [hs]
    exact Std.HashSet.not_mem_empty
  have open₁ : term.step Rules.undeclared workspace.store = .ok (some ⟨t₁, 1⟩) ⟨2, 5, ∅⟩ :=
    step rfl rfl
  have open₂ : t₁.step Rules.undeclared ⟨2, 5, ∅⟩ = .ok (some ⟨t₂, 1⟩) ⟨2, 6, ∅⟩ := step rfl rfl
  have last : t₂.step Rules.undeclared ⟨2, 6, ∅⟩ = .ok (some ⟨.var x, 1⟩) ⟨2, 6, ∅⟩ := step rfl rfl
  refine ⟨rfl, .number 3, true, ?_⟩
  refine Term.run_nil_ok_iff.mpr ⟨3, rfl, ?_, fun _ => rfl⟩
  rw [Term.runFrom_of_step (by decide) open₁ Nat.one_ne_zero,
    Term.runFrom_of_step (by decide) open₂ Nat.one_ne_zero,
    Term.runFrom_of_step (by decide) last Nat.one_ne_zero]
  exact Term.runFrom_of_normal rfl

end Opening

/-- The expansion of `U x` is run to the variable, too, and takes no more than the three steps. -/
theorem expand_transparent_opening :
    Opening.workspace.Attained ∧ Builds Opening.workspace.store Opening.workspace.terms ∧
      Opening.term ∈ Opening.workspace.terms ∧ Opening.term.MadeOf .synonyms ∧
      ∃ u s, Opening.term.expand Rules.undeclared Opening.workspace.store = .ok u s ∧
        ∃ out s₂, u.RunsTo Rules.undeclared s out s₂ ∧ out.steps ≤ 3 ∧
          ∃ v s', (Term.var Nested.x).expand Rules.undeclared ⟨2, 6, ∅⟩ = .ok v s' ∧
            v.EqualFrom s' out.term s₂ := by
  have mem : Opening.term ∈ Opening.workspace.terms := List.mem_cons_self
  obtain ⟨u, s, hu, agree⟩ := Opening.attained.expand_transparent Opening.builds mem mem
    Opening.madeOf_term .refl Rules.undeclared
  obtain ⟨ends, same⟩ := agree _ _ .refl .refl Rules.undeclared Rules.undeclared
  obtain ⟨out, s₂, run⟩ := ends.mp ⟨_, _, Opening.runsTo_term⟩
  obtain ⟨cheaper, equal⟩ := same _ _ _ _ Opening.runsTo_term run
  exact ⟨Opening.attained, Opening.builds, mem, Opening.madeOf_term, u, s, hu, out, s₂, run,
    cheaper, equal Rules.undeclared _ (Store.le_refl _)⟩

end Workspace

end Combinatory
