import Combinatory.Proofs.CanonicalBehavior
import Combinatory.Proofs.Completeness
import Combinatory.Proofs.Settled.Compilation
import Combinatory.Proofs.Shortfall

/-!
# A compiled abstraction behaves as the abstraction

An abstraction over some variables of what is put together from variables, `S`, `K` and `I` is a
tower. Any budget either is enough to compile it to one combination, or leaves a lambda
(`IsBasicTower.bracketForm`). On arguments for its variables the combination rewrites to what the
abstraction gives on them, one variable after another (`IsBasicTower.steps_ski`), and so the one has
a final run exactly when the other has.
-/

namespace Combinatory

open Engine (Yields)
open Relation (ReflTransGen)
open Combination (Rewrites)

namespace Term

variable {R : Rules} {Γ : Scope} {s : Store} {n : Nat}

/-! ### Towers over basic combinations -/

mutual

/-- A basic combination is what it is compiled to. -/
private theorem ski_of_isBasic : ∀ {t : Term}, t.IsCombination → IsBasic t.combination →
    t.ski = t.combination ∧ t.effort = 0
  | var v, _, _ => ⟨rfl, rfl⟩
  | native c, _, hc => ⟨Native.ski_of_isBase hc, Native.effort_of_isBase hc⟩
  | app n h as, ⟨hh, _, has⟩, hc => by
    obtain ⟨hhead, hargs⟩ := Combination.uses_apps.mp hc
    obtain ⟨same, free⟩ := ski_of_isBasic hh.isCombination hhead
    obtain ⟨sames, frees⟩ := skiAll_of_isBasic has hargs
    rw [ski, effort, combination, same, sames, free, frees]
    exact ⟨rfl, rfl⟩
  | foreign _, ht, _ => ht.elim
  | named _ _, ht, _ => ht.elim
  | lam _ _, ht, _ => ht.elim

private theorem skiAll_of_isBasic : ∀ {ts : List Term}, AreCombinations ts →
    (∀ c ∈ combinations ts, IsBasic c) → skiAll ts = combinations ts ∧ effortAll ts = 0
  | [], _, _ => ⟨rfl, rfl⟩
  | t :: ts, ⟨ht, hts⟩, hc => by
    obtain ⟨hfirst, hrest⟩ := List.forall_mem_cons.mp hc
    obtain ⟨same, free⟩ := ski_of_isBasic ht hfirst
    obtain ⟨sames, frees⟩ := skiAll_of_isBasic hts hrest
    rw [skiAll, effortAll, combinations, same, sames, free, frees]
    exact ⟨rfl, rfl⟩

end

/-- A number of lambdas over a combination that compilation leaves alone. -/
def IsBasicTower : Nat → Term → Prop
  | 0, t => t.IsCombination ∧ IsBasic t.combination
  | n + 1, lam _ b => IsBasicTower n b
  | _ + 1, _ => False

/-- A basic tower of some lambdas is a lambda over a basic tower of one less. -/
theorem IsBasicTower.exists_lam {t : Term} (ht : t.IsBasicTower (n + 1)) :
    ∃ v b, t = lam v b ∧ b.IsBasicTower n := by
  cases t <;> first | exact ht.elim | exact ⟨_, _, rfl, ht⟩

/-- A tower is basic if what it gives on some arguments is. -/
theorem IsTower.isBasicTower {t : Term} (ht : t.IsTower n) {σ : Variable → Combination}
    {xs : List Combination} (hlen : n ≤ xs.length) (hbasic : IsBasic (t.applied σ xs)) :
    t.IsBasicTower n := by
  induction n generalizing t σ xs with
  | zero =>
    rw [IsCombination.applied_eq ht] at hbasic
    exact ⟨ht, (Combination.uses_apps.mp hbasic).1.of_subst⟩
  | succ n ih =>
    obtain ⟨v, b, rfl, hb⟩ := ht.exists_lam
    cases xs with
    | nil => cases hlen
    | cons x xs => exact ih hb (Nat.le_of_succ_le_succ hlen) hbasic

/-- What a basic tower is compiled to rewrites, on enough arguments, to what the tower gives. -/
theorem IsBasicTower.steps_ski {t : Term} (ht : t.IsBasicTower n) (σ : Variable → Combination)
    {xs : List Combination} (hlen : n ≤ xs.length) :
    ReflTransGen Rewrites ((t.ski.subst σ).apps xs) (t.applied σ xs) := by
  induction n generalizing t σ xs with
  | zero =>
    rw [ht.1.applied_eq, (ski_of_isBasic ht.1 ht.2).1]
  | succ n ih =>
    obtain ⟨v, b, rfl, hb⟩ := ht.exists_lam
    cases xs with
    | nil => cases hlen
    | cons x xs =>
      have first := Combination.steps_bracket σ v x b.ski
      have passed := first.lift (Combination.apps · xs) fun _ _ hstep => hstep.apps xs
      exact passed.trans (ih hb _ (Nat.le_of_succ_le_succ hlen))

/-- A budget either is enough to compile a basic tower to one combination, or leaves a lambda. -/
theorem IsBasicTower.compiled {t : Term} (ht : t.IsBasicTower n) (R : Rules) (limits : Budget)
    (expanding : List Native) (hΓ : Γ.Minted s) (hfits : t.Fits Γ s) (budget : Nat) :
    (t.effort ≤ budget → Yields (compile R limits expanding budget t) s fun o _ =>
        Leaves t.ski (budget - t.effort) o) ∧
      (budget < t.effort → CutsOff (compile R limits expanding budget t) s) := by
  induction n generalizing t Γ with
  | zero =>
    obtain ⟨same, free⟩ := ski_of_isBasic ht.1 ht.2
    rw [same, free]
    exact ⟨fun _ => yields_compile_basic t budget ht.1 ht.2 s, fun h => nomatch h⟩
  | succ n ih =>
    obtain ⟨v, b, rfl, hb⟩ := ht.exists_lam
    have inner : (Γ.bind v).Minted s := hΓ.bind hfits.2.1
    obtain ⟨enough, short⟩ := ih hb inner hfits.2.2
    have minted : ∀ w, b.ski.Mentions w → s.Minted w := fun w hw =>
      inner.visible w (hfits.2.2.visible (occurs_of_mentions_ski hw))
    have basic := hfits.2.2.isBasic_ski
    rw [compile_lam, effort, ski, ← Nat.sub_sub]
    refine ⟨fun h => yields_eliminate (enough (by omega)) basic minted (by omega), fun h => ?_⟩
    by_cases hbody : b.effort ≤ budget
    · exact cutsOff_eliminate (enough hbody) basic minted (by omega)
    · exact (short (by omega)).eliminate

/-- By a budget that is not less than its effort a basic tower is compiled to its combination, and
by no other without a lambda being left. -/
theorem IsBasicTower.bracketForm {t : Term} (ht : t.IsBasicTower (n + 1)) (R : Rules)
    (limits : Budget) (hΓ : Γ.Minted s) (hfits : t.Fits Γ s) {maxSteps : Amount} {b : Int}
    (hb : maxSteps.goal? = some b) :
    (t.effort ≤ b → Yields (bracketForm R limits maxSteps t) s fun u _ =>
        u.Forms t.ski ∧ u.hasLambda = false) ∧
      (s.Sane → ∀ u s', bracketForm R limits maxSteps t s = .ok u s' → u.hasLambda = false →
        t.effort ≤ b) := by
  obtain ⟨v, c, rfl, hc⟩ := ht.exists_lam
  have allowed : Engine.goal maxSteps = pure b := by rw [Engine.goal, hb]
  have unfolded : Term.bracketForm R limits maxSteps (lam v c) = (do
      let out ← compile R limits [] b.toNat (lam v c)
      return out.value) := by
    simp [Term.bracketForm, compileWithin, isBudgeted, allowed]
  have positive : 0 < (lam v c).effort :=
    Nat.lt_of_lt_of_le (Combination.eliminations_pos v c.ski) (Nat.le_add_left _ _)
  obtain ⟨enough, short⟩ := ht.compiled R limits [] hΓ hfits b.toNat
  rw [unfolded]
  constructor
  · intro hle
    apply (enough (by omega)).bind
    rintro o s₁ - ⟨hform, -⟩
    exact .pure ⟨hform, hform.hasLambda_eq_false hfits.isBasic_ski⟩
  · intro hs u s' hu finished
    by_contra hlt
    obtain ⟨o, s₁, ho, hu⟩ := Engine.bind_ok_iff.mp hu
    cases hu
    have cut := short (by omega) hs o s' ho
    rw [cut.lambda] at finished
    cases finished

/-! ### The abstraction -/

/-- The abstraction of a basic combination over variables is a basic tower, which takes an argument
for each. -/
theorem yields_lambdaOver {vs : List Variable} (hne : vs ≠ [])
    (names : (vs.map Variable.name).Nodup) (hΓ : Γ.Minted s) (hvs : ∀ v ∈ vs, v ∈ Γ.visible)
    {body : Term} (hfits : body.Fits Γ s) (hbody : body.IsCombination)
    (hbasic : IsBasic body.combination) :
    Yields (lambdaOver R true (vs.map var) body) s fun u s' =>
      u.IsTower vs.length ∧ u.IsBasicTower vs.length ∧ u.Fits Γ s' := by
  have minted : ∀ v ∈ vs, s.Minted v := fun v hv => hΓ.visible v (hvs v hv)
  have seen := hfits.mono (Γ.below_seeAll vs)
  rw [lambdaOver_eq_abstractAll hne names]
  apply ((yields_abstractAll vs hΓ minted seen hbody).ensured
    (ensures_abstractAll (η := True) R vs hΓ minted (.self seen))).imp
  rintro u s' - ⟨⟨tower, happlied⟩, hmeant⟩
  have enough : vs.length ≤ (vs.map Combination.var).length := by rw [List.length_map]
  have basic : IsBasic (u.applied .var (vs.map .var)) := by
    rw [happlied .var _ enough, List.drop_eq_nil_of_le (by rw [List.length_map])]
    refine hbasic.subst fun v _ => ?_
    obtain ⟨w, hw⟩ := exists_passed_eq_var (σ := .var) (fun v => ⟨v, rfl⟩) vs vs v
    rw [hw]
    trivial
  exact ⟨tower, tower.isBasicTower enough basic, hmeant.fits⟩

end Term

/-! ### Workspaces -/

namespace Workspace

variable {w w₁ w₂ w₃ : Workspace} {vs : List Variable} {body : Term}

/-- Whether one term behaves as another on some number of arguments or more, whatever a caller has
done before the runs. -/
def BehavesAs (w : Workspace) (n : Nat) (f g : Term) : Prop :=
  ∀ w₂ w₃ args, ReflTransGen Move w w₂ → ReflTransGen Move w w₃ → (∀ a ∈ args, w₂.AtHand a) →
    (∀ a ∈ args, w₃.AtHand a) → n ≤ args.length → ∀ R₂ R₃, RunsAlike w₂ R₂ f args w₃ R₃ g args

private theorem minted_ofFree (s : Store) : (Scope.ofFree { v | s.Minted v }).Minted s :=
  ⟨fun _ hv => hv, fun _ hv => hv⟩

/-- A basic tower at hand that was made of variables that had been asked for in a workspace. -/
private structure Abstracted (w : Workspace) (n : Nat) (L : Term) (w₁ : Workspace) : Prop where
  minted : ∀ v ∈ w.free, w.store.Minted v
  later : w.store ≤ w₁.store
  free : w₁.free = w.free
  mem : L ∈ w₁.terms
  tower : L.IsTower n
  basic : L.IsBasicTower n
  fits : L.Fits (.ofFree { v | w.store.Minted v }) w₁.store

/-- What an abstraction is compiled to later behaves as the abstraction. -/
private theorem Abstracted.behavesAs {n : Nat} {L out : Term} {s₂ : Store} {w' : Workspace}
    (hL : Abstracted w n L w') (later : Later w' w₁) (hs₂ : w₁.store ≤ s₂) {p : Twins}
    (hp : Mirrors p ⟨s₂, w₁.free, out :: w₁.terms⟩) (hout : out.Forms L.ski) :
    BehavesAs ⟨s₂, w₁.free, out :: w₁.terms⟩ n out L := by
  intro w₂ w₃ args hw₂ hw₃ hargs₂ hargs₃ hlen R₂ R₃
  obtain ⟨p₂, -, hp₂⟩ := hp.moves hw₂
  obtain ⟨p₃, -, hp₃⟩ := hp.moves hw₃
  have known : ∀ v ∈ w₁.free, s₂.Minted v := by
    intro v hv
    rcases later.free v hv with hv | ⟨-, hv⟩
    · exact (hL.minted v (hL.free ▸ hv)).mono
        (Store.le_trans (Store.le_trans hL.later later.store) hs₂)
    · exact hv.mono hs₂
  have outFits : out.Fits (.ofFree { v | s₂.Minted v }) s₂ := by
    refine hout.isCombination.fits fun v hv => ?_
    rw [Term.occurs_iff_mentions hout.isCombination, hout.combination] at hv
    have minted : w.store.Minted v := hL.fits.visible (Term.occurs_of_mentions_ski hv)
    exact minted.mono (Store.le_trans (Store.le_trans hL.later later.store) hs₂)
  have fed₂ := supplied_of_atHand hp₂ (hp.later hw₂) known s₂.le_refl hargs₂ (Nat.zero_le _)
    List.mem_cons_self hout.isCombination outFits
  have compiled : Later w₁ ⟨s₂, w₁.free, out :: w₁.terms⟩ :=
    ⟨hs₂, fun _ ht => List.mem_cons_of_mem _ ht, fun _ hv => .inl hv⟩
  have fed₃ := supplied_of_atHand hp₃ (later.trans (compiled.trans (hp.later hw₃)))
    (fun v hv => hL.minted v (hL.free ▸ hv)) hL.later hargs₃ hlen hL.mem hL.tower hL.fits
  refine hp₂.runsAlike hp₃ fed₂ fed₃ ?_ R₂ R₃
  have enough : n ≤ (Term.combinations args).length := by
    rwa [Term.combinations_eq_map, List.length_map]
  have steps := hL.basic.steps_ski .var enough
  rw [hout.isCombination.applied_eq, hout.combination]
  exact Combination.connected_of_steps steps

/-- The abstraction of a basic combination over variables at hand. -/
private theorem Reachable.exists_abstracted (h : w.Reachable) (hne : vs ≠ [])
    (names : (vs.map Variable.name).Nodup) (hvs : ∀ v ∈ vs, v ∈ w.free) (hbody : w.AtHand body)
    (basic : Term.IsBasic body.combination) (R : Rules) :
    ∃ L s₁ p₁, Term.lambdaOver R true (vs.map .var) body w.store = .ok L s₁ ∧
      Mirrors p₁ ⟨s₁, w.free, L :: w.terms⟩ ∧
      Abstracted w vs.length L ⟨s₁, w.free, L :: w.terms⟩ := by
  have minted := h.minted
  obtain ⟨p, hp⟩ := h.exists_twins
  have fits : body.Fits (.ofFree { v | w.store.Minted v }) w.store :=
    hbody.isCombination.fits fun v hv => minted v (hbody.free v hv)
  obtain ⟨L, s₁, made, -, hs₁, tower, basicTower, hfits⟩ :=
    Term.yields_lambdaOver (R := R) hne names (minted_ofFree w.store)
      (fun v hv => minted v (hvs v hv)) fits hbody.isCombination basic h.sane
  have known := Term.recordedAll_iff.mp hp.known body hbody.mem
  have records := Term.records_lambdaOver (.of_pure R p) true (vs.map .var)
    (known.isPure hbody.isCombination)
  obtain ⟨p₁, later₁, hleft, hright, hrec⟩ := (hp.outcome records).1 _ _ made
  exact ⟨L, s₁, p₁, made,
    ⟨hleft, hright, hrec.imp fun _ _ => trivial, hp.known.later later₁⟩,
    ⟨minted, hs₁, rfl, List.mem_cons_self, tower, basicTower, hfits⟩⟩

/-- An abstraction over some variables of what is put together from variables, `S`, `K` and `I` is
made. By every budget that is not less than its effort it is compiled without a lambda being left,
and by whatever budget no lambda is left, what it is compiled to behaves as it does on arguments for
the variables. -/
theorem Reachable.bracketForm_behaves (h : w.Reachable) (hne : vs ≠ [])
    (names : (vs.map Variable.name).Nodup) (hvs : ∀ v ∈ vs, v ∈ w.free) (hbody : w.AtHand body)
    (basic : Term.IsBasic body.combination) (R : Rules) :
    ∃ L s₁, Term.lambdaOver R true (vs.map .var) body w.store = .ok L s₁ ∧
      ∀ w₁, ReflTransGen Move ⟨s₁, w.free, L :: w.terms⟩ w₁ → ∀ (R₁ : Rules) (limits : Budget)
        (maxSteps : Amount) (b : Int), maxSteps.goal? = some b →
          (L.effort ≤ b → ∃ out s₂, L.bracketForm R₁ limits maxSteps w₁.store = .ok out s₂ ∧
            out.hasLambda = false) ∧
          ∀ out s₂, L.bracketForm R₁ limits maxSteps w₁.store = .ok out s₂ →
            out.hasLambda = false →
              BehavesAs ⟨s₂, w₁.free, out :: w₁.terms⟩ vs.length out L := by
  obtain ⟨L, s₁, p, made, hp, hL⟩ := h.exists_abstracted hne names hvs hbody basic R
  refine ⟨L, s₁, made, fun w₁ hw₁ R₁ limits maxSteps b hb => ?_⟩
  obtain ⟨p₁, -, hp₁⟩ := hp.moves hw₁
  have later := hp.later hw₁
  have sane : w₁.store.Sane := hp₁.left ▸ .left p₁
  have scope : (Scope.ofFree { v | w.store.Minted v }).Minted w₁.store :=
    (minted_ofFree w.store).later (Store.le_trans hL.later later.store)
  have fits := hL.fits.later later.store
  obtain ⟨n, hn⟩ : ∃ n, vs.length = n + 1 :=
    Nat.exists_eq_succ_of_ne_zero (mt List.length_eq_zero_iff.mp hne)
  obtain ⟨enough, finishes⟩ :=
    (hn ▸ hL.basic).bracketForm R₁ limits scope fits hb
  refine ⟨fun hle => ?_, fun out s₂ hout finished => ?_⟩
  · obtain ⟨out, s₂, hout, -, -, -, finished⟩ := enough hle sane
    exact ⟨out, s₂, hout, finished⟩
  · obtain ⟨-, hs₂, hform, -⟩ :=
      (enough (finishes sane out s₂ hout finished)).of_ok sane hout
    have known := Term.recordedAll_iff.mp hp₁.known L (later.terms L hL.mem)
    have records := Term.records_bracketForm (fun _ => Native.isPure_of_isBase) (.of_pure R₁ p₁)
      limits maxSteps (known.isPure_of_fits fits)
    obtain ⟨p₂, later₂, hleft, hright, hrec⟩ := (hp₁.outcome records).1 _ _ hout
    exact hL.behavesAs later hs₂
      ⟨hleft, hright, hrec.imp fun _ _ => trivial, hp₁.known.later later₂⟩ hform

/-! ### Two arguments in the other order -/

namespace Swapping

/-- Variables that were asked for. -/
def x : Variable := ⟨"x", 1⟩
def y : Variable := ⟨"y", 2⟩

/-- The application `y x`. -/
def flipped : Term := .app 0 (.var y) [.var x]

/-- What is at hand after the application was made. -/
def workspace : Workspace := ⟨⟨3, 1, ∅⟩, [y, x], [flipped, .var y, .var x]⟩

theorem reachable : workspace.Reachable := by
  have minted : Workspace.Reachable ⟨⟨3, 0, ∅⟩, [y, x], [.var y, .var x]⟩ :=
    (Relation.ReflTransGen.single (.mint (v := x) rfl)).tail (.mint (v := y) rfl)
  have applied : (Term.var y).apply Rules.undeclared [.var x] ⟨3, 0, ∅⟩ =
      .ok flipped ⟨3, 1, ∅⟩ := rfl
  exact minted.apply (Rules.steadyOver_undeclared _) (by simp) applied

theorem atHand : workspace.AtHand flipped := by
  refine ⟨List.mem_cons_self, ⟨trivial, List.cons_ne_nil _ _, trivial, trivial⟩, fun v hv => ?_⟩
  have either : y = v ∨ x = v := by simpa [flipped, Term.occurs, Term.occursAny] using hv
  rcases either with rfl | rfl <;> decide

end Swapping

/-- What `λ x y, y x` is compiled to is run on two variables as the abstraction is. -/
theorem bracketForm_behaves_swapping : Swapping.workspace.Reachable ∧
    ∃ L s₁ out s₂, Term.lambdaOver Rules.undeclared true [.var Swapping.x, .var Swapping.y]
        Swapping.flipped Swapping.workspace.store = .ok L s₁ ∧
      L.bracketForm Rules.undeclared ⟨.number 1, .number 4⟩ (.number L.effort) s₁ =
        .ok out s₂ ∧ out.hasLambda = false ∧
      let w : Workspace := ⟨s₂, Swapping.workspace.free, out :: L :: Swapping.workspace.terms⟩
      RunsAlike w Rules.undeclared out [.var Swapping.x, .var Swapping.y] w Rules.undeclared L
        [.var Swapping.x, .var Swapping.y] := by
  have asked : ∀ v ∈ [Swapping.x, Swapping.y], v ∈ Swapping.workspace.free := by decide
  obtain ⟨L, s₁, made, compiled⟩ := Swapping.reachable.bracketForm_behaves
    (List.cons_ne_nil _ _) (by decide) asked Swapping.atHand ⟨trivial, trivial⟩ Rules.undeclared
  obtain ⟨enough, behaves⟩ :=
    compiled _ .refl Rules.undeclared ⟨.number 1, .number 4⟩ (.number L.effort) L.effort rfl
  obtain ⟨out, s₂, hout, finished⟩ := enough (Int.le_refl _)
  have arguments : ∀ a ∈ [Term.var Swapping.x, .var Swapping.y],
      AtHand ⟨s₂, Swapping.workspace.free, out :: L :: Swapping.workspace.terms⟩ a := by
    rw [List.forall_mem_cons, List.forall_mem_singleton]
    constructor <;> exact .var (by simp [Swapping.workspace]) (by simp [Swapping.workspace])
  exact ⟨Swapping.reachable, L, s₁, out, s₂, made, hout, finished,
    behaves out s₂ hout finished _ _ _ .refl .refl arguments arguments (Nat.le_refl 2) _ _⟩

end Workspace

end Combinatory
