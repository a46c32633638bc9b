import Combinatory.Proofs.Meaning.Reduction
import Combinatory.Proofs.Nameless.Substitution
import Combinatory.Proofs.Settled.Reduction

/-!
# Runs of skeletons

Every rule computes the skeleton of what it gives, and the leftmost outermost strategy computes the
step of the skeleton (`computes_leftmost`). As a step of the engine gives what the strategy gives,
whatever is remembered, a run of a term without names computes the run of its skeleton
(`computes_run`). A step of such a term always costs one, since there is no name to open.
-/

namespace Combinatory

open Engine (Computes)

variable {R : Rules} {Γ : Scope} {s s' : Store} {e : Places}

/-! ### Rules -/

namespace Term

/-- What may come of a rule: a term with the skeleton that was computed, or nothing. -/
abbrev ShapedAny (e : Places) (o : Option Skeleton) (o' : Option Term) (s : Store) : Prop :=
  Option.Rel (Shaped e · · s) o o'

theorem ShapedAny.later {o : Option Skeleton} {o' : Option Term} (h : ShapedAny e o o' s)
    (hs : s ≤ s') : ShapedAny e o o' s' := by
  cases h with
  | none => exact .none
  | some h => exact .some (h.later hs)

/-- A term that is computed may be what comes of a rule. -/
theorem computes_some {x : Engine Term} {r : Except Failure Skeleton}
    (hx : Computes x s r (Shaped e)) :
    Computes (do return some (← x)) s (do return some (← r)) (ShapedAny e) := by
  apply hx.bind
  intro y t s₁ _ ht
  exact .pure (.some ht)

end Term

namespace Native

open Term (Shaped ShapedAll ShapedAny computes_some)

private theorem demandTerms_of_regular {U : Prop} {V : Set Variable} (parts : List Term)
    (h : Term.RegularAll U V s parts) : demandTerms parts = pure () := by
  rw [demandTerms, h.firstLiteral_eq_none]

theorem computes_iterate (n : Nat) {f t : Term} {x y : Skeleton} (hf : Shaped e x f s)
    (ht : Shaped e y t s) : Computes (iterate R f t n) s (x.iterate y n) (Shaped e) := by
  induction n generalizing s t y with
  | zero => exact .pure ht
  | succ n ih =>
    unfold iterate Skeleton.iterate
    apply (Term.computes_apply hf (.cons ht .nil)).bind
    intro z u s₁ hs hu
    exact ih (hf.later hs) hu

/-- The rule of a combinator computes what it makes of the skeletons. -/
theorem computes_contract {c : Native} (hc : c.isPure = true) {args : List Term}
    {xs : List Skeleton} (hargs : ShapedAll e xs args s) :
    Computes (c.contract R args) s (Skeleton.contract c xs) (ShapedAny e) := by
  cases c with
  | I =>
    cases hargs with
    | nil => exact .pure .none
    | cons hx _ => exact .pure (.some hx)
  | K =>
    obtain _ | ⟨hx, _ | ⟨_, _⟩⟩ := hargs
    · exact .pure .none
    · exact .pure .none
    · exact .pure (.some hx)
  | S =>
    obtain _ | ⟨hx, _ | ⟨hy, _ | ⟨hz, _⟩⟩⟩ := hargs
    · exact .pure .none
    · exact .pure .none
    · exact .pure .none
    · unfold contract Skeleton.contract
      dsimp only
      rw [demandTerms_of_regular [_, _] ⟨hx.plain, hy.plain, trivial⟩, pure_bind]
      apply (Term.computes_apply hy (.cons hz .nil)).bind
      intro yz u s₁ hs hu
      exact computes_some (Term.computes_apply (hx.later hs) (.cons (hz.later hs) (.cons hu .nil)))
  | B =>
    obtain _ | ⟨hx, _ | ⟨hy, _ | ⟨hz, _⟩⟩⟩ := hargs
    · exact .pure .none
    · exact .pure .none
    · exact .pure .none
    · unfold contract Skeleton.contract
      dsimp only
      rw [demandTerms_of_regular [_, _] ⟨hx.plain, hy.plain, trivial⟩, pure_bind]
      apply (Term.computes_apply hy (.cons hz .nil)).bind
      intro yz u s₁ hs hu
      exact computes_some (Term.computes_apply (hx.later hs) (.cons hu .nil))
  | C =>
    obtain _ | ⟨hx, _ | ⟨hy, _ | ⟨hz, _⟩⟩⟩ := hargs
    · exact .pure .none
    · exact .pure .none
    · exact .pure .none
    · unfold contract Skeleton.contract
      dsimp only
      rw [demandTerms_of_regular [_] ⟨hx.plain, trivial⟩, pure_bind]
      exact computes_some (Term.computes_apply hx (.cons hz (.cons hy .nil)))
  | W =>
    obtain _ | ⟨hx, _ | ⟨hy, _⟩⟩ := hargs
    · exact .pure .none
    · exact .pure .none
    · unfold contract Skeleton.contract
      dsimp only
      rw [demandTerms_of_regular [_] ⟨hx.plain, trivial⟩, pure_bind]
      exact computes_some (Term.computes_apply hx (.cons hy (.cons hy .nil)))
  | successor =>
    obtain _ | ⟨hn, _ | ⟨hf, _ | ⟨hx, _⟩⟩⟩ := hargs
    · exact .pure .none
    · exact .pure .none
    · exact .pure .none
    · unfold contract Skeleton.contract
      dsimp only
      rw [demandTerms_of_regular [_, _] ⟨hf.plain, hn.plain, trivial⟩, pure_bind]
      apply (Term.computes_apply hn (.cons hf (.cons hx .nil))).bind
      intro nfx u s₁ hs hu
      exact computes_some (Term.computes_apply (hf.later hs) (.cons hu .nil))
  | numeral n =>
    obtain _ | ⟨hf, _ | ⟨hx, _⟩⟩ := hargs
    · exact .pure .none
    · exact .pure .none
    · exact computes_some (computes_iterate n hf hx)
  | toNumeral | lambdaMark | user u => cases hc

end Native

namespace Term

/-- Firing a head computes what the skeleton of the head makes of those of the arguments. -/
theorem computes_reduce (hΓ : Γ.Sealed s) {head : Term} {args : List Term} {x : Skeleton}
    {xs : List Skeleton} (hhead : Shaped e x head s) (hargs : ShapedAll e xs args s)
    (hfits : head.Fits Γ s) (hafits : FitsAll Γ s args) :
    Computes (reduce R head args) s (x.reduce xs) (ShapedAny e) := by
  obtain ⟨hplain, rfl⟩ := hhead
  cases head with
  | native c =>
    rw [Term.skeleton]
    unfold reduce Skeleton.reduce
    apply (Native.computes_contract hfits hargs).bind
    rintro _ _ s₁ hs (hx | _)
    · rename_i x t
      have rest : ShapedAll e (xs.drop c.arity) (args.drop c.arity) s₁ :=
        List.forall₂_drop c.arity (hargs.later hs)
      cases t with
      | foreign y => exact hx.plain.elim
      | _ => exact computes_some (computes_apply hx rest)
    · exact .pure .none
  | lam v b =>
    rw [Term.skeleton]
    unfold reduce Skeleton.reduce
    cases hargs with
    | nil => exact .pure .none
    | cons ha has =>
      obtain ⟨ha, rfl⟩ := ha
      apply (computes_instantiate hΓ hplain ha hfits hafits.1).bind
      intro x u s₁ hs hu
      exact computes_some (computes_apply hu (ShapedAll.later has hs))
  | foreign x => exact hplain.elim
  | named info d => exact hplain.1.elim
  | var v =>
    unfold reduce
    exact .pure .none
  | app n h as =>
    unfold reduce
    exact .pure .none

/-! ### Steps -/

/-- What may come of a step: a term with the skeleton that was computed, at the cost of one, or
nothing. -/
abbrev ShapedStep (e : Places) (o : Option Skeleton) (o' : Option Stepped) (s : Store) : Prop :=
  Option.Rel (fun x r => Shaped e x r.term s ∧ r.cost = 1) o o'

/-- What may come of a step of one of some terms. -/
abbrev ShapedStepAmong (e : Places) (o : Option (List Skeleton)) (o' : Option SteppedAmong)
    (s : Store) : Prop :=
  Option.Rel (fun xs r => ShapedAll e xs r.terms s ∧ r.cost = 1) o o'

mutual

/-- The strategy computes the step of the skeleton. -/
theorem computes_leftmost : ∀ (t : Term) {s : Store}, Γ.Sealed s → t.Regular False ∅ s →
    t.Fits Γ s → Computes (leftmost R t) s (t.skeleton e).step (ShapedStep e)
  | var v, s, _, _, _ => by
    unfold leftmost
    exact .pure .none
  | native c, s, _, _, _ => by
    unfold leftmost
    exact .pure .none
  | foreign x, s, _, ht, _ => ht.elim
  | named info d, s, _, ht, _ => ht.1.elim
  | lam v b, s, _, _, _ => by
    unfold leftmost
    exact .pure .none
  | app n h as, s, hΓ, ⟨_, hh, has⟩, ⟨_, hfits, hafits⟩ => by
    unfold leftmost
    rw [Term.skeleton, Skeleton.step]
    apply (computes_reduce hΓ (hh.shaped e) (has.shaped e) hfits hafits).bind
    rintro _ _ s₁ hs₁ (ht | _)
    · exact .pure (.some ⟨ht, rfl⟩)
    · apply (computes_leftmost h (hΓ.later hs₁) (hh.later hs₁) (hfits.later hs₁)).bind
      rintro _ _ s₂ hs₂ (⟨hr, hcost⟩ | _)
      · have args := (has.shaped e).later (Store.le_trans hs₁ hs₂)
        apply (computes_apply hr args).bind
        intro x u s₃ _ hu
        exact .pure (.some ⟨hu, hcost⟩)
      · have hs := Store.le_trans hs₁ hs₂
        apply (computes_leftmostAmong as (hΓ.later hs) (has.later hs) (hafits.later hs)).bind
        rintro _ _ s₃ hs₃ (⟨hr, hcost⟩ | _)
        · have head := (hh.shaped e).later (Store.le_trans hs hs₃)
          apply (computes_apply head hr).bind
          intro x u s₄ _ hu
          exact .pure (.some ⟨hu, hcost⟩)
        · exact .pure .none

theorem computes_leftmostAmong : ∀ (as : List Term) {s : Store}, Γ.Sealed s →
    RegularAll False ∅ s as → FitsAll Γ s as →
      Computes (leftmostAmong R as) s (Skeleton.stepAmong (skeletons e as)) (ShapedStepAmong e)
  | [], s, _, _, _ => by
    unfold leftmostAmong
    exact .pure .none
  | a :: as, s, hΓ, has, hafits => by
    unfold leftmostAmong
    rw [skeletons, Skeleton.stepAmong]
    apply (computes_leftmost a hΓ has.1 hafits.1).bind
    rintro _ _ s₁ hs₁ (⟨hr, hcost⟩ | _)
    · exact .pure (.some ⟨.cons hr ((has.2.shaped e).later hs₁), hcost⟩)
    · apply (computes_leftmostAmong as (hΓ.later hs₁) (has.2.later hs₁) (hafits.2.later hs₁)).bind
      rintro _ _ s₂ hs₂ (⟨hr, hcost⟩ | _)
      · exact .pure (.some ⟨.cons ((has.1.shaped e).later (Store.le_trans hs₁ hs₂)) hr, hcost⟩)
      · exact .pure .none

end

/-! ### Runs -/

/-- A term without names at hand: the engine remembers well, and no lambda in the term binds a free
variable. -/
structure Held (Γ : Scope) (e : Places) (x : Skeleton) (t : Term) (p : Twins) : Prop where
  scope : Γ.Sealed p.left
  shaped : Shaped e x t p.left
  fits : t.Fits Γ p.left
  recorded : t.Recorded (fun c => c.isPure = true) p.heap

theorem Held.later {x : Skeleton} {t : Term} {p p' : Twins} (h : Held Γ e x t p) (hp : p ≤ p') :
    Held Γ e x t p' where
  scope := h.scope.later hp.nextVariable
  shaped := h.shaped.later hp.nextVariable
  fits := h.fits.later hp.nextVariable
  recorded := h.recorded.later hp

variable {x : Skeleton} {t : Term} {p : Twins}

/-- A step computes the step of the skeleton, whatever is remembered. -/
theorem computes_step (ht : Held Γ e x t p) :
    Computes (step R t) p.left x.step fun o r s' => ∃ p', p ≤ p' ∧ p'.left = s' ∧
      Option.Rel (fun y r => Held Γ e y r.term p' ∧ r.cost = 1) o r := by
  obtain ⟨hΓ, ⟨hplain, rfl⟩, hfits, hrec⟩ := ht
  have right : p.left ≤ p.right := Int.le_of_eq p.nextVariable.symm
  have found := Computes.of_alike (alike_step_leftmost (.of_pure R p) hrec)
    (computes_leftmost (R := R) (e := e) t (hΓ.later right) (hplain.later right)
      (hfits.later right))
  apply (found.ensured (ensures_step (η := True) R t hΓ hfits)).imp
  rintro o r _ - ⟨⟨p', hp, rfl, hstep, hscan⟩, hmeans⟩
  refine ⟨p', hp, rfl, ?_⟩
  have left : p'.right ≤ p'.left := Int.le_of_eq p'.nextVariable
  cases hstep with
  | none => exact .none
  | some h =>
    refine .some ⟨⟨hΓ.later hp.nextVariable, h.1.later left, ?_, ?_⟩, h.2⟩
    · exact (hmeans _ rfl).fits
    · exact hscan.recorded _ rfl

/-- How a run ends that follows the course of a skeleton. -/
structure EndsAs (Γ : Scope) (e : Places) (c : Skeleton.Course) (out : Run) (p : Twins) : Prop where
  term : Held Γ e c.result out.term p
  steps : out.steps = c.steps
  final : out.final = c.final

private theorem computes_running {budget : Int} {left steps patience : Nat}
    (hleft : left = (budget - steps).toNat) (ht : Held Γ e x t p) :
    Computes (running R budget t steps patience) p.left (x.runFrom steps left)
      fun c out s' => ∃ p', p ≤ p' ∧ p'.left = s' ∧ EndsAs Γ e c out p' := by
  induction left generalizing t x steps p with
  | zero =>
    rw [running_eq, if_neg (by omega)]
    unfold Skeleton.runFrom
    apply (computes_step ht).bind
    rintro o r _ - ⟨p', hp, rfl, hstep⟩
    refine .pure ⟨p', hp, rfl, ht.later hp, rfl, ?_⟩
    cases hstep <;> rfl
  | succ left ih =>
    rw [running_eq, if_pos (by omega)]
    unfold Skeleton.runFrom
    apply (computes_step ht).bind
    rintro o r _ - ⟨p', hp, rfl, hstep⟩
    cases hstep with
    | none => exact .pure ⟨p', hp, rfl, ht.later hp, rfl, rfl⟩
    | some h =>
      obtain ⟨held, hcost⟩ := h
      dsimp only
      rw [hcost, if_neg Nat.one_ne_zero]
      apply (ih (by omega) held).imp
      rintro c out _ - ⟨p'', hp', rfl, hend⟩
      exact ⟨p'', Twins.le_trans hp hp', rfl, hend⟩

/-- A run computes the run of the skeleton. -/
theorem computes_run (budget : Amount) (ht : Held Γ e x t p) :
    Computes (run R budget t [] false) p.left (x.run budget)
      fun c out s' => ∃ p', p ≤ p' ∧ p'.left = s' ∧ EndsAs Γ e c out p' := by
  unfold run Skeleton.run Engine.bound
  rw [apply_nil, pure_bind]
  cases budget.bound? with
  | none => exact .throw
  | some n =>
    simp only [pure_bind, Bool.false_and, Bool.false_eq_true, if_false]
    have left : n.toNat = (n - (0 : Nat)).toNat := by simp
    exact (computes_running left ht).map (f := id)

end Term

end Combinatory
