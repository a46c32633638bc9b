import Combinatory.Proofs.Meaning.Substitution
import Combinatory.Run

/-!
# Reduction keeps the meaning

Every rule of a combinator, of a lambda and of a name gives a term that means the same as the
application it fires on (`ensures_reduce`). So does a step at any place (`ensures_step`), and, step
after step, a run and every term of a walk. What is remembered of normal forms only makes steps stop
earlier, so it plays no part.
-/

namespace Combinatory

open LambdaTerm (Converts)
open Engine (Ensures)

variable {η : Prop} {Γ : Scope} {s : Store}

namespace Native

/-- Repeated application means repeated application. -/
private theorem ensures_iterate (R : Rules) {f x : Term} {F X : LambdaTerm} (n : Nat)
    (hf : Means η Γ s f F) (hx : Means η Γ s x X) :
    Ensures (iterate R f x n) s fun u s' => Means η Γ s' u (F.iterate n X) := by
  induction n generalizing s x X with
  | zero =>
    unfold iterate
    exact .pure hx
  | succ n ih =>
    unfold iterate
    apply (Term.ensures_apply R hf (.cons hx .nil)).bind
    intro y s₁ hs₁ hy
    exact ih (hf.later hs₁) hy

/-- Terms are demanded in vain: there is no literal among those that fit a scope. -/
private theorem demandTerms_eq_pure (parts : List Term) (h : Term.FitsAll Γ s parts) :
    demandTerms parts = pure () := by
  rw [demandTerms, h.firstLiteral_eq_none]

/-- What a rule may answer for a lambda term: a term that means it, or nothing. -/
def Gives (η : Prop) (Γ : Scope) (T : LambdaTerm) (o : Option Term) (s : Store) : Prop :=
  ∀ u, o = some u → Means η Γ s u T

private theorem gives_none {T : LambdaTerm} : Gives η Γ T none s := by
  rintro _ ⟨⟩

private theorem gives_some {u : Term} {T : LambdaTerm} (h : Means η Γ s u T) :
    Gives η Γ T (some u) s := by
  rintro _ ⟨⟩
  exact h

/-- A result that is converted to what was asked for answers it. -/
private theorem ensures_gives {x : Engine Term} {T U : LambdaTerm}
    (hx : Ensures x s fun u s' => Means η Γ s' u U) (h : Converts η T U) :
    Ensures (do return some (← x)) s (Gives η Γ T) := by
  refine hx.bind ?_
  intro u s₁ _ hu
  exact .pure (gives_some (hu.trans h.symm))

/-- The rule of a combinator gives what the combinator means on its arguments. -/
theorem ensures_contract (R : Rules) {c : Native} (hc : c.isPure = true) {args : List Term}
    (hargs : Term.FitsAll Γ s args) :
    Ensures (c.contract R args) s
      (Gives η Γ (c.reading.apps (Term.readings (args.take c.arity)))) := by
  unfold contract
  split
  · next x rest => exact .pure (gives_some ((Means.self hargs.1).trans (converts_I _).symm))
  · next x y rest => exact .pure (gives_some ((Means.self hargs.1).trans (converts_K _ _).symm))
  · next x y z rest =>
    obtain ⟨hx, hy, hz, -⟩ := hargs
    rw [demandTerms_eq_pure [x, y] ⟨hx, hy, trivial⟩, pure_bind]
    apply (Term.ensures_apply (η := η) R (.self hy) (.cons (.self hz) .nil)).bind
    intro yz s₁ hs₁ hyz
    exact ensures_gives (Term.ensures_apply R (.self (hx.later hs₁))
      (.cons (.self (hz.later hs₁)) (.cons hyz .nil))) (converts_S _ _ _)
  · next x y z rest =>
    obtain ⟨hx, hy, hz, -⟩ := hargs
    rw [demandTerms_eq_pure [x, y] ⟨hx, hy, trivial⟩, pure_bind]
    apply (Term.ensures_apply (η := η) R (.self hy) (.cons (.self hz) .nil)).bind
    intro yz s₁ hs₁ hyz
    exact ensures_gives (Term.ensures_apply R (.self (hx.later hs₁)) (.cons hyz .nil))
      (converts_B _ _ _)
  · next x y z rest =>
    obtain ⟨hx, hy, hz, -⟩ := hargs
    rw [demandTerms_eq_pure [x] ⟨hx, trivial⟩, pure_bind]
    exact ensures_gives (Term.ensures_apply R (.self hx) (.self ⟨hz, hy, trivial⟩))
      (converts_C _ _ _)
  · next x y rest =>
    obtain ⟨hx, hy, -⟩ := hargs
    rw [demandTerms_eq_pure [x] ⟨hx, trivial⟩, pure_bind]
    exact ensures_gives (Term.ensures_apply R (.self hx) (.self ⟨hy, hy, trivial⟩))
      (converts_W _ _)
  · next n f x rest =>
    obtain ⟨hn, hf, hx, -⟩ := hargs
    rw [demandTerms_eq_pure [f, n] ⟨hf, hn, trivial⟩, pure_bind]
    apply (Term.ensures_apply (η := η) R (.self hn)
      (.cons (.self hf) (.cons (.self hx) .nil))).bind
    intro nfx s₁ hs₁ hnfx
    exact ensures_gives (Term.ensures_apply R (.self (hf.later hs₁)) (.cons hnfx .nil))
      (converts_successor _ _ _)
  · next n f x rest =>
    obtain ⟨hf, hx, -⟩ := hargs
    exact ensures_gives (ensures_iterate R n (.self hf) (.self hx)) (converts_numeral _ _ _)
  · cases hc
  · cases hc
  · cases hc
  · exact .pure gives_none

end Native

namespace Term

open Native (Gives)

/-- Where a head fires on its arguments, the result means the application. -/
theorem ensures_reduce (R : Rules) (hΓ : Γ.Sealed s) {head : Term} {args : List Term}
    (hhead : head.Fits Γ s) (hargs : FitsAll Γ s args) :
    Ensures (reduce R head args) s (Gives η Γ (head.reading.apps (readings args))) := by
  unfold reduce
  split
  · next c =>
    apply (Native.ensures_contract (η := η) R hhead hargs).bind
    intro o s₁ hs₁ ho
    split
    · exact .throw
    · next t _ =>
      have rest : FitsAll Γ s (args.drop c.arity) :=
        fitsAll_iff.mpr fun a ha => fitsAll_iff.mp hargs a (List.mem_of_mem_drop ha)
      have whole : ((native c).reading.apps (readings (args.take c.arity))).apps
          (readings (args.drop c.arity)) = (native c).reading.apps (readings args) := by
        rw [← LambdaTerm.apps_append, ← readings_append, List.take_append_drop]
      exact Native.ensures_gives (ensures_apply R (ho t rfl) (.self (rest.later hs₁)))
        (.of_eq whole.symm)
    · exact .pure Native.gives_none
  · next v b =>
    split
    · exact .pure Native.gives_none
    · next a as =>
      apply (ensures_instantiate (η := η) R hΓ hhead hargs.1).bind
      intro t s₁ hs₁ ht
      exact Native.ensures_gives (ensures_apply R ht (.self (hargs.2.later hs₁)))
        ((Converts.abs_app v b.reading a.reading).apps_left _)
  · next info d =>
    apply (Engine.ensures_bound info.arity s).bind
    intro n s₁ hs₁ _
    split
    · exact .pure Native.gives_none
    · exact Native.ensures_gives
        (ensures_apply R (.self (hhead.2.later hs₁)) (.self (hargs.later hs₁))) (.refl _)
  · exact .pure Native.gives_none

mutual

/-- A step gives a term that means the same. -/
theorem ensures_step (R : Rules) : ∀ (t : Term) {s : Store}, Γ.Sealed s → t.Fits Γ s →
    Ensures (step R t) s fun o s' => ∀ r, o = some r → Means η Γ s' r.term t.reading
  | named info d, s, _, ht => by
    unfold step
    refine .pure ?_
    intro r hr
    split at hr
    · cases hr
      exact .self ht.2
    · cases hr
  | app n h as, s, hΓ, ht => by
    unfold step
    apply (Engine.ensures_isSettled n s).bind
    intro known s₁ hs₁ _
    split
    · exact .pure fun _ hr => nomatch hr
    · apply (ensures_reduce (η := η) R (hΓ.later hs₁) (ht.2.1.later hs₁) (ht.2.2.later hs₁)).bind
      intro o s₂ hs₂ ho
      have hs := Store.le_trans hs₁ hs₂
      cases o with
      | some t =>
        refine .pure ?_
        rintro _ ⟨⟩
        exact ho t rfl
      | none =>
        apply (ensures_step R h (hΓ.later hs) (ht.2.1.later hs)).bind
        intro o s₃ hs₃ ho
        have hs := Store.le_trans hs hs₃
        cases o with
        | some h' =>
          apply (ensures_apply R (ho h' rfl) (.self (ht.2.2.later hs))).bind
          intro u s₄ _ hu
          refine .pure ?_
          rintro _ ⟨⟩
          exact hu
        | none =>
          apply (ensures_stepAmong R as (hΓ.later hs) (ht.2.2.later hs)).bind
          intro o s₄ hs₄ ho
          have hs := Store.le_trans hs hs₄
          cases o with
          | some as' =>
            apply (ensures_apply R (.self (ht.2.1.later hs)) (ho as' rfl)).bind
            intro u s₅ _ hu
            refine .pure ?_
            rintro _ ⟨⟩
            exact hu
          | none =>
            apply (Engine.ensures_settle n s₄).bind
            intro _ s₅ _ _
            exact .pure fun _ hr => nomatch hr
  | var v, s, _, _ => by
    unfold step
    exact .pure fun _ hr => nomatch hr
  | native c, s, _, _ => by
    unfold step
    exact .pure fun _ hr => nomatch hr
  | foreign x, s, _, _ => by
    unfold step
    exact .pure fun _ hr => nomatch hr
  | lam v b, s, _, _ => by
    unfold step
    exact .pure fun _ hr => nomatch hr

/-- A step of one of some terms gives terms that mean the same. -/
theorem ensures_stepAmong (R : Rules) : ∀ (as : List Term) {s : Store}, Γ.Sealed s →
    FitsAll Γ s as → Ensures (stepAmong R as) s fun o s' =>
      ∀ r, o = some r → MeansAll η Γ s' r.terms (readings as)
  | [], s, _, _ => by
    unfold stepAmong
    exact .pure fun _ hr => nomatch hr
  | a :: as, s, hΓ, has => by
    unfold stepAmong
    apply (ensures_step R a hΓ has.1).bind
    intro o s₁ hs₁ ho
    cases o with
    | some a' =>
      refine .pure ?_
      rintro _ ⟨⟩
      exact .cons (ho a' rfl) (MeansAll.self (has.2.later hs₁))
    | none =>
      apply (ensures_stepAmong R as (hΓ.later hs₁) (has.2.later hs₁)).bind
      intro o s₂ hs₂ ho
      cases o with
      | some as' =>
        refine .pure ?_
        rintro _ ⟨⟩
        exact .cons (.self (has.1.later (Store.le_trans hs₁ hs₂))) (ho as' rfl)
      | none => exact .pure fun _ hr => nomatch hr

end

/-- A step keeps what a term means, and so does finding none. -/
private theorem ensures_step_of (R : Rules) (hΓ : Γ.Sealed s) {t : Term} {T : LambdaTerm}
    (ht : Means η Γ s t T) :
    Ensures (step R t) s fun o s' =>
      Γ.Sealed s' ∧ Means η Γ s' t T ∧ ∀ r, o = some r → Means η Γ s' r.term T := by
  apply (ensures_step (η := η) R t hΓ ht.fits).imp
  intro o s' hs ho
  exact ⟨hΓ.later hs, ht.later hs, fun r hr => (ho r hr).trans ht.converts⟩

/-! ### Runs and walks -/

/-- An application that is not in the table takes the step of its head. -/
theorem step_app_of_reduce {R : Rules} {h u : Term} {as : List Term} {n : Nat} {s s' : Store}
    (hn : n ∉ s.settled) (hr : reduce R h as s = .ok (some u) s') :
    step R (app n h as) s = .ok (some ⟨u, 1⟩) s' := by
  rw [step, Engine.bind_of_ok (Engine.isSettled_of_not_mem hn), if_neg Bool.false_ne_true,
    Engine.bind_of_ok hr]
  rfl

/-- A run goes on from what a step gives that must be paid for. -/
theorem runFrom_of_step {R : Rules} {budget : Int} {t : Term} {steps patience : Nat}
    {s s' : Store} {r : Stepped} (hb : (steps : Int) < budget)
    (h : step R t s = .ok (some r) s') (hc : r.cost ≠ 0) :
    runFrom R budget t steps patience s =
      runFrom R budget r.term (steps + r.cost) patience s' := by
  rw [runFrom, if_pos hb]
  split
  · next he =>
    rw [h] at he
    cases he
  · next he =>
    rw [h] at he
    cases he
  · next he =>
    rw [h] at he
    cases he
    exact dif_neg hc

/-- A run spends any budget where every step costs one and leads to where another one is taken. -/
theorem exists_runFrom_of_progress {R : Rules} {P : Term → Store → Prop}
    (progress : ∀ t s, P t s → ∃ u s', step R t s = .ok (some ⟨u, 1⟩) s' ∧ P u s')
    {t : Term} {s : Store} (h : P t s) (left steps patience : Nat) :
    ∃ u s' v, runFrom R ((steps + left : Nat) : Int) t steps patience s =
      .ok ⟨u, steps + left, false⟩ s' ∧ P v s' := by
  induction left generalizing t s steps with
  | zero =>
    obtain ⟨u, s', hstep, hu⟩ := progress t s h
    refine ⟨t, s', u, ?_, hu⟩
    rw [Nat.add_zero, runFrom, if_neg (Int.lt_irrefl _), hstep]
    rfl
  | succ left ih =>
    obtain ⟨u, s', hstep, hu⟩ := progress t s h
    obtain ⟨w, s'', v, hw, hv⟩ := ih hu (steps + 1)
    refine ⟨w, s'', v, ?_, hv⟩
    have total : steps + 1 + left = steps + (left + 1) := by omega
    rw [runFrom_of_step (by omega) hstep Nat.one_ne_zero, ← total]
    exact hw

/-- A run ends with a term that has no step, whatever the budget. -/
theorem runFrom_of_normal {R : Rules} {budget : Int} {t : Term} {steps patience : Nat}
    {s s' : Store} (h : step R t s = .ok none s') :
    runFrom R budget t steps patience s = .ok ⟨t, steps, true⟩ s' := by
  rw [runFrom]
  split
  · split
    · next he =>
      rw [h] at he
      cases he
    · next he =>
      rw [h] at he
      cases he
      rfl
    · next he =>
      rw [h] at he
      cases he
  · rw [h]
    rfl

private theorem ensures_runFrom (R : Rules) (budget : Int) {T : LambdaTerm} {t : Term}
    (steps patience : Nat) (hΓ : Γ.Sealed s) (ht : Means η Γ s t T) :
    Ensures (fun s => runFrom R budget t steps patience s) s fun out s' =>
      Means η Γ s' out.term T := by
  -- The computation is a constant here, so that the induction may change the store it runs over.
  suffices h : Ensures (fun _ => runFrom R budget t steps patience s) s fun out s' =>
      Means η Γ s' out.term T from ⟨h.ok, h.error⟩
  fun_induction runFrom R budget t steps patience s with
  | case1 t steps patience s hb e s₁ hstep
  | case6 t steps patience s hb e s₁ hstep =>
    exact .of_error rfl ((ensures_step_of R hΓ ht).error e s₁ hstep)
  | case4 t steps patience s hb r s₁ hstep =>
    exact .of_error rfl (ensures_step_of R hΓ ht _ _ hstep).1
  | case2 t steps patience s hb s₁ hstep
  | case7 t steps patience s hb o s₁ hstep =>
    obtain ⟨hs, -, ht, -⟩ := ensures_step_of R hΓ ht _ _ hstep
    exact .of_ok rfl hs ht
  | case3 t steps patience s hb r s₁ hstep hc hg ih
  | case5 t steps patience s hb r s₁ hstep hc ih =>
    obtain ⟨hs, hΓ, -, hr⟩ := ensures_step_of R hΓ ht _ _ hstep
    exact (ih hΓ (hr r rfl)).of_eq rfl hs

/-- A run on arguments gives a term that means the application. -/
theorem ensures_run (R : Rules) (budget : Amount) (strict : Bool) (hΓ : Γ.Sealed s) {t : Term}
    {args : List Term} {T : LambdaTerm} {Ts : List LambdaTerm} (ht : Means η Γ s t T)
    (hargs : MeansAll η Γ s args Ts) :
    Ensures (run R budget t args strict) s fun out s' => Means η Γ s' out.term (T.apps Ts) := by
  unfold run
  apply (ensures_apply R ht hargs).bind
  intro start s₁ hs₁ hstart
  apply (Engine.ensures_bound budget s₁).bind
  intro bound s₂ hs₂ _
  apply (ensures_runFrom R bound 0 patience (hΓ.later (Store.le_trans hs₁ hs₂))
    (hstart.later hs₂)).bind
  intro out s₃ _ hout
  split
  · exact .throw_bind
  · exact .pure hout

private theorem ensures_allows (budget : Option Amount) (steps : Nat) (s : Store) :
    Ensures (Walk.allows budget steps) s fun _ _ => True := by
  unfold Walk.allows
  split
  · exact .pure trivial
  · next n =>
    apply (Engine.ensures_bound n s).bind
    intro m s₁ _ _
    exact .pure trivial

/-- A step of a walk shows a term that means the same, and goes on from one. -/
private theorem ensures_walkNext (R : Rules) (budget : Option Amount) (hΓ : Γ.Sealed s)
    {T : LambdaTerm} {w : Walk} (hw : Means η Γ s w.term T) :
    Ensures (Walk.next R budget w) s fun o s' => ∀ r w', o = some (r, w') →
      Means η Γ s' r.term T ∧ Γ.Sealed s' ∧ Means η Γ s' w'.term T := by
  unfold Walk.next
  split
  · exact .pure fun _ _ h => nomatch h
  · apply (ensures_allows budget w.steps s).bind
    intro go s₁ hs₁ _
    split
    · exact .pure fun _ _ h => nomatch h
    · apply (ensures_step_of R (hΓ.later hs₁) (hw.later hs₁)).bind
      intro o s₂ _ ⟨hΓ, hw, ho⟩
      cases o with
      | none =>
        refine .pure ?_
        rintro _ _ ⟨⟩
        exact ⟨hw, hΓ, hw⟩
      | some r =>
        refine .pure ?_
        rintro _ _ ⟨⟩
        exact ⟨hw, hΓ, ho r rfl⟩

/-- A walk shows terms that mean the same. -/
theorem ensures_walk {β : Type} (R : Rules) (budget : Option Amount) (limit : Nat)
    (view : Run → Except Failure β) (hΓ : Γ.Sealed s) {t : Term} {T : LambdaTerm}
    (ht : Means η Γ s t T) :
    Ensures (walk R budget limit view t) s fun l s' =>
      ∀ y ∈ l.items, ∃ r, view r = .ok y ∧ Means η Γ s' r.term T := by
  have next (w : Walk) (s₁ : Store) (h : Γ.Sealed s₁ ∧ Means η Γ s₁ w.term T) :
      Ensures (Walk.next R budget w) s₁ fun o s₂ => ∀ r w', o = some (r, w') →
        Means η Γ s₂ r.term T ∧ Γ.Sealed s₂ ∧ Means η Γ s₂ w'.term T :=
    ensures_walkNext R budget h.1 h.2
  have start : Γ.Sealed s ∧ Means η Γ s (Walk.mk t 0 false).term T := ⟨hΓ, ht⟩
  exact Listing.ensures_unfold (fun _ _ _ hs hr => hr.later hs) next limit start

/-- Every term that a walk shows means the same. -/
theorem shows_of_mem_walk {β : Type} {R : Rules} {budget : Option Amount} {limit : Nat}
    {view : Run → Except Failure β} (hΓ : Γ.Sealed s) {t : Term} {T : LambdaTerm}
    (ht : Means η Γ s t T) {l : Listing β} {s' : Store}
    (hl : walk R budget limit view t s = .ok l s') {y : β} (hy : y ∈ l.items) :
    Shows η Γ T Run.term view y := by
  obtain ⟨-, shown⟩ := ensures_walk R budget limit view hΓ ht l s' hl
  obtain ⟨r, hshown, hr⟩ := shown y hy
  exact ⟨r, s', hshown, hr⟩

private theorem shows_of_mem_traceFrom {β : Type} {R : Rules} {view : Run → Except Failure β}
    {budget : Int} {T : LambdaTerm} {t : Term} {steps patience : Nat} (hΓ : Γ.Sealed s)
    (ht : Means η Γ s t T) {y : β}
    (hy : y ∈ (traceFrom R view budget t steps patience s).1.items) :
    Shows η Γ T Run.term view y := by
  fun_induction traceFrom R view budget t steps patience s with
  | case1 => cases hy
  | case2 => cases hy
  | case4 => cases hy
  | case8 => cases hy
  | case3 t steps patience s hb s₁ hstep z hz
  | case6 t steps patience s hb r s₁ hstep z hz hc hg =>
    cases List.mem_singleton.mp hy
    exact ⟨_, s, hz, ht⟩
  | case5 t steps patience s hb r s₁ hstep z hz shown hc hg ih
  | case7 t steps patience s hb r s₁ hstep z hz shown hc ih =>
    obtain ⟨-, hΓ, -, hr⟩ := ensures_step_of R hΓ ht _ _ hstep
    rcases List.mem_cons.mp hy with rfl | hy
    · exact ⟨_, s, hz, ht⟩
    · exact ih hΓ (hr r rfl) hy

/-- Every term of a walk that is listed as a whole means the same. -/
theorem shows_of_mem_trace {β : Type} {R : Rules} {budget : Option Amount}
    {view : Run → Except Failure β} (hΓ : Γ.Sealed s) {t : Term} {T : LambdaTerm}
    (ht : Means η Γ s t T) {l : Listing β} {s' : Store}
    (hl : trace R budget view t s = .ok l s') {y : β} (hy : y ∈ l.items) :
    Shows η Γ T Run.term view y := by
  unfold trace at hl
  split at hl
  · cases hl
    cases hy
  · next bound s₁ hbound =>
    obtain ⟨hs, -⟩ := Engine.ensures_bound _ _ _ _ hbound
    cases hl
    exact shows_of_mem_traceFrom (hΓ.later hs) (ht.later hs) hy

end Term

end Combinatory
