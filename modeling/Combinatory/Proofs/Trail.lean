import Combinatory.Proofs.Making
import Combinatory.Proofs.Meaning.Reduction

/-!
# The trail of a run

A run and a walk go through the same rounds: while the budget lasts, the term takes a step. Every
round either costs one step of the budget or opens a name, so the rounds come to an end
(`Trail.exists_length_le`). What a run ends with and what a walk shows is read off the trail.
-/

namespace Combinatory

open Engine (Ends)

/-- Where a run or a walk stands: at a term, after some steps, over a store. -/
structure Stage where
  term : Term
  steps : Nat
  store : Store

namespace Stage

/-- The snapshot of a term that is left again. -/
def snapshot (x : Stage) : Run := ⟨x.term, x.steps, false⟩

/-- The stage after a step. -/
def after (x : Stage) (r : Term.Stepped) (s : Store) : Stage := ⟨r.term, x.steps + r.cost, s⟩

end Stage

/-- The rounds of a run from one stage to another, with a snapshot of every stage that is left. A
round begins while there is budget left. -/
inductive Trail (R : Rules) (budget : Int) : Stage → List Run → Stage → Prop
  | here {x : Stage} : Trail R budget x [] x
  | round {x y : Stage} {r : Term.Stepped} {s : Store} {l : List Run}
      (hb : (x.steps : Int) < budget) (hstep : x.term.step R x.store = .ok (some r) s)
      (rest : Trail R budget (x.after r s) l y) : Trail R budget x (x.snapshot :: l) y

variable {K : Kinds} {R : Rules} {budget : Int} {x y : Stage} {l : List Run}

/-- Whether a run goes no further from a stage: there is no step, or no budget left for one. -/
def Stage.Last (R : Rules) (budget : Int) (x : Stage) : Prop :=
  ∀ r s, x.term.step R x.store = .ok (some r) s → budget ≤ x.steps

namespace Trail

/-- A run stays among the terms that rules lead to. -/
theorem madeOf (hK : K.Closed R) (h : Trail R budget x l y) (hx : x.term.MadeOf K) :
    y.term.MadeOf K := by
  induction h with
  | here => exact hx
  | round _ hstep _ ih => exact ih ((Term.ends_step hK hx).of_ok hstep _ rfl).1

/-- A run never overspends its budget, as no step costs more than one. -/
theorem steps_le (hK : K.Closed R) (h : Trail R budget x l y) (hx : x.term.MadeOf K) :
    (y.steps : Int) ≤ max budget x.steps := by
  induction h with
  | here => exact Int.le_max_right _ _
  | @round x y r s l hb hstep _ ih =>
    obtain ⟨hr, hcost⟩ := (Term.ends_step hK hx).of_ok hstep _ rfl
    have hle := ih hr
    simp only [Stage.after] at hle
    omega

/-- A larger budget allows the same rounds. -/
theorem mono {budget' : Int} (h : Trail R budget x l y) (hle : budget ≤ budget') :
    Trail R budget' x l y := by
  induction h with
  | here => exact .here
  | round hb hstep _ ih => exact .round (Int.lt_of_lt_of_le hb hle) hstep ih

/-- The snapshots are of terms that have a step, before the budget is spent. -/
theorem forall_mem (h : Trail R budget x l y) :
    ∀ r ∈ l, r.final = false ∧ (r.steps : Int) < budget := by
  induction h with
  | here => exact nofun
  | round hb _ _ ih =>
    intro r hr
    rcases List.mem_cons.mp hr with rfl | hr
    · exact ⟨rfl, hb⟩
    · exact ih r hr

end Trail

/-! ### Rounds come to an end -/

/-- What holds of a stage if it holds after the next round holds of every stage: a round spends
budget, or it opens a name and puts none in. -/
theorem Stage.induction (hK : K.Closed R) (budget : Int) {P : Stage → Prop}
    (next : ∀ x : Stage, x.term.MadeOf K → (∀ r s, (x.steps : Int) < budget →
      x.term.step R x.store = .ok (some r) s → P (x.after r s)) → P x)
    (x : Stage) (hx : x.term.MadeOf K) : P x := by
  refine next x hx fun r s hb hstep => ?_
  have made := ((Term.ends_step hK hx).of_ok hstep r rfl).1
  have decreases : r.cost = 0 → r.term.pending < x.term.pending :=
    fun hc => (Term.pending_step _ (hx.quiet hK) hstep hc).2
  exact Stage.induction hK budget next (x.after r s) made
termination_by ((budget - x.steps).toNat, x.term.pending)
decreasing_by
  simp only [Stage.after]
  rcases Nat.eq_zero_or_pos r.cost with hc | hc
  · rw [hc, Nat.add_zero]
    exact .right _ (decreases hc)
  · exact .left _ _ (by omega)

/-- A run makes finitely many rounds, whatever the budget: there is a bound for all trails. -/
theorem Trail.exists_length_le (hK : K.Closed R) (budget : Int) (x : Stage)
    (hx : x.term.MadeOf K) : ∃ N, ∀ l y, Trail R budget x l y → l.length ≤ N := by
  refine Stage.induction hK budget (P := fun x => ∃ N, ∀ l y, Trail R budget x l y → l.length ≤ N)
    (fun x hx next => ?_) x hx
  by_cases h : (x.steps : Int) < budget ∧ ∃ r s, x.term.step R x.store = .ok (some r) s
  · obtain ⟨hb, r, s, hstep⟩ := h
    obtain ⟨N, hN⟩ := next r s hb hstep
    refine ⟨N + 1, fun l y trail => ?_⟩
    cases trail with
    | here => exact Nat.zero_le _
    | round _ hstep' rest =>
      rw [hstep] at hstep'
      cases hstep'
      exact Nat.succ_le_succ (hN _ _ rest)
  · refine ⟨0, fun l y trail => ?_⟩
    cases trail with
    | here => exact Nat.le_refl 0
    | round hb hstep _ => exact absurd ⟨hb, _, _, hstep⟩ h

/-- A run comes to a stage from which it goes no further. -/
theorem Trail.exists_last (hK : K.Closed R) (budget : Int) (x : Stage) (hx : x.term.MadeOf K) :
    ∃ l y, Trail R budget x l y ∧ y.Last R budget := by
  refine Stage.induction hK budget (P := fun x => ∃ l y, Trail R budget x l y ∧ y.Last R budget)
    (fun x hx next => ?_) x hx
  by_cases h : (x.steps : Int) < budget ∧ ∃ r s, x.term.step R x.store = .ok (some r) s
  · obtain ⟨hb, r, s, hstep⟩ := h
    obtain ⟨l, y, trail, last⟩ := next r s hb hstep
    exact ⟨_, y, .round hb hstep trail, last⟩
  · refine ⟨[], x, .here, fun r s hstep => ?_⟩
    exact Int.not_lt.mp fun hb => h ⟨hb, r, s, hstep⟩

/-! ### Runs -/

namespace Term

/-- A run of a term without hooks goes on after a step while there is budget left. -/
theorem exists_runFrom_of_step {t : Term} {steps : Nat} {s s' : Store} {r : Stepped}
    (hq : R.quiet t = true) (hb : (steps : Int) < budget) (h : step R t s = .ok (some r) s')
    (patience : Nat) : ∃ left, runFrom R budget t steps patience s =
      runFrom R budget r.term (steps + r.cost) left s' := by
  by_cases hc : r.cost = 0
  · refine ⟨patience - 1, ?_⟩
    rw [runFrom, if_pos hb]
    split
    · next he => rw [h] at he; cases he
    · next he => rw [h] at he; cases he
    · next he =>
      rw [h] at he
      cases he
      rw [dif_pos hc, dif_pos (by rw [Rules.goesOn, hq, Bool.or_true]), hc, Nat.add_zero]
  · exact ⟨patience, runFrom_of_step hb h hc⟩

end Term

namespace Trail

/-- A run goes on from the end of the trail. -/
theorem exists_runFrom (hK : K.Closed R) (h : Trail R budget x l y) (hx : x.term.MadeOf K)
    (patience : Nat) : ∃ left, x.term.runFrom R budget x.steps patience x.store =
      y.term.runFrom R budget y.steps left y.store := by
  induction h generalizing patience with
  | here => exact ⟨patience, rfl⟩
  | round hb hstep _ ih =>
    obtain ⟨left, hrun⟩ := Term.exists_runFrom_of_step (hx.quiet hK) hb hstep patience
    obtain ⟨left', hrest⟩ := ih ((Term.ends_step hK hx).of_ok hstep _ rfl).1 left
    exact ⟨left', hrun.trans hrest⟩

end Trail

/-- From the last stage of its trail a run tells what one more look at the term does. -/
theorem Stage.Last.runFrom_eq (h : x.Last R budget) (patience : Nat) :
    x.term.runFrom R budget x.steps patience x.store =
      match x.term.step R x.store with
      | .error e s => .error e s
      | .ok o s => .ok ⟨x.term, x.steps, o.isNone⟩ s := by
  cases hstep : x.term.step R x.store with
  | error e s =>
    rw [Term.runFrom]
    split <;> rw [hstep]
  | ok o s =>
    cases o with
    | none => exact Term.runFrom_of_normal hstep
    | some r =>
      have spent := h r s hstep
      rw [Term.runFrom, if_neg (Int.not_lt.mpr spent), hstep]

end Combinatory
