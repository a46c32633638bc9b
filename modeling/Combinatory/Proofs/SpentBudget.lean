import Combinatory.Numeral
import Combinatory.Proofs.Combination.Runs
import Combinatory.Proofs.Trail

/-!
# Runs with a spent budget

A smaller budget that still pays for all the steps of a final run gives the same run, except where
it is spent to the last unit and names are left that could be opened at no cost: the run then ends
before it opens them, and is not final (`Term.run_of_le`).
-/

namespace Combinatory

variable {K : Kinds} {R : Rules} {budget : Int} {x y : Stage} {l : List Run}

namespace Trail

/-- The steps of a run never decrease. -/
theorem le_steps (h : Trail R budget x l y) : x.steps ≤ y.steps := by
  induction h with
  | here => exact Nat.le_refl _
  | round _ _ _ ih => exact Nat.le_trans (Nat.le_add_right _ _) ih

/-- Rounds that cost nothing open names and put none in. -/
theorem pending_le (hK : K.Closed R) (h : Trail R budget x l y) (hx : x.term.MadeOf K)
    (free : y.steps = x.steps) : y.term.pending ≤ x.term.pending := by
  induction h with
  | here => exact Nat.le_refl _
  | @round x y r s l _ hstep rest ih =>
    have within := rest.le_steps
    simp only [Stage.after] at within
    have hc : r.cost = 0 := by omega
    have opened := (Term.pending_step _ (hx.quiet hK) hstep hc).2
    refine Nat.le_trans (ih ((Term.ends_step hK hx).of_ok hstep _ rfl).1 ?_) (Nat.le_of_lt opened)
    rw [free, Stage.after, hc, Nat.add_zero]

/-- The rounds of a trail that another budget pays for: they go all the way, or to a stage at which
that budget is spent, with rounds left. -/
theorem exists_cut (h : Trail R budget x l y) (m : Int) :
    Trail R m x l y ∨ ∃ l₁ z l₂, Trail R m x l₁ z ∧ Trail R budget z l₂ y ∧ l₂ ≠ [] ∧
      m ≤ z.steps := by
  induction h with
  | here => exact .inl .here
  | @round x y r s l hb hstep rest ih =>
    by_cases hm : (x.steps : Int) < m
    · rcases ih with whole | ⟨l₁, z, l₂, first, last, hl, spent⟩
      · exact .inl (.round hm hstep whole)
      · exact .inr ⟨_, z, l₂, .round hm hstep first, last, hl, spent⟩
    · exact .inr ⟨[], x, _, .here, .round hb hstep rest, List.cons_ne_nil _ _, Int.not_lt.mp hm⟩

end Trail

namespace Term

/-- A run that goes along a trail to a stage from which it goes no further has found out there
whether there is a step. -/
theorem run_of_trail (hK : K.Closed R) {t u : Term} (made : t.MadeOf K) {s s₁ s₂ : Store} {k : Nat}
    {o : Option Stepped} {m : Int} (trail : Trail R m ⟨t, 0, s⟩ l ⟨u, k, s₁⟩)
    (last : Stage.Last R m ⟨u, k, s₁⟩) (hstep : u.step R s₁ = .ok o s₂) :
    t.run R (.number m) [] false s = .ok ⟨u, k, o.isNone⟩ s₂ := by
  refine run_nil_ok_iff.mpr ⟨m, rfl, ?_, nofun⟩
  obtain ⟨left, ran⟩ := trail.exists_runFrom hK made patience
  rw [last.runFrom_eq] at ran
  dsimp only at ran
  rw [ran, hstep]

/-- The stages of a final run. -/
theorem exists_trail_of_final (hK : K.Closed R) {t : Term} (made : t.MadeOf K) {budget : Amount}
    {strict : Bool} {s s' : Store} {out : Run} (hrun : t.run R budget [] strict s = .ok out s')
    (final : out.final = true) : ∃ n l s₁, budget.bound? = some n ∧
      Trail R n ⟨t, 0, s⟩ l ⟨out.term, out.steps, s₁⟩ ∧ out.term.step R s₁ = .ok none s' := by
  obtain ⟨n, hn, hfrom, -⟩ := run_nil_ok_iff.mp hrun
  obtain ⟨l, y, trail, last⟩ := Trail.exists_last hK n ⟨t, 0, s⟩ made
  obtain ⟨left, ran⟩ := trail.exists_runFrom hK made patience
  rw [last.runFrom_eq] at ran
  dsimp only at ran
  rw [hfrom] at ran
  cases hstep : y.term.step R y.store with
  | error e s₁ =>
    rw [hstep] at ran
    cases ran
  | ok o s₁ =>
    rw [hstep] at ran
    cases ran
    exact ⟨n, l, y.store, hn, trail, Option.isNone_iff_eq_none.mp final ▸ hstep⟩

/-- A final run, once more with a budget that pays for all its steps: it has the same result and
leaves the same store, or else that budget is spent exactly, and the run ends, not final, at a term
that opens names at no cost on its way to the result. -/
theorem run_of_le (hK : K.Closed R) {t : Term} (made : t.MadeOf K) {m n : Int} {s s' : Store}
    {out : Run} (hrun : t.run R (.number n) [] false s = .ok out s') (final : out.final = true)
    (hm : (out.steps : Int) ≤ m) :
    t.run R (.number m) [] false s = .ok out s' ∨
    (out.steps : Int) = m ∧ ∃ u s₁ s₂ s₃ l, l ≠ [] ∧
      t.run R (.number m) [] false s = .ok ⟨u, out.steps, false⟩ s₁ ∧
      Trail R n ⟨u, out.steps, s₂⟩ l ⟨out.term, out.steps, s₃⟩ ∧
      out.term.pending < u.pending := by
  obtain ⟨_, l, s₁, ⟨⟩, trail, normal⟩ := exists_trail_of_final hK made hrun final
  rcases trail.exists_cut m with whole | ⟨l₁, ⟨u, k, s₂⟩, l₂, first, rest, hl, spent⟩
  · refine .inl ?_
    have last : Stage.Last R m ⟨out.term, out.steps, s₁⟩ := fun r s' hstep => by
      rw [normal] at hstep
      cases hstep
    rw [run_of_trail hK made whole last normal]
    cases out
    cases final
    rfl
  · have within : k ≤ out.steps := rest.le_steps
    dsimp only at spent
    obtain rfl : k = out.steps := by omega
    have madeU : u.MadeOf K := first.madeOf hK made
    cases rest with
    | here => exact absurd rfl hl
    | @round _ _ r s₃ l₂ hb hstep rest =>
      have ran := run_of_trail hK made first (fun _ _ _ => spent) hstep
      have within := rest.le_steps
      dsimp only [Stage.after] at within
      have hc : r.cost = 0 := by omega
      have opened := (pending_step _ (madeU.quiet hK) hstep hc).2
      have below := rest.pending_le hK ((ends_step hK madeU).of_ok hstep _ rfl).1
        (by dsimp only [Stage.after]; omega)
      exact .inr ⟨by omega, u, s₃, s₂, s₁, _, hl, ran, .round hb hstep rest,
        Nat.lt_of_le_of_lt below opened⟩

end Term

/-! ### A name that is left at the end -/

namespace Leftover

/-- A free variable. -/
def free : Variable := ⟨"x", 1⟩

/-- A name for the variable, which waits for no arguments. -/
def name : Term := .named ⟨0, "A", .number 0, .bool false, .bool false, .null⟩ (.var free)

/-- The application of the identity combinator to the name. -/
def term : Term := .app 1 (.native .I) [name]

/-- The store after the application was built. -/
def store : Store := ⟨2, 2, ∅⟩

theorem madeOf_term : term.MadeOf .pure :=
  ⟨nofun, rfl, ⟨⟨0, rfl⟩, trivial⟩, trivial⟩

/-- The identity drops out, at the cost of a step. -/
theorem step_term : term.step (.plain 0) store = .ok (some ⟨name, 1⟩) store := by
  simp [term, name, store, Term.step, Engine.isSettled, Term.reduce, Native.contract, Native.arity,
    Term.apply_nil, bind, EStateM.bind, pure, EStateM.pure]

/-- The name is opened at no cost. -/
theorem step_name : name.step (.plain 0) store = .ok (some ⟨.var free, 0⟩) store := rfl

/-- With budget left, the run opens the name and ends with the variable. -/
theorem run_two : term.run (.plain 0) (.number 2) [] false store =
    .ok ⟨.var free, 1, true⟩ store := by
  have trail : Trail (.plain 0) 2 ⟨term, 0, store⟩ _ ⟨.var free, 1, store⟩ :=
    .round (by decide) step_term (.round (by decide) step_name .here)
  exact Term.run_of_trail (Kinds.closed_pure _) madeOf_term trail nofun rfl

/-- With the budget spent on the step, the run ends at the name. -/
theorem run_one : term.run (.plain 0) (.number 1) [] false store = .ok ⟨name, 1, false⟩ store := by
  have trail : Trail (.plain 0) 1 ⟨term, 0, store⟩ _ ⟨name, 1, store⟩ :=
    .round (by decide) step_term .here
  have last : Stage.Last (.plain 0) 1 ⟨name, 1, store⟩ := fun _ _ _ => Int.le_refl 1
  exact Term.run_of_trail (Kinds.closed_pure _) madeOf_term trail last step_name

end Leftover

/-- The step of `I A` is paid for by a budget of one, and the run with it ends at a name. -/
theorem run_of_le_leftover :
    Kinds.pure.Closed (.plain 0) ∧ Leftover.term.MadeOf .pure ∧
      Leftover.term.run (.plain 0) (.number 2) [] false Leftover.store =
        .ok ⟨.var Leftover.free, 1, true⟩ Leftover.store ∧
      ∃ u s, Leftover.term.run (.plain 0) (.number 1) [] false Leftover.store =
        .ok ⟨u, 1, false⟩ s ∧ 0 < u.pending := by
  refine ⟨Kinds.closed_pure _, Leftover.madeOf_term, Leftover.run_two, ?_⟩
  rcases Term.run_of_le (Kinds.closed_pure _) Leftover.madeOf_term Leftover.run_two rfl
    (m := 1) (by decide) with same | ⟨-, u, s, -, -, -, -, ran, -, opened⟩
  · rw [Leftover.run_one] at same
    cases same
  · exact ⟨u, s, ran, Nat.zero_lt_of_lt opened⟩

/-- A budget that pays for all the steps of a final run is not always enough: with a budget of two
`I A` is run to `x` in one step, and with a budget of one only to the name `A` of `x`. -/
theorem run_ne_of_spent :
    Leftover.term.run (.plain 0) (.number 2) [] false Leftover.store =
        .ok ⟨.var Leftover.free, 1, true⟩ Leftover.store ∧
      Leftover.term.run (.plain 0) (.number 1) [] false Leftover.store =
        .ok ⟨Leftover.name, 1, false⟩ Leftover.store :=
  ⟨Leftover.run_two, Leftover.run_one⟩

end Combinatory
