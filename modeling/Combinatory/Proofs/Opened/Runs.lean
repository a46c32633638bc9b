import Combinatory.Proofs.Combination.Runs
import Combinatory.Proofs.Opened.Reduction
import Combinatory.Proofs.Settled.Reduction
import Combinatory.Proofs.Trail

/-!
# Runs of terms with transparent names

A run of such a term goes through the steps that it has with all names opened, and opens names in
between. So where it ends is the normal form of the term with all names opened, and if there is one,
the run comes to it (`Term.exists_runsTo`). The names that it opens at heads are paid for in
addition (`Term.RunsTo.after_eq`).
-/

namespace Combinatory

namespace Skeleton

/-- The skeleton after some steps, if it has as many. -/
def after (x : Skeleton) : Nat → Option Skeleton
  | 0 => some x
  | k + 1 => x.next.bind fun y => y.after k

theorem after_succ {x y : Skeleton} (h : x.next = some y) (k : Nat) :
    x.after (k + 1) = y.after k := by
  rw [after, h, Option.bind_some]

/-- A skeleton comes to one normal form, after so many steps. -/
theorem after_unique {x y z : Skeleton} {k m : Nat} (hy : x.after k = some y) (hyn : y.next = none)
    (hz : x.after m = some z) (hzn : z.next = none) : k = m ∧ y = z := by
  induction k generalizing x m with
  | zero =>
    cases hy
    cases m with
    | zero =>
      cases hz
      exact ⟨rfl, rfl⟩
    | succ m =>
      rw [after, hyn] at hz
      cases hz
  | succ k ih =>
    cases hx : x.next with
    | none =>
      rw [after, hx] at hy
      cases hy
    | some x' =>
      rw [after_succ hx] at hy
      cases m with
      | zero =>
        cases hz
        rw [hx] at hzn
        cases hzn
      | succ m =>
        rw [after_succ hx] at hz
        obtain ⟨rfl, rfl⟩ := ih hy hz
        exact ⟨rfl, rfl⟩

end Skeleton

variable {K : Kinds} {R : Rules} {Γ : Scope} {e : Places} {budget : Int} {x y : Stage}
  {l : List Run} {t : Term} {p : Twins}

namespace Term

/-- A term of some kinds at hand: the engine remembers well, and no lambda in the term binds a free
variable. -/
structure Carried (K : Kinds) (Γ : Scope) (t : Term) (p : Twins) : Prop where
  scope : Γ.Sealed p.left
  fits : t.Fits Γ p.left
  made : t.MadeOf K
  recorded : t.Recorded (fun c => c.isPure = true) p.heap

theorem Carried.later {p' : Twins} (h : Carried K Γ t p) (hp : p ≤ p') : Carried K Γ t p' where
  scope := h.scope.later hp.nextVariable
  fits := h.fits.later hp.nextVariable
  made := h.made
  recorded := h.recorded.later hp

/-- A step of a term opens a name, or it is the step with all names opened. Where there is none,
there is none with all names opened. -/
theorem Carried.step (hK : K.Transparent) (h : t.Carried K Γ p) {o : Option Stepped} {s : Store}
    (hstep : step R t p.left = .ok o s) (e : Places) :
    ∃ p', p ≤ p' ∧ p'.left = s ∧ (o = none → (t.opened e).next = none) ∧
      ∀ r, o = some r → r.term.Carried K Γ p' ∧ Tracks e t r := by
  obtain ⟨p', later, rfl, hright, hscan⟩ :=
    (alike_step_leftmost (.of_pure R p) h.recorded).exists_both_of_ok hstep
  have right : p.left ≤ p.right := Int.le_of_eq p.nextVariable.symm
  have follows := ensures_opened_leftmost (R := R) hK e t (h.scope.later right) h.made
    (h.fits.later right)
  refine ⟨p', later, rfl, fun ho => ?_, fun r hr => ⟨⟨?_, ?_, ?_, ?_⟩, ?_⟩⟩
  · exact next_opened_of_idle hK e h.made (idle_of_leftmost (ho ▸ hright))
  · exact h.scope.later later.nextVariable
  · exact ((ensures_step (η := True) R t h.scope h.fits).ok o _ hstep |>.2 r hr).fits
  · exact ((ends_step (hK.closed R) h.made).of_ok hstep r hr).1
  · exact hscan.recorded r hr
  · exact (follows.ok o _ hright).2 r hr

end Term

/-! ### Along a trail -/

/-- A trail goes through the steps that the term has with all names opened, each at a cost of one.
If there are no names to open, nothing else costs anything. -/
theorem Trail.after_eq (hK : K.Transparent) (e : Places) (h : Trail R budget x l y)
    (hx : x.term.Carried K Γ p) (hs : x.store = p.left) :
    ∃ p' k, p ≤ p' ∧ y.store = p'.left ∧ y.term.Carried K Γ p' ∧
      (x.term.opened e).after k = some (y.term.opened e) ∧ x.steps + k ≤ y.steps ∧
      ((∀ info, ¬ K.name info) → x.steps + k = y.steps) := by
  induction h generalizing p with
  | here => exact ⟨p, 0, p.le_refl, hs, hx, rfl, Nat.le_refl _, fun _ => rfl⟩
  | @round x y r s l hb hstep _ ih =>
    rw [hs] at hstep
    obtain ⟨p₁, later, hs₁, -, hsome⟩ := hx.step hK hstep e
    obtain ⟨carried, follows⟩ := hsome r rfl
    obtain ⟨p₂, k, later', hy, hcarried, hafter, hle, heq⟩ := ih carried hs₁.symm
    dsimp only [Stage.after] at hafter hle heq
    cases follows with
    | opens same fewer cheap =>
      refine ⟨p₂, k, Twins.le_trans later later', hy, hcarried, same ▸ hafter, by omega, ?_⟩
      intro nameless
      rw [hx.made.pending_eq_zero nameless] at fewer
      exact absurd fewer (Nat.not_lt_zero _)
    | advances next cost =>
      refine ⟨p₂, k + 1, Twins.le_trans later later', hy, hcarried, ?_, by omega, ?_⟩
      · rw [Skeleton.after_succ next, hafter]
      · intro nameless
        have := heq nameless
        omega

/-- If a term has a normal form with all names opened, a trail that is long enough comes to an end:
every round takes one of the steps that are left, or it opens a name. -/
theorem Trail.exists_normal (hK : K.Transparent) (e : Places) {z : Skeleton} (hz : z.next = none)
    (k : Nat) (x : Stage) (p : Twins) (hx : x.term.Carried K Γ p) (hs : x.store = p.left)
    (hafter : (x.term.opened e).after k = some z) :
    ∃ budget l y s, Trail R budget x l y ∧ y.term.step R y.store = .ok none s := by
  obtain ⟨o, s, hstep, -⟩ :=
    (Term.ends_step (hK.closed R) hx.made).exists_ok hK.not_obstacle p.left
  obtain ⟨p', -, hs', -, hsome⟩ := hx.step hK hstep e
  cases o with
  | none => exact ⟨0, [], x, s, .here, hs ▸ hstep⟩
  | some r =>
    obtain ⟨carried, follows⟩ := hsome r rfl
    have extended (hrest : ∃ budget l y s₁, Trail R budget (x.after r s) l y ∧
        y.term.step R y.store = .ok none s₁) :
        ∃ budget l y s₁, Trail R budget x l y ∧ y.term.step R y.store = .ok none s₁ := by
      obtain ⟨budget, l, y, s₁, trail, hlast⟩ := hrest
      refine ⟨max budget (x.steps + 1), x.snapshot :: l, y, s₁, ?_, hlast⟩
      exact .round (by omega) (hs ▸ hstep) (trail.mono (Int.le_max_left _ _))
    cases follows with
    | opens same fewer _ =>
      exact extended (Trail.exists_normal hK e hz k (x.after r s) p' carried hs'.symm
        (same.symm ▸ hafter))
    | advances next _ =>
      cases hk : k with
      | zero =>
        rw [hk] at hafter
        cases hafter
        rw [hz] at next
        cases next
      | succ m =>
        rw [hk, Skeleton.after_succ next] at hafter
        exact extended (Trail.exists_normal hK e hz m (x.after r s) p' carried hs'.symm hafter)
termination_by (k, x.term.pending)
decreasing_by
  · exact .right _ fewer
  · exact .left _ _ (hk ▸ Nat.lt_succ_self m)

namespace Term

/-! ### Runs -/

/-- A run with some budget ends with a term that has no step. -/
def RunsTo (R : Rules) (t : Term) (s : Store) (out : Run) (s' : Store) : Prop :=
  out.final = true ∧ ∃ budget strict, t.run R budget [] strict s = .ok out s'

/-- What a run ends with is the normal form with all names opened, and the run costs as much as the
steps that lead there, or more if it opens names. -/
theorem RunsTo.after_eq (hK : K.Transparent) (e : Places) {out : Run} {s' : Store}
    (h : t.RunsTo R p.left out s') (ht : t.Carried K Γ p) :
    ∃ p' k, p ≤ p' ∧ p'.left = s' ∧ out.term.Carried K Γ p' ∧
      (t.opened e).after k = some (out.term.opened e) ∧ (out.term.opened e).next = none ∧
      k ≤ out.steps ∧ ((∀ info, ¬ K.name info) → k = out.steps) := by
  obtain ⟨hfinal, budget, strict, hrun⟩ := h
  obtain ⟨b, -, hrun, -⟩ := run_nil_ok_iff.mp hrun
  let x : Stage := ⟨t, 0, p.left⟩
  have made : x.term.MadeOf K := ht.made
  obtain ⟨l, y, trail, last⟩ := Trail.exists_last (hK.closed R) b x made
  obtain ⟨left, ran⟩ := trail.exists_runFrom (hK.closed R) made patience
  rw [last.runFrom_eq] at ran
  change t.runFrom R b 0 patience p.left = _ at ran
  rw [hrun] at ran
  obtain ⟨p₁, k, later, hy, carried, hafter, hle, heq⟩ := trail.after_eq hK e ht rfl
  cases hstep : y.term.step R y.store with
  | error e s =>
    rw [hstep] at ran
    cases ran
  | ok o s =>
    rw [hstep] at ran
    cases ran
    rw [hy] at hstep
    obtain ⟨p₂, later', hs, hnone, -⟩ := carried.step hK hstep e
    have normal : o = none := Option.isNone_iff_eq_none.mp hfinal
    have spent : x.steps + k = k := Nat.zero_add k
    rw [spent] at hle heq
    exact ⟨p₂, k, Twins.le_trans later later', hs, carried.later later', hafter, hnone normal, hle,
      heq⟩

/-- A term that has a normal form with all names opened is run to it. -/
theorem exists_runsTo (hK : K.Transparent) (R : Rules) (ht : t.Carried K Γ p) {k : Nat}
    {z : Skeleton} (hafter : (t.opened e).after k = some z) (hz : z.next = none) :
    ∃ out s', t.RunsTo R p.left out s' := by
  let x : Stage := ⟨t, 0, p.left⟩
  have made : x.term.MadeOf K := ht.made
  obtain ⟨b, l, y, s, trail, hstep⟩ :=
    Trail.exists_normal (R := R) hK e hz k x p ht rfl hafter
  obtain ⟨left, ran⟩ := trail.exists_runFrom (hK.closed R) made patience
  refine ⟨⟨y.term, y.steps, true⟩, s, rfl, .number b, false, ?_⟩
  exact run_nil_ok_iff.mpr ⟨b, rfl, ran.trans (runFrom_of_normal hstep), nofun⟩

section Twins

variable {K' : Kinds} {R' : Rules} {Δ : Scope} {u : Term} {q : Twins} {out out' : Run}
  {s s' : Store}

/-- Of two terms that are the same with all names opened, each runs to an end if the other does. -/
theorem RunsTo.exists_twin (hK : K.Transparent) (hK' : K'.Transparent) (R' : Rules)
    (h : t.RunsTo R p.left out s) (ht : t.Carried K Γ p) (hu : u.Carried K' Δ q)
    (same : u.opened e = t.opened e) : ∃ out' s', u.RunsTo R' q.left out' s' := by
  obtain ⟨-, k, -, -, -, hafter, hnormal, -⟩ := h.after_eq hK e ht
  exact exists_runsTo hK' R' hu (same ▸ hafter) hnormal

/-- They end alike, and nothing is cheaper than to have no names. -/
theorem RunsTo.twin (hK : K.Transparent) (hK' : K'.Transparent) (nameless : ∀ info, ¬ K'.name info)
    (h : t.RunsTo R p.left out s) (h' : u.RunsTo R' q.left out' s') (ht : t.Carried K Γ p)
    (hu : u.Carried K' Δ q) (same : u.opened e = t.opened e) :
    out'.term.opened e = out.term.opened e ∧ out'.steps ≤ out.steps := by
  obtain ⟨-, k, -, -, -, hafter, hnormal, hle, -⟩ := h.after_eq hK e ht
  obtain ⟨-, k', -, -, -, hafter', hnormal', -, heq⟩ := h'.after_eq hK' e hu
  obtain ⟨rfl, hend⟩ := Skeleton.after_unique hafter' hnormal' (same ▸ hafter) hnormal
  exact ⟨hend, heq nameless ▸ hle⟩

end Twins

end Term

end Combinatory
