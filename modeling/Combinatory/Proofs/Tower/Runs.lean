import Combinatory.Proofs.Combination.Runs
import Combinatory.Proofs.Tower

/-!
# Running towers

A tower applied to enough arguments is run one argument at a time: each step fires its first lambda,
whatever the table holds, and after as many steps as it has lambdas it is a combination. So the run
of a tower is final exactly when the run of what it gives is.
-/

namespace Combinatory

open Engine (Yields)
open Combination (Leads)

namespace Term

variable {Γ : Scope} {s : Store} {R : Rules} {n : Nat} {c : Combination}

/-- A term that is some lambdas away from a combination: a tower with arguments for all of them. -/
def Passed (Γ : Scope) (s : Store) (c : Combination) : Nat → Term → Prop
  | 0, t => t.Forms c
  | n + 1, t => ∃ m h as, t = app m h as ∧ h.IsTower (n + 1) ∧ h.Fits Γ s ∧ AreCombinations as ∧
      FitsAll Γ s as ∧ n < as.length ∧ h.applied .var (combinations as) = c

/-- What has been passed to a tower stays passed. -/
theorem Passed.later {s' : Store} {t : Term} (h : Passed Γ s c n t) (hs : s ≤ s') :
    Passed Γ s' c n t := by
  cases n with
  | zero => exact h
  | succ n =>
    obtain ⟨m, hd, as, rfl, htower, hfits, has, hafits, hlen, happlied⟩ := h
    exact ⟨m, hd, as, rfl, htower, hfits.later hs, has, hafits.later hs, hlen, happlied⟩

/-- Applying a tower to enough arguments passes them. -/
theorem yields_apply_tower {t : Term} (ht : t.IsTower n) (hfits : t.Fits Γ s) {as : List Term}
    (has : AreCombinations as) (hafits : FitsAll Γ s as) (hlen : n ≤ as.length) :
    Yields (apply R t as) s fun u s' => Passed Γ s' (t.applied .var (combinations as)) n u := by
  cases n with
  | zero =>
    rw [IsCombination.applied_eq ht, Combination.subst_var]
    exact yields_apply R ht has s
  | succ n =>
    obtain ⟨v, b, rfl, hb⟩ := ht.exists_lam
    cases as with
    | nil => cases hlen
    | cons a as =>
      rw [apply_eq_extend R _ (firstLiteral_eq_none has), extend_lam]
      apply (Engine.yields_node (lam v b) (a :: as) s).imp
      rintro _ s' hs ⟨m, rfl⟩
      exact ⟨m, _, _, rfl, hb, hfits.later hs, has, hafits.later hs, hlen, rfl⟩

/-- The strategy fires the first lambda. -/
theorem yields_leftmost_tower {t : Term} (hΓ : Γ.Sealed s) (ht : Passed Γ s c (n + 1) t) :
    Yields (leftmost R t) s fun o s' =>
      ∃ u, o = some u ∧ u.cost = 1 ∧ Passed Γ s' c n u.term := by
  obtain ⟨m, h, as, rfl, htower, hfits, has, hafits, hlen, rfl⟩ := ht
  obtain ⟨v, b, rfl, hb⟩ := htower.exists_lam
  cases as with
  | nil => cases hlen
  | cons a as =>
    unfold leftmost
    have fires : Yields (reduce R (lam v b) (a :: as)) s fun o s' => ∃ u, o = some u ∧
        Passed Γ s' ((lam v b).applied .var (combinations (a :: as))) n u := by
      unfold reduce
      apply (yields_instantiate hΓ hfits hb has.1 hafits.1).bind
      rintro u s₁ hs ⟨hu, hufits, happlied⟩
      have same : u.applied .var (combinations as) =
          (lam v b).applied .var (combinations (a :: as)) := by
        rw [happlied, Combination.subst_var, combinations]
      rw [← same]
      apply (yields_apply_tower hu hufits has.2 (hafits.2.later hs) (Nat.le_of_lt_succ hlen)).bind
      intro w s₂ _ hw
      exact .pure ⟨w, rfl, hw⟩
    apply fires.bind
    rintro _ s₁ - ⟨u, rfl, hu⟩
    exact .pure ⟨_, rfl, rfl, hu⟩

variable {p : Twins} {t : Term}

/-- A step fires the first lambda, and is paid for. -/
theorem step_of_passed (hΓ : Γ.Sealed p.left) (hrec : t.Recorded (fun c => c.isPure = true) p.heap)
    (ht : Passed Γ p.left c (n + 1) t) :
    ∃ u p', p ≤ p' ∧ step R t p.left = .ok (some ⟨u, 1⟩) p'.left ∧
      u.Recorded (fun c => c.isPure = true) p'.heap ∧ Passed Γ p'.left c n u := by
  have right : p.left ≤ p.right := Int.le_of_eq p.nextVariable.symm
  obtain ⟨⟨u, cost⟩, p', later, hstep, hu, rfl, hpassed⟩ :=
    step_of_leftmost hrec (yields_leftmost_tower (hΓ.later right) (ht.later right))
  exact ⟨u, p', later, hstep, hu, hpassed.later (Int.le_of_eq p'.nextVariable)⟩

/-- A run with enough budget ends with the normal form that the strategy leads to from what a tower
gives. -/
theorem runFrom_of_leads_tower {r : Combination} (h : Leads c r) (hr : r.next = none) :
    ∃ M : Nat, ∀ {p : Twins} {t : Term} {n : Nat}, Γ.Sealed p.left →
      t.Recorded (fun c => c.isPure = true) p.heap → Passed Γ p.left c n t →
        ∀ (R : Rules) (budget : Int) (steps patience : Nat), (steps + n + M : Nat) ≤ budget →
          ∃ out p', p ≤ p' ∧ runFrom R budget t steps patience p.left = .ok out p'.left ∧
            EndsAt r out := by
  obtain ⟨M, hM⟩ := runFrom_of_leads h hr
  refine ⟨M, fun {p t n} hΓ hrec ht R budget steps patience hb => ?_⟩
  induction n generalizing p t steps with
  | zero => exact hM ⟨hrec, ht⟩ R budget steps patience hb
  | succ n ih =>
    obtain ⟨u, p₁, later, hstep, hu, hpassed⟩ := step_of_passed (R := R) hΓ hrec ht
    obtain ⟨out, p₂, later', hrun, hout⟩ :=
      ih (hΓ.later later.nextVariable) hu hpassed (steps + 1) (by omega)
    refine ⟨out, p₂, Twins.le_trans later later', ?_, hout⟩
    rw [runFrom_of_step (by omega) hstep Nat.one_ne_zero, hrun]

/-- A final run of a tower ends with a normal form that the strategy leads to from what it gives. -/
theorem leads_of_runFrom_tower (hΓ : Γ.Sealed p.left)
    (hrec : t.Recorded (fun c => c.isPure = true) p.heap) (ht : Passed Γ p.left c n t)
    {budget : Int} {steps patience : Nat} {out : Run} {s : Store}
    (hrun : runFrom R budget t steps patience p.left = .ok out s) (hfinal : out.final = true) :
    ∃ r, Leads c r ∧ r.next = none ∧ out.term.Forms r := by
  induction n generalizing p t steps with
  | zero => exact leads_of_runFrom ⟨hrec, ht⟩ hrun hfinal
  | succ n ih =>
    obtain ⟨u, p₁, later, hstep, hu, hpassed⟩ := step_of_passed (R := R) hΓ hrec ht
    by_cases hb : (steps : Int) < budget
    · rw [runFrom_of_step hb hstep Nat.one_ne_zero] at hrun
      exact ih (hΓ.later later.nextVariable) hu hpassed hrun
    · rw [runFrom, if_neg hb, hstep] at hrun
      cases hrun
      cases hfinal

/-- What a tower needs to be run on arguments: all variables may occur freely, and the arguments are
combinations, at least as many as there are lambdas. -/
structure Supplied (Γ : Scope) (p : Twins) (n : Nat) (t : Term) (args : List Term) : Prop where
  scope : Γ.Sealed p.left
  tower : t.IsTower n
  fits : t.Fits Γ p.left
  recorded : t.Recorded (fun c => c.isPure = true) p.heap
  areCombinations : AreCombinations args
  argsFit : FitsAll Γ p.left args
  argsRecorded : RecordedAll (fun c => c.isPure = true) p.heap args
  enough : n ≤ args.length

variable {args : List Term}

/-- A final run of a tower on arguments ends with a normal form that the strategy leads to from what
it gives on them. -/
theorem Supplied.leads_of_run (h : Supplied Γ p n t args) {budget : Amount} {strict : Bool}
    {out : Run} {s : Store} (hrun : t.run R budget args strict p.left = .ok out s)
    (hfinal : out.final = true) :
    ∃ r, Leads (t.applied .var (combinations args)) r ∧ r.next = none ∧ out.term.Forms r := by
  obtain ⟨start, s₁, b, hstart, -, hfrom, -⟩ := run_ok_iff.mp hrun
  obtain ⟨-, hle, hpassed⟩ :=
    (yields_apply_tower h.tower h.fits h.areCombinations h.argsFit h.enough).of_ok (.left p) hstart
  obtain ⟨p₁, -, rfl, hrec⟩ :=
    (records_apply (.of_pure R p) h.recorded h.argsRecorded).exists_of_ok hstart
  exact leads_of_runFrom_tower (h.scope.later hle) hrec hpassed hfrom hfinal

/-- Where the strategy leads to a normal form from what a tower gives on arguments, some budget is
enough for a final run. -/
theorem Supplied.exists_run (h : Supplied Γ p n t args) {r : Combination}
    (hleads : Leads (t.applied .var (combinations args)) r) (hr : r.next = none) :
    ∃ budget out s, t.run R budget args false p.left = .ok out s ∧ out.final = true := by
  obtain ⟨start, s₁, hstart, -, hle, hpassed⟩ :=
    yields_apply_tower (R := R) h.tower h.fits h.areCombinations h.argsFit h.enough (.left p)
  obtain ⟨p₁, -, rfl, hrec⟩ :=
    (records_apply (.of_pure R p) h.recorded h.argsRecorded).exists_of_ok hstart
  obtain ⟨M, hM⟩ := runFrom_of_leads_tower hleads hr
  obtain ⟨out, p₂, -, hfrom, hend⟩ :=
    hM (h.scope.later hle) hrec hpassed R (0 + n + M : Nat) 0 patience (Int.le_refl _)
  exact ⟨.number (0 + n + M : Nat), out, p₂.left,
    run_ok_iff.mpr ⟨start, _, _, hstart, rfl, hfrom, nofun⟩, hend.final⟩

end Term

end Combinatory
