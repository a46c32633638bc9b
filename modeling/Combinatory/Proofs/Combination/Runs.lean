import Combinatory.Proofs.Combination.Terms
import Combinatory.Proofs.Meaning.Reduction
import Combinatory.Proofs.Settled.Reduction

/-!
# Running combinations

Over a sound table a step of a combination is its next step, so a run with enough budget ends with
the normal form if the leftmost strategy leads to one (`runs_of_leads`), and every run that is final
ends with a normal form that the strategy leads to (`leads_of_run`).
-/

namespace Combinatory

open Engine (Yields)
open Combination (Leads)

/-- A combination among the recorded terms: what a run may be at. -/
structure Stands (p : Twins) (t : Term) (c : Combination) : Prop where
  recorded : t.Recorded (fun c => c.isPure = true) p.heap
  forms : t.Forms c

namespace Term

variable {p : Twins} {R : Rules} {t : Term} {c : Combination}

/-- An idle term is left as it is. -/
theorem step_of_idle (ht : t.Recorded (fun c => c.isPure = true) p.heap) (hi : t.Idle) :
    ∃ p', p ≤ p' ∧ step R t p.left = .ok none p'.left := by
  cases alike_step_leftmost (.of_pure R p) ht with
  | ok o p' hx hy later _ =>
    rw [leftmost_of_idle R hi] at hy
    obtain ⟨rfl, -⟩ := Engine.pure_ok_iff.mp hy
    exact ⟨p', later, hx⟩
  | error e p' _ hy _ =>
    rw [leftmost_of_idle R hi] at hy
    cases hy

/-- A step gives what the strategy gives. -/
theorem step_of_leftmost (ht : t.Recorded (fun c => c.isPure = true) p.heap)
    {Q : Stepped → Store → Prop}
    (hl : Yields (leftmost R t) p.right fun o s => ∃ u, o = some u ∧ Q u s) :
    ∃ u p', p ≤ p' ∧ step R t p.left = .ok (some u) p'.left ∧
      u.term.Recorded (fun c => c.isPure = true) p'.heap ∧ Q u p'.right := by
  obtain ⟨o, s, hl, -, -, u, rfl, hu⟩ := hl (.right p)
  cases alike_step_leftmost (.of_pure R p) ht with
  | ok o p' hx hy later post =>
    rw [hl] at hy
    cases hy
    exact ⟨u, p', later, hx, post.recorded _ rfl, hu⟩
  | error e p' _ hy _ =>
    rw [hl] at hy
    cases hy

/-- A step gives the combination that the strategy gives, and is paid for. -/
theorem step_of_stepsTo (ht : t.Recorded (fun c => c.isPure = true) p.heap) {d : Combination}
    (hl : Yields (leftmost R t) p.right fun o _ => StepsTo d o) :
    ∃ u p', p ≤ p' ∧ step R t p.left = .ok (some ⟨u, 1⟩) p'.left ∧ Stands p' u d := by
  have paid : Yields (leftmost R t) p.right fun o _ =>
      ∃ u, o = some u ∧ u.cost = 1 ∧ u.term.Forms d := by
    apply hl.imp
    rintro _ s - ⟨u, rfl, hu⟩
    exact ⟨_, rfl, rfl, hu⟩
  obtain ⟨⟨u, cost⟩, p', later, hstep, hrec, rfl, hu⟩ := step_of_leftmost ht paid
  exact ⟨u, p', later, hstep, hrec, hu⟩

/-- A combination without a next step is left as it is. -/
theorem step_of_normal (ht : Stands p t c) (hn : c.next = none) :
    ∃ p', p ≤ p' ∧ step R t p.left = .ok none p'.left := by
  obtain ⟨hrec, hcomb, rfl⟩ := ht
  exact step_of_idle hrec (idle_of_next t hcomb hn)

/-- A combination that has a next step takes it, and pays for one step. -/
theorem step_of_next (ht : Stands p t c) {d : Combination} (hd : c.next = some d) :
    ∃ u p', p ≤ p' ∧ step R t p.left = .ok (some ⟨u, 1⟩) p'.left ∧ Stands p' u d := by
  obtain ⟨hrec, hcomb, rfl⟩ := ht
  exact step_of_stepsTo hrec (yields_leftmost R t hcomb hd p.right)

/-- What a step of a combination tells about its next step. -/
theorem step_cases (ht : Stands p t c) {o : Option Stepped} {s : Store}
    (h : step R t p.left = .ok o s) :
    (o = none ∧ c.next = none) ∨
      ∃ u d p', o = some ⟨u, 1⟩ ∧ c.next = some d ∧ p'.left = s ∧ Stands p' u d := by
  cases hn : c.next with
  | none =>
    obtain ⟨p', -, hstep⟩ := step_of_normal (R := R) ht hn
    rw [h] at hstep
    cases hstep
    exact .inl ⟨rfl, rfl⟩
  | some d =>
    obtain ⟨u, p', -, hstep, hu⟩ := step_of_next (R := R) ht hn
    rw [h] at hstep
    injection hstep with ho hs
    exact .inr ⟨u, d, p', ho, rfl, hs.symm, hu⟩

/-! ### Runs -/

/-- What a run ends with: a final term that is a normal form. -/
structure EndsAt (n : Combination) (out : Run) : Prop where
  final : out.final = true
  forms : out.term.Forms n

/-- A run with enough budget ends with the normal form that the strategy leads to. -/
theorem runFrom_of_leads {n : Combination} (h : Leads c n) (hn : n.next = none) :
    ∃ M : Nat, ∀ {p : Twins} {t : Term}, Stands p t c → ∀ (R : Rules) (budget : Int)
      (steps patience : Nat), (steps + M : Nat) ≤ budget → ∃ out p', p ≤ p' ∧
        runFrom R budget t steps patience p.left = .ok out p'.left ∧ EndsAt n out := by
  induction h using Relation.ReflTransGen.head_induction_on with
  | refl =>
    refine ⟨0, fun {p t} ht R budget steps patience _ => ?_⟩
    obtain ⟨p', later, hstep⟩ := step_of_normal (R := R) ht hn
    exact ⟨_, p', later, runFrom_of_normal hstep, rfl, ht.forms⟩
  | head hnext _ ih =>
    obtain ⟨M, hM⟩ := ih
    refine ⟨M + 1, fun {p t} ht R budget steps patience hb => ?_⟩
    obtain ⟨u, p₁, later, hstep, hu⟩ := step_of_next (R := R) ht hnext
    obtain ⟨out, p₂, later', hrun, hout⟩ := hM hu R budget (steps + 1) patience (by omega)
    refine ⟨out, p₂, Twins.le_trans later later', ?_, hout⟩
    rw [runFrom_of_step (by omega) hstep Nat.one_ne_zero, hrun]

/-- A run that is final ends with a normal form that the strategy leads to. -/
theorem leads_of_runFrom {budget : Int} {steps patience : Nat} {out : Run} {s : Store}
    (ht : Stands p t c) (hrun : runFrom R budget t steps patience p.left = .ok out s)
    (hfinal : out.final = true) :
    ∃ n, Leads c n ∧ n.next = none ∧ out.term.Forms n := by
  generalize hs : p.left = s₀ at hrun
  fun_induction runFrom R budget t steps patience s₀ generalizing p c with
  | case1 => cases hrun
  | case4 => cases hrun
  | case6 => cases hrun
  | case2 t steps patience s₀ hb s₁ hstep =>
    cases hrun
    rw [← hs] at hstep
    rcases step_cases ht hstep with ⟨-, hn⟩ | ⟨u, d, p', ho, -⟩
    · exact ⟨c, .refl, hn, ht.forms⟩
    · cases ho
  | case7 t steps patience s₀ hb o s₁ hstep =>
    cases hrun
    rw [← hs] at hstep
    rcases step_cases ht hstep with ⟨-, hn⟩ | ⟨u, d, p', rfl, -⟩
    · exact ⟨c, .refl, hn, ht.forms⟩
    · cases hfinal
  | case5 t steps patience s₀ hb r s₁ hstep hc ih =>
    rw [← hs] at hstep
    rcases step_cases ht hstep with ⟨ho, -⟩ | ⟨u, d, p', ho, hnext, hs', hu⟩
    · cases ho
    · cases ho
      obtain ⟨n, hn, hnormal, hout⟩ := ih hu hs' hrun
      exact ⟨n, hn.head hnext, hnormal, hout⟩
  | case3 t steps patience s₀ hb r s₁ hstep hc =>
    -- a step of a combination is not free
    rw [← hs] at hstep
    rcases step_cases ht hstep with ⟨ho, -⟩ | ⟨u, d, p', ho, -⟩
    · cases ho
    · cases ho
      cases hc

/-- A run takes steps from the application to the arguments; a strict one must be final. -/
theorem run_ok_iff {budget : Amount} {args : List Term} {strict : Bool} {s s' : Store}
    {out : Run} :
    run R budget t args strict s = .ok out s' ↔
      ∃ start s₁ b, apply R t args s = .ok start s₁ ∧ budget.bound? = some b ∧
        runFrom R b start 0 patience s₁ = .ok out s' ∧ (strict = true → out.final = true) := by
  have bound (s₁ s₂ : Store) (b : Int) :
      Engine.bound budget s₁ = .ok b s₂ ↔ budget.bound? = some b ∧ s₁ = s₂ := by
    unfold Engine.bound
    cases hb : budget.bound? with
    | none => exact ⟨nofun, nofun⟩
    | some m => exact Engine.pure_ok_iff.trans (by rw [Option.some_inj])
  have checked (out' : Run) (s₁ : Store) :
      (do
        if strict && !out'.final then throw (.runOutOfSteps t budget)
        return out' : Engine Run) s₁ = .ok out s' ↔
        out' = out ∧ s₁ = s' ∧ (strict = true → out.final = true) := by
    split
    · next h =>
      rw [Bool.and_eq_true, Bool.not_eq_true'] at h
      refine ⟨nofun, ?_⟩
      rintro ⟨rfl, -, hf⟩
      rw [hf h.1] at h
      cases h.2
    · next h =>
      refine Engine.pure_ok_iff.trans ⟨?_, fun ⟨h₁, h₂, _⟩ => ⟨h₁, h₂⟩⟩
      rintro ⟨rfl, rfl⟩
      refine ⟨rfl, rfl, fun hs => ?_⟩
      rw [hs] at h
      simpa using h
  unfold run
  constructor
  · intro h
    obtain ⟨start, s₁, hstart, h₁⟩ := Engine.bind_ok_iff.mp h
    obtain ⟨b, s₂, hb, h₂⟩ := Engine.bind_ok_iff.mp h₁
    obtain ⟨out', s₃, hrun, h₃⟩ := Engine.bind_ok_iff.mp h₂
    obtain ⟨hlimit, rfl⟩ := (bound _ _ _).mp hb
    obtain ⟨rfl, rfl, hf⟩ := (checked _ _).mp h₃
    exact ⟨start, s₁, b, hstart, hlimit, hrun, hf⟩
  · rintro ⟨start, s₁, b, hstart, hb, hrun, hf⟩
    refine Engine.bind_ok_iff.mpr ⟨start, s₁, hstart, ?_⟩
    refine Engine.bind_ok_iff.mpr ⟨b, s₁, (bound _ _ _).mpr ⟨hb, rfl⟩, ?_⟩
    refine Engine.bind_ok_iff.mpr ⟨out, s', hrun, ?_⟩
    exact (checked _ _).mpr ⟨rfl, rfl, hf⟩

/-- A run without arguments takes steps from the term itself. -/
theorem run_nil_ok_iff {budget : Amount} {strict : Bool} {s s' : Store} {out : Run} :
    run R budget t [] strict s = .ok out s' ↔
      ∃ b, budget.bound? = some b ∧ runFrom R b t 0 patience s = .ok out s' ∧
        (strict = true → out.final = true) := by
  have start : apply R t [] s = .ok t s := by
    rw [apply_nil]
    rfl
  rw [run_ok_iff]
  constructor
  · rintro ⟨u, s₁, b, hu, rest⟩
    rw [start] at hu
    cases hu
    exact ⟨b, rest⟩
  · rintro ⟨b, rest⟩
    exact ⟨t, s, b, start, rest⟩

/-- A run on arguments is a run of the term applied to them. -/
theorem run_eq_apply_bind (R : Rules) (budget : Amount) (t : Term) (args : List Term) :
    run R budget t args false = apply R t args >>= fun u => run R budget u [] false := by
  unfold run
  simp only [apply_nil, pure_bind, Bool.false_and, Bool.false_eq_true, if_false]

mutual

/-- The combinators of a term of a scope are pure. -/
theorem Recorded.isPure_of_fits {ok : Native → Prop} {H : Heap} {s : Store} : ∀ {t : Term}
    {Γ : Scope}, t.Recorded ok H → t.Fits Γ s → t.Recorded (fun c => c.isPure = true) H
  | var _, _, _, _ => trivial
  | native _, _, _, hfits => hfits
  | foreign _, _, _, hfits => hfits.elim
  | named _ d, _, ht, hfits => Recorded.isPure_of_fits (t := d) ht hfits.2
  | lam _ b, _, ht, hfits => Recorded.isPure_of_fits (t := b) ht hfits.2.2
  | app _ _ _, _, ⟨hn, hh, has⟩, hfits =>
    ⟨hn, Recorded.isPure_of_fits hh hfits.2.1, RecordedAll.isPure_of_fits has hfits.2.2⟩

theorem RecordedAll.isPure_of_fits {ok : Native → Prop} {H : Heap} {s : Store} :
    ∀ {ts : List Term} {Γ : Scope}, RecordedAll ok H ts → FitsAll Γ s ts →
      RecordedAll (fun c => c.isPure = true) H ts
  | [], _, _, _ => trivial
  | _ :: _, _, ⟨ht, hts⟩, hfits =>
    ⟨Recorded.isPure_of_fits ht hfits.1, RecordedAll.isPure_of_fits hts hfits.2⟩

end

/-- All combinators of a combination are pure. -/
theorem Recorded.isPure {ok : Native → Prop} {H : Heap} (h : t.Recorded ok H)
    (ct : t.IsCombination) : t.Recorded (fun c => c.isPure = true) H :=
  h.isPure_of_fits (ct.fits (Γ := .ofFree { v | t.occurs v = true }) (s := {}) fun _ hv => hv)

end Term

end Combinatory
