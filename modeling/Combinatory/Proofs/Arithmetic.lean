import Combinatory.Proofs.Counting
import Mathlib.Algebra.Group.Nat.Defs

/-!
# Arithmetic of numerals

A numeral applied to another one is a power, the composition of two is a product, the successor
repeated on one is a sum, and `S B` is the successor. What happens on the way to `f (f (… x))` is
followed by two weights: what a function adds, and what a sum comes to. A step of a sum leaves what
it comes to as it is (`Sums.next`), and no numeral that is met on the way exceeds it. So each of the
four is evaluated to the right number if this number can be built (`Reachable.counts_arithmetic`).
-/

namespace Combinatory

open Combination (Leads Rewrites)
open Relation (ReflTransGen)

namespace Combination

variable {f x : Variable} {g t u : Combination} {m n : Nat}

/-! ### Sums -/

/-- How often a function applies `f`. -/
inductive Adds (f : Variable) : Nat → Combination → Prop
  | once : Adds f 1 (var f)
  | times (k : Nat) {m : Nat} {g : Combination} (h : Adds f m g) :
    Adds f (k * m) (app (native (.numeral k)) g)

/-- How often `f` is applied to `x` in the end. -/
inductive Sums (f x : Variable) : Nat → Combination → Prop
  | zero : Sums f x 0 (var x)
  | add {m n : Nat} {g t : Combination} (hg : Adds f m g) (ht : Sums f x n t) :
    Sums f x (m + n) (app g t)

/-- A function that is repeated adds as much each time. -/
theorem Sums.iterate (hg : Adds f m g) (ht : Sums f x n t) (k : Nat) :
    Sums f x (k * m + n) ((app g)^[k] t) := by
  induction k with
  | zero => simpa using ht
  | succ k ih =>
    rw [Function.iterate_succ_apply', Nat.succ_mul, Nat.add_right_comm, Nat.add_comm]
    exact .add hg ih

/-- A numeral that is applied to a function again and again multiplies what this adds each time. -/
theorem Adds.iterate (hg : Adds f m g) (n k : Nat) :
    Adds f (n ^ k * m) ((app (native (.numeral n)))^[k] g) := by
  induction k with
  | zero => simpa using hg
  | succ k ih =>
    rw [Function.iterate_succ_apply', Nat.pow_succ', Nat.mul_assoc]
    exact .times n ih

/-- A numeral with two arguments repeats the one on the other. -/
theorem next_numeral (k : Nat) (g t : Combination) :
    ((native (.numeral k)).apps [g, t]).next = some ((app g)^[k] t) := by
  have fires := headStep_apps (c := .numeral k) (r := .power k) (l := [g, t]) rfl rfl []
  rw [List.append_nil, Template.fill_power, apps_nil] at fires
  rw [next, fires, Option.some_or]

/-- What fires at its head takes this step first. -/
private theorem next_of_headStep (h : t.headStep = some u) : t.next = some u := by
  rw [next, h, Option.some_or]

/-- A step leaves what a sum comes to. -/
theorem Sums.next (ht : Sums f x n t) (hu : t.next = some u) : Sums f x n u := by
  induction ht generalizing u with
  | zero => cases hu
  | @add m n g t hg ht ih =>
    cases hg with
    | once =>
      rw [next_app_var] at hu
      obtain ⟨v, hv, rfl⟩ := Option.map_eq_some_iff.mp hu
      exact .add .once (ih hv)
    | @times k m g hg =>
      have fires : (app (app (native (.numeral k)) g) t).next =
          some ((app g)^[k] t) := next_numeral k g t
      rw [fires] at hu
      cases hu
      exact .iterate hg ht k

/-- So does every number of steps. -/
theorem Sums.leads (ht : Sums f x n t) (hu : Leads t u) : Sums f x n u := by
  induction hu with
  | refl => exact ht
  | tail _ hstep ih => exact ih.next hstep

/-- A function applied to something is rewritten to `f` applied to it as often as it says. -/
theorem Adds.steps (hg : Adds f m g) (t : Combination) :
    ReflTransGen Rewrites (app g t) ((app (var f))^[m] t) := by
  induction hg generalizing t with
  | once => exact .refl
  | @times k m g _ ih =>
    have repeated : ReflTransGen Rewrites ((app g)^[k] t) ((app (var f))^[k * m] t) := by
      induction k with
      | zero =>
        rw [Nat.zero_mul]
        exact .refl
      | succ k ihk =>
        rw [Function.iterate_succ_apply', Nat.succ_mul, Nat.add_comm, Function.iterate_add_apply]
        exact (Rewrites.steps_app .refl ihk).trans (ih _)
    exact .head (rewrites_of_next (next_numeral k g t)) repeated

/-- A sum leads to what it comes to. -/
theorem Sums.leads_iterate (ht : Sums f x n t) : Leads t ((app (var f))^[n] (var x)) := by
  refine leads_of_steps ?_ (next_iterate f x n)
  induction ht with
  | zero => exact .refl
  | @add m n g t hg _ ih =>
    rw [Function.iterate_add_apply]
    exact (Rewrites.steps_app .refl ih).trans (hg.steps _)

/-! ### Tallies of sums -/

/-- A numeral that is applied to a function is built as an application. -/
private theorem Adds.exists_tally (hg : Adds f m g) : ∃ y, g.tally f x = .ok y := by
  induction hg with
  | once => exact ⟨_, rfl⟩
  | times k _ ih =>
    obtain ⟨y, hy⟩ := ih
    exact ⟨_, tally_app (y := .numeral k) rfl hy⟩

/-- A sum can be tallied if it comes to less than the least number that is too long, and where it
is built as a numeral this is what it comes to. -/
theorem Sums.exists_tally (hfx : f ≠ x) (ht : Sums f x n t) (hn : n < Native.numeralBound) :
    ∃ y, t.tally f x = .ok y ∧ ∀ k, y = .numeral k → k = n := by
  induction ht with
  | zero =>
    refine ⟨.numeral 0, ?_, ?_⟩
    · rw [tally, if_neg hfx.symm, if_pos rfl]
      rfl
    · rintro k ⟨⟩
      rfl
  | @add m n g t hg _ ih =>
    obtain ⟨y, hy, hk⟩ := ih (by omega)
    cases hg with
    | once =>
      have successor : (var f).tally f x = .ok (.native .successor) := by
        rw [tally, if_pos rfl]
        rfl
      rw [tally_app successor hy]
      by_cases literal : ∃ k, y = .numeral k
      · obtain ⟨k, rfl⟩ := literal
        obtain rfl := hk k rfl
        refine ⟨.numeral (k + 1), ?_, ?_⟩
        · rw [Skeleton.apply, if_pos (by omega)]
          rfl
        · rintro j ⟨⟩
          exact Nat.add_comm k 1
      · refine ⟨_, Skeleton.apply_of_unmet (by simp) fun _ k hy => literal ⟨k, hy⟩, ?_⟩
        rintro j ⟨⟩
    | times k hg =>
      obtain ⟨z, hz⟩ := hg.exists_tally (x := x)
      have spine : (app (native (.numeral k)) _).tally f x = .ok (.app (.numeral k) [z]) :=
        tally_app (y := .numeral k) rfl hz
      refine ⟨.app (.numeral k) [z, y], tally_app spine hy, ?_⟩
      rintro j ⟨⟩

/-- All that a sum leads to can be tallied exactly if what it comes to can be built. -/
theorem Sums.tallied_iff (hfx : f ≠ x) (ht : Sums f x n t) :
    t.Tallied f x ↔ n < Native.numeralBound := by
  constructor
  · intro tallied
    obtain ⟨y, hy⟩ := tallied _ ht.leads_iterate
    rw [tally_iterate hfx] at hy
    split at hy
    · assumption
    · cases hy
  · intro hn u hu
    obtain ⟨y, hy, -⟩ := (ht.leads hu).exists_tally hfx hn
    exact ⟨y, hy⟩

end Combination

namespace Skeleton

/-- The successor repeated on a numeral gives a sum. -/
theorem iterate_successor (n k : Nat) : iterate (.native .successor) (.numeral n) k =
    if k = 0 ∨ n + k < Native.numeralBound then .ok (.numeral (n + k))
    else .error .numeralTooLong := by
  induction k generalizing n with
  | zero => simp [iterate, pure, Except.pure]
  | succ k ih =>
    rw [iterate, apply]
    by_cases hn : n + 1 < Native.numeralBound
    · rw [if_pos hn]
      have next : apply (.numeral (n + 1)) [] = .ok (.numeral (n + 1)) := by
        simp [apply, pure, Except.pure]
      rw [next]
      change iterate _ (.numeral (n + 1)) k = _
      rw [ih, Nat.add_right_comm, Nat.add_assoc]
      have same : k = 0 ∨ n + (k + 1) < Native.numeralBound ↔
          k + 1 = 0 ∨ n + (k + 1) < Native.numeralBound := by omega
      simp only [same]
    · rw [if_neg hn, if_neg (by omega)]
      rfl

/-- A numeral with two arguments repeats the one on the other, and leaves the rest. -/
theorem step_numeral (k : Nat) (f x : Skeleton) (as : List Skeleton) :
    (app (.numeral k) (f :: x :: as)).step = do
      let y ← iterate f x k
      return some (← y.apply as) := by
  rw [step, reduce, contract]
  cases iterate f x k with
  | error e => rfl
  | ok y =>
    change (do
      let o ← (do return some (← y.apply as) : Except Failure (Option Skeleton))
      _) = (do return some (← y.apply as) : Except Failure (Option Skeleton))
    cases y.apply as <;> rfl

/-- A run of a numeral on the successor and two numerals takes two steps. -/
theorem runFrom_sum (m n steps left : Nat) :
    (app (.numeral m) [.native .successor, .numeral n, .native .successor, .numeral 0]).runFrom
        steps (left + 2) =
      if m + n < Native.numeralBound then .ok ⟨.numeral (m + n), steps + 2, true⟩
      else .error .numeralTooLong := by
  have bound := Native.numeralBound_pos
  rw [runFrom, step_numeral, iterate_successor, Nat.add_comm n m]
  by_cases first : m = 0 ∨ m + n < Native.numeralBound
  · rw [if_pos first]
    change runFrom (app (.numeral (m + n)) [.native .successor, .numeral 0]) (steps + 1)
      (left + 1) = _
    rw [runFrom, step_numeral, iterate_successor, Nat.zero_add]
    by_cases second : m + n < Native.numeralBound
    · rw [if_pos (.inr second), if_pos second]
      change runFrom (.numeral (m + n)) (steps + 2) left = _
      cases left <;> rfl
    · rw [if_neg (by omega), if_neg second]
      rfl
  · rw [if_neg first, if_neg (by omega)]
    rfl

end Skeleton

/-- A number is given if it can be built as a numeral, and else a numeral is too long. -/
def Engine.Counts (x : Engine Nat) (s : Store) (n : Nat) : Prop :=
  ∃ s', x s = if n < Native.numeralBound then .ok n s' else .error .numeralTooLong s'

theorem Engine.Counts.intro {x : Engine Nat} {s : Store} {n : Nat}
    (given : n < Native.numeralBound → ∃ s', x s = .ok n s')
    (refused : ¬ n < Native.numeralBound → ∃ s', x s = .error .numeralTooLong s') :
    Engine.Counts x s n := by
  unfold Engine.Counts
  split
  · next hn => exact given hn
  · next hn => exact refused hn

namespace Term

variable {p : Twins}

/-- The combinators are at hand wherever nothing else is. -/
theorem held_native {c : Native} (hc : c.isPure = true) :
    Held (.ofFree ∅) .free (.native c) (native c) p :=
  ⟨⟨fun _ h => h, nofun⟩, ⟨regular_native hc, rfl⟩, hc, hc⟩

/-- An application of combinators to combinators, as it stands, is evaluated as its skeleton is. -/
theorem counts_of_native {R : Rules} {c : Native} {l : List Native} (hc : c.isPure = true)
    (hds : ∀ d ∈ l, d.isPure = true) {y : Skeleton}
    (hy : (Skeleton.native c).apply (l.map .native) = .ok y) {maxSteps : Option Amount} {n : Nat}
    (h : ∀ {t : Term} {p' : Twins}, Held (.ofFree ∅) .free y t p' →
      Engine.Counts (t.toNumber R maxSteps) p'.left n) :
    Engine.Counts (do (← apply R (native c) (l.map .native)).toNumber R maxSteps) p.left n := by
  have args : ∀ a ∈ l.map native, Held (.ofFree ∅) .free (a.skeleton .free) a p := by
    intro a ha
    obtain ⟨d, hd, rfl⟩ := List.mem_map.mp ha
    exact held_native (hds d hd)
  have applied := (held_native hc).computes_apply (R := R) args
  have arguments : skeletons .free (l.map native) = l.map .native := by
    rw [skeletons_eq_map, List.map_map]
    rfl
  rw [arguments, hy] at applied
  obtain ⟨t, s, hok, -, p', -, rfl, held⟩ := applied
  obtain ⟨s', hs'⟩ := h held
  exact ⟨s', (Engine.bind_of_ok hok).trans hs'⟩

/-- An application of plain combinators that on two variables leads to a sum is evaluated to what
this comes to. -/
private theorem exists_budget_counts {f x : Variable} (hfx : f ≠ x) {c : Native}
    {l : List Native} (hc : c.isPlain = true) (hds : ∀ d ∈ l, d.isPlain = true)
    {h : Skeleton} {as : List Skeleton}
    (hy : (Skeleton.native c).apply (l.map .native) = .ok (.app h as)) {t : Combination} {n : Nat}
    (hnext : (((Combination.native c).apps (l.map .native)).apps [.var f, .var x]).next = some t)
    (hl : Leads t ((Combination.app (.var f))^[n] (.var x)))
    (htallied : t.Tallied f x ↔ n < Native.numeralBound) :
    ∃ N : Nat, ∀ (p : Twins) (R : Rules) (maxSteps : Option Amount) (b : Int),
      (maxSteps.getD Numeral.defaultSteps).bound? = some b → N ≤ b →
        Engine.Counts (do (← apply R (native c) (l.map .native)).toNumber R maxSteps)
          p.left n := by
  have isPure {d : Native} (hd : d.isPlain = true) : d.isPure = true := by
    cases d <;> first | rfl | cases hd
  have tallies : Combination.Tallies f x (l.map .native) (l.map .native) :=
    List.forall₂_map_left_iff.mpr
      (List.forall₂_map_right_iff.mpr (List.forall₂_same.mpr fun _ _ => rfl))
  have tally : ((Combination.native c).apps (l.map .native)).tally f x = .ok (.app h as) := by
    rw [Combination.tally_apps tallies]
    exact hy
  have start : (((Combination.native c).apps (l.map .native)).apps [.var f, .var x]).tally f x =
      .ok (.app h (as ++ [.native .successor, .numeral 0])) := by
    rw [Combination.tally_apps (Combination.tallies_counters hfx), tally]
    rfl
  have plain : ((Combination.native c).apps (l.map .native)).IsPlain := by
    refine Combination.uses_apps.mpr ⟨hc, fun a ha => ?_⟩
    obtain ⟨d, hd, rfl⟩ := List.mem_map.mp ha
    exact hds d hd
  have all := (Combination.tallied_iff_of_next start hnext).trans htallied
  obtain ⟨N, hN⟩ := exists_budget_toNumber hfx plain (hl.head hnext)
  refine ⟨N, fun p R maxSteps b hb hle => ?_⟩
  refine counts_of_native (isPure hc) (fun d hd => isPure (hds d hd)) hy fun held => ?_
  obtain ⟨given, refused⟩ := hN held tally R maxSteps b hb hle
  exact .intro (fun hn => given (all.mpr hn)) fun hn => refused (mt all.mp hn)

/-- The successor repeated on a numeral is evaluated in two steps. -/
private theorem counts_sum (m n : Nat) (p : Twins) (R : Rules) (maxSteps : Option Amount) {b : Int}
    (hb : (maxSteps.getD Numeral.defaultSteps).bound? = some b) (hle : 2 ≤ b) :
    Engine.Counts (do (← apply R (numeral m) [native .successor, numeral n]).toNumber R maxSteps)
      p.left (m + n) := by
  refine counts_of_native (c := .numeral m) (l := [.successor, .numeral n]) rfl
    (by simp [Native.isPure]) rfl fun {t p'} held => ?_
  obtain ⟨left, hleft⟩ : ∃ left, b.toNat = left + 2 := ⟨b.toNat - 2, by omega⟩
  have running : (Skeleton.apply (.app (.numeral m) [.native .successor, .numeral n])
      [.native .successor, .numeral 0] >>= Skeleton.run (maxSteps.getD Numeral.defaultSteps)) =
      if m + n < Native.numeralBound then .ok ⟨.numeral (m + n), 2, true⟩
      else .error .numeralTooLong := by
    change Skeleton.run _ (.app (.numeral m) _) = _
    rw [Skeleton.run, hb]
    simp only [hleft]
    exact (Skeleton.runFrom_sum m n 0 left).trans (by rw [Nat.zero_add])
  exact .intro (fun hn => held.toNumber_of_ok (running.trans (if_pos hn)))
    fun hn => held.toNumber_of_error rfl (running.trans (if_neg hn))

end Term

namespace Combination

variable {f x : Variable} (hfx : f ≠ x)

include hfx

/-- A numeral applied to another one is evaluated to a power. -/
private theorem exists_budget_power (m n : Nat) :
    ∃ N : Nat, ∀ (p : Twins) (R : Rules) (maxSteps : Option Amount) (b : Int),
      (maxSteps.getD Numeral.defaultSteps).bound? = some b → N ≤ b →
        Engine.Counts (do (← Term.apply R (.numeral m) [.numeral n]).toNumber R maxSteps) p.left
          (n ^ m) := by
  have sum : Sums f x (n ^ m) (app ((app (native (.numeral n)))^[m] (var f)) (var x)) := by
    simpa using Sums.add (x := x) (Adds.once.iterate n m) .zero
  have next := next_of_headStep (headStep_apps (c := .numeral m) (r := .power m)
    (l := [native (.numeral n), .var f]) rfl rfl [var x])
  rw [Template.fill_power] at next
  exact Term.exists_budget_counts hfx (c := .numeral m) (l := [.numeral n]) rfl
    (by simp [Native.isPlain]) rfl next sum.leads_iterate (sum.tallied_iff hfx)

/-- The composition of two numerals is evaluated to a product. -/
private theorem exists_budget_product (m n : Nat) :
    ∃ N : Nat, ∀ (p : Twins) (R : Rules) (maxSteps : Option Amount) (b : Int),
      (maxSteps.getD Numeral.defaultSteps).bound? = some b → N ≤ b →
        Engine.Counts (do
          (← Term.apply R (.native .B) [.numeral m, .numeral n]).toNumber R maxSteps)
          p.left (m * n) := by
  have sum : Sums f x (m * n)
      (app (app (native (.numeral m)) (app (native (.numeral n)) (var f))) (var x)) := by
    simpa using Sums.add (x := x) (.times m (.times n .once)) .zero
  exact Term.exists_budget_counts hfx (c := .B) (l := [.numeral m, .numeral n]) rfl
    (by simp [Native.isPlain]) rfl rfl sum.leads_iterate (sum.tallied_iff hfx)

/-- `S B` on a numeral is evaluated to the number after it. -/
private theorem exists_budget_next (n : Nat) :
    ∃ N : Nat, ∀ (p : Twins) (R : Rules) (maxSteps : Option Amount) (b : Int),
      (maxSteps.getD Numeral.defaultSteps).bound? = some b → N ≤ b →
        Engine.Counts (do
          (← Term.apply R (.native .S) [.native .B, .numeral n]).toNumber R maxSteps)
          p.left (n + 1) := by
  have sum : Sums f x (n + 1)
      (app (var f) (app (app (native (.numeral n)) (var f)) (var x))) := by
    simpa [Nat.add_comm] using Sums.add .once (.add (.times n .once) .zero)
  -- `B` fires once more before the weights apply
  have next : ((native .B).apps
      [var f, app (native (.numeral n)) (var f), .var x]).next = some _ := rfl
  have tallied := tallied_iff_of_next (f := f) (x := x) rfl next
  exact Term.exists_budget_counts hfx (c := .S) (l := [.B, .numeral n]) rfl
    (by simp [Native.isPlain]) rfl rfl (sum.leads_iterate.head next)
    (tallied.trans (sum.tallied_iff hfx))

end Combination

namespace Workspace

/-- Arithmetic of numerals is exact. A numeral applied to another is evaluated to a power, their
composition to a product, the successor repeated on one to a sum, and `S B` on one to the number
after it, by every budget from some budget on, whatever a caller has done before, unless the result
is too long for a numeral. -/
theorem Reachable.counts_arithmetic (m n : Nat) :
    ∃ N : Nat, ∀ w : Workspace, w.Reachable → ∀ (R : Rules) (maxSteps : Option Amount) (b : Int),
      (maxSteps.getD Numeral.defaultSteps).bound? = some b → N ≤ b →
      Engine.Counts (do (← Term.apply R (.numeral m) [.numeral n]).toNumber R maxSteps)
          w.store (n ^ m) ∧
        Engine.Counts (do
          (← Term.apply R (.native .B) [.numeral m, .numeral n]).toNumber R maxSteps)
          w.store (m * n) ∧
        Engine.Counts (do
          (← Term.apply R (.numeral m) [.native .successor, .numeral n]).toNumber R maxSteps)
          w.store (m + n) ∧
        Engine.Counts (do
          (← Term.apply R (.native .S) [.native .B, .numeral n]).toNumber R maxSteps)
          w.store (n + 1) := by
  have hfx : (⟨"f", 0⟩ : Variable) ≠ ⟨"x", 1⟩ := by decide
  obtain ⟨N₁, power⟩ := Combination.exists_budget_power hfx m n
  obtain ⟨N₂, product⟩ := Combination.exists_budget_product hfx m n
  obtain ⟨N₃, next⟩ := Combination.exists_budget_next hfx n
  refine ⟨N₁ + N₂ + N₃ + 2, fun w h R maxSteps b hb hle => ?_⟩
  obtain ⟨p, hp⟩ := h.exists_twins
  rw [← hp.left]
  exact ⟨power p R maxSteps b hb (by omega), product p R maxSteps b hb (by omega),
    Term.counts_sum m n p R maxSteps hb (by omega), next p R maxSteps b hb (by omega)⟩

/-- Three to the power of two is nine, two times three is six, two and three are five, and four
comes after three. -/
theorem counts_two_three :
    Reachable ⟨{}, [], []⟩ ∧ ∃ (N : Nat) (s₁ s₂ s₃ s₄ : Store),
      (Term.apply Rules.undeclared (.numeral 2) [.numeral 3] >>=
        fun t => t.toNumber Rules.undeclared (some (.number N))) {} = .ok 9 s₁ ∧
      (Term.apply Rules.undeclared (.native .B) [.numeral 2, .numeral 3] >>=
        fun t => t.toNumber Rules.undeclared (some (.number N))) {} = .ok 6 s₂ ∧
      (Term.apply Rules.undeclared (.numeral 2) [.native .successor, .numeral 3] >>=
        fun t => t.toNumber Rules.undeclared (some (.number N))) {} = .ok 5 s₃ ∧
      (Term.apply Rules.undeclared (.native .S) [.native .B, .numeral 3] >>=
        fun t => t.toNumber Rules.undeclared (some (.number N))) {} = .ok 4 s₄ := by
  have short (k : Nat) (hk : k < 10) : k < Native.numeralBound :=
    Nat.lt_trans hk (by decide +kernel)
  obtain ⟨N, hN⟩ := Reachable.counts_arithmetic 2 3
  obtain ⟨⟨s₁, power⟩, ⟨s₂, product⟩, ⟨s₃, sum⟩, s₄, next⟩ :=
    hN ⟨{}, [], []⟩ .refl Rules.undeclared (some (.number N)) N rfl (Int.le_refl _)
  rw [if_pos (short _ (by decide))] at power product sum next
  exact ⟨.refl, N, s₁, s₂, s₃, s₄, power, product, sum, next⟩

/-- The number after the longest numeral cannot be given, whatever the budget. -/
theorem sum_longest :
    Reachable ⟨{}, [], [.numeral (Native.numeralBound - 1), .native .successor, .numeral 1]⟩ ∧
      ∀ b : Int, 2 ≤ b → ∃ s, (Term.apply Rules.undeclared (.numeral 1)
          [.native .successor, .numeral (Native.numeralBound - 1)] >>=
        fun t => t.toNumber Rules.undeclared (some (.number b))) {} =
          .error .numeralTooLong s := by
  have reachable : Reachable
      ⟨{}, [], [.numeral (Native.numeralBound - 1), .native .successor, .numeral 1]⟩ :=
    ((ReflTransGen.single (.native (.numeral 1))).tail (.native .successor)).tail
      (.native (.numeral (Native.numeralBound - 1)))
  refine ⟨reachable, fun b hb => ?_⟩
  have long : ¬ 1 + (Native.numeralBound - 1) < Native.numeralBound := by omega
  obtain ⟨s, hs⟩ := Term.counts_sum 1 (Native.numeralBound - 1) .start Rules.undeclared
    (some (.number b)) (b := b) rfl hb
  rw [if_neg long] at hs
  exact ⟨s, hs⟩

end Workspace

end Combinatory
