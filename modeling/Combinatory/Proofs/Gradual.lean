import Combinatory.Proofs.Assembly
import Combinatory.Proofs.Completeness
import Combinatory.Proofs.Core.Compilation
import Mathlib.Algebra.Order.Floor.Div

/-!
# Gradual compilation

A term takes a number of eliminations to compile, and compilation within a budget takes as many of
them as the budget allows, in a fixed order. So it does not matter whether they are taken in one go
or in chunks: without names, each snapshot of a gradual compilation is equal to what the compilation
gives within as many eliminations, and the last one to the whole bracket form
(`Builds.bracketForms_snapshots`).
-/

namespace Combinatory

open Engine (Gives Yields)

namespace Term

variable {R : Rules} {limits : Budget} {U : Prop} {V : Set Variable} {s : Store} {t : Term}

/-- Whether a term takes a number of eliminations to compile, to a core without any. -/
structure TakesInAll (t : Term) (total : Nat) (y : Core) : Prop where
  takes : Core.Takes total (t.core .free) y
  next_eq_none : y.next = none

/-- A regular term whose combinators stand for lambda terms. -/
structure Compilable (U : Prop) (s : Store) (t : Term) : Prop where
  regular : t.Regular U ∅ s
  pure : (t.core .free).Uses fun c => c.isPure = true

theorem Compilable.later {s' : Store} (h : t.Compilable U s) (hs : s ≤ s') : t.Compilable U s' :=
  ⟨h.regular.later hs, h.pure⟩

/-- A term that was built takes its effort in eliminations. -/
theorem yields_takesInAll (hl : limits.Ample) {Γ : Scope} (hΓ : Γ.Minted s) (hfits : t.Fits Γ s)
    (ht : t.Compilable U s) :
    Yields (compile R limits [] (t.effort + 1) t) s fun _ _ =>
      t.TakesInAll t.effort (t.ski.core .free) := by
  apply ((yields_compile hl t hΓ hfits (Nat.lt_succ_self _)).and
    (yields_compile_follows hl _ [] t ∅ s ht.regular (.inl ⟨rfl, ht.pure⟩))).imp
  rintro o s' - ⟨hleaves, hfollows⟩
  have takes := hfollows.takes .free
  rw [hleaves.left, hleaves.forms.core, Nat.sub_sub_self (Nat.le_succ _)] at takes
  exact ⟨takes, Combination.next_core hfits.isBasic_ski .free⟩

/-- Whether a term is a combination of basic combinators. -/
def IsCompiled (t : Term) : Prop := t.IsCombination ∧ IsBasic t.combination

/-- Where compilation does not look at its budget, there is nothing to eliminate. -/
theorem next_eq_none_of_isBudgeted : ∀ {t : Term} {e : Places}, t.isBudgeted = false →
    (t.core e).next = none
  | var _, _, _ => rfl
  | native c, _, hb => by
    rw [isBudgeted, Bool.not_eq_false'] at hb
    exact if_pos hb
  | foreign _, _, _ => rfl
  | named _ d, _, hb => next_eq_none_of_isBudgeted (t := d) hb
  | lam _ _, _, hb => by cases hb
  | app _ _ _, _, hb => by cases hb

/-- Names are all that is opened there. -/
private theorem yields_isCompiled : ∀ {t : Term}, t.Regular U V s → t.isBudgeted = false →
    Yields (compile R limits [] 0 t) s fun o _ => o.value.IsCompiled
  | var v, _, _ => by
    unfold compile
    exact .pure ⟨trivial, trivial⟩
  | native c, _, hb => by
    rw [isBudgeted, Bool.not_eq_false'] at hb
    have comb : (native c).IsCombination := by cases c <;> first | rfl | cases hb
    unfold compile
    rw [hb, Bool.true_or, if_pos rfl]
    exact .pure ⟨comb, hb⟩
  | foreign _, ht, _ => ht.elim
  | named _ d, ht, hb => by
    unfold compile
    exact yields_isCompiled (t := d) ht.2.2 hb
  | lam _ _, _, hb => by cases hb
  | app _ _ _, _, hb => by cases hb

/-- Compilation takes as many eliminations as there are and as it is allowed to. -/
private theorem yields_compile_takes (hl : limits.Ample) {total : Nat} {y : Core}
    (ht : t.Compilable U s) (htotal : t.TakesInAll total y) (k : Nat) :
    Yields (compile R limits [] k t) s fun o s' => k - o.left = min k total ∧
      o.value.Compilable U s' ∧ Core.Takes (k - o.left) (t.core .free) (o.value.core .free) ∧
      (o.left ≠ 0 → o.value.IsCompiled) := by
  apply (yields_compile_follows hl k [] t ∅ s ht.regular (.inl ⟨rfl, ht.pure⟩)).imp
  intro o s₁ _ ho
  have takes := ho.takes .free
  obtain ⟨hle, -⟩ := htotal.takes.rest htotal.next_eq_none takes
  refine ⟨?_, ⟨ho.regular, takes.uses (fun _ => Native.isPure_of_isBase) ht.pure⟩, takes, ho.done⟩
  have := o.left_le
  by_cases hleft : o.left = 0
  · omega
  · obtain ⟨hge, -⟩ := takes.rest (ho.next_eq_none hleft .free) htotal.takes
    omega

/-- Compilation within a budget takes as many eliminations as there are and as the budget allows.
If it allows more, a combination of basic combinators is left. -/
theorem yields_compileWithin_takes (hl : limits.Ample) {total : Nat} {y : Core}
    (ht : t.Compilable U s) (htotal : t.TakesInAll total y) {budget : Amount} {k : Nat}
    (hk : budget.goal? = some (k : Int)) :
    Yields (compileWithin R limits budget t) s fun p s' => p.2 = min k total ∧
      p.1.Compilable U s' ∧ Core.Takes p.2 (t.core .free) (p.1.core .free) ∧
      (p.2 < k → p.1.IsCompiled) := by
  unfold compileWithin
  cases hbudget : t.isBudgeted with
  | true =>
    have allowed : Engine.goal budget = pure (k : Int) := by
      rw [Engine.goal, hk]
    simp only [if_true, allowed, pure_bind, Int.toNat_natCast]
    apply (yields_compile_takes hl ht htotal k).bind
    rintro o s₁ - ⟨hspent, compilable, takes, done⟩
    exact .pure ⟨hspent, compilable, takes, fun hlt => done (by dsimp only at hlt; omega)⟩
  | false =>
    obtain ⟨hzero, -⟩ :=
      (Core.Takes.refl _).rest (next_eq_none_of_isBudgeted hbudget) htotal.takes
    obtain rfl : total = 0 := Nat.le_zero.mp hzero
    simp only [Bool.false_eq_true, if_false, pure_bind, Int.toNat_zero]
    apply ((yields_compile_takes hl ht htotal 0).and (yields_isCompiled ht.regular hbudget)).bind
    rintro o s₁ - ⟨⟨-, compilable, takes, -⟩, done⟩
    exact .pure ⟨by simp, compilable, takes, fun _ => done⟩

end Term

variable {R : Rules} {limits : Budget} {U : Prop} {s s' : Store} {ts : List Term} {t u : Term}
  {total k i : Nat} {y : Core}

/-- A term that was built is compilable, without names if it has none. -/
theorem Builds.compilable (h : Builds s ts) (ht : t ∈ ts) (hU : t.pending ≠ 0 → U) :
    t.Compilable U s := by
  refine ⟨?_, (h.fits ht).uses_core⟩
  by_cases named : U
  · rw [eq_true named]
    exact h.assembled.regular ht
  · rw [eq_false named]
    exact h.regular ht (not_not.mp (mt hU named))

/-- A term that was built takes its effort in eliminations to compile. -/
theorem Builds.takesInAll (h : Builds s ts) (ht : t ∈ ts) (hs : s ≤ s') (hsane : s'.Sane)
    (hl : limits.Ample) : t.TakesInAll t.effort (t.ski.core .free) := by
  obtain ⟨-, -, -, -, -, htotal⟩ := Term.yields_takesInAll (R := Rules.undeclared) hl
    ((h.sealed ht).later hs).minted ((h.fits ht).later hs) ((h.compilable ht id).later hs) hsane
  exact htotal

/-! ### Snapshots -/

/-- Whether a snapshot shows a term as it is after so many chunks of eliminations. -/
structure Compilation.Shows (U : Prop) (t : Term) (total k i : Nat) (r : Run) (s : Store) :
    Prop where
  compilable : r.term.Compilable U s
  takes : Core.Takes r.steps (t.core .free) (r.term.core .free)
  steps : r.steps = min (i * k) total
  final : r.final = true ↔ total ⌈/⌉ k ≤ i
  start : i = 0 → r.term = t
  /-- What is left once a chunk was not used up. -/
  compiled : r.steps < i * k → r.term.IsCompiled

theorem Compilation.Shows.later {r : Run} (h : Shows U t total k i r s) (hs : s ≤ s') :
    Shows U t total k i r s' :=
  { h with compilable := h.compilable.later hs }

/-- Whether a gradual compilation of a term stands where the next snapshot comes after so many
chunks of eliminations. -/
structure Compilation.Reaches (U : Prop) (t : Term) (total k i : Nat) (c : Compilation)
    (s : Store) : Prop where
  compilable : c.term.Compilable U s
  takes : Core.Takes c.steps (t.core .free) (c.term.core .free)
  steps : c.steps = min (i * k) total
  start : i = 0 → c.term = t
  compiled : c.steps < i * k → c.term.IsCompiled
  unfinished : c.finished = false

/-- The next snapshot is final when there is nothing left to eliminate, and another chunk of
eliminations is taken after it. -/
private theorem Compilation.Reaches.yields_next (hl : limits.Ample)
    (htotal : t.TakesInAll total y) {perStep : Amount} (hk : perStep.goal? = some (k : Int))
    (hpos : 0 < k) {c : Compilation} (h : c.Reaches U t total k i s) :
    Yields (Compilation.next R limits perStep c) s fun o s' => ∃ r c', o = some (r, c') ∧
      Shows U t total k i r s' ∧
      ((total ⌈/⌉ k ≤ i ∧ c'.finished = true) ∨
        (i < total ⌈/⌉ k ∧ c'.Reaches U t total k (i + 1) s')) := by
  have rest : c.term.TakesInAll (total - c.steps) y :=
    ⟨(htotal.takes.rest htotal.next_eq_none h.takes).2, htotal.next_eq_none⟩
  unfold Compilation.next
  rw [h.unfinished, if_neg Bool.false_ne_true]
  apply (Term.yields_compileWithin_takes hl h.compilable rest hk).bind
  rintro ⟨u, spent⟩ s₁ hs ⟨hspent, compilable, htakes, compiled⟩
  dsimp only at hspent compilable htakes compiled ⊢
  have done : spent = 0 ↔ total ⌈/⌉ k ≤ i := by
    rw [ceilDiv_le_iff_le_mul hpos, hspent, h.steps, Nat.mul_comm k i]
    omega
  refine .pure ⟨_, _, rfl,
    ⟨h.compilable.later hs, h.takes, h.steps, by simpa using done, h.start, h.compiled⟩, ?_⟩
  have steps := h.steps
  rcases Nat.lt_or_ge i (total ⌈/⌉ k) with hlt | hge
  · refine .inr ⟨hlt, compilable, h.takes.trans htakes, ?_, fun h => absurd h (Nat.succ_ne_zero i),
      fun hless => compiled ?_, ?_⟩
    · dsimp only
      rw [Nat.succ_mul]
      omega
    · dsimp only at hless
      rw [Nat.succ_mul] at hless
      omega
    · rw [decide_eq_false_iff_not, done]
      omega
  · exact .inl ⟨hge, by simpa using done.mpr hge⟩

/-- Nothing comes after the final snapshot. -/
private theorem Compilation.unfold_of_finished {perStep : Amount} {c : Compilation}
    (h : c.finished = true) (limit : Nat) (s : Store) :
    Listing.unfold (Compilation.next R limits perStep) Except.ok limit c s =
      .ok (⟨[], none⟩ : Listing Run) s := by
  cases limit with
  | zero => rfl
  | succ limit =>
    have ended : Compilation.next R limits perStep c s = .ok none s := by
      unfold Compilation.next
      rw [if_pos h]
      rfl
    simp only [Listing.unfold, ended]

/-- The snapshots of a gradual compilation, from one on. -/
private theorem Compilation.Reaches.yields_unfold (hl : limits.Ample)
    (htotal : t.TakesInAll total y) {perStep : Amount} (hk : perStep.goal? = some (k : Int))
    (hpos : 0 < k) (limit : Nat) {c : Compilation} (h : c.Reaches U t total k i s)
    (hi : i ≤ total ⌈/⌉ k) :
    Yields (Listing.unfold (Compilation.next R limits perStep) .ok limit c) s fun l s' =>
      l.failure = none ∧ l.items.length = min limit (total ⌈/⌉ k + 1 - i) ∧
        ∀ j r, l.items[j]? = some r → Shows U t total k (i + j) r s' := by
  induction limit generalizing i c s with
  | zero =>
    refine .pure ⟨rfl, by simp, ?_⟩
    simp
  | succ limit ih =>
    intro hsane
    obtain ⟨_, s₁, hnext, hsane₁, hs₁, r, c', rfl, hr, hc'⟩ :=
      h.yields_next (R := R) hl htotal hk hpos hsane
    simp only [Listing.unfold, hnext]
    rcases hc' with ⟨hge, hfinished⟩ | ⟨hlt, hc'⟩
    · rw [unfold_of_finished hfinished]
      refine ⟨_, _, rfl, hsane₁, hs₁, rfl, ?_, ?_⟩
      · have : i = total ⌈/⌉ k := Nat.le_antisymm hi hge
        dsimp only [List.length_singleton]
        omega
      · intro j r' hj
        cases j with
        | zero =>
          cases hj
          exact hr
        | succ j => cases hj
    · obtain ⟨l, s₂, hrest, hsane₂, hs₂, hfailure, hlen, hitems⟩ := ih hc' hlt hsane₁
      rw [hrest]
      refine ⟨_, _, rfl, hsane₂, Store.le_trans hs₁ hs₂, hfailure, ?_, ?_⟩
      · dsimp only [List.length_cons]
        omega
      · intro j r' hj
        cases j with
        | zero =>
          cases hj
          exact hr.later hs₂
        | succ j =>
          rw [Nat.add_comm j 1, ← Nat.add_assoc]
          exact hitems j r' hj

/-- A gradual compilation in chunks ends, with one snapshot more than there are chunks. -/
theorem Term.Compilable.yields_bracketForms (hl : limits.Ample) (ht : t.Compilable U s)
    (htotal : t.TakesInAll total y) {perStep : Amount} (hk : perStep.goal? = some (k : Int))
    (hpos : 0 < k) (limit : Nat) :
    Yields (t.bracketForms R limits perStep limit .ok) s fun l s' =>
      l.failure = none ∧ l.items.length = min limit (total ⌈/⌉ k + 1) ∧
        ∀ i r, l.items[i]? = some r → Compilation.Shows U t total k i r s' := by
  have start : Compilation.Reaches U t total k 0 ⟨t, 0, false⟩ s :=
    ⟨ht, .refl _, by simp, fun _ => rfl, by simp, rfl⟩
  unfold Term.bracketForms
  simpa only [Nat.zero_add, Nat.sub_zero] using
    start.yields_unfold (R := R) hl htotal hk hpos limit (Nat.zero_le _)

/-! ### Chunks and the whole -/

/-- Whether, from a store on, compilation of a term within a budget always gives something that
another term is equal to, whatever else the engine has done. -/
def Term.EqualsBracketForm (s : Store) (u t : Term) (budget : Nat) : Prop :=
  ∀ s₁, s ≤ s₁ → s₁.Sane → ∀ (R : Rules) (limits : Budget), limits.Ample →
    ∀ maxSteps : Amount, maxSteps.goal? = some (budget : Int) →
      ∃ v s₂ s₃, t.bracketForm R limits maxSteps s₁ = .ok v s₂ ∧ u.equal R v s₂ = .ok true s₃

/-- What as many eliminations lead to as a budget allows is equal to the bracket form within it. -/
private theorem Term.TakesInAll.equalsBracketForm (htotal : t.TakesInAll total y)
    (ht : t.Compilable False s) (hu : u.Regular False ∅ s) {budget : Nat}
    (hcore : Core.Takes (min budget total) (t.core .free) (u.core .free)) :
    u.EqualsBracketForm s t budget := by
  intro s₁ hs hsane R limits hl maxSteps hgoal
  obtain ⟨⟨v, spent⟩, s₂, hv, -, hs₂, hspent, ⟨hreg, -⟩, htakes, -⟩ :=
    yields_compileWithin_takes (R := R) hl (ht.later hs) htotal hgoal hsane
  dsimp only at hspent hreg htakes
  rw [hspent] at htakes
  have hu₂ := hu.later (Store.le_trans hs hs₂)
  have same : u.SameSkeleton v := sameSkeleton_of_core hu₂ hreg (hcore.unique htakes)
  obtain ⟨answer, s₃, heq, -, -, -, hanswer⟩ := gives_equal (R := R) hu₂ hreg
  exact ⟨v, s₂, s₃, Engine.bind_ok_iff.mpr ⟨_, _, hv, rfl⟩, hanswer.mpr same ▸ heq⟩

/-- What a snapshot of a gradual compilation in chunks of `k` out of `total` eliminations must be
after `i` chunks. -/
structure Term.IsSnapshot (s : Store) (t : Term) (total k i : Nat) (r : Run) : Prop where
  steps : r.steps = min (i * k) total
  /-- The term is what compilation gives within as many eliminations. -/
  chunk : r.term.EqualsBracketForm s t (i * k)
  /-- The last snapshot, and no other, is final. -/
  final : r.final = true ↔ i = total ⌈/⌉ k
  /-- The last snapshot shows the whole bracket form. -/
  whole : r.final = true → ∀ budget, total ≤ budget → r.term.EqualsBracketForm s t budget

/-- A term that was built without names takes its effort in eliminations to compile: within any
budget, as many of them are taken as there are and as it allows. A gradual compilation in chunks
ends, with one snapshot more than there are chunks, and every snapshot is equal to what the
compilation gives in one go. -/
theorem Builds.bracketForms_snapshots {ts : List Term} (h : Builds s ts) (ht : t ∈ ts)
    (hp : t.pending = 0) :
    ∀ s₁, s ≤ s₁ → s₁.Sane → ∀ (R : Rules) (limits : Budget), limits.Ample →
      (∀ (maxSteps : Amount) (b : Nat), maxSteps.goal? = some (b : Int) →
        ∃ u s₂, t.compileWithin R limits maxSteps s₁ = .ok (u, min b t.effort) s₂) ∧
      ∀ (perStep : Amount) (k : Nat), perStep.goal? = some (k : Int) → 1 ≤ k → ∀ limit : Nat,
        ∃ l s₂, t.bracketForms R limits perStep limit .ok s₁ = .ok l s₂ ∧ s₁ ≤ s₂ ∧ s₂.Sane ∧
          l.failure = none ∧ l.items.length = min limit (t.effort ⌈/⌉ k + 1) ∧
          ∀ i r, l.items[i]? = some r → t.IsSnapshot s₂ t.effort k i r := by
  intro s₁ hs hsane R limits hl
  have regular : t.Compilable False s₁ := (h.compilable ht fun hne => hne hp).later hs
  have htotal := h.takesInAll ht hs hsane hl
  refine ⟨fun maxSteps b hb => ?_, fun perStep k hk hpos limit => ?_⟩
  · obtain ⟨⟨u, spent⟩, s₂, hu, -, -, rfl, -⟩ :=
      Term.yields_compileWithin_takes (R := R) hl regular htotal hb hsane
    exact ⟨u, s₂, hu⟩
  · obtain ⟨l, s₂, hl', hsane₂, hs₂, hfailure, hlen, hitems⟩ :=
      regular.yields_bracketForms (R := R) hl htotal hk hpos limit hsane
    refine ⟨l, s₂, hl', hs₂, hsane₂, hfailure, hlen, fun i r hi => ?_⟩
    have shows := hitems i r hi
    have hlast : i ≤ t.effort ⌈/⌉ k := by
      obtain ⟨hlt, -⟩ := List.getElem?_eq_some_iff.mp hi
      omega
    have within {budget : Nat} (hb : min budget t.effort = min (i * k) t.effort) :
        r.term.EqualsBracketForm s₂ t budget := by
      refine htotal.equalsBracketForm (regular.later hs₂) shows.compilable.regular ?_
      rw [hb, ← shows.steps]
      exact shows.takes
    refine ⟨shows.steps, within rfl, ?_, fun hfinal budget hle => within ?_⟩
    · rw [shows.final]
      omega
    · have reached := (ceilDiv_le_iff_le_mul hpos).mp (shows.final.mp hfinal)
      rw [Nat.mul_comm] at reached
      omega

/-- The lambda `λ x, x B` takes eleven eliminations: in chunks of four, they are taken in three
goes, after each of which there is a snapshot. -/
theorem bracketForms_snapshots_sample :
    Builds Passing.workspace.store Passing.workspace.terms ∧ Passing.term.pending = 0 ∧
      ∃ l s, Passing.term.bracketForms Rules.undeclared ⟨.number 1, .number 4⟩ (.number 4) 10 .ok
          Passing.workspace.store = .ok l s ∧ l.failure = none ∧ l.items.length = 4 ∧
        ∀ i r, l.items[i]? = some r → r.steps = min (i * 4) 11 ∧ (r.final = true ↔ i = 3) ∧
          r.term.EqualsBracketForm s Passing.term (i * 4) := by
  have unnamed : Passing.term.pending = 0 := by decide
  have effort : Passing.term.effort = 11 := by decide
  obtain ⟨-, chunks⟩ := Passing.builds.bracketForms_snapshots List.mem_cons_self unnamed _
    (Store.le_refl _) Passing.reachable.sane Rules.undeclared _ Passing.ample
  obtain ⟨l, s, hl, -, -, hfailure, hlen, hitems⟩ :=
    chunks (.number 4) 4 rfl (by decide) 10
  rw [effort] at hlen hitems
  refine ⟨Passing.builds, unnamed, l, s, hl, hfailure, hlen, fun i r hi => ?_⟩
  have shows := hitems i r hi
  exact ⟨shows.steps, shows.final, shows.chunk⟩

end Combinatory
