import Combinatory.Canonical
import Combinatory.Proofs.Trail

/-!
# The search for a canonical form ends

Within limits that are numbers, a run, the search for a canonical form, and the guess that takes its
place end with terms of the kinds at hand. A guess looks at halves that are smaller than the whole.
-/

namespace Combinatory

open Engine (Ends)

/-- Whether the limits of a computation are numbers, so that what is counted reaches them. -/
structure Budget.Numeric (limits : Budget) : Prop where
  steps : ∃ b, limits.steps.bound? = some b
  args : ∃ n, limits.args.whole? = some n

namespace Term

variable {K : Kinds} {R : Rules} {t : Term}

/-! ### Runs -/

private theorem ends_runFrom (hK : K.Closed R) (budget : Int) (ht : t.MadeOf K)
    (steps patience : Nat) : Ends (fun s => runFrom R budget t steps patience s) K.Obstacle
      fun out => out.term.MadeOf K := by
  intro s
  obtain ⟨l, y, trail, last⟩ := Trail.exists_last hK budget ⟨t, steps, s⟩ ht
  obtain ⟨left, hrun⟩ := trail.exists_runFrom hK ht patience
  have hy := trail.madeOf hK ht
  rw [last.runFrom_eq] at hrun
  change runFrom R budget t steps patience s = _ at hrun
  cases hstep : y.term.step R y.store with
  | error e s' =>
    rw [hstep] at hrun
    simp only [hrun]
    exact (ends_step hK hy).of_error hstep
  | ok o s' =>
    rw [hstep] at hrun
    simp only [hrun]
    exact hy

/-- A run ends, with any number for a budget. Only a strict one may fail for want of steps. -/
theorem ends_run (hK : K.Closed R) {budget : Amount} {b : Int} (hb : budget.bound? = some b)
    (ht : t.MadeOf K) {args : List Term} (hargs : MadeOfAll K args) (strict : Bool) :
    Ends (run R budget t args strict)
      (fun e => K.Obstacle e ∨ strict = true ∧ e = .runOutOfSteps t budget)
      fun out => out.term.MadeOf K := by
  unfold run
  apply ((ends_apply_madeOf hK ht hargs).widen fun _ => .inl).bind
  intro start hstart
  apply (Engine.ends_bound hb).bind
  rintro _ rfl
  apply ((ends_runFrom hK _ hstart 0 patience).widen fun _ => .inl).bind
  intro out hout
  split
  · next hstrict =>
    rw [Bool.and_eq_true] at hstrict
    exact .bind (P := fun _ => False) (.throw (.inr ⟨hstrict.1, rfl⟩)) nofun
  · exact .pure hout

/-- A run that is not strict ends, with any number for a budget. -/
theorem ends_run_lenient (hK : K.Closed R) {budget : Amount} {b : Int}
    (hb : budget.bound? = some b) (ht : t.MadeOf K) {args : List Term} (hargs : MadeOfAll K args) :
    Ends (run R budget t args false) K.Obstacle fun out => out.term.MadeOf K :=
  (ends_run hK hb ht hargs false).widen fun _ he => he.resolve_right nofun

/-! ### The search -/

/-- What a search gives, if anything, is made of the kinds at hand. -/
abbrev Found (K : Kinds) (o : Option CanonicalForm) : Prop :=
  ∀ form, o = some form → form.term.MadeOf K

private theorem ends_closeProbes (hK : K.Closed R) (probes : List Variable) (ht : t.MadeOf K) :
    Ends (closeProbes R probes t) K.Obstacle fun form => form.term.MadeOf K := by
  unfold closeProbes
  rw [ht.counted_eq, pure_bind]
  apply (ends_abstractAll hK ht probes).bind
  intro u hu
  exact .pure hu

private theorem ends_searchFrom (hK : K.Closed R) {maxSteps : Amount} {b : Int}
    (hb : maxSteps.bound? = some b) (left : Nat) {t : Term} (probes : List Variable) (spent : Nat)
    (ht : t.MadeOf K) :
    Ends (searchFrom R maxSteps t probes spent left) K.Obstacle fun p => Found K p.1 := by
  induction left generalizing t probes spent with
  | zero => exact .pure nofun
  | succ left ih =>
    unfold searchFrom
    apply (ends_run_lenient hK hb ht .nil).bind
    intro out hout
    dsimp only
    split
    · exact .pure nofun
    · split
      · apply (ends_closeProbes hK probes hout).bind
        intro form hform
        refine .pure ?_
        rintro _ ⟨⟩
        exact hform
      · apply (Engine.ends_freshVariable _).bind
        intro probe _
        apply (ends_apply_madeOf hK hout (.cons (t := var probe) trivial .nil)).bind
        intro u hu
        exact ih _ _ hu

theorem ends_search (hK : K.Closed R) {limits : Budget} (hl : limits.Numeric) (ht : t.MadeOf K) :
    Ends (search R limits t) K.Obstacle fun p => Found K p.1 := by
  obtain ⟨b, hb⟩ := hl.steps
  obtain ⟨n, hn⟩ := hl.args
  unfold search
  apply (Engine.ends_whole hn).bind
  intro args _
  exact ends_searchFrom hK hb args.toNat [] 0 ht

/-! ### The guess -/

/-- Both halves of an application are made of the kinds at hand. -/
theorem ends_split (hK : K.Closed R) {h : Term} {as : List Term} (hh : h.MadeOf K)
    (has : MadeOfAll K as) :
    Ends (split R h as) K.Obstacle fun p => p.1.MadeOf K ∧ p.2.MadeOf K := by
  unfold split
  split
  · next last hlast =>
    have parts := madeOfAll_iff.mp has
    have front : MadeOfAll K as.dropLast :=
      madeOfAll_iff.mpr fun a ha => parts a (List.dropLast_subset as ha)
    apply (ends_apply_madeOf hK hh front).bind
    intro u hu
    exact .pure ⟨hu, parts last (List.mem_of_getLast? hlast)⟩
  · exact .pure ⟨hh, hh⟩

private theorem ends_best (hK : K.Closed R) {limits : Budget} (hl : limits.Numeric)
    (ht : t.MadeOf K) {guess : Engine (Option Term)}
    (hguess : Ends guess K.Obstacle (MadeOfAny K)) :
    Ends (best R limits t guess) K.Obstacle (MadeOfAny K) := by
  unfold best
  apply (ends_search hK hl ht).bind
  rintro ⟨o, n⟩ ho
  cases o with
  | some form =>
    refine .pure ?_
    rintro _ ⟨⟩
    exact ho form rfl
  | none => exact hguess

private theorem ends_join (hK : K.Closed R) {front last : Option Term} (hf : MadeOfAny K front)
    (hl : MadeOfAny K last) : Ends (join R front last) K.Obstacle (MadeOfAny K) := by
  unfold join
  split
  · next f a =>
    apply (ends_apply_madeOf hK (hf f rfl) (.cons (hl a rfl) .nil)).bind
    intro u hu
    refine .pure ?_
    rintro _ ⟨⟩
    exact hu
  · exact .pure nofun

/-- A guess ends: patience does not matter where no hook can make the halves larger. -/
theorem ends_guess (hK : K.Closed R) {limits : Budget} (hl : limits.Numeric) (t : Term)
    (patience : Nat) (ht : t.MadeOf K) :
    Ends (guess R limits t patience) K.Obstacle (MadeOfAny K) := by
  match t with
  | app n h as =>
    obtain ⟨-, hh, has⟩ := ht
    have quiet := hh.quiet hK
    rw [guess_app]
    apply (ends_split hK hh has).traced.bind
    rintro ⟨front, last⟩ ⟨⟨hf, ha⟩, s, s', hsplit⟩
    dsimp only
    rw [if_pos (by rw [Rules.goesOn, quiet, Bool.or_true])]
    apply (ends_best hK hl hf (ends_guess hK hl front (patience - 1) hf)).bind
    intro f hf
    apply (ends_best hK hl ha (ends_guess hK hl last (patience - 1) ha)).bind
    intro a ha
    exact ends_join hK hf ha
  | var _ | native _ | foreign _ | named _ _ | lam _ _ =>
    unfold guess
    refine .pure ?_
    rintro _ ⟨⟩
termination_by t.size
decreasing_by
  · exact (size_split quiet hsplit).1
  · exact (size_split quiet hsplit).2

/-- The search for a canonical form ends. Only a strict one may fail for want of a form. -/
theorem ends_canonicalize (hK : K.Closed R) {limits : Budget} (hl : limits.Numeric)
    (ht : t.MadeOf K) (strict : Bool) :
    Ends (canonicalize R limits t strict)
      (fun e => K.Obstacle e ∨ strict = true ∧ e = .canonicalNotFound t limits.args limits.steps)
      fun c => MadeOfAny K c.canonical := by
  unfold canonicalize
  apply ((ends_search hK hl ht).widen fun _ => .inl).bind
  rintro ⟨o, n⟩ ho
  cases o with
  | some form =>
    refine .pure ?_
    rintro _ ⟨⟩
    exact ho form rfl
  | none =>
    dsimp only
    split
    · next hstrict =>
      exact .bind (P := fun _ => False) (.throw (.inr ⟨hstrict, rfl⟩)) nofun
    · apply ((ends_guess hK hl t patience ht).widen fun _ => .inl).bind
      intro o ho
      exact .pure ho

/-- The canonical form or a guess at it is found, or there is none. -/
theorem ends_canonicalize_lenient (hK : K.Closed R) {limits : Budget} (hl : limits.Numeric)
    (ht : t.MadeOf K) :
    Ends (canonicalize R limits t false) K.Obstacle fun c => MadeOfAny K c.canonical :=
  (ends_canonicalize hK hl ht false).widen fun _ he => he.resolve_right nofun

theorem ends_canonical (hK : K.Closed R) {limits : Budget} (hl : limits.Numeric)
    (ht : t.MadeOf K) : Ends (canonical R limits t) K.Obstacle (MadeOfAny K) :=
  (ends_canonicalize_lenient hK hl ht).bind fun _ h => .pure h

end Term

end Combinatory
