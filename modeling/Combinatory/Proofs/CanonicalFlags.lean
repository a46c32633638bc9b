import Combinatory.Proofs.HeadVariable
import Combinatory.Proofs.Idempotence
import Combinatory.Proofs.LargerBudgets
import Combinatory.Proofs.ProbeLimit
import Mathlib.Tactic.Ring

/-!
# What is told of a canonical form

The flags that come with a canonical form are read off the result before it is closed over the
probes. They say the same of the form itself: it consists of as many lambdas as its arity says
around a term that is headed by a variable, and the places listed as unused and as repeated are
those of the lambdas whose variables occur never, or twice at least, in that term
(`Workspace.Reachable.canonicalForm_truthful`). The binders are not the probes, but the skeleton
below the lambdas is the same.
-/

namespace Combinatory

variable {R : Rules} {U : Prop} {V : Set Variable} {Γ : Scope} {s s' : Store} {e : Places}
  {us bound : List Variable} {t b : Term} {v : Variable} {k : Nat}

namespace Term

/-! ### Occurrences -/

mutual

/-- How often `v` occurs free, definitions of names included and lambdas that bind `v` left out. -/
def occurrences (v : Variable) : Term → Nat
  | var w => if w = v then 1 else 0
  | native _ => 0
  | foreign _ => 0
  | named _ d => occurrences v d
  | lam w b => if w = v then 0 else occurrences v b
  | app _ h as => occurrences v h + occurrencesInAll v as

/-- How often `v` occurs free in some terms. -/
def occurrencesInAll (v : Variable) : List Term → Nat
  | [] => 0
  | a :: as => occurrences v a + occurrencesInAll v as

end

mutual

/-- What does not occur has no occurrences. -/
theorem occurrences_eq_zero : ∀ {t : Term}, t.occurs v = false → t.occurrences v = 0
  | var _, h => by simpa [occurs, occurrences] using h
  | native _, _ => rfl
  | foreign _, _ => rfl
  | named _ d, h => occurrences_eq_zero (t := d) h
  | lam w b, h => by
    rw [occurrences]
    split
    · rfl
    · next hw => exact occurrences_eq_zero (by simpa [occurs, hw] using h)
  | app _ h as, ho => by
    obtain ⟨hh, has⟩ := Bool.or_eq_false_iff.mp ho
    rw [occurrences, occurrences_eq_zero hh, occurrencesInAll_eq_zero has]

theorem occurrencesInAll_eq_zero : ∀ {ts : List Term}, occursAny v ts = false →
    occurrencesInAll v ts = 0
  | [], _ => rfl
  | t :: ts, h => by
    obtain ⟨ht, hts⟩ := Bool.or_eq_false_iff.mp h
    rw [occurrencesInAll, occurrences_eq_zero ht, occurrencesInAll_eq_zero hts]

end

mutual

/-- A variable that no name mentions occurs as often as its place is taken in the skeleton. -/
theorem count_skeleton : ∀ {t : Term} {V : Set Variable} {bound : List Variable} {e : Places}
    {p : Place}, t.Regular U V s → v ∈ V → (∀ w, e w = p ↔ w = v ∧ w ∉ bound) →
      (t.skeleton e).count p = if v ∈ bound then 0 else t.occurrences v
  | var w, _, bound, e, p, _, _, hp => by
    rw [skeleton, Skeleton.count, occurrences]
    by_cases hv : w = v <;> simp_all
  | native _, _, _, _, _, _, _, _ => by simp [skeleton, Skeleton.count, occurrences]
  | foreign _, _, _, _, _, ht, _, _ => ht.elim
  | named info d, _, _, _, _, ht, hv, hp => by
    rw [skeleton, occurrences]
    split
    · simp [Skeleton.count, occurrences_eq_zero (ht.2.1 v hv)]
    · exact count_skeleton ht.2.2 hv hp
  | lam y b, _, bound, e, p, ht, hv, hp => by
    have below (w : Variable) : e.bind y w = p.lift ↔ w = v ∧ w ∉ y :: bound := by
      by_cases hw : w = y
      · simp [hw, eq_comm (a := Place.bound 0)]
      · simp [Places.bind_of_ne hw, hp, hw]
    rw [skeleton, Skeleton.count, count_skeleton ht.2 (Set.mem_insert_of_mem y hv) below,
      occurrences]
    by_cases hy : y = v <;> simp [hy, eq_comm (a := v)]
  | app _ h as, _, _, _, _, ht, hv, hp => by
    rw [skeleton, Skeleton.count, count_skeleton ht.2.1 hv hp, countAll_skeletons ht.2.2 hv hp,
      occurrences]
    split <;> rfl

theorem countAll_skeletons : ∀ {ts : List Term} {V : Set Variable} {bound : List Variable}
    {e : Places} {p : Place}, RegularAll U V s ts → v ∈ V → (∀ w, e w = p ↔ w = v ∧ w ∉ bound) →
      Skeleton.countAll p (skeletons e ts) = if v ∈ bound then 0 else occurrencesInAll v ts
  | [], _, _, _, _, _, _, _ => by simp [skeletons, Skeleton.countAll, occurrencesInAll]
  | t :: ts, _, _, _, _, hts, hv, hp => by
    rw [skeletons, Skeleton.countAll, count_skeleton hts.1 hv hp, countAll_skeletons hts.2 hv hp,
      occurrencesInAll]
    split <;> rfl

end

/-! ### Symbols -/

mutual

/-- No symbols are left when some variables are bound, if only their places are taken in the
skeleton. -/
theorem symbolsUnder_eq_nil_iff (hbound : ∀ w, w ∈ bound ↔ ∃ i < k, e w = .bound i) :
    ∀ (t : Term) (rest : List Symbol),
      symbolsUnder bound t rest = [] ↔ (t.skeleton e).within k = true ∧ rest = []
  | var w, rest => by
    have here : w ∈ bound ↔ (Skeleton.var (e w)).within k = true := by
      rw [hbound w]
      cases e w <;> simp [Skeleton.within]
    rw [symbolsUnder, skeleton, ← here]
    by_cases hw : w ∈ bound <;> simp [hw]
  | native _, _ => by simp [symbolsUnder, skeleton, Skeleton.within]
  | foreign _, _ => by simp [symbolsUnder, skeleton, Skeleton.within]
  | named info d, rest => by
    rw [symbolsUnder, skeleton]
    split
    · simp [Skeleton.within]
    · exact symbolsUnder_eq_nil_iff hbound d rest
  | lam _ _, _ => by simp [symbolsUnder, skeleton, Skeleton.within]
  | app _ h as, rest => by
    rw [symbolsUnder, skeleton, Skeleton.within, symbolsUnder_eq_nil_iff hbound h,
      symbolsOfAll_eq_nil_iff hbound as, Bool.and_eq_true, and_assoc]

theorem symbolsOfAll_eq_nil_iff (hbound : ∀ w, w ∈ bound ↔ ∃ i < k, e w = .bound i) :
    ∀ (ts : List Term) (rest : List Symbol),
      symbolsOfAll bound ts rest = [] ↔ Skeleton.withinAll k (skeletons e ts) = true ∧ rest = []
  | [], rest => by simp [symbolsOfAll, skeletons, Skeleton.withinAll]
  | t :: ts, rest => by
    rw [symbolsOfAll, skeletons, Skeleton.withinAll, symbolsUnder_eq_nil_iff hbound t,
      symbolsOfAll_eq_nil_iff hbound ts, Bool.and_eq_true, and_assoc]

end

/-! ### Lambdas around a term -/

/-- Lambdas of some variables around a term, the first outermost. -/
def lams (vs : List Variable) (b : Term) : Term := vs.foldr lam b

theorem symbolsUnder_lams (us : List Variable) (b : Term) (bound : List Variable)
    (rest : List Symbol) : symbolsUnder bound (lams us b) rest =
      List.replicate us.length (.native .lambdaMark) ++
        symbolsUnder (us.reverse ++ bound) b rest := by
  induction us generalizing bound with
  | nil => rfl
  | cons u us ih =>
    rw [lams, List.foldr_cons, ← lams, symbolsUnder, ih, List.length_cons, List.replicate_succ,
      List.cons_append, List.reverse_cons, List.append_assoc, List.singleton_append]

theorem skeleton_lams (us : List Variable) (b : Term) (e : Places) :
    (lams us b).skeleton e = .close us.length (b.skeleton (e.bindAll us)) := by
  induction us generalizing e with
  | nil => rfl
  | cons u us ih => exact congrArg Skeleton.lam (ih (e.bind u))

theorem defines_lams {P : NameInfo → Term → Prop} (us : List Variable) (b : Term) :
    (lams us b).Defines P ↔ b.Defines P := by
  induction us with
  | nil => rfl
  | cons u us ih => exact ih

/-- Below lambdas that no name mentions none of their variables is mentioned. -/
theorem Regular.of_lams (h : (lams us b).Regular U V s) : b.Regular U (V ∪ { v | v ∈ us }) s := by
  induction us generalizing V with
  | nil => exact h.anti (by simp)
  | cons u us ih =>
    refine (ih h.2).anti ?_
    rintro w (hw | hw)
    · exact .inl (Set.mem_insert_of_mem u hw)
    · rcases List.mem_cons.mp hw with rfl | hw
      · exact .inl (Set.mem_insert _ V)
      · exact .inr hw

/-- Lambdas one around the other bind different variables. -/
theorem nodup_of_fits_lams (h : (lams us b).Fits Γ s) : us.Nodup := by
  suffices us.Nodup ∧ ∀ v ∈ us, v ∉ Γ.taken from this.1
  induction us generalizing Γ with
  | nil => exact ⟨.nil, nofun⟩
  | cons u us ih =>
    obtain ⟨hu, -, hb⟩ := h
    obtain ⟨nodup, below⟩ := ih hb
    refine ⟨List.nodup_cons.mpr ⟨fun hmem => below u hmem (Set.mem_insert u _), nodup⟩, ?_⟩
    refine List.forall_mem_cons.mpr ⟨hu, fun v hv htaken => ?_⟩
    exact below v hv (Set.mem_insert_of_mem u htaken)

/-- A term has the profile of something below some lambdas only if it consists of as many. -/
theorem exists_lams_of_profile {y : Skeleton} (h : t.profile e = .close k y) :
    ∃ us b, t = lams us b ∧ us.length = k ∧ b.profile (e.bindAll us) = y := by
  induction k generalizing t e with
  | zero => exact ⟨[], t, rfl, rfl, h⟩
  | succ k ih =>
    obtain ⟨v, b, rfl, hb⟩ := exists_lam_of_profile h
    obtain ⟨us, c, rfl, hlen, hc⟩ := ih hb
    exact ⟨v :: us, c, rfl, congrArg (· + 1) hlen, hc⟩

/-! ### Head variables -/

/-- A head variable occurs. -/
theorem HeadedByVariable.exists_occurs : ∀ {t : Term}, t.HeadedByVariable → ∃ v, t.occurs v = true
  | var v, _ => ⟨v, by simp [occurs]⟩
  | app _ h _, ht => by
    obtain ⟨v, hv⟩ := exists_occurs (t := h) ht
    exact ⟨v, by simp [occurs, hv]⟩

/-- A head variable is among the symbols. -/
theorem HeadedByVariable.symbols_ne_nil {rest : List Symbol} : ∀ {t : Term}, t.HeadedByVariable →
    symbolsUnder [] t rest ≠ []
  | var v, _ => by simp [symbolsUnder]
  | app _ h _, ht => symbols_ne_nil (t := h) ht

/-! ### Steps -/

/-- A search spends no more than its budget on each run, and makes a run for each probe and one
more. -/
theorem steps_le_of_searchFrom {maxSteps : Amount} {n : Int} (hn : maxSteps.bound? = some n)
    (nonneg : 0 ≤ n) {left : Nat} {vs : List Variable} {spent : Nat} {form : CanonicalForm}
    (made : t.MadeOf .pure)
    (found : t.searchFrom R maxSteps vs spent left s = .ok (some form, k) s') :
    (k : Int) ≤ spent + (form.arity + 1 - vs.length) * n := by
  induction left generalizing t vs spent s with
  | zero => cases found
  | succ left ih =>
    obtain ⟨u, i, s₁, hrun, next⟩ := searchFrom_found_iff.mp found
    have within : (i : Int) ≤ n := by
      obtain ⟨_, l, s₂, hb, trail, -⟩ :=
        exists_trail_of_final (Kinds.closed_pure R) made hrun rfl
      obtain rfl : n = _ := Option.some.inj (hn.symm.trans hb)
      have le := trail.steps_le (Kinds.closed_pure R) made
      dsimp only at le
      omega
    rcases next with ⟨-, hclose, rfl⟩ | ⟨-, v, s₂, w, s₃, -, hw, rest⟩
    · rw [arity_of_closeProbes hclose]
      have once : ((vs.length : Int) + 1 - vs.length) * n = n := by ring
      omega
    · have later := ih (madeOf_of_fed made hn hrun hw) rest
      rw [List.length_append, List.length_singleton] at later
      push_cast at later
      have once : ((form.arity : Int) + 1 - vs.length) * n =
          (form.arity + 1 - (vs.length + 1)) * n + n := by ring
      omega

end Term

namespace Skeleton

theorem close_injective (k : Nat) : Function.Injective (close k) := by
  induction k with
  | zero => exact fun _ _ h => h
  | succ k ih =>
    intro x y h
    injection h with h
    exact ih h

/-- What the counts of a skeleton say of one of the lambdas. -/
theorem mem_places_counts {k i : Nat} {x : Skeleton} {condition : Int → Bool} :
    i ∈ Probe.places (x.counts k) condition ↔
      i < k ∧ condition (x.count (.bound (k - 1 - i))) = true := by
  rw [Probe.mem_places, counts, List.getElem?_map]
  by_cases hi : i < k <;> simp [hi]

end Skeleton

/-! ### Forms -/

/-- Whether what is told of a form is true of the form itself: it is a term headed by a variable
below lambdas of some variables, and the flags say how often each of these occurs in that term and
whether anything else does. -/
structure CanonicalForm.Truthful (form : CanonicalForm) (us : List Variable) (b : Term) : Prop where
  term : form.term = .lams us b
  arity : us.length = form.arity
  nodup : us.Nodup
  headed : b.HeadedByVariable
  mem_unused : ∀ i, i ∈ form.unused ↔ ∃ v, us[i]? = some v ∧ b.occurrences v = 0
  mem_repeated : ∀ i, i ∈ form.repeated ↔ ∃ v, us[i]? = some v ∧ 2 ≤ b.occurrences v
  proper : form.proper = true ↔ 1 ≤ form.arity ∧
    form.term.symbols = List.replicate form.arity (.native .lambdaMark)
  linear : form.linear = true ↔ form.proper = true ∧ ∀ v ∈ us, b.occurrences v = 1

namespace CanonicalForm

variable {form : CanonicalForm}

/-- The skeleton of a term counts the variables of the lambdas around it. -/
private theorem count_getElem (hus : us.Nodup) (hb : b.Regular U { v | v ∈ us } s) {i : Nat}
    (hi : i < us.length) :
    (b.skeleton (Places.bindAll .free us)).count (.bound (us.length - 1 - i)) =
      b.occurrences us[i] := by
  have place (w : Variable) : Places.bindAll .free us w = .bound (us.length - 1 - i) ↔
      w = us[i] ∧ w ∉ [] := by
    simp [Places.bindAll_eq_bound_iff hus hi]
  exact (Term.count_skeleton hb (List.getElem_mem hi) place).trans (if_neg List.not_mem_nil)

/-- A place is listed if what is said of the count is true of the variable. -/
private theorem mem_places_iff (hus : us.Nodup) (hb : b.Regular U { v | v ∈ us } s)
    {condition : Int → Bool} {i : Nat} :
    i ∈ Probe.places ((b.skeleton (Places.bindAll .free us)).counts us.length) condition ↔
      ∃ v, us[i]? = some v ∧ condition (b.occurrences v) = true := by
  rw [Skeleton.mem_places_counts]
  constructor
  · rintro ⟨hi, h⟩
    rw [count_getElem hus hb hi] at h
    exact ⟨us[i], List.getElem?_eq_getElem hi, h⟩
  · rintro ⟨v, hv, h⟩
    obtain ⟨hi, rfl⟩ := List.getElem?_eq_some_iff.mp hv
    exact ⟨hi, by rwa [count_getElem hus hb hi]⟩

/-- Only the variables of the lambdas occur in a term headed by a variable if there are lambdas and
no symbols besides them. -/
private theorem within_iff (hus : us.Nodup) (headed : b.HeadedByVariable) :
    (b.skeleton (Places.bindAll .free us)).within us.length = true ↔ 1 ≤ us.length ∧
      (Term.lams us b).symbols = List.replicate us.length (.native .lambdaMark) := by
  have among (w : Variable) : w ∈ us.reverse ++ [] ↔
      ∃ i < us.length, Places.bindAll .free us w = .bound i := by
    rw [List.append_nil, List.mem_reverse]
    exact Places.mem_iff_bindAll hus
  have nothing := Term.symbolsUnder_eq_nil_iff among b []
  rw [Term.symbols, Term.symbolsUnder_lams, List.append_right_eq_self, nothing]
  refine ⟨fun h => ⟨Nat.one_le_iff_ne_zero.mpr fun none => ?_, h, rfl⟩, fun h => h.2.1⟩
  obtain rfl := List.eq_nil_of_length_eq_zero none
  exact headed.symbols_ne_nil (nothing.mpr ⟨h, rfl⟩)

/-- What is told of the skeleton below the lambdas is true of the form. -/
theorem truthful_of_traits (hterm : form.term = .lams us b) (hus : us.Nodup)
    (hb : b.Regular U { v | v ∈ us } s) (headed : b.HeadedByVariable)
    (htraits : form.traits = (b.skeleton (Places.bindAll .free us)).traits us.length) :
    form.Truthful us b := by
  obtain ⟨term, arity, proper, linear, unused, repeated⟩ := form
  obtain ⟨rfl, rfl, rfl, rfl, rfl⟩ := CanonicalForm.Traits.mk.inj htraits
  obtain rfl : term = .lams us b := hterm
  have unused (i : Nat) : i ∈ Probe.unused ((b.skeleton _).counts us.length) ↔
      ∃ v, us[i]? = some v ∧ b.occurrences v = 0 :=
    (mem_places_iff hus hb).trans (by simp)
  have repeated (i : Nat) : i ∈ Probe.repeated ((b.skeleton _).counts us.length) ↔
      ∃ v, us[i]? = some v ∧ 2 ≤ b.occurrences v :=
    (mem_places_iff hus hb).trans (by simp; rfl)
  refine ⟨rfl, rfl, hus, headed, unused, repeated, within_iff hus headed, ?_⟩
  -- what occurs once is listed nowhere
  have once : (∀ v ∈ us, b.occurrences v = 1) ↔
      Probe.unused ((b.skeleton (Places.bindAll .free us)).counts us.length) = [] ∧
        Probe.repeated ((b.skeleton (Places.bindAll .free us)).counts us.length) = [] := by
    simp only [List.eq_nil_iff_forall_not_mem, unused, repeated, List.mem_iff_getElem?]
    constructor
    · intro h
      refine ⟨fun i ⟨v, hv, hn⟩ => ?_, fun i ⟨v, hv, hn⟩ => ?_⟩ <;>
      · have := h v ⟨i, hv⟩
        omega
    · rintro ⟨atLeast, atMost⟩ v ⟨i, hv⟩
      have notNone : b.occurrences v ≠ 0 := fun hn => atLeast i ⟨v, hv, hn⟩
      have notTwice : ¬ 2 ≤ b.occurrences v := fun hn => atMost i ⟨v, hv, hn⟩
      omega
  rw [once, ← List.isEmpty_iff, ← List.isEmpty_iff]
  simp only [Bool.and_eq_true, and_assoc]

end CanonicalForm

/-- What is told of a form that a search finds is true of the form. -/
theorem SearchedIn.exists_truthful {p : Twins} (h : SearchedIn Γ p [] t)
    (waits : t.Defines NameInfo.WaitsFor) {budget : Budget} {form : CanonicalForm}
    (found : t.search R budget p.left = .ok (some form, k) s) :
    ∃ us b, form.Truthful us b := by
  have kept : form.term.WellFormed ∧ form.term.Defines NameInfo.WaitsFor :=
    ((Term.defines_invariant R _).search budget ⟨h.wellFormed, waits⟩).of_ok found form rfl
  have means :=
    (Term.ensures_search (η := True) R trivial budget h.scope (.self h.fits) _ _ found).2 form rfl
  obtain ⟨m, -, found⟩ := Term.search_ok_iff.mp found
  obtain ⟨p', vs, u, -, ended, idle, done, -, hclose⟩ := h.exists_of_searchFrom _ found
  obtain ⟨_, _, hclosed, -, -, -, regular, hskeleton, hprofile, htraits⟩ :=
    Term.gives_closeProbes (R := R) ended.probes ended.regular
  rw [hclose] at hclosed
  cases hclosed
  obtain ⟨us, b, hterm, hlen, hb⟩ := Term.exists_lams_of_profile (hprofile .free)
  rw [hterm] at kept means regular
  -- below the lambdas is what was closed, up to the names of the probes
  have headed : b.HeadedByVariable := Term.Idle.headedByVariable (Term.Idle.of_profile hb.symm idle)
    ((Term.awaitsArgs_of_profile hb).trans done) ((Term.defines_lams us b).mp kept.2)
  have same : b.skeleton (Places.bindAll .free us) = u.skeleton (Places.bindAll .free vs) := by
    have closed := hskeleton .free
    rw [hterm, Term.skeleton_lams, hlen] at closed
    exact Skeleton.close_injective _ closed
  have among : { v | v ∈ us } ⊆ ∅ ∪ { v | v ∈ us } := fun v hv => .inr hv
  refine ⟨us, b, CanonicalForm.truthful_of_traits hterm (Term.nodup_of_fits_lams means.fits)
    (regular.of_lams.anti among) headed ?_⟩
  rw [same, hlen]
  exact htraits .free

namespace Workspace

variable {w : Workspace} {ts : List Term}

/-- The flags of a canonical form that is found mean what they say: it needs less probes than are
allowed and no more steps than the runs may spend; it is headed by a variable below as many lambdas
as its arity, whose variables are counted rightly, none of them both unused and repeated; and if
nothing occurs free in the term, its arity is not zero. -/
theorem Reachable.canonicalForm_truthful (h : w.Reachable) (hts : Builds w.store ts) (ht : t ∈ ts)
    (hmem : t ∈ w.terms) {budget : Budget} {n m : Int} (hn : budget.steps.bound? = some n)
    (nonneg : 0 ≤ n) (hm : budget.args.whole? = some m) {strict : Bool} {form : CanonicalForm}
    (found : t.canonicalize R budget strict w.store = .ok (.found form k) s) :
    form.arity < m ∧ k ≤ (form.arity + 1) * n ∧ (∃ us b, form.Truthful us b) ∧
      (∀ i ∈ form.unused, i < form.arity ∧ i ∉ form.repeated) ∧
      (∀ i ∈ form.repeated, i < form.arity) ∧
      ((∀ v, t.occurs v = false) → 1 ≤ form.arity) := by
  obtain ⟨p, hp⟩ := h.exists_twins
  have searched := hp.searchedIn hts ht hmem
  have below := Term.arity_lt_of_canonicalize found hm
  rw [Term.canonicalize_found_iff, ← Term.search_ok_iff, ← hp.left] at found
  have means := (Term.ensures_search (η := True) R trivial budget searched.scope
    (.self searched.fits) _ _ found).2 form rfl
  obtain ⟨us, b, truthful⟩ := searched.exists_truthful (hts.namesWait t ht).2 found
  have listed {i : Nat} {v : Variable} (hv : us[i]? = some v) : i < form.arity :=
    truthful.arity ▸ (List.getElem?_eq_some_iff.mp hv).1
  refine ⟨below, ?_, ⟨us, b, truthful⟩, fun i hi => ?_, fun i hi => ?_, fun closed => ?_⟩
  · obtain ⟨_, -, found⟩ := Term.search_ok_iff.mp found
    have spent := Term.steps_le_of_searchFrom hn nonneg (hts.madeOf ht) found
    simpa using spent
  · obtain ⟨v, hv, none⟩ := (truthful.mem_unused i).mp hi
    refine ⟨listed hv, fun hi' => ?_⟩
    obtain ⟨v', hv', twice⟩ := (truthful.mem_repeated i).mp hi'
    obtain rfl : v = v' := Option.some.inj (hv.symm.trans hv')
    omega
  · obtain ⟨v, hv, -⟩ := (truthful.mem_repeated i).mp hi
    exact listed hv
  · -- without lambdas the head variable occurs free, and reduction makes none up
    refine Nat.one_le_iff_ne_zero.mpr fun none => ?_
    obtain rfl := List.eq_nil_of_length_eq_zero (truthful.arity.trans none)
    obtain ⟨v, hv⟩ := truthful.headed.exists_occurs
    have visible : t.occurs v = true := means.fits.visible (truthful.term ▸ hv)
    rw [closed v] at visible
    cases visible

/-- What is told of the canonical form of the combinator that drops its second argument is true of
the form, and at least one probe was needed, since the combinator has no free variable. -/
theorem canonicalForm_truthful_dropping :
    Dropping.workspace.Reachable ∧ Builds Dropping.workspace.store Dropping.workspace.terms ∧
      (∃ us b, Dropping.form.Truthful us b) ∧
      (∀ i ∈ [1], i < Dropping.form.arity ∧ i ∉ Dropping.form.repeated) ∧
      1 ≤ Dropping.form.arity := by
  obtain ⟨-, -, truthful, unused, -, closed⟩ := Dropping.reachable.canonicalForm_truthful
    Dropping.builds (t := .native .K) List.mem_cons_self List.mem_cons_self rfl
    (Int.zero_le_ofNat 1) rfl Dropping.found
  exact ⟨Dropping.reachable, Dropping.builds, truthful, unused, closed fun _ => rfl⟩

end Workspace

end Combinatory
