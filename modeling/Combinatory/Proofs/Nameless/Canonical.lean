import Combinatory.Proofs.Making
import Combinatory.Proofs.Nameless.Reduction
import Combinatory.Proofs.Settled.Canonical
import Combinatory.Proofs.Tower.Probes

/-!
# Canonical forms of skeletons

A search for the canonical form of a term without names computes the search of its skeleton: the
probes are new, so each stands for the lambda that will be closed over it. What is told of a form
besides its term depends on the skeleton alone, and so does a guess (`computes_canonicalize`).
-/

namespace Combinatory

open Engine (Computes Gives)

variable {α β : Type} {U : Prop} {R : Rules} {Γ : Scope} {s s' : Store} {e : Places}
  {V : Set Variable}

namespace Term

/-! ### Symbols -/

mutual

/-- A variable is as often among the symbols of a term as its place is taken in the skeleton. -/
theorem count_symbolsUnder {v : Variable} : ∀ (t : Term) {V : Set Variable} {bound : List Variable}
    {e : Places} {p : Place} (rest : List Symbol), t.Regular U V s →
      (∀ w, e w = p ↔ w = v ∧ w ∉ bound) →
      (symbolsUnder bound t rest).count (.var v) = (t.skeleton e).count p + rest.count (.var v)
  | var w, _, bound, e, p, rest, _, hp => by
    rw [symbolsUnder, skeleton, Skeleton.count]
    by_cases hw : w ∈ bound <;> by_cases hv : w = v <;> simp_all [Nat.add_comm]
  | native c, _, _, _, _, rest, _, _ => by
    simp [symbolsUnder, skeleton, Skeleton.count]
  | foreign _, _, _, _, _, _, ht, _ => ht.elim
  | named info d, _, _, _, _, rest, ht, hp => by
    rw [symbolsUnder, skeleton]
    split
    · simp [Skeleton.count]
    · exact count_symbolsUnder d rest ht.2.2 hp
  | lam y b, _, bound, e, p, rest, ht, hp => by
    have below (w : Variable) : e.bind y w = p.lift ↔ w = v ∧ w ∉ y :: bound := by
      by_cases hw : w = y
      · simp [hw, eq_comm (a := Place.bound 0)]
      · simp [Places.bind_of_ne hw, hp, hw]
    rw [symbolsUnder, skeleton, Skeleton.count, List.count_cons,
      count_symbolsUnder b rest ht.2 below]
    simp
  | app _ h as, _, _, _, _, rest, ht, hp => by
    rw [symbolsUnder, skeleton, Skeleton.count, count_symbolsUnder h _ ht.2.1 hp,
      count_symbolsOfAll as rest ht.2.2 hp, Nat.add_assoc]

theorem count_symbolsOfAll {v : Variable} : ∀ (ts : List Term) {V : Set Variable}
    {bound : List Variable} {e : Places} {p : Place} (rest : List Symbol), RegularAll U V s ts →
      (∀ w, e w = p ↔ w = v ∧ w ∉ bound) →
      (symbolsOfAll bound ts rest).count (.var v) =
        Skeleton.countAll p (skeletons e ts) + rest.count (.var v)
  | [], _, _, _, _, rest, _, _ => by
    rw [symbolsOfAll, skeletons, Skeleton.countAll, Nat.zero_add]
  | t :: ts, _, _, _, _, rest, hts, hp => by
    rw [symbolsOfAll, skeletons, Skeleton.countAll, count_symbolsUnder t _ hts.1 hp,
      count_symbolsOfAll ts rest hts.2 hp, Nat.add_assoc]

end

/-- Whether a symbol is one of some variables. -/
def isAmong (vs : List Variable) : Symbol → Bool
  | .var v => vs.contains v
  | _ => false

mutual

/-- Only some variables are among the symbols of a term if only their places are taken in the
skeleton. -/
theorem all_symbolsUnder {vs : List Variable} {k : Nat} : ∀ (t : Term) {V : Set Variable}
    (rest : List Symbol), t.Regular U V s → (∀ w, w ∈ vs ↔ ∃ i < k, e w = .bound i) →
      (symbolsUnder [] t rest).all (isAmong vs) =
        ((t.skeleton e).within k && rest.all (isAmong vs))
  | var w, _, rest, _, hvs => by
    have here : vs.contains w = (Skeleton.var (e w)).within k := by
      rw [Bool.eq_iff_iff, List.contains_iff_mem, hvs w]
      cases e w <;> simp [Skeleton.within]
    rw [symbolsUnder, skeleton, ← here]
    simp [isAmong]
  | native c, _, rest, _, _ => by simp [symbolsUnder, skeleton, isAmong, Skeleton.within]
  | foreign _, _, _, ht, _ => ht.elim
  | named info d, _, rest, ht, hvs => by
    rw [symbolsUnder, skeleton]
    split
    · simp [isAmong, Skeleton.within]
    · exact all_symbolsUnder d rest ht.2.2 hvs
  | lam y b, _, rest, _, _ => by simp [symbolsUnder, skeleton, isAmong, Skeleton.within]
  | app _ h as, _, rest, ht, hvs => by
    rw [symbolsUnder, skeleton, Skeleton.within, all_symbolsUnder h _ ht.2.1 hvs,
      all_symbolsOfAll as rest ht.2.2 hvs, Bool.and_assoc]

theorem all_symbolsOfAll {vs : List Variable} {k : Nat} : ∀ (ts : List Term) {V : Set Variable}
    (rest : List Symbol), RegularAll U V s ts → (∀ w, w ∈ vs ↔ ∃ i < k, e w = .bound i) →
      (symbolsOfAll [] ts rest).all (isAmong vs) =
        (Skeleton.withinAll k (skeletons e ts) && rest.all (isAmong vs))
  | [], _, rest, _, _ => by
    rw [symbolsOfAll, skeletons, Skeleton.withinAll, Bool.true_and]
  | t :: ts, _, rest, hts, hvs => by
    rw [symbolsOfAll, skeletons, Skeleton.withinAll, all_symbolsUnder t _ hts.1 hvs,
      all_symbolsOfAll ts rest hts.2 hvs, Bool.and_assoc]

end

mutual

/-- A regular term has no literal in it, whatever else it is made of. -/
theorem Regular.madeOf : ∀ {t : Term} {V : Set Variable}, t.Regular U V s →
    t.MadeOf .anything
  | var _, _, _ => trivial
  | native _, _, _ => trivial
  | foreign _, _, ht => ht.elim
  | named _ d, _, ht => ⟨trivial, Regular.madeOf (t := d) ht.2.2⟩
  | lam _ b, _, ht => Regular.madeOf (t := b) ht.2
  | app _ _ _, _, ⟨_, hh, has⟩ => ⟨fun _ => trivial, Regular.madeOf hh, RegularAll.madeOf has⟩

theorem RegularAll.madeOf : ∀ {ts : List Term} {V : Set Variable},
    RegularAll U V s ts → MadeOfAll .anything ts
  | [], _, _ => trivial
  | _ :: _, _, ⟨ht, hts⟩ => ⟨Regular.madeOf ht, RegularAll.madeOf hts⟩

end

/-! ### Forms -/

end Term

/-- What is told of a canonical form besides its term. -/
structure CanonicalForm.Traits where
  arity : Nat
  proper : Bool
  linear : Bool
  unused : List Nat
  repeated : List Nat

/-- What is told of a canonical form besides its term. -/
def CanonicalForm.traits (form : CanonicalForm) : Traits :=
  ⟨form.arity, form.proper, form.linear, form.unused, form.repeated⟩

/-- What is told of a skeleton that was found below some lambdas. -/
def Skeleton.traits (k : Nat) (x : Skeleton) : CanonicalForm.Traits :=
  let unused := Probe.unused (x.counts k)
  let repeated := Probe.repeated (x.counts k)
  ⟨k, x.within k, x.within k && unused.isEmpty && repeated.isEmpty, unused, repeated⟩

/-- The form of a skeleton that was found below some lambdas. -/
structure Outlines (e : Places) (k : Nat) (x : Skeleton) (form : CanonicalForm) (s : Store) :
    Prop where
  term : Term.Shaped e (.close k x) form.term s
  traits : form.traits = x.traits k

namespace Term

/-- What is closed over probes that no name in it mentions: it has its skeleton and its profile
below the lambdas of the probes, and its skeleton decides what is told of the form besides. -/
theorem gives_closeProbes {vs : List Variable} {t : Term} (hvs : Probes s vs)
    (ht : t.Regular U { v | v ∈ vs } s) :
    Gives (closeProbes R vs t) s fun form s' => form.term.Regular U ∅ s' ∧
      (∀ e : Places, form.term.skeleton e = .close vs.length (t.skeleton (e.bindAll vs))) ∧
      (∀ e : Places, form.term.profile e = .close vs.length (t.profile (e.bindAll vs))) ∧
      ∀ e : Places, form.traits = (t.skeleton (e.bindAll vs)).traits vs.length := by
  have counts (e : Places) : (vs.map fun v => (t.symbols.count (.var v) : Int)) =
      (t.skeleton (e.bindAll vs)).counts vs.length := by
    refine List.ext_getElem (by simp [Skeleton.counts]) fun i hi _ => ?_
    rw [List.length_map] at hi
    have place (w : Variable) : e.bindAll vs w = .bound (vs.length - 1 - i) ↔
        w = vs[i] ∧ w ∉ [] := by
      simp [Places.bindAll_eq_bound_iff hvs.nodup hi]
    have counted : t.symbols.count (.var vs[i]) =
        (t.skeleton (e.bindAll vs)).count (.bound (vs.length - 1 - i)) :=
      (count_symbolsUnder t [] ht place).trans (by simp)
    rw [List.getElem_map, counted]
    simp [Skeleton.counts]
  have proper (e : Places) : t.symbols.all (isAmong vs) =
      (t.skeleton (e.bindAll vs)).within vs.length := by
    have among (w : Variable) := Places.mem_iff_bindAll (e := e) (w := w) hvs.nodup
    rw [symbols, all_symbolsUnder t [] ht among]
    simp
  unfold closeProbes
  rw [ht.madeOf.counted_eq, pure_bind]
  apply (gives_abstractAll (V := ∅) vs (by rwa [Set.empty_union])).bind
  rintro u s₁ - ⟨hu, hskeleton, hprofile⟩
  refine .pure ⟨hu, hskeleton, hprofile, fun e => ?_⟩
  unfold CanonicalForm.traits Skeleton.traits
  rw [← counts, ← proper]
  rfl

/-- What a search ends with is closed over the probes. -/
private theorem outlines_closeProbes {vs : List Variable} {t : Term} {x : Skeleton}
    (hvs : Probes s vs) (ht : Shaped (e.bindAll vs) x t s) :
    Gives (closeProbes R vs t) s fun form s' => Outlines e vs.length x form s' := by
  obtain ⟨hplain, rfl⟩ := ht
  apply (gives_closeProbes hvs hplain.unbound).imp
  rintro form s' - ⟨regular, hskeleton, -, htraits⟩
  exact ⟨⟨regular, hskeleton e⟩, htraits e⟩

/-! ### The search -/

variable {x : Skeleton} {t : Term} {p : Twins}

/-- The parts of an application at hand are at hand. -/
theorem Held.parts {n : Nat} {h : Term} {as : List Term} (ht : Held Γ e x (app n h as) p) :
    Held Γ e (h.skeleton e) h p ∧ ∀ a ∈ as, Held Γ e (a.skeleton e) a p := by
  obtain ⟨hΓ, ⟨⟨-, hh, has⟩, -⟩, ⟨-, hfits, hafits⟩, ⟨-, hrec, harec⟩⟩ := ht
  refine ⟨⟨hΓ, hh.shaped e, hfits, hrec⟩, fun a ha => ⟨hΓ, ?_, ?_, ?_⟩⟩
  · exact (regularAll_iff.mp has a ha).shaped e
  · exact fitsAll_iff.mp hafits a ha
  · exact recordedAll_iff.mp harec a ha

/-- Applying a term at hand to others at hand gives a term at hand. -/
theorem Held.computes_apply {as : List Term} (ht : Held Γ e x t p)
    (has : ∀ a ∈ as, Held Γ e (a.skeleton e) a p) :
    Computes (apply R t as) p.left (x.apply (skeletons e as))
      fun y u s' => ∃ p', p ≤ p' ∧ p'.left = s' ∧ Held Γ e y u p' := by
  have plain : RegularAll False ∅ p.left as :=
    regularAll_iff.mpr fun a ha => (has a ha).shaped.plain
  have fits : FitsAll Γ p.left as := fitsAll_iff.mpr fun a ha => (has a ha).fits
  have recorded : RecordedAll (fun c => c.isPure = true) p.heap as :=
    recordedAll_iff.mpr fun a ha => (has a ha).recorded
  have applied := (Term.computes_apply (R := R) ht.shaped (plain.shaped e)).ensured
    (ensures_apply (η := True) R (.self ht.fits) (.self fits))
  apply (applied.and_alike (records_apply (.of_pure R p) ht.recorded recorded)).imp
  rintro y u _ - ⟨⟨hu, hmeans⟩, p', hp, rfl, hrec⟩
  exact ⟨p', hp, rfl, ht.scope.later hp.nextVariable, hu, hmeans.fits, hrec⟩

/-- A term that is fed a new variable is the lifted skeleton applied to the innermost lambda's. -/
private theorem computes_probe {vs : List Variable} (name : String)
    (ht : Held Γ (e.bindAll vs) x t p) (hvs : Probes p.left vs)
    {f : Variable → Term → Engine α} {g : Skeleton → Except Failure β} {Q : β → α → Store → Prop}
    (hf : ∀ v y u p', p ≤ p' → Probes p'.left (vs ++ [v]) →
      Held (Γ.bind v) (e.bindAll (vs ++ [v])) y u p' →
        Computes (f v u) p'.left (g y) Q) :
    Computes (do
      let v ← Engine.freshVariable name
      f v (← apply R t [var v])) p.left (do g (← x.lift.apply [.var (.bound 0)])) Q := by
  apply Computes.after_alike (Engine.gives_freshVariable name p.left)
    (Engine.alike_freshVariable p name)
  rintro v p₁ hp ⟨hfresh, hv⟩
  have hΓ := (ht.scope.later hp.nextVariable).bind hv
  have fed : Held (Γ.bind v) (e.bindAll (vs ++ [v])) x.lift t p₁ := by
    refine ⟨hΓ, ⟨ht.shaped.plain.later hp.nextVariable, ?_⟩, ?_, ht.recorded.later hp⟩
    · rw [Places.bindAll_concat, skeleton_bind (ht.shaped.plain.occurs_eq_false hfresh),
        ht.shaped.skeleton]
    · exact (ht.fits.bind_fresh hfresh).later hp.nextVariable
  have place : (var v).skeleton (e.bindAll (vs ++ [v])) = .var (.bound 0) := by
    rw [Places.bindAll_concat, Term.skeleton, Places.bind_self]
  have probe : Held (Γ.bind v) (e.bindAll (vs ++ [v])) (.var (.bound 0)) (var v) p₁ :=
    ⟨hΓ, ⟨hv, place⟩, Set.mem_insert v _, trivial⟩
  have args : ∀ a ∈ [var v], Held (Γ.bind v) (e.bindAll (vs ++ [v]))
      (a.skeleton (e.bindAll (vs ++ [v]))) a p₁ := by
    intro a ha
    rw [List.mem_singleton.mp ha, place]
    exact probe
  have applied := fed.computes_apply (R := R) args
  rw [skeletons, place, skeletons] at applied
  apply applied.bind
  rintro y u _ - ⟨p₂, hp₂, rfl, hu⟩
  exact hf v y u p₂ (Twins.le_trans hp hp₂)
    ((hvs.concat hp.nextVariable hfresh hv).later hp₂.nextVariable) hu

/-- A term awaits arguments if its skeleton does. -/
theorem awaitsArgs_skeleton : ∀ {t : Term}, t.Regular False V s →
    (t.skeleton e).awaitsArgs = t.awaitsArgs
  | var _, _ => by simp [skeleton, Skeleton.awaitsArgs, awaitsArgs]
  | native _, _ => by simp [skeleton, Skeleton.awaitsArgs, awaitsArgs]
  | foreign _, ht => ht.elim
  | named _ _, ht => ht.1.elim
  | lam _ _, _ => by simp [skeleton, Skeleton.awaitsArgs, awaitsArgs]
  | app _ _ _, ht => by rw [skeleton, Skeleton.awaitsArgs, awaitsArgs, awaitsArgs_skeleton ht.2.1]

/-- What a search ends with: a form as the skeleton's, if any, after as many steps. -/
structure Finds (e : Places) (r : Option (Skeleton × Nat) × Nat)
    (o : Option CanonicalForm × Nat) (s : Store) : Prop where
  form : Option.Rel (fun y form => Outlines e y.2 y.1 form s) r.1 o.1
  steps : o.2 = r.2

private theorem computes_searchFrom (maxSteps : Amount) (left : Nat) {vs : List Variable}
    (spent : Nat) (hvs : Probes p.left vs) (ht : Held Γ (e.bindAll vs) x t p) :
    Computes (searchFrom R maxSteps t vs spent left) p.left
      (x.searchFrom maxSteps vs.length spent left) (Finds e) := by
  induction left generalizing Γ x t p vs spent with
  | zero => exact .pure ⟨.none, rfl⟩
  | succ left ih =>
    unfold searchFrom Skeleton.searchFrom
    apply (computes_run maxSteps ht).bind
    rintro c out _ - ⟨p₁, hp₁, rfl, hterm, hsteps, hfinal⟩
    rw [hsteps, hfinal]
    cases hc : c.final with
    | false => exact .pure ⟨.none, rfl⟩
    | true =>
      simp only [Bool.not_true, Bool.false_eq_true, if_false]
      rw [← awaitsArgs_skeleton hterm.shaped.plain, hterm.shaped.skeleton]
      split
      · apply Computes.after (outlines_closeProbes (hvs.later hp₁.nextVariable) hterm.shaped)
        intro form s₂ _ hform
        exact .pure ⟨.some hform, rfl⟩
      · refine computes_probe _ hterm (hvs.later hp₁.nextVariable) fun v y u p₂ _ hvs hu => ?_
        have more : (vs ++ [v]).length = vs.length + 1 := by simp
        rw [← more]
        exact ih _ hvs hu

/-- A search computes the search of the skeleton. -/
theorem computes_search (budget : Budget) (ht : Held Γ e x t p) :
    Computes (search R budget t) p.left (x.search budget)
      fun r o s' => ∃ p', p ≤ p' ∧ p'.left = s' ∧ Finds e r o s' := by
  have searched : Computes (search R budget t) p.left (x.search budget) (Finds e) := by
    unfold search Skeleton.search Engine.whole
    cases budget.args.whole? with
    | none => exact .throw
    | some n => exact computes_searchFrom budget.steps n.toNat 0 .nil ht
  apply (searched.and_alike (records_search (.of_pure R p) budget ht.recorded)).imp
  rintro r o _ - ⟨hfinds, p', hp, rfl, -⟩
  exact ⟨p', hp, rfl, hfinds⟩

/-! ### Guesses -/

/-- What a guess may be: a term with the skeleton that was computed, or nothing. -/
abbrev Guessed (e : Places) (p : Twins) (o : Option Skeleton) (o' : Option Term) (s : Store) :
    Prop :=
  ∃ p', p ≤ p' ∧ p'.left = s ∧ ShapedAny e o o' s

/-- What is found, closed, or else the guess is computed. -/
private theorem computes_best (budget : Budget) (ht : Held Γ e x t p)
    {guess : Engine (Option Term)} {r : Except Failure (Option Skeleton)}
    (hguess : ∀ p', p ≤ p' → Computes guess p'.left r (Guessed e p')) :
    Computes (best R budget t guess) p.left (Skeleton.best budget x r) (Guessed e p) := by
  unfold best Skeleton.best
  apply (computes_search budget ht).bind
  rintro ⟨r, n⟩ ⟨o, m⟩ _ - ⟨p₁, hp, rfl, hform, -⟩
  cases hform with
  | some h => exact .pure ⟨p₁, hp, rfl, .some h.term⟩
  | none =>
    apply (hguess p₁ hp).imp
    rintro r o _ - ⟨p₂, hp₂, rfl, ho⟩
    exact ⟨p₂, Twins.le_trans hp hp₂, rfl, ho⟩

/-- Both halves of an application at hand are computed, and are at hand. -/
theorem computes_split {n : Nat} {h : Term} {as : List Term}
    (ht : Held Γ e x (app n h as) p) :
    Computes (split R h as) p.left (Skeleton.split (h.skeleton e) (skeletons e as))
      fun r o s' => ∃ p', p ≤ p' ∧ p'.left = s' ∧ Held Γ e r.1 o.1 p' ∧ Held Γ e r.2 o.2 p' := by
  obtain ⟨hh, has⟩ := ht.parts
  obtain ⟨bs, a, rfl⟩ : ∃ bs a, as = bs ++ [a] :=
    (List.eq_nil_or_concat' as).resolve_left ht.shaped.plain.1.nonempty
  unfold split Skeleton.split
  simp only [skeletons_append, skeletons, List.getLast?_concat, List.dropLast_concat]
  apply (hh.computes_apply fun b hb => has b (List.mem_append_left _ hb)).bind
  rintro y u _ - ⟨p', hp, rfl, hu⟩
  exact .pure ⟨p', hp, rfl, hu, (has a (by simp)).later hp⟩

/-- Two halves that were computed are put back together. -/
private theorem computes_join {f g : Option Skeleton} {f' g' : Option Term}
    (hf : ShapedAny e f f' s) (hg : ShapedAny e g g' s) :
    Computes (join R f' g') s (Skeleton.join f g) (ShapedAny e) := by
  cases hf with
  | none => exact .pure .none
  | some hf =>
    cases hg with
    | none => exact .pure .none
    | some hg => exact computes_some (computes_apply hf (.cons hg .nil))

/-- The guess at an application is computed if the guesses at both halves are. -/
private theorem computes_halves (budget : Budget) {front last : Term} {y z : Skeleton}
    (hf : Held Γ e y front p) (hl : Held Γ e z last p) {f g : Engine (Option Term)}
    {r q : Except Failure (Option Skeleton)}
    (hfg : ∀ p', p ≤ p' → Computes f p'.left r (Guessed e p'))
    (hlg : ∀ p', p ≤ p' → Computes g p'.left q (Guessed e p')) :
    Computes (do
      let f ← best R budget front f
      let a ← best R budget last g
      join R f a) p.left (do
        let f ← Skeleton.best budget y r
        let a ← Skeleton.best budget z q
        Skeleton.join f a) (ShapedAny e) := by
  apply (computes_best budget hf hfg).bind
  rintro o o' _ - ⟨p₁, hp₁, rfl, ho⟩
  apply (computes_best budget (hl.later hp₁)
    fun p' hp' => hlg p' (Twins.le_trans hp₁ hp')).bind
  rintro q q' _ - ⟨p₂, hp₂, rfl, hq⟩
  exact computes_join (ShapedAny.later ho hp₂.nextVariable) hq

/-- A guess leaves twins behind. -/
private theorem guessed_of_shaped {budget : Budget} {patience : Nat}
    {r : Except Failure (Option Skeleton)} (ht : Held Γ e x t p)
    (h : Computes (guess R budget t patience) p.left r (ShapedAny e)) :
    Computes (guess R budget t patience) p.left r (Guessed e p) := by
  apply (h.and_alike (records_guess (.of_pure R p) budget t patience ht.recorded)).imp
  rintro o o' _ - ⟨ho, p', hp, rfl, -⟩
  exact ⟨p', hp, rfl, ho⟩

/-- A guess computes the guess at the skeleton: the engine takes a term apart all the way down. -/
private theorem computes_guess (budget : Budget) (depth : Nat) {patience : Nat}
    (hdepth : t.size ≤ depth) (ht : Held Γ e x t p) :
    Computes (guess R budget t patience) p.left (x.guess budget depth) (ShapedAny e) := by
  induction depth generalizing x t p patience with
  | zero => exact absurd hdepth (Nat.not_le_of_lt (size_pos t))
  | succ depth ih =>
    obtain ⟨hΓ, ⟨hplain, rfl⟩, hfits, hrec⟩ := id ht
    cases t with
    | app n h as =>
      have quiet : R.quiet h = true := by
        rw [Rules.quiet, hfits.2.1.hookless, Bool.or_true]
      rw [guess_app, skeleton, Skeleton.guess]
      apply (computes_split ht).traced.bind
      rintro ⟨y, z⟩ ⟨front, last⟩ _ - ⟨⟨p₁, hp₁, rfl, hf, hl⟩, hsplit⟩
      obtain ⟨hfs, hls⟩ := size_split (n := n) quiet hsplit
      dsimp only
      rw [if_pos (by rw [Rules.goesOn, quiet, Bool.or_true])]
      exact computes_halves budget hf hl
        (fun p' hp' => guessed_of_shaped (hf.later hp') (ih (by omega) (hf.later hp')))
        (fun p' hp' => guessed_of_shaped (hl.later hp') (ih (by omega) (hl.later hp')))
    | foreign y => exact hplain.elim
    | named info d => exact hplain.1.elim
    | _ =>
      unfold guess Skeleton.guess
      exact .pure .none

/-- What the outcome of a search for a canonical form tells, as the skeleton has it. -/
inductive Describes (e : Places) (s : Store) : Skeleton.Finding → Canonicalization → Prop where
  | found {y : Skeleton} {k n : Nat} {form : CanonicalForm} (h : Outlines e k y form s) :
      Describes e s (.found y k n) (.found form n)
  | notFound {o : Option Skeleton} {o' : Option Term} {n : Nat} (h : ShapedAny e o o' s) :
      Describes e s (.notFound o n) (.notFound o' n)

/-- A search for the canonical form computes that of the skeleton. -/
theorem computes_canonicalize (budget : Budget) {depth : Nat}
    (hdepth : t.size ≤ depth) (ht : Held Γ e x t p) :
    Computes (canonicalize R budget t false) p.left (x.canonicalize budget depth)
      fun f c s' => Describes e s' f c := by
  unfold canonicalize Skeleton.canonicalize
  apply (computes_search budget ht).bind
  rintro ⟨r, n⟩ ⟨o, m⟩ _ - ⟨p₁, hp, rfl, hform, rfl⟩
  cases hform with
  | some h => exact .pure (.found h)
  | none =>
    dsimp only
    rw [if_neg Bool.false_ne_true]
    apply (computes_guess budget depth hdepth (ht.later hp)).bind
    intro o o' s₂ _ ho
    exact .pure (.notFound ho)

end Term

end Combinatory
