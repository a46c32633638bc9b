import Combinatory.Canonical
import Combinatory.Proofs.Meaning.Reduction

/-!
# Canonical forms keep the meaning

A term that was fed probes is the application to them, so its abstraction over the probes is what it
was before, by one eta step for each probe (`Fed.probe`). A run in between changes nothing. This
holds at every moment of the search, and so of what it closes over the probes. A guess puts the
canonical forms of both halves of an application together, at any depth.
-/

namespace Combinatory

open LambdaTerm (Converts)
open Engine (Ensures)

variable {η : Prop} {Γ : Scope} {s : Store}

/-- Where a search stands: the term was fed probes that have been minted, and its abstraction over
them still converts to a lambda term. -/
structure Fed (η : Prop) (Γ : Scope) (s : Store) (ps : List Variable) (t : Term)
    (T : LambdaTerm) : Prop where
  scope : Γ.Sealed s
  probes : ∀ p ∈ ps, s.Minted p
  fits : t.Fits (Γ.bindAll ps) s
  converts : Converts η (t.reading.absAll ps) T

namespace Fed

variable {ps : List Variable} {t : Term} {T : LambdaTerm}

/-- At first there are no probes. -/
theorem start (hΓ : Γ.Sealed s) (ht : Means η Γ s t T) : Fed η Γ s [] t T :=
  ⟨hΓ, List.forall_mem_nil _, ht.fits, ht.converts⟩

/-- The scope of a term that was fed probes. -/
theorem below (h : Fed η Γ s ps t T) : (Γ.bindAll ps).Sealed s := h.scope.bindAll h.probes

theorem means (h : Fed η Γ s ps t T) : Means η (Γ.bindAll ps) s t t.reading := .self h.fits

/-- A term may be exchanged for one that means the same. -/
theorem exchange (h : Fed η Γ s ps t T) {s' : Store} (hs : s ≤ s') {u : Term}
    (hu : Means η (Γ.bindAll ps) s' u t.reading) : Fed η Γ s' ps u T where
  scope := h.scope.later hs
  probes p hp := (h.probes p hp).mono hs
  fits := hu.fits
  converts := (hu.converts.absAll ps).trans h.converts

/-- One more probe is fed to a term. -/
theorem probe (hη : η) (h : Fed η Γ s ps t T) {s' : Store} (hs : s ≤ s') {p : Variable}
    (hfresh : ¬ s.Minted p) (hp : s'.Minted p) {u : Term}
    (hu : Means η (Γ.bindAll (ps ++ [p])) s' u (t.reading.apps [.free p])) :
    Fed η Γ s' (ps ++ [p]) u T where
  scope := h.scope.later hs
  probes := by
    intro q hq
    rcases List.mem_append.mp hq with hq | hq
    · exact (h.probes q hq).mono hs
    · rw [List.mem_singleton.mp hq]
      exact hp
  fits := hu.fits
  converts := by
    have absent : ¬ t.reading.Mentions p := fun hm =>
      hfresh (h.below.minted.visible p (h.fits.visible (Term.occurs_of_mentions hm)))
    rw [LambdaTerm.absAll_append]
    refine Converts.trans (Converts.absAll ?_ ps) h.converts
    exact (hu.converts.abs p).trans (.abs_app_free hη absent)

end Fed

namespace Term

/-- What is counted are the symbols. -/
theorem ensures_counted (t : Term) (s : Store) :
    Ensures (counted t) s fun symbols _ => symbols = t.symbols := by
  unfold counted
  split
  · exact .throw
  · exact .pure rfl

/-- What is closed over the probes means what was fed them. -/
private theorem ensures_closeProbes (R : Rules) {ps : List Variable} {t : Term} {T : LambdaTerm}
    (h : Fed η Γ s ps t T) :
    Ensures (closeProbes R ps t) s fun form s' => Means η Γ s' form.term T := by
  unfold closeProbes
  apply (ensures_counted t s).bind
  intro symbols s₁ hs _
  have seen := (Scope.Below.refl Γ).bindAll_seeAll ps
  apply (ensures_abstractAll R ps (h.scope.minted.later hs)
    (fun p hp => (h.probes p hp).mono hs) ((h.means (η := η).later hs).mono seen)).bind
  intro u s₂ _ hu
  exact .pure (hu.trans h.converts)

/-- A search that finds something finds what means the term. -/
private theorem ensures_searchFrom (R : Rules) (hη : η) (maxSteps : Amount) (left : Nat) {t : Term}
    {T : LambdaTerm} {ps : List Variable} (spent : Nat) (h : Fed η Γ s ps t T) :
    Ensures (searchFrom R maxSteps t ps spent left) s fun p s' =>
      ∀ form, p.1 = some form → Means η Γ s' form.term T := by
  induction left generalizing s t ps spent with
  | zero =>
    unfold searchFrom
    exact .pure fun _ hf => nomatch hf
  | succ left ih =>
    unfold searchFrom
    apply (ensures_run R maxSteps false h.below (h.means (η := η)) .nil).bind
    intro out s₁ hs₁ hout
    have ran : Fed η Γ s₁ ps out.term T := h.exchange hs₁ hout
    split
    · exact .pure fun _ hf => nomatch hf
    · split
      · apply (ensures_closeProbes R ran).bind
        intro form s₂ _ hform
        refine .pure ?_
        rintro _ ⟨⟩
        exact hform
      · apply (Engine.ensures_freshVariable _ s₁).bind
        intro p s₂ hs₂ ⟨hfresh, hp⟩
        have head : Means η (Γ.bindAll (ps ++ [p])) s₂ out.term out.term.reading := by
          rw [Scope.bindAll_append]
          exact .self ((ran.fits.bind_fresh hfresh).later hs₂)
        have arg : Means η (Γ.bindAll (ps ++ [p])) s₂ (var p) (.free p) := by
          rw [Scope.bindAll_append]
          exact .self (Set.mem_insert p _)
        apply (ensures_apply R head (.cons arg .nil)).bind
        intro u s₃ hs₃ hu
        exact ih _ (ran.probe hη (Store.le_trans hs₂ hs₃) hfresh (hp.mono hs₃) hu)

/-- A search that finds something finds what means the term. -/
theorem ensures_search (R : Rules) (hη : η) (budget : Budget) (hΓ : Γ.Sealed s) {t : Term}
    {T : LambdaTerm} (ht : Means η Γ s t T) :
    Ensures (search R budget t) s fun p s' =>
      ∀ form, p.1 = some form → Means η Γ s' form.term T := by
  unfold search
  apply (Engine.ensures_whole budget.args s).bind
  intro args s₁ hs _
  exact ensures_searchFrom R hη budget.steps _ 0 (.start (hΓ.later hs) (ht.later hs))

/-- The canonical form or the guess means the term, if the guess does. -/
private theorem ensures_best (R : Rules) (hη : η) (budget : Budget) (hΓ : Γ.Sealed s) {t : Term}
    {T : LambdaTerm} (ht : Means η Γ s t T) {guess : Engine (Option Term)}
    (hguess : ∀ s', s ≤ s' → Ensures guess s' fun o s'' => ∀ u, o = some u → Means η Γ s'' u T) :
    Ensures (best R budget t guess) s fun o s' => ∀ u, o = some u → Means η Γ s' u T := by
  unfold best
  apply (ensures_search R hη budget hΓ ht).bind
  intro p s₁ hs hp
  split
  · next form _ =>
    refine .pure ?_
    rintro _ ⟨⟩
    exact hp form rfl
  · exact hguess s₁ hs

/-- Of the two halves of an application, one applied to the other means the application. -/
theorem ensures_split (R : Rules) {n : Nat} {h : Term} {as : List Term}
    (ht : (app n h as).Fits Γ s) :
    Ensures (split R h as) s fun p s' => p.1.Fits Γ s' ∧ p.2.Fits Γ s' ∧
      Converts η (.app p.1.reading p.2.reading) (app n h as).reading := by
  obtain ⟨hne, hh, has⟩ := ht
  unfold split
  split
  · next last hlast =>
    obtain ⟨bs, rfl⟩ := List.getLast?_eq_some_iff.mp hlast
    obtain ⟨hbs, hl, -⟩ := fitsAll_append.mp has
    rw [List.dropLast_concat]
    apply (ensures_apply (η := η) R (.self hh) (.self hbs)).bind
    intro front s₁ hs hfront
    refine .pure ⟨hfront.fits, hl.later hs, ?_⟩
    have whole : (app n h (bs ++ [last])).reading =
        .app (h.reading.apps (readings bs)) last.reading := by
      rw [reading, readings_append, LambdaTerm.apps_append]
      rfl
    rw [whole]
    exact hfront.converts.app (.refl _)
  · next hnone => exact absurd (List.getLast?_eq_none_iff.mp hnone) hne

/-- Both halves of an application put together again mean it. -/
private theorem ensures_join (R : Rules) {front last : Option Term} {F A : LambdaTerm}
    (hf : ∀ u, front = some u → Means η Γ s u F) (ha : ∀ u, last = some u → Means η Γ s u A) :
    Ensures (join R front last) s fun o s' => ∀ u, o = some u → Means η Γ s' u (.app F A) := by
  unfold join
  split
  · next f a =>
    apply (ensures_apply R (hf f rfl) (.cons (ha a rfl) .nil)).bind
    intro u s₁ _ hu
    refine .pure ?_
    rintro _ ⟨⟩
    exact hu
  · refine .pure ?_
    rintro _ ⟨⟩

/-- What may come of a guess at a term: a term that means it, or nothing. -/
def Guesses (η : Prop) (Γ : Scope) (t : Term) (x : Engine (Option Term)) (s : Store) : Prop :=
  ∀ s', s ≤ s' → Ensures x s' fun o s'' => ∀ u, o = some u → Means η Γ s'' u t.reading

/-- The canonical forms of both halves put together mean the one applied to the other. -/
private theorem ensures_halves (R : Rules) (hη : η) (budget : Budget) (hΓ : Γ.Sealed s)
    {front last : Term} (hf : front.Fits Γ s) (ha : last.Fits Γ s)
    {x y : Engine (Option Term)} (hx : Guesses η Γ front x s) (hy : Guesses η Γ last y s) :
    Ensures (do
      let f ← best R budget front x
      let a ← best R budget last y
      join R f a) s fun o s' =>
        ∀ u, o = some u → Means η Γ s' u (.app front.reading last.reading) := by
  apply (ensures_best R hη budget hΓ (.self hf) hx).bind
  intro f s₁ hs₁ hf
  apply (ensures_best R hη budget (hΓ.later hs₁) (.self (ha.later hs₁))
    fun s' hs' => hy s' (Store.le_trans hs₁ hs')).bind
  intro a s₂ hs₂ ha
  exact ensures_join R (fun u hu => (hf u hu).later hs₂) ha

/-- A guess means the term. -/
theorem ensures_guess (R : Rules) (hη : η) (budget : Budget) (t : Term) (patience : Nat)
    {s : Store} (hΓ : Γ.Sealed s) (ht : t.Fits Γ s) :
    Ensures (guess R budget t patience) s fun o s' =>
      ∀ u, o = some u → Means η Γ s' u t.reading := by
  match t with
  | app n h as =>
    rw [guess_app]
    apply (ensures_split (η := η) R ht).traced.bind
    rintro ⟨front, last⟩ s₁ hs ⟨⟨hf, ha, hwhole⟩, hsplit⟩
    have hΓ := hΓ.later hs
    dsimp only
    by_cases hg : R.goesOn patience h = true
    · rw [if_pos hg]
      apply (ensures_halves R hη budget hΓ hf ha
        (fun s₂ hs₂ => ensures_guess R hη budget front (patience - 1) (hΓ.later hs₂)
          (hf.later hs₂))
        (fun s₂ hs₂ => ensures_guess R hη budget last (patience - 1) (hΓ.later hs₂)
          (ha.later hs₂))).imp
      exact fun o s' _ ho u hu => (ho u hu).trans hwhole
    · rw [if_neg hg]
      exact .throw
  | var _ | native _ | foreign _ | named _ _ | lam _ _ =>
    unfold guess
    refine .pure ?_
    intro u hu
    cases hu
termination_by (patience, t.size)
decreasing_by
  · exact Rules.goesOn_lt hg fun hq => (size_split hq hsplit).1
  · exact Rules.goesOn_lt hg fun hq => (size_split hq hsplit).2

/-- What a search for the canonical form ends with means the term: the form, or else the guess. -/
theorem ensures_canonicalize (R : Rules) (hη : η) (budget : Budget) (strict : Bool)
    (hΓ : Γ.Sealed s) {t : Term} (ht : t.Fits Γ s) :
    Ensures (canonicalize R budget t strict) s fun c s' =>
      ∀ u, c.canonical = some u → Means η Γ s' u t.reading := by
  unfold canonicalize
  apply (ensures_search (η := η) R hη budget hΓ (.self ht)).bind
  intro p s₁ hs hp
  split
  · next form steps =>
    refine .pure ?_
    rintro _ ⟨⟩
    exact hp form rfl
  · next steps =>
    split
    · exact .throw_bind
    · apply (ensures_guess (η := η) R hη budget t patience (hΓ.later hs) (ht.later hs)).bind
      intro o s₂ _ ho
      exact .pure ho

end Term

end Combinatory
